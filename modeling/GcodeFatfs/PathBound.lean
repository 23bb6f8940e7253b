import GcodeFatfs.Listing

/-! The bound of the path buffer of `cmd_tree`. The index written is the length of
the path of the directory at hand, so the stores stay inside the buffer exactly
for the trees in which each of these paths fits; in any other the walk comes to
the first directory that does not fit and goes past the end there. -/

namespace GcodeFatfs.PathBound
open GcodeFatfs.Interact GcodeFatfs.DirTree GcodeFatfs.CString GcodeFatfs.Board
open GcodeFatfs.FatCommands GcodeFatfs.Volume GcodeFatfs.Listing

/-! ## A name that does not fit -/

theorem strcpyAt_overruns (path s : List Char) (i : ℕ) (h : path.length ≤ i + s.length) :
    strcpyAt path i s = .fail .bounds := by
  induction s generalizing path i with
  | nil => exact if_neg (by simpa using h)
  | cons c s ih =>
    rw [strcpyAt]
    by_cases hi : i < path.length
    · rw [store_eq hi, ret_bind]
      apply ih
      rw [List.length_set]
      simp only [List.length_cons] at h
      omega
    · rw [store, if_neg hi, fail_bind]

variable {root es rest kids : Entries Entry} {faults : ℕ → FResult} {size d : ℕ}
variable {names : List (List Char)} {s : Card} {path : List Char} {a : Entry}

/-- The branch for a directory stops in the copy of its name. -/
theorem dirTurn_overruns (fuel : ℕ) (hpath : Holds size path (pathOf names))
    (hfit : ¬ (pathOf (names ++ [a.name])).length < size) :
    dirTurn fuel d (pathOf names).length a.name path = .fail .bounds := by
  obtain ⟨hlen, rest, rfl⟩ := hpath
  rw [pathOf_concat] at hfit
  simp only [List.length_append, List.length_cons] at hlen hfit
  unfold dirTurn
  rw [store_eq (by simp), ret_bind, strcpyAt_overruns, fail_bind]
  rw [List.length_set]
  simp only [List.length_append, List.length_cons]
  omega

/-! ## A tree that does not fit -/

/-- On the entries `es`, with a directory below that does not fit, the loop goes
past the end of the buffer. -/
def LoopOverruns (root : Entries Entry) (faults : ℕ → FResult) (size : ℕ) (es : Entries Entry) :
    Prop :=
  ∀ fuel d names path s all, openPath root (pathOf names) = some all → all.EndOf Entry.name es →
    es.Distinct Entry.name → ¬ Fits size names es → nul ∉ pathOf names →
    Holds size path (pathOf names) → s.dirs d = es → turns es ≤ fuel →
    ∃ tr s', exec (volume root faults) (scanLoop fuel d (pathOf names).length path) s =
      (tr, .error .bounds, s')

/-- A directory with one below that does not fit is opened and read. -/
theorem scanFiles_overruns (h : LoopOverruns root faults size es) (hok : ∀ n, faults n = .ok)
    (fuel : ℕ) (hopen : openPath root (pathOf names) = some es) (hdistinct : es.Distinct Entry.name)
    (hfits : ¬ Fits size names es) (hnul : nul ∉ pathOf names) (hpath : Holds size path (pathOf names))
    (hfuel : turns es + 1 ≤ fuel) :
    ∃ tr s', exec (volume root faults) (scanFiles fuel d path) s = (tr, .error .bounds, s') := by
  obtain ⟨fuel, rfl⟩ : ∃ f, fuel = f + 1 := ⟨fuel - 1, by omega⟩
  obtain ⟨tr, s', hexec⟩ := h fuel d names path ⟨s.calls + 1, Function.update s.dirs d es⟩ es hopen
    (endOf_self es) hdistinct hfits hnul hpath (by simp) (by omega)
  rw [exec_scanFiles_open fuel (hok _) hopen (holds_cstr hpath hnul), hexec]
  exact ⟨_, s', rfl⟩

theorem loopOverruns_file (hok : ∀ n, faults n = .ok) (h : LoopOverruns root faults size rest) :
    LoopOverruns root faults size (.file a rest) := by
  intro fuel d names path s all hopen hend hdistinct hfits hnul hpath hdir hfuel
  obtain ⟨fuel, rfl⟩ : ∃ f, fuel = f + 1 := ⟨fuel - 1, by simp [turns] at hfuel; omega⟩
  obtain ⟨tr, s', hexec⟩ := h fuel d names path ⟨s.calls + 1, Function.update s.dirs d rest⟩ all
    hopen (endOf_file hend hdistinct) hdistinct.2 hfits hnul hpath (by simp)
    (by simpa [turns] using hfuel)
  exact ⟨_, s', exec_scanLoop_file fuel _ (hok _) hdir (holds_cstr hpath hnul) hexec⟩

/-- The directory itself does not fit, or one below it, or one behind it. -/
theorem loopOverruns_dir (hok : ∀ n, faults n = .ok) (hkids : LoopOverruns root faults size kids)
    (hrest : LoopOverruns root faults size rest) :
    LoopOverruns root faults size (.dir a kids rest) := by
  intro fuel d names path s all hopen hend hdistinct hfits hnul hpath hdir hfuel
  obtain ⟨fuel, rfl⟩ : ∃ f, fuel = f + 1 := ⟨fuel - 1, by simp [turns] at hfuel; omega⟩
  by_cases hfit : (pathOf (names ++ [a.name])).length < size
  · obtain ⟨hnew, hdkids, hdrest⟩ := hdistinct
    have hopen' := openPath_dir hopen hend
    have hnul' := nul_notMem_concat hnul a
    obtain ⟨path₁, path₂, hstore, hstrcpy, hheld⟩ := holds_extend hpath hfit
    by_cases hfkids : Fits size (names ++ [a.name]) kids
    · -- the subdirectory is read to its end, and the path cut back
      have hfrest : ¬ Fits size names rest := fun hfrest => hfits ⟨hfit, hfkids, hfrest⟩
      obtain ⟨tr₁, code, path₃, s₂, hexec₁, hout⟩ := filesScans_of_loop
        (loopScans root faults size kids) fuel (d + 1) (names ++ [a.name]) path₂
        ⟨s.calls + 1, Function.update s.dirs d rest⟩ hopen' hdkids hfkids hnul' hheld
        (by simp [turns] at hfuel; omega)
      have hcode : code = .ok := by
        rw [hout.result, cut_all fun _ _ => hok _]
      obtain ⟨path₄, hstore₄, hheld₄⟩ := holds_restore (hout.held hcode)
      have hdir₂ : s₂.dirs d = rest := by
        rw [hout.dirs hcode d (by omega)]
        simp
      obtain ⟨tr₂, s', hexec₂⟩ := hrest fuel d names path₄ s₂ all hopen
        (endOf_dir hend ⟨hnew, hdkids, hdrest⟩) hdrest hfrest hnul hheld₄ hdir₂
        (by simp [turns] at hfuel; omega)
      rw [exec_scanLoop_dir fuel _ (hok _) hdir hstore hstrcpy (holds_cstr hheld hnul') hexec₁,
        if_neg (by simp [hcode]), hstore₄, ret_bind, hexec₂]
      exact ⟨_, s', rfl⟩
    · obtain ⟨tr, s', hexec⟩ := scanFiles_overruns hkids hok fuel hopen' hdkids hfkids hnul' hheld
        (by simp [turns] at hfuel; omega)
      rw [exec_scanLoop_dirTurn fuel _ (hok _) hdir]
      unfold dirTurn
      simp only [chprintf, call_bind, ret_bind, hstore, hstrcpy]
      rw [exec_chprintf, exec_bind_error hexec]
      exact ⟨_, s', rfl⟩
  · rw [exec_scanLoop_dirTurn fuel _ (hok _) hdir, dirTurn_overruns fuel hpath hfit]
    exact ⟨_, _, rfl⟩

theorem loopOverruns (root : Entries Entry) (hok : ∀ n, faults n = .ok) (size : ℕ)
    (es : Entries Entry) : LoopOverruns root faults size es := by
  induction es with
  | nil =>
    intro fuel d names path s all hopen hend hdistinct hfits
    exact absurd trivial hfits
  | file a rest ih => exact loopOverruns_file hok ih
  | dir a kids rest ihKids ihRest => exact loopOverruns_dir hok ihKids ihRest

/-! ## `cmd_tree` -/

theorem holds_zeroed : Holds fbuffSize (List.replicate fbuffSize nul) (pathOf []) :=
  ⟨List.length_replicate, List.replicate 1023 nul, rfl⟩

/-- A tree that fits is read without a stop, whichever calls fail. -/
theorem cmdTree_in_bounds (root : Entries Entry) (faults : ℕ → FResult) (fuel : ℕ)
    (hdistinct : root.Distinct Entry.name) (hfits : Fits fbuffSize [] root)
    (hfuel : turns root < fuel) :
    (exec (volume root faults) (cmdTree fuel) {}).2.1 = .ok () := by
  obtain ⟨tr, code, path, s', hexec, -⟩ := filesScans_of_loop (loopScans root faults fbuffSize root)
    fuel 0 [] _ {} rfl hdistinct hfits (by simp [pathOf]) holds_zeroed hfuel
  rw [cmdTree, exec_bind hexec]
  rfl

/-- A tree that does not fit is read past the end of the buffer, if no call fails. -/
theorem cmdTree_overruns (root : Entries Entry) (hok : ∀ n, faults n = .ok) (fuel : ℕ)
    (hdistinct : root.Distinct Entry.name) (hfits : ¬ Fits fbuffSize [] root)
    (hfuel : turns root < fuel) :
    (exec (volume root faults) (cmdTree fuel) {}).2.1 = .error .bounds := by
  obtain ⟨tr, s', hexec⟩ := scanFiles_overruns (loopOverruns root hok fbuffSize root) hok fuel
    (d := 0) (s := {}) rfl hdistinct hfits (by simp [pathOf]) holds_zeroed hfuel
  rw [cmdTree, exec_bind_error hexec]

/-- **Path buffer.** Whichever calls fail, no store of `cmd_tree` goes past the
end of `fbuff`, exactly when the path of every directory and its NUL fit. -/
theorem in_bounds_iff (root : Entries Entry) (fuel : ℕ) (hdistinct : root.Distinct Entry.name)
    (hfuel : turns root < fuel) :
    (∀ faults, (exec (volume root faults) (cmdTree fuel) {}).2.1 ≠ .error .bounds) ↔
      Fits fbuffSize [] root := by
  constructor
  · intro hbound
    by_contra hfits
    exact hbound _ (cmdTree_overruns root (fun _ => rfl) fuel hdistinct hfits hfuel)
  · intro hfits faults
    rw [cmdTree_in_bounds root faults fuel hdistinct hfits hfuel]
    simp

theorem in_bounds_iff_smallVolume :
    (∀ faults, (exec (volume smallVolume faults) (cmdTree 10) {}).2.1 ≠ .error .bounds) ↔
      Fits fbuffSize [] smallVolume :=
  in_bounds_iff smallVolume 10 (by simp [smallVolume, Entries.Distinct, Entries.keys]) (by decide)

/-! ## Names of eight and three characters -/

/-- The levels of directories. -/
def depth : Entries Entry → ℕ
  | .nil => 0
  | .file _ rest => depth rest
  | .dir _ kids rest => max (depth kids + 1) (depth rest)

/-- No directory has a name of more than `n` characters. -/
def NamesUpTo (n : ℕ) : Entries Entry → Prop
  | .nil => True
  | .file _ rest => NamesUpTo n rest
  | .dir a kids rest => a.name.length ≤ n ∧ NamesUpTo n kids ∧ NamesUpTo n rest

theorem length_pathOf_concat (names : List (List Char)) (name : List Char) :
    (pathOf (names ++ [name])).length = (pathOf names).length + name.length + 1 := by
  rw [pathOf_concat, List.length_append, List.length_cons]
  omega

theorem fits_of_depth {n : ℕ} (es : Entries Entry) (names : List (List Char))
    (hnames : NamesUpTo n es) (hdepth : (pathOf names).length + (n + 1) * depth es < size) :
    Fits size names es := by
  induction es generalizing names with
  | nil => trivial
  | file a rest ih => exact ih names hnames hdepth
  | dir a kids rest ihKids ihRest =>
    obtain ⟨hname, hkids, hrest⟩ := hnames
    have hlength := length_pathOf_concat names a.name
    have hdeep : (n + 1) * (depth kids + 1) ≤ (n + 1) * depth (.dir a kids rest) :=
      Nat.mul_le_mul_left _ (Nat.le_max_left _ _)
    have hwide : (n + 1) * depth rest ≤ (n + 1) * depth (.dir a kids rest) :=
      Nat.mul_le_mul_left _ (Nat.le_max_right _ _)
    rw [Nat.mul_add, Nat.mul_one] at hdeep
    refine ⟨by omega, ihKids _ hkids (by omega), ihRest _ hrest (by omega)⟩

/-- With 8.3 names 78 levels of directories always fit. -/
theorem fits_78_levels (root : Entries Entry) (hnames : NamesUpTo 12 root) (hdepth : depth root ≤ 78) :
    Fits fbuffSize [] root := by
  apply fits_of_depth root [] hnames
  show 0 + 13 * depth root < 1024
  omega

def longName : Entry :=
  ⟨"ABCDEFGH.IJK".toList, 0, 0, 0, by decide, by decide, by decide, by decide⟩

/-- Directories one in another, all of the longest 8.3 name. -/
def nested : ℕ → Entries Entry
  | 0 => .nil
  | n + 1 => .dir longName (nested n) .nil

theorem nested_distinct (n : ℕ) : (nested n).Distinct Entry.name := by
  induction n with
  | zero => trivial
  | succ n ih => exact ⟨by simp [Entries.keys], ih, trivial⟩

theorem turns_nested (n : ℕ) : turns (nested n) = 3 * n + 1 := by
  induction n with
  | zero => rfl
  | succ n ih =>
    show turns (nested n) + 1 + 2 = _
    omega

theorem nested_fits {n : ℕ} {names : List (List Char)} (h : Fits size names (nested (n + 1))) :
    (pathOf names).length + 13 * (n + 1) < size := by
  induction n generalizing names with
  | zero =>
    have hfit := h.1
    rw [length_pathOf_concat] at hfit
    exact hfit
  | succ n ih =>
    have hfit := ih h.2.1
    rw [length_pathOf_concat] at hfit
    have hname : longName.name.length = 12 := rfl
    omega

/-- 79 levels of the longest 8.3 names go past the end of the buffer. -/
theorem nested_79_overruns :
    (nested 79).Distinct Entry.name ∧ NamesUpTo 12 (nested 79) ∧
      (exec (volume (nested 79) fun _ => .ok) (cmdTree 300) {}).2.1 = .error .bounds := by
  have hnames (n : ℕ) : NamesUpTo 12 (nested n) := by
    induction n with
    | zero => trivial
    | succ n ih => exact ⟨by decide, ih, trivial⟩
  have hfits : ¬ Fits fbuffSize [] (nested 79) := by
    intro h
    have hlt := nested_fits (n := 78) h
    exact absurd hlt (by decide)
  refine ⟨nested_distinct 79, hnames 79, ?_⟩
  exact cmdTree_overruns (nested 79) (fun _ => rfl) 300 (nested_distinct 79) hfits
    (by rw [turns_nested]; decide)

end GcodeFatfs.PathBound
