import GcodeFatfs.Volume

/-! `scan_files` on a volume. Without faults it makes the calls and prints of a
walk over the tree, which prints the pre-order listing; the first call that
fails cuts the walk off. The path buffer holds the path of the directory being
read at each depth, and is back to it after each of its directories. -/

namespace GcodeFatfs.Listing
open GcodeFatfs.Interact GcodeFatfs.DirTree GcodeFatfs.CString GcodeFatfs.Board
open GcodeFatfs.FatCommands GcodeFatfs.Volume

/-! ## The listing -/

/-- The two prints about an entry of the directory under `names`. -/
def entryMsgs (names : List (List Char)) (a : Entry) (isDir : Bool) : List Msg :=
  [⟨"%4d-%02d-%02d %02d:%02d:%02d ", dateArgs (a.info isDir)⟩,
    if isDir then ⟨"<DIR> %s/\r\n", [.str (pathOf (names ++ [a.name]))]⟩
    else ⟨"      %s/%s\r\n", [.str (pathOf names), .str a.name]⟩]

/-- The pre-order listing of all entries with their full paths. -/
def listing (root : Entries Entry) : List Msg :=
  (root.preorder Entry.name []).flatMap fun (names, a, isDir) => entryMsgs names a isDir

/-- The calls and prints about the entries left in a directory, which is open in
the `DIR` object `d`. -/
def walk : (d : ℕ) → (names : List (List Char)) → Entries Entry → List Op
  | d, _, .nil => [.fReaddir d]
  | d, names, .file a rest =>
    .fReaddir d :: (entryMsgs names a false).map .chprintf ++ walk d names rest
  | d, names, .dir a kids rest =>
    .fReaddir d :: (entryMsgs names a true).map .chprintf ++
      .fOpendir (d + 1) (pathOf (names ++ [a.name])) :: walk (d + 1) (names ++ [a.name]) kids ++
      walk d names rest

/-- The calls and prints about a directory from its `f_opendir` on. -/
def visit (d : ℕ) (names : List (List Char)) (t : Entries Entry) : List Op :=
  .fOpendir d (pathOf names) :: walk d names t

def isCall : Op → Bool
  | .fOpendir _ _ | .fReaddir _ => true
  | _ => false

def prints (ops : List Op) : List Msg :=
  ops.filterMap fun op => match op with
    | .chprintf m => some m
    | _ => none

/-- What is printed when a call fails. -/
def report : Op → List Op
  | .fOpendir _ _ => [.chprintf ⟨"FS: f_opendir() failed\r\n", []⟩]
  | _ => []

/-- The walk up to its first failing call, with the code of that call; `n` calls
were made before. -/
def cut (faults : ℕ → FResult) : (n : ℕ) → List Op → List Op × FResult
  | _, [] => ([], .ok)
  | n, op :: ops =>
    if isCall op then
      if faults n = .ok then (op :: (cut faults (n + 1) ops).1, (cut faults (n + 1) ops).2)
      else (op :: report op, faults n)
    else (op :: (cut faults n ops).1, (cut faults n ops).2)

variable {faults : ℕ → FResult} {n : ℕ} {ops ops' : List Op}

theorem prints_append : prints (ops ++ ops') = prints ops ++ prints ops' :=
  List.filterMap_append

theorem prints_map (ms : List Msg) : prints (ms.map .chprintf) = ms := by
  induction ms with
  | nil => rfl
  | cons m ms ih => exact congrArg (m :: ·) ih

/-- A walk prints the entries in pre-order. -/
theorem prints_walk (d : ℕ) (names : List (List Char)) (t : Entries Entry) :
    prints (walk d names t) =
      (t.preorder Entry.name names).flatMap fun (names, a, isDir) => entryMsgs names a isDir := by
  induction t generalizing d names with
  | nil => rfl
  | file a rest ih =>
    have hhead : prints (.fReaddir d :: (entryMsgs names a false).map .chprintf) =
        entryMsgs names a false := prints_map _
    rw [walk, prints_append, hhead, ih]
    rfl
  | dir a kids rest ihk ihr =>
    have hhead : prints (.fReaddir d :: (entryMsgs names a true).map .chprintf) =
        entryMsgs names a true := prints_map _
    have hkids : prints (.fOpendir (d + 1) (pathOf (names ++ [a.name])) ::
        walk (d + 1) (names ++ [a.name]) kids) = prints (walk (d + 1) (names ++ [a.name]) kids) :=
      rfl
    rw [walk, prints_append, prints_append, hhead, hkids, ihk, ihr]
    simp [Entries.preorder]

/-! ## Cutting a walk off -/

theorem cut_append : cut faults n (ops ++ ops') =
    if (cut faults n ops).2 = .ok then
      ((cut faults n ops).1 ++ (cut faults (n + ops.countP isCall) ops').1,
        (cut faults (n + ops.countP isCall) ops').2)
    else cut faults n ops := by
  induction ops generalizing n with
  | nil => simp [cut]
  | cons op ops ih =>
    simp only [List.cons_append, cut, ih]
    by_cases hcall : isCall op
    · by_cases hok : faults n = .ok
      · simp only [hcall, hok, if_true]
        have hcount : n + 1 + ops.countP isCall = n + (op :: ops).countP isCall := by
          rw [List.countP_cons_of_pos hcall]
          omega
        rw [hcount]
        split <;> rfl
      · simp [hcall, hok]
    · have hcount : (op :: ops).countP isCall = ops.countP isCall :=
        List.countP_cons_of_neg hcall
      simp only [hcall, Bool.false_eq_true, if_false, hcount]
      split <;> rfl

/-- A walk without a failing call is not cut off. -/
theorem cut_ok (h : (cut faults n ops).2 = .ok) : cut faults n ops = (ops, .ok) := by
  induction ops generalizing n with
  | nil => rfl
  | cons op ops ih =>
    unfold cut at h ⊢
    by_cases hcall : isCall op
    · by_cases hok : faults n = .ok
      · simp only [hcall, hok, if_true] at h ⊢
        rw [ih h]
      · simp only [hcall, hok, if_true, if_false] at h
    · simp only [hcall, Bool.false_eq_true, if_false] at h ⊢
      rw [ih h]

/-- A walk all of whose calls succeed. -/
theorem cut_all (h : ∀ k < ops.countP isCall, faults (n + k) = .ok) :
    cut faults n ops = (ops, .ok) := by
  induction ops generalizing n with
  | nil => rfl
  | cons op ops ih =>
    unfold cut
    by_cases hcall : isCall op
    · rw [List.countP_cons_of_pos hcall] at h
      have hrest := ih (n := n + 1) fun k hk => by
        rw [Nat.add_assoc, Nat.add_comm 1 k]
        exact h (k + 1) (by omega)
      have hfirst : faults n = .ok := h 0 (by omega)
      rw [if_pos hcall, if_pos hfirst, hrest]
    · rw [List.countP_cons_of_neg hcall] at h
      rw [if_neg hcall, ih h]

/-- A walk whose first failing call is `op`. -/
theorem cut_at {op : Op} (hcall : isCall op = true)
    (hbefore : ∀ k < ops.countP isCall, faults (n + k) = .ok)
    (hfail : faults (n + ops.countP isCall) ≠ .ok) :
    cut faults n (ops ++ op :: ops') =
      (ops ++ op :: report op, faults (n + ops.countP isCall)) := by
  rw [cut_append, cut_all hbefore, if_pos rfl]
  simp [cut, hcall, hfail]

theorem cut_prints (ms : List Msg) : cut faults n (ms.map .chprintf) = (ms.map .chprintf, .ok) := by
  induction ms with
  | nil => rfl
  | cons m ms ih => simp [cut, isCall, ih]

/-! ## The path buffer -/

/-- A buffer of `size` bytes that holds the string `p`. -/
def Holds (size : ℕ) (path p : List Char) : Prop :=
  path.length = size ∧ ∃ rest, path = p ++ nul :: rest

/-- The path of every directory below `names` fits a buffer of `size` bytes. -/
def Fits (size : ℕ) : (names : List (List Char)) → Entries Entry → Prop
  | _, .nil => True
  | names, .file _ rest => Fits size names rest
  | names, .dir a kids rest =>
    (pathOf (names ++ [a.name])).length < size ∧ Fits size (names ++ [a.name]) kids ∧
      Fits size names rest

theorem holds_cstr {size : ℕ} {path p : List Char} (h : Holds size path p) (hp : nul ∉ p) :
    cstr path = p := by
  obtain ⟨-, rest, rfl⟩ := h
  exact cstr_append_nul hp rest

theorem store_eq {path : List Char} {i : ℕ} (h : i < path.length) (c : Char) :
    store path i c = .ret (path.set i c) :=
  if_pos h

theorem strcpyAt_eq (pre rest s : List Char) (h : s.length < rest.length) :
    strcpyAt (pre ++ rest) pre.length s =
      .ret (pre ++ s ++ nul :: rest.drop (s.length + 1)) := by
  induction s generalizing pre rest with
  | nil =>
    cases rest with
    | nil => simp at h
    | cons r rest => simp [strcpyAt, store_eq]
  | cons c s ih =>
    cases rest with
    | nil => simp at h
    | cons r rest =>
      have hset : (pre ++ r :: rest).set pre.length c = (pre ++ [c]) ++ rest := by simp
      have hlen : pre.length + 1 = (pre ++ [c]).length := by simp
      rw [strcpyAt, store_eq (by simp), ret_bind, hset, hlen, ih _ _ (by simpa using h)]
      simp

/-- `path[i++] = '/'; strcpy(&path[i], fn);` puts a name behind the path. -/
theorem holds_extend {size : ℕ} {path name : List Char} {names : List (List Char)}
    (h : Holds size path (pathOf names)) (hfit : (pathOf (names ++ [name])).length < size) :
    ∃ path₁ path₂, store path (pathOf names).length '/' = .ret path₁ ∧
      strcpyAt path₁ ((pathOf names).length + 1) name = .ret path₂ ∧
      Holds size path₂ (pathOf (names ++ [name])) := by
  rw [pathOf_concat] at hfit ⊢
  generalize pathOf names = p at h hfit ⊢
  obtain ⟨hlen, rest, rfl⟩ := h
  simp only [List.length_append, List.length_cons] at hlen hfit
  have hset : (p ++ nul :: rest).set p.length '/' = (p ++ ['/']) ++ rest := by simp
  have hlen' : p.length + 1 = (p ++ ['/']).length := by simp
  refine ⟨_, p ++ ['/'] ++ name ++ nul :: rest.drop (name.length + 1), store_eq (by simp) _, ?_, ?_⟩
  · rw [hset, hlen', strcpyAt_eq _ _ _ (by omega)]
  · refine ⟨?_, rest.drop (name.length + 1), by simp⟩
    simp only [List.length_append, List.length_cons, List.length_drop, List.length_nil]
    omega

/-- `path[--i] = 0;` takes it away again. -/
theorem holds_restore {size : ℕ} {path name : List Char} {names : List (List Char)}
    (h : Holds size path (pathOf (names ++ [name]))) :
    ∃ path', store path (pathOf names).length nul = .ret path' ∧ Holds size path' (pathOf names) := by
  rw [pathOf_concat] at h
  generalize pathOf names = p at h ⊢
  obtain ⟨hlen, rest, rfl⟩ := h
  refine ⟨_, store_eq (by simp) _, ?_⟩
  have hset : (p ++ '/' :: name ++ nul :: rest).set p.length nul =
      p ++ nul :: (name ++ nul :: rest) := by simp
  rw [hset]
  refine ⟨?_, _, rfl⟩
  simp only [List.length_append, List.length_cons] at hlen ⊢
  omega

/-! ## What a scan comes to -/

/-- A scan started in `s` made `steps`, up to the first failing call, and left the
code of that call. Without one the path is back in the buffer and the `DIR`
objects of the callers are as they were. -/
structure Outcome (faults : ℕ → FResult) (size d : ℕ) (names : List (List Char)) (steps : List Op)
    (s : Card) (t : Trace) (code : FResult) (path : List Char) (s' : Card) : Prop where
  ops : t.map (·.op) = (cut faults s.calls steps).1
  result : code = (cut faults s.calls steps).2
  calls : code = .ok → s'.calls = s.calls + steps.countP isCall
  held : code = .ok → Holds size path (pathOf names)
  dirs : code = .ok → ∀ k < d, s'.dirs k = s.dirs k

variable {size d : ℕ} {names : List (List Char)} {steps pre : List Op} {s s₁ s' : Card}
variable {t t₁ : Trace} {code : FResult} {path path' : List Char} {root : Entries Entry}

/-- Steps in front in which no call fails. -/
theorem Outcome.after (h : Outcome faults size d names steps s₁ t code path s')
    (hpre : cut faults s.calls pre = (pre, .ok)) (ht : t₁.map (·.op) = pre)
    (hcalls : s₁.calls = s.calls + pre.countP isCall) (hdirs : ∀ k < d, s₁.dirs k = s.dirs k) :
    Outcome faults size d names (pre ++ steps) s (t₁ ++ t) code path s' := by
  constructor
  · rw [cut_append, hpre, if_pos rfl, ← hcalls, List.map_append, ht, h.ops]
  · rw [cut_append, hpre, if_pos rfl, ← hcalls, h.result]
  · intro hok
    rw [h.calls hok, hcalls, List.countP_append]
    omega
  · exact h.held
  · intro hok k hk
    rw [h.dirs hok k hk, hdirs k hk]

/-- Steps behind a failing call are not made. -/
theorem Outcome.stop {d' : ℕ} {names' : List (List Char)}
    (h : Outcome faults size d' names' pre s t code path s') (hcode : code ≠ .ok) :
    Outcome faults size d names (pre ++ steps) s t code path s' := by
  have hne : (cut faults s.calls pre).2 ≠ .ok := h.result ▸ hcode
  constructor
  · rw [cut_append, if_neg hne, h.ops]
  · rw [cut_append, if_neg hne, h.result]
  · exact fun hok => absurd hok hcode
  · exact fun hok => absurd hok hcode
  · exact fun hok => absurd hok hcode

/-- A first call that fails is the last. -/
theorem Outcome.failed {op : Op} (hcall : isCall op = true) (hfail : faults s.calls ≠ .ok)
    (ht : t.map (·.op) = op :: report op) :
    Outcome faults size d names (op :: steps) s t (faults s.calls) path s' := by
  constructor
  · simp [cut, hcall, hfail, ht]
  · simp [cut, hcall, hfail]
  · exact fun hok => absurd hok hfail
  · exact fun hok => absurd hok hfail
  · exact fun hok => absurd hok hfail

/-- The turns of the two loops and the recursion that a directory takes. -/
def turns : Entries Entry → ℕ
  | .nil => 1
  | .file _ rest => turns rest + 1
  | .dir _ kids rest => turns kids + turns rest + 2

/-- What `scan_files` and its loop are to do on the entries `t`. -/
def LoopScans (root : Entries Entry) (faults : ℕ → FResult) (size : ℕ) (t : Entries Entry) : Prop :=
  ∀ fuel d names path s all, openPath root (pathOf names) = some all →
    all.EndOf Entry.name t → t.Distinct Entry.name → Fits size names t → nul ∉ pathOf names →
    Holds size path (pathOf names) → s.dirs d = t → turns t ≤ fuel →
    ∃ tr code path' s', exec (volume root faults) (scanLoop fuel d (pathOf names).length path) s =
        (tr, .ok (code, path'), s') ∧
      Outcome faults size d names (walk d names t) s tr code path' s'

def FilesScans (root : Entries Entry) (faults : ℕ → FResult) (size : ℕ) (t : Entries Entry) : Prop :=
  ∀ fuel d names path s, openPath root (pathOf names) = some t → t.Distinct Entry.name →
    Fits size names t → nul ∉ pathOf names → Holds size path (pathOf names) → turns t + 1 ≤ fuel →
    ∃ tr code path' s', exec (volume root faults) (scanFiles fuel d path) s =
        (tr, .ok (code, path'), s') ∧
      Outcome faults size d names (visit d names t) s tr code path' s'

/-- A directory that can be opened is read. -/
theorem exec_scanFiles_open {es : Entries Entry} (fuel : ℕ) (hok : faults s.calls = .ok)
    (hopen : openPath root (pathOf names) = some es) (hpath : cstr path = pathOf names) :
    exec (volume root faults) (scanFiles (fuel + 1) d path) s =
      let r := exec (volume root faults) (scanLoop fuel d (pathOf names).length path)
        ⟨s.calls + 1, Function.update s.dirs d es⟩
      (⟨.fOpendir d (pathOf names), FResult.ok⟩ :: r.1, r.2) := by
  have hanswer : volume root faults s (.fOpendir d (pathOf names)) =
      (.ok, ⟨s.calls + 1, Function.update s.dirs d es⟩) := by
    simp [volume, hok, hopen]
  rw [scanFiles, hpath]
  simp only [fOpendir, chprintf, call_bind, ret_bind]
  rw [exec_call_of hanswer, if_pos rfl]

/-- The directory is opened, and its loop is run or the failure told. -/
theorem filesScans_of_loop {es : Entries Entry} (h : LoopScans root faults size es) :
    FilesScans root faults size es := by
  intro fuel d names path s hopen hdistinct hfits hnul hpath hfuel
  obtain ⟨fuel, rfl⟩ : ∃ f, fuel = f + 1 := ⟨fuel - 1, by omega⟩
  have hcstr := holds_cstr hpath hnul
  by_cases hok : faults s.calls = .ok
  · rw [exec_scanFiles_open fuel hok hopen hcstr]
    obtain ⟨tr, code, path', s', hexec, hout⟩ := h fuel d names path
      ⟨s.calls + 1, Function.update s.dirs d es⟩ es hopen (endOf_self es) hdistinct hfits hnul hpath
      (by simp) (by omega)
    rw [hexec]
    refine ⟨_, code, path', s', rfl, ?_⟩
    show Outcome faults size d names ([.fOpendir d (pathOf names)] ++ walk d names es) s
      ([⟨.fOpendir d (pathOf names), FResult.ok⟩] ++ tr) code path' s'
    refine Outcome.after hout ?_ rfl rfl ?_
    · simp [cut, isCall, hok]
    · intro k hk
      exact Function.update_of_ne (by omega) _ _
  · have hanswer : volume root faults s (.fOpendir d (pathOf names)) =
        (faults s.calls, ⟨s.calls + 1, s.dirs⟩) := by
      simp [volume, hok]
    rw [scanFiles, hcstr]
    simp only [fOpendir, chprintf, call_bind, ret_bind]
    rw [exec_call_of hanswer, if_neg hok]
    exact ⟨_, _, _, _, rfl, Outcome.failed rfl hok rfl⟩

/-! ## One turn of the loop -/

/-- The events of a turn that is given an entry and prints about it. -/
def entryTrace (d : ℕ) (names : List (List Char)) (a : Entry) (isDir : Bool) : Trace :=
  ⟨.fReaddir d, (FResult.ok, a.info isDir)⟩ ::
    (entryMsgs names a isDir).map fun m => ⟨.chprintf m, ()⟩

theorem exec_chprintf {α : Type} (m : Msg) (k : Unit → Shell α) (s : Card) :
    exec (volume root faults) (.call (.chprintf m) k) s =
      (⟨.chprintf m, ()⟩ :: (exec (volume root faults) (k ()) s).1,
        (exec (volume root faults) (k ()) s).2) :=
  rfl

theorem exec_scanLoop_fails (fuel i : ℕ) (hfail : faults s.calls ≠ .ok) :
    exec (volume root faults) (scanLoop (fuel + 1) d i path) s =
      ([⟨.fReaddir d, (faults s.calls, ⟨[], 0, 0, 0⟩)⟩], .ok (faults s.calls, path),
        ⟨s.calls + 1, s.dirs⟩) := by
  rw [scanLoop]
  simp only [fReaddir, call_bind, ret_bind]
  rw [exec_call_of (if_neg hfail), if_pos (.inl hfail)]
  rfl

theorem exec_scanLoop_end (fuel i : ℕ) (hok : faults s.calls = .ok) (hdir : s.dirs d = .nil) :
    exec (volume root faults) (scanLoop (fuel + 1) d i path) s =
      ([⟨.fReaddir d, (FResult.ok, ⟨[], 0, 0, 0⟩)⟩], .ok (.ok, path),
        ⟨s.calls + 1, Function.update s.dirs d .nil⟩) := by
  have hanswer : volume root faults s (.fReaddir d) =
      ((.ok, nextInfo .nil), ⟨s.calls + 1, Function.update s.dirs d .nil⟩) := by
    rw [volume_readdir d hok, hdir]
    rfl
  rw [scanLoop]
  simp only [fReaddir, call_bind, ret_bind]
  rw [exec_call_of hanswer, if_pos (.inr rfl)]
  rfl

/-- A file is printed and the loop goes on. -/
theorem exec_scanLoop_file {a : Entry} {rest : Entries Entry} (fuel i : ℕ)
    (hok : faults s.calls = .ok) (hdir : s.dirs d = .file a rest) (hpath : cstr path = pathOf names)
    {r : Except Stop (FResult × List Char) × Card}
    (hloop : exec (volume root faults) (scanLoop fuel d i path)
      ⟨s.calls + 1, Function.update s.dirs d rest⟩ = (t, r)) :
    exec (volume root faults) (scanLoop (fuel + 1) d i path) s =
      (entryTrace d names a false ++ t, r) := by
  have hanswer : volume root faults s (.fReaddir d) =
      ((.ok, a.info false), ⟨s.calls + 1, Function.update s.dirs d rest⟩) := by
    rw [volume_readdir d hok, hdir]
    rfl
  have hname : cstr (a.info false).fname = a.name := cstr_name a
  have hnul : first (a.info false).fname ≠ nul := first_ne_nul a
  have hdot : first (a.info false).fname ≠ '.' := a.visible
  have hfile : (a.info false).fattrib &&& amDir = 0 := by
    by_contra hbit
    simp [info_isDir] at hbit
  rw [scanLoop]
  simp only [fReaddir, chprintf, call_bind, ret_bind]
  rw [exec_call_of hanswer]
  simp only [ne_eq, not_true_eq_false, hnul, hdot, hfile, or_self, if_false]
  rw [hpath, hname, exec_chprintf, exec_chprintf, hloop]
  rfl

/-- The branch of the loop for a directory, behind the print of its date. -/
def dirTurn (fuel d i : ℕ) (name path : List Char) : Shell (FResult × List Char) := do
  let path ← store path i '/'
  let path ← strcpyAt path (i + 1) name
  chprintf "<DIR> %s/\r\n" [.str (cstr path)]
  let (res, path) ← scanFiles fuel (d + 1) path
  if res ≠ .ok then pure (res, path)
  else do
    let path ← store path i nul
    scanLoop fuel d i path

/-- A directory takes the branch for one. -/
theorem exec_scanLoop_dirTurn {a : Entry} {kids rest : Entries Entry} (fuel i : ℕ)
    (hok : faults s.calls = .ok) (hdir : s.dirs d = .dir a kids rest) :
    exec (volume root faults) (scanLoop (fuel + 1) d i path) s =
      let r := exec (volume root faults) (dirTurn fuel d i a.name path)
        ⟨s.calls + 1, Function.update s.dirs d rest⟩
      (⟨.fReaddir d, (FResult.ok, a.info true)⟩ ::
        say "%4d-%02d-%02d %02d:%02d:%02d " (dateArgs (a.info true)) :: r.1, r.2) := by
  have hanswer : volume root faults s (.fReaddir d) =
      ((.ok, a.info true), ⟨s.calls + 1, Function.update s.dirs d rest⟩) := by
    rw [volume_readdir d hok, hdir]
    rfl
  have hname : cstr (a.info true).fname = a.name := cstr_name a
  have hnul : first (a.info true).fname ≠ nul := first_ne_nul a
  have hdot : first (a.info true).fname ≠ '.' := a.visible
  have hisDir : (a.info true).fattrib &&& amDir ≠ 0 := (info_isDir a true).mpr rfl
  rw [scanLoop]
  simp only [fReaddir, chprintf, call_bind, ret_bind]
  rw [exec_call_of hanswer]
  simp only [ne_eq, not_true_eq_false, hnul, hdot, or_self, if_false]
  rw [hname, exec_chprintf, if_pos hisDir]
  rfl

/-- A directory is printed with its path, which `scan_files` then finds in the
buffer. -/
theorem exec_scanLoop_dir {a : Entry} {kids rest : Entries Entry} {path₁ path₂ path₃ : List Char}
    {s₂ : Card} (fuel i : ℕ) (hok : faults s.calls = .ok) (hdir : s.dirs d = .dir a kids rest)
    (hstore : store path i '/' = .ret path₁) (hstrcpy : strcpyAt path₁ (i + 1) a.name = .ret path₂)
    (hpath : cstr path₂ = pathOf (names ++ [a.name]))
    (hkids : exec (volume root faults) (scanFiles fuel (d + 1) path₂)
      ⟨s.calls + 1, Function.update s.dirs d rest⟩ = (t, .ok (code, path₃), s₂)) :
    exec (volume root faults) (scanLoop (fuel + 1) d i path) s =
      let r := exec (volume root faults)
        (if code ≠ .ok then pure (code, path₃)
          else do
            let path ← store path₃ i nul
            scanLoop fuel d i path) s₂
      (entryTrace d names a true ++ (t ++ r.1), r.2) := by
  rw [exec_scanLoop_dirTurn fuel i hok hdir]
  unfold dirTurn
  simp only [chprintf, call_bind, ret_bind, hstore, hstrcpy]
  rw [hpath, exec_chprintf, exec_bind hkids]
  rfl

/-- A turn whose `f_readdir` fails is the last. -/
theorem scanLoop_fails (fuel i : ℕ) (steps : List Op) (hfail : faults s.calls ≠ .ok) :
    ∃ tr code path' s', exec (volume root faults) (scanLoop (fuel + 1) d i path) s =
        (tr, .ok (code, path'), s') ∧
      Outcome faults size d names (.fReaddir d :: steps) s tr code path' s' :=
  ⟨_, _, _, _, exec_scanLoop_fails fuel i hfail, Outcome.failed rfl hfail rfl⟩

theorem count_entry (d : ℕ) (ms : List Msg) :
    (.fReaddir d :: ms.map .chprintf : List Op).countP isCall = 1 := by
  rw [List.countP_cons_of_pos rfl, List.countP_map, List.countP_eq_zero.mpr]
  intro m _
  simp [isCall]

/-- A turn that is given an entry, in front of the rest of a scan. -/
theorem Outcome.entry {a : Entry} {isDir : Bool} (rest : Entries Entry)
    (hok : faults s.calls = .ok)
    (h : Outcome faults size d names steps ⟨s.calls + 1, Function.update s.dirs d rest⟩ t code path
      s') :
    Outcome faults size d names
      (.fReaddir d :: (entryMsgs names a isDir).map .chprintf ++ steps) s
      (entryTrace d names a isDir ++ t) code path s' := by
  apply Outcome.after h
  · simp [cut, isCall, hok, cut_prints]
  · simp [entryTrace]
  · rw [count_entry]
  · intro k hk
    exact Function.update_of_ne (by omega) _ _

/-! ## The scan of a tree -/

theorem loopScans_nil : LoopScans root faults size .nil := by
  intro fuel d names path s all hopen hend hdistinct hfits hnul hpath hdir hfuel
  obtain ⟨fuel, rfl⟩ : ∃ f, fuel = f + 1 := ⟨fuel - 1, by simp [turns] at hfuel; omega⟩
  by_cases hok : faults s.calls = .ok
  · refine ⟨_, _, _, _, exec_scanLoop_end fuel _ hok hdir, ?_⟩
    constructor
    · simp [walk, cut, isCall, hok]
    · simp [walk, cut, isCall, hok]
    · simp [walk, isCall]
    · intro _
      exact hpath
    · intro _ k hk
      exact Function.update_of_ne (by omega) _ _
  · exact scanLoop_fails fuel _ _ hok

theorem loopScans_file {a : Entry} {rest : Entries Entry} (h : LoopScans root faults size rest) :
    LoopScans root faults size (.file a rest) := by
  intro fuel d names path s all hopen hend hdistinct hfits hnul hpath hdir hfuel
  obtain ⟨fuel, rfl⟩ : ∃ f, fuel = f + 1 := ⟨fuel - 1, by simp [turns] at hfuel; omega⟩
  by_cases hok : faults s.calls = .ok
  · obtain ⟨tr, code, path', s', hexec, hout⟩ := h fuel d names path
      ⟨s.calls + 1, Function.update s.dirs d rest⟩ all hopen (endOf_file hend hdistinct)
      hdistinct.2 hfits hnul hpath (by simp) (by simpa [turns] using hfuel)
    have hturn := exec_scanLoop_file fuel _ hok hdir (holds_cstr hpath hnul) hexec
    exact ⟨_, _, _, _, hturn, Outcome.entry rest hok hout⟩
  · exact scanLoop_fails fuel _ _ hok

theorem loopScans_dir {a : Entry} {kids rest : Entries Entry}
    (hkids : LoopScans root faults size kids) (hrest : LoopScans root faults size rest) :
    LoopScans root faults size (.dir a kids rest) := by
  intro fuel d names path s all hopen hend hdistinct hfits hnul hpath hdir hfuel
  obtain ⟨fuel, rfl⟩ : ∃ f, fuel = f + 1 := ⟨fuel - 1, by simp [turns] at hfuel; omega⟩
  by_cases hok : faults s.calls = .ok
  · obtain ⟨hnew, hdkids, hdrest⟩ := hdistinct
    obtain ⟨hfit, hfkids, hfrest⟩ := hfits
    have hopen' := openPath_dir hopen hend
    have hnul₂ := nul_notMem_concat hnul a
    obtain ⟨path₁, path₂, hstore, hstrcpy, hheld⟩ := holds_extend hpath hfit
    -- the subdirectory is read with its path in the buffer
    obtain ⟨tr₁, code₁, path₃, s₂, hexec₁, hout₁⟩ := filesScans_of_loop hkids fuel (d + 1)
      (names ++ [a.name]) path₂ ⟨s.calls + 1, Function.update s.dirs d rest⟩ hopen' hdkids hfkids
      hnul₂ hheld (by simp [turns] at hfuel; omega)
    rw [exec_scanLoop_dir fuel _ hok hdir hstore hstrcpy (holds_cstr hheld hnul₂) hexec₁]
    have hwalk : walk d names (.dir a kids rest) =
        .fReaddir d :: (entryMsgs names a true).map .chprintf ++
          (visit (d + 1) (names ++ [a.name]) kids ++ walk d names rest) := by
      simp [walk, visit]
    rw [hwalk]
    by_cases hcode : code₁ = .ok
    · subst hcode
      -- the path is cut back, and the loop goes on with the entries behind
      obtain ⟨path₄, hstore₄, hheld₄⟩ := holds_restore (hout₁.held rfl)
      have hdir₂ : s₂.dirs d = rest := by
        rw [hout₁.dirs rfl d (by omega)]
        simp
      obtain ⟨tr₂, code₂, path₅, s₃, hexec₂, hout₂⟩ := hrest fuel d names path₄ s₂ all hopen
        (endOf_dir hend ⟨hnew, hdkids, hdrest⟩) hdrest hfrest hnul hheld₄ hdir₂
        (by simp [turns] at hfuel; omega)
      have hcut := cut_ok hout₁.result.symm
      rw [if_neg (by simp), hstore₄, ret_bind, hexec₂]
      refine ⟨_, code₂, path₅, s₃, rfl, Outcome.entry rest hok ?_⟩
      apply Outcome.after hout₂ hcut
      · rw [hout₁.ops, hcut]
      · exact hout₁.calls rfl
      · intro k hk
        exact hout₁.dirs rfl k (by omega)
    · rw [if_pos hcode]
      refine ⟨_, code₁, path₃, s₂, rfl, Outcome.entry rest hok ?_⟩
      simpa using Outcome.stop hout₁ hcode
  · exact scanLoop_fails fuel _ _ hok

/-- The invariant of the path buffer carries the whole listing, whatever the
tree and the faults. -/
theorem loopScans (root : Entries Entry) (faults : ℕ → FResult) (size : ℕ) (es : Entries Entry) :
    LoopScans root faults size es := by
  induction es with
  | nil => exact loopScans_nil
  | file a rest ih => exact loopScans_file ih
  | dir a kids rest ihKids ihRest => exact loopScans_dir ihKids ihRest

/-- **The listing.** `scan_files` on the root of a volume, with the empty path in a
buffer that fits all directories, makes the calls and prints of the walk, which
prints the pre-order listing. If no call fails it returns FR_OK with the empty
path in the buffer; the first call that fails is the last call, its code is
returned, and nothing is printed behind it but the report on an `f_opendir`. -/
theorem scan_listing (root : Entries Entry) (faults : ℕ → FResult) (rest : List Char) (fuel : ℕ)
    (hdistinct : root.Distinct Entry.name) (hfits : Fits (rest.length + 1) [] root)
    (hfuel : turns root < fuel) :
    prints (visit 0 [] root) = listing root ∧
      ((∀ n < (visit 0 [] root).countP isCall, faults n = .ok) →
        (exec (volume root faults) (scanFiles fuel 0 (nul :: rest)) {}).1.map (·.op) =
            visit 0 [] root ∧
          ∃ path, (exec (volume root faults) (scanFiles fuel 0 (nul :: rest)) {}).2.1 =
              .ok (.ok, path) ∧ cstr path = []) ∧
      ∀ pre op post, visit 0 [] root = pre ++ op :: post → isCall op = true →
        (∀ n < pre.countP isCall, faults n = .ok) → faults (pre.countP isCall) ≠ .ok →
        (exec (volume root faults) (scanFiles fuel 0 (nul :: rest)) {}).1.map (·.op) =
            pre ++ op :: report op ∧
          ∃ path, (exec (volume root faults) (scanFiles fuel 0 (nul :: rest)) {}).2.1 =
              .ok (faults (pre.countP isCall), path) := by
  obtain ⟨tr, code, path, s', hexec, hout⟩ := filesScans_of_loop
    (loopScans root faults (rest.length + 1) root) fuel 0 [] (nul :: rest) {} rfl hdistinct hfits
    (by simp [pathOf]) ⟨rfl, rest, rfl⟩ hfuel
  have hops := hout.ops
  have hresult := hout.result
  rw [hexec]
  refine ⟨prints_walk 0 [] root, fun hall => ?_, fun pre op post hsplit hcall hbefore hfail => ?_⟩
  · rw [cut_all (by simpa using hall)] at hops hresult
    exact ⟨hops, path, by rw [hresult], holds_cstr (hout.held hresult) (by simp)⟩
  · rw [hsplit, cut_at hcall (by simpa using hbefore) (by simpa using hfail)] at hops hresult
    exact ⟨hops, path, by simp [hresult]⟩

/-- A volume with a directory, a file in it and a file behind it. -/
def smallVolume : Entries Entry :=
  .dir ⟨['A'], 0, 0, 0, by decide, by decide, by decide, by decide⟩
    (.file ⟨['B'], 0, 0, 0, by decide, by decide, by decide, by decide⟩ .nil)
    (.file ⟨['C'], 0, 0, 0, by decide, by decide, by decide, by decide⟩ .nil)

/-- The `f_opendir` of the directory is the third call. -/
def thirdFails (n : ℕ) : FResult := if n = 2 then .diskErr else .ok

theorem scan_listing_smallVolume :
    (exec (volume smallVolume thirdFails) (scanFiles 10 0 (nul :: List.replicate 9 nul)) {}).1.map
          (·.op) =
        (visit 0 [] smallVolume).take 4 ++
          [.fOpendir 1 ['/', 'A'], .chprintf ⟨"FS: f_opendir() failed\r\n", []⟩] ∧
      ∃ path, (exec (volume smallVolume thirdFails) (scanFiles 10 0 (nul :: List.replicate 9 nul))
        {}).2.1 = .ok (.diskErr, path) := by
  have hdistinct : smallVolume.Distinct Entry.name := by
    simp [smallVolume, Entries.Distinct, Entries.keys]
  have hfits : Fits ((List.replicate 9 nul).length + 1) [] smallVolume := by
    simp [smallVolume, Fits, pathOf]
  exact (scan_listing smallVolume thirdFails (List.replicate 9 nul) 10 hdistinct hfits
    (by decide)).2.2 ((visit 0 [] smallVolume).take 4) (.fOpendir 1 ['/', 'A'])
    ((visit 0 [] smallVolume).drop 5) rfl rfl (by decide) (by decide)

end GcodeFatfs.Listing
