import GcodeFatfs.PathBound

/-! What `tree` prints, read back. The two prints about an entry tell its name,
its date and time, whether it is a directory and, by the slashes of its path, how
deep it lies; the entries stand in pre-order, so that the whole volume is found
again in the listing. -/

namespace GcodeFatfs.TreeReading
open GcodeFatfs.Interact GcodeFatfs.DirTree GcodeFatfs.CArith GcodeFatfs.CString GcodeFatfs.Board
open GcodeFatfs.FatCommands GcodeFatfs.Volume GcodeFatfs.Listing GcodeFatfs.PathBound

/-- What the listing shows of an entry. -/
structure Shown where
  name : List Char
  fdate : UInt16
  ftime : UInt16
  deriving DecidableEq, Repr

def shown (a : Entry) : Shown := ⟨a.name, a.fdate, a.ftime⟩

/-! ## Dates -/

/-- The date and the time that were printed, packed again. -/
def readDate : List Arg → Option (UInt16 × UInt16)
  | [.int year, .int month, .int day, .int hour, .int minute, .int second] =>
    some (.ofNat ((year - 1980).toNat * 512 + month.toNat * 32 + day.toNat),
      .ofNat (hour.toNat * 2048 + minute.toNat * 32 + second.toNat / 2))
  | _ => none

theorem date_year (w : UInt16) : ((0xFE00 &&& w) >>> 9).toNat = w.toNat / 512 % 128 := by
  simpa using masked_shiftRight w.toNat 9 7

theorem date_month (w : UInt16) : ((0x01E0 &&& w) >>> 5).toNat = w.toNat / 32 % 16 := by
  simpa using masked_shiftRight w.toNat 5 4

theorem date_day (w : UInt16) : (0x001F &&& w).toNat = w.toNat % 32 := by
  simpa using masked_shiftRight w.toNat 0 5

theorem time_hour (w : UInt16) : ((0xF800 &&& w) >>> 11).toNat = w.toNat / 2048 % 32 := by
  simpa using masked_shiftRight w.toNat 11 5

theorem time_minute (w : UInt16) : ((0x07E0 &&& w) >>> 5).toNat = w.toNat / 32 % 64 := by
  simpa using masked_shiftRight w.toNat 5 6

theorem readDate_fields (year month day hour minute second : ℕ) :
    readDate [.int (year + 1980), .int month, .int day, .int hour, .int minute, .int (second * 2)] =
      some (.ofNat (year * 512 + month * 32 + day),
        .ofNat (hour * 2048 + minute * 32 + second)) := by
  have hyear : ((year : ℤ) + 1980 - 1980).toNat = year := by omega
  have hsecond : ((second : ℤ) * 2).toNat / 2 = second := by omega
  rw [readDate, hyear, hsecond]
  rfl

theorem date_packed {w : ℕ} (h : w < 2 ^ 16) :
    w / 512 % 128 * 512 + w / 32 % 16 * 32 + w % 32 = w := by omega

theorem time_packed {w : ℕ} (h : w < 2 ^ 16) :
    w / 2048 % 32 * 2048 + w / 32 % 64 * 32 + w % 32 = w := by omega

/-- The fields that are printed are all of a date and a time. -/
theorem readDate_dateArgs (fno : FilInfo) : readDate (dateArgs fno) = some (fno.fdate, fno.ftime) := by
  rw [dateArgs, date_year, date_month, date_day, time_hour, time_minute, date_day, readDate_fields,
    date_packed fno.fdate.toNat_lt, time_packed fno.ftime.toNat_lt, UInt16.ofNat_toNat,
    UInt16.ofNat_toNat]

/-! ## Entries -/

/-- The last name of a written path. -/
def lastName (path : List Char) : List Char := (path.reverse.takeWhile (· ≠ '/')).reverse

/-- An entry from the two prints about it, with its depth. -/
def readEntry (date what : Msg) : Option (ℕ × Shown × Bool) := do
  let (fdate, ftime) ← readDate date.args
  match what.args with
  | [.str path] => some (path.count '/' - 1, ⟨lastName path, fdate, ftime⟩, true)
  | [.str path, .str name] => some (path.count '/', ⟨name, fdate, ftime⟩, false)
  | _ => none

def readEntries : List Msg → Option (List (ℕ × Shown × Bool))
  | [] => some []
  | date :: what :: ms => do
    let e ← readEntry date what
    let es ← readEntries ms
    some (e :: es)
  | [_] => none

/-- The volume that a listing shows. -/
def readListing (ms : List Msg) : Option (Entries Shown) := (readEntries ms).map ofDepths

theorem lastName_concat (names : List (List Char)) {name : List Char} (h : '/' ∉ name) :
    lastName (pathOf (names ++ [name])) = name := by
  have hne : ∀ c ∈ name.reverse, decide (c ≠ '/') = true := by
    intro c hc
    exact decide_eq_true fun he => h (he ▸ List.mem_reverse.mp hc)
  rw [pathOf_concat, lastName, List.reverse_append, List.reverse_cons, List.append_assoc,
    List.takeWhile_append_of_pos hne]
  simp

theorem count_pathOf {names : List (List Char)} (h : ∀ name ∈ names, '/' ∉ name) :
    (pathOf names).count '/' = names.length := by
  induction names with
  | nil => rfl
  | cons name names ih =>
    obtain ⟨hname, hnames⟩ := List.forall_mem_cons.mp h
    have hcons : pathOf (name :: names) = '/' :: name ++ pathOf names := rfl
    rw [hcons, List.count_append, List.count_cons_self, List.count_eq_zero_of_not_mem hname,
      ih hnames, List.length_cons]
    omega

theorem slashless_concat {names : List (List Char)} (h : ∀ name ∈ names, '/' ∉ name) (a : Entry) :
    ∀ name ∈ names ++ [a.name], '/' ∉ name := by
  intro name hmem
  rcases List.mem_append.mp hmem with hmem | hmem
  · exact h name hmem
  · exact List.mem_singleton.mp hmem ▸ a.noSlash

theorem readEntry_entryMsgs {names : List (List Char)} (h : ∀ name ∈ names, '/' ∉ name) (a : Entry)
    (isDir : Bool) :
    ∃ date what, entryMsgs names a isDir = [date, what] ∧
      readEntry date what = some (names.length, shown a, isDir) := by
  refine ⟨_, _, rfl, ?_⟩
  rw [readEntry, readDate_dateArgs]
  cases isDir with
  | false => simp [shown, Entry.info, count_pathOf h]
  | true =>
    simp [shown, Entry.info, count_pathOf (slashless_concat h a), lastName_concat names a.noSlash]

theorem readEntries_cons {date what : Msg} {ms : List Msg} {e : ℕ × Shown × Bool}
    {es : List (ℕ × Shown × Bool)} (he : readEntry date what = some e)
    (hes : readEntries ms = some es) : readEntries (date :: what :: ms) = some (e :: es) := by
  rw [readEntries, he, hes]
  rfl

/-! ## Whole listings -/

/-- The entries are read with their depths, and whatever stands behind them. -/
theorem readEntries_preorder (t : Entries Entry) {names : List (List Char)}
    (h : ∀ name ∈ names, '/' ∉ name) {ms : List Msg} {es : List (ℕ × Shown × Bool)}
    (hes : readEntries ms = some es) :
    readEntries ((t.preorder Entry.name names).flatMap
        (fun (names, a, isDir) => entryMsgs names a isDir) ++ ms) =
      some ((t.map shown).depths names.length ++ es) := by
  induction t generalizing names ms es with
  | nil => exact hes
  | file a rest ih =>
    obtain ⟨date, what, hmsgs, hentry⟩ := readEntry_entryMsgs h a false
    rw [Entries.preorder, List.flatMap_cons, List.append_assoc]
    simp only [hmsgs]
    exact readEntries_cons hentry (ih h hes)
  | dir a kids rest ihk ihr =>
    obtain ⟨date, what, hmsgs, hentry⟩ := readEntry_entryMsgs h a true
    have hkids := ihk (slashless_concat h a) (ihr h hes)
    rw [List.length_append, List.length_singleton] at hkids
    have hall := readEntries_cons hentry hkids
    rw [Entries.preorder, List.cons_append, List.flatMap_cons, List.flatMap_append]
    simp only [hmsgs, Entries.map, Entries.depths, List.cons_append, List.nil_append,
      List.append_assoc]
    exact hall

theorem readListing_listing (t : Entries Entry) : readListing (listing t) = some (t.map shown) := by
  have hread := readEntries_preorder t (List.forall_mem_nil _) (rfl : readEntries [] = some [])
  rw [List.append_nil, List.append_nil] at hread
  rw [readListing, listing, hread]
  exact congrArg some (ofDepths_depths _)

/-- **The tree is told.** On a card that works, whatever volume is on it, what
`tree` prints tells the whole volume: its shape, the names, and the dates and times
of every file and every directory. -/
theorem tree_read_back (root : Entries Entry) (fuel : ℕ) (hdistinct : root.Distinct Entry.name)
    (hfits : Fits fbuffSize [] root) (hfuel : turns root < fuel) :
    readListing (prints ((exec (volume root fun _ => .ok) (cmdTree fuel) {}).1.map (·.op))) =
      some (root.map shown) := by
  obtain ⟨tr, code, path, s', hexec, hout⟩ :=
    filesScans_of_loop (loopScans root (fun _ => .ok) fbuffSize root)
      fuel 0 [] _ {} rfl hdistinct hfits (by simp [pathOf]) holds_zeroed hfuel
  have hops := hout.ops
  rw [cut_all (by simp)] at hops
  have hall : (exec (volume root fun _ => .ok) (cmdTree fuel) {}).1 = tr := by
    rw [cmdTree, exec_bind hexec]
    exact List.append_nil tr
  rw [hall, hops]
  have hprints : prints (visit 0 [] root) = listing root := prints_walk 0 [] root
  rw [hprints, readListing_listing]

theorem tree_read_back_smallVolume :
    readListing (prints ((exec (volume smallVolume fun _ => .ok) (cmdTree 10) {}).1.map (·.op))) =
      some (.dir ⟨['A'], 0, 0⟩ (.file ⟨['B'], 0, 0⟩ .nil) (.file ⟨['C'], 0, 0⟩ .nil)) :=
  tree_read_back smallVolume 10 (by simp [smallVolume, Entries.Distinct, Entries.keys])
    (by simp [smallVolume, Fits, pathOf, fbuffSize]) (by decide)

end GcodeFatfs.TreeReading
