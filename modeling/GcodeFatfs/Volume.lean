import GcodeFatfs.FatCommands
import GcodeFatfs.Library.DirTree
import Mathlib.Logic.Function.Basic

/-! A volume as FatFs presents it to `scan_files`: a tree of directories whose
entries come one by one from `f_readdir`, and calls that may fail. -/

namespace GcodeFatfs.Volume
open GcodeFatfs.Interact GcodeFatfs.DirTree GcodeFatfs.CString GcodeFatfs.Board
open GcodeFatfs.FatCommands

/-- What FatFs stores of a file or a directory, under a name that can be listed. -/
structure Entry where
  name : List Char
  fdate : UInt16
  ftime : UInt16
  fattrib : UInt8
  nonempty : name ≠ []
  noSlash : '/' ∉ name
  noNul : nul ∉ name
  visible : first name ≠ '.'

/-- The answer of `f_readdir` about an entry. -/
def Entry.info (a : Entry) (isDir : Bool) : FilInfo :=
  ⟨a.name, a.fdate, a.ftime, if isDir then a.fattrib ||| amDir else a.fattrib &&& ~~~amDir⟩

/-- A path as it is written: a slash in front of each name. -/
def pathOf (names : List (List Char)) : List Char := names.flatMap ('/' :: ·)

/-- The directory that a written path names. -/
def openPath (root : Entries Entry) (path : List Char) : Option (Entries Entry) :=
  root.resolve Entry.name (tokens ['/'] path)

/-- The calls made so far, and the entries each `DIR` object has still to give. -/
structure Card where
  calls : ℕ := 0
  dirs : ℕ → Entries Entry := fun _ => .nil

/-- The next entry of a directory; an empty name at the end. -/
def nextInfo : Entries Entry → FilInfo
  | .nil => ⟨[], 0, 0, 0⟩
  | .file a _ => a.info false
  | .dir a _ _ => a.info true

def nextRest : Entries Entry → Entries Entry
  | .nil => .nil
  | .file _ rest => rest
  | .dir _ _ rest => rest

/-- A card with the volume `root` on it, where the call number `n` fails with
`faults n` unless that is `FR_OK`. -/
def volume (root : Entries Entry) (faults : ℕ → FResult) : Env Op Res Card
  | s, .fOpendir d path =>
    if faults s.calls = .ok then
      match openPath root path with
      | some t => (.ok, ⟨s.calls + 1, Function.update s.dirs d t⟩)
      | none => (.noPath, ⟨s.calls + 1, s.dirs⟩)
    else (faults s.calls, ⟨s.calls + 1, s.dirs⟩)
  | s, .fReaddir d =>
    if faults s.calls = .ok then
      ((.ok, nextInfo (s.dirs d)), ⟨s.calls + 1, Function.update s.dirs d (nextRest (s.dirs d))⟩)
    else ((faults s.calls, ⟨[], 0, 0, 0⟩), ⟨s.calls + 1, s.dirs⟩)
  | s, op => (success op, s)

theorem volume_readdir {root : Entries Entry} {faults : ℕ → FResult} {s : Card} (d : ℕ)
    (hok : faults s.calls = .ok) :
    volume root faults s (.fReaddir d) =
      ((.ok, nextInfo (s.dirs d)), ⟨s.calls + 1, Function.update s.dirs d (nextRest (s.dirs d))⟩) :=
  if_pos hok

/-! ## Names and paths -/

theorem uint8_or_and_self (x y : UInt8) : (x ||| y) &&& y = y := by
  rw [← UInt8.toBitVec_inj]
  simp only [UInt8.toBitVec_and, UInt8.toBitVec_or]
  ext i
  simp only [BitVec.getElem_and, BitVec.getElem_or]
  cases x.toBitVec[i] <;> simp

theorem info_isDir (a : Entry) (isDir : Bool) :
    (a.info isDir).fattrib &&& amDir ≠ 0 ↔ isDir = true := by
  cases isDir with
  | true =>
    simp only [Entry.info, if_true, uint8_or_and_self, iff_true]
    decide
  | false =>
    simp [Entry.info, UInt8.and_assoc]

theorem first_ne_nul (a : Entry) : first a.name ≠ nul := by
  cases h : a.name with
  | nil => exact absurd h a.nonempty
  | cons c cs =>
    rintro (rfl : c = nul)
    exact a.noNul (h ▸ List.mem_cons_self)

theorem cstr_name (a : Entry) : cstr a.name = a.name := by
  apply List.takeWhile_eq_self_iff.mpr
  intro c hc
  simpa using fun he : c = nul => a.noNul (he ▸ hc)

theorem pathOf_concat (names : List (List Char)) (name : List Char) :
    pathOf (names ++ [name]) = pathOf names ++ '/' :: name := by
  simp [pathOf]

theorem openPath_concat (root : Entries Entry) (names : List (List Char)) (a : Entry) :
    openPath root (pathOf (names ++ [a.name])) =
      (openPath root (pathOf names)).bind (·.lookup Entry.name a.name) := by
  have hname : tokens ['/'] a.name = [a.name] := by
    apply tokens_singleton a.nonempty
    intro c hc
    have hne : c ≠ '/' := fun he => a.noSlash (he ▸ hc)
    simp [isDelim, hne]
  rw [pathOf_concat, openPath, tokens_append _ _ _ (by decide), hname, resolve_concat]
  rfl

/-- The path of an entry opens it, if the one of its directory opens that. -/
theorem openPath_dir {root all kids rest : Entries Entry} {names : List (List Char)} {a : Entry}
    (hopen : openPath root (pathOf names) = some all)
    (hend : all.EndOf Entry.name (.dir a kids rest)) :
    openPath root (pathOf (names ++ [a.name])) = some kids := by
  rw [openPath_concat, hopen]
  exact endOf_dir_lookup hend

theorem nul_notMem_concat {names : List (List Char)} (hnul : nul ∉ pathOf names) (a : Entry) :
    nul ∉ pathOf (names ++ [a.name]) := by
  have hslash : nul ≠ '/' := by decide
  rw [pathOf_concat]
  simp [hnul, a.noNul, hslash]

end GcodeFatfs.Volume
