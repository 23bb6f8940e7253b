import GcodeFatfs.SessionRuns
import GcodeFatfs.FileProtocol

/-! The files on the card under the calls of the commands. What FatFs promises of
each call is a step from one card to the next: a call that succeeds does its
work, and one that fails leaves the files that it was not about alone. -/

namespace GcodeFatfs.CardFiles
open GcodeFatfs.Interact GcodeFatfs.CArith GcodeFatfs.CString GcodeFatfs.Board
open GcodeFatfs.FatCommands GcodeFatfs.GcodeParser GcodeFatfs.Gcodetest GcodeFatfs.CommandRuns
open GcodeFatfs.JobRun GcodeFatfs.FileProtocol GcodeFatfs.Footprint

/-! ## The card -/

/-- What a file object is open for: to read a file, which held `text` when it was
opened and of which `rest` is left, or to write a file anew, `text` so far. -/
inductive Handle (ι : Type) where
  | reading (file : ι) (text rest : List Char)
  | writing (file : ι) (text : List Char)

structure Card (ι : Type) where
  files : ι → Option (List Char)
  handles : Fil → Option (Handle ι)

variable {ι : Type}

def Card.setHandle (card : Card ι) (fp : Fil) (h : Option (Handle ι)) : Card ι :=
  { card with handles := fun fp' => if fp' = fp then h else card.handles fp' }

def Card.setFile [DecidableEq ι] (card : Card ι) (file : ι) (text : Option (List Char)) : Card ι :=
  { card with files := fun file' => if file' = file then text else card.files file' }

/-- A file object that is open to read a file which nobody has changed since. -/
def Card.Reads (card : Card ι) (fp : Fil) (file : ι) (text rest : List Char) : Prop :=
  card.handles fp = some (.reading file text rest) ∧ card.files file = some text

/-- Some file object is open to write the file. -/
def Card.Writes (card : Card ι) (file : ι) : Prop :=
  ∃ fp text, card.handles fp = some (.writing file text)

/-- What `f_puts` writes of a string: `_USE_STRFUNC` is 2. -/
def putsText (str : String) : List Char :=
  str.toList.flatMap fun c => if c = '\n' then ['\r', '\n'] else [c]

/-- The calls that work on no file. -/
def IsAside : Op → Prop
  | .fOpen _ _ _ | .fClose _ | .fGets _ _ | .fPuts _ _ | .fRead _ _ | .fMount _ | .fMkfs _ => False
  | _ => True

/-- A call and its answer may take one card to another. `name` tells which
file a path names. -/
inductive Step [DecidableEq ι] (name : List Char → ι) : Card ι → Event → Card ι → Prop where
  | openRead {card : Card ι} {fp : Fil} {path : List Char} {mode : List Access} {text : List Char}
      (hmode : mode ≠ createMode) (hfile : card.files (name path) = some text) :
      Step name card ⟨.fOpen fp path mode, FResult.ok⟩
        (card.setHandle fp (some (.reading (name path) text text)))
  | openReadFails {card : Card ι} {fp : Fil} {path : List Char} {mode : List Access} {err : FResult}
      (hmode : mode ≠ createMode) (herr : err ≠ .ok) :
      Step name card ⟨.fOpen fp path mode, err⟩ (card.setHandle fp none)
  | create {card : Card ι} {fp : Fil} {path : List Char} {mode : List Access}
      (hmode : mode = createMode) :
      Step name card ⟨.fOpen fp path mode, FResult.ok⟩
        ((card.setFile (name path) (some [])).setHandle fp (some (.writing (name path) [])))
  | createFails {card : Card ι} {fp : Fil} {path : List Char} {mode : List Access} {err : FResult}
      (hmode : mode = createMode) (herr : err ≠ .ok) (left : Option (List Char)) :
      Step name card ⟨.fOpen fp path mode, err⟩
        ((card.setFile (name path) left).setHandle fp none)
  | gets {card : Card ι} {len : ℕ} {fp : Fil} {file : ι} {text rest : List Char}
      (hreads : card.Reads fp file text rest) :
      Step name card
        ⟨.fGets len fp,
          { ret := if (getsLine len rest).1 = [] then none else some (getsLine len rest).1 }⟩
        (card.setHandle fp (some (.reading file text (getsLine len rest).2)))
  | getsFails {card : Card ι} {len : ℕ} {fp : Fil} {got : GetsRes}
      (hfail : got.err = true ∨ ∀ file text rest, ¬ card.Reads fp file text rest) :
      Step name card ⟨.fGets len fp, got⟩ (card.setHandle fp none)
  | read {card : Card ι} {btr : ℕ} {fp : Fil} {file : ι} {text rest : List Char}
      (hreads : card.Reads fp file text rest) :
      Step name card ⟨.fRead fp btr, (FResult.ok, rest.take btr)⟩
        (card.setHandle fp (some (.reading file text (rest.drop btr))))
  | readFails {card : Card ι} {btr : ℕ} {fp : Fil} {r : FResult × List Char}
      (hfail : r.1 ≠ .ok ∨ ∀ file text rest, ¬ card.Reads fp file text rest) :
      Step name card ⟨.fRead fp btr, r⟩ (card.setHandle fp none)
  | puts {card : Card ι} {str : String} {fp : Fil} {file : ι} {text : List Char} {written : ℤ}
      (hwrites : card.handles fp = some (.writing file text)) (hwritten : written ≠ -1) :
      Step name card ⟨.fPuts str fp, written⟩
        (card.setHandle fp (some (.writing file (text ++ putsText str))))
  | putsFails {card : Card ι} {str : String} {fp : Fil} {file : ι} {text : List Char}
      (hwrites : card.handles fp = some (.writing file text)) (left : List Char) :
      Step name card ⟨.fPuts str fp, (-1 : ℤ)⟩ (card.setHandle fp (some (.writing file left)))
  | putsNowhere {card : Card ι} {str : String} {fp : Fil}
      (hwrites : ∀ file text, card.handles fp ≠ some (.writing file text)) :
      Step name card ⟨.fPuts str fp, (-1 : ℤ)⟩ card
  | close {card : Card ι} {fp : Fil} {file : ι} {text : List Char}
      (hwrites : card.handles fp = some (.writing file text)) :
      Step name card ⟨.fClose fp, FResult.ok⟩
        ((card.setFile file (some text)).setHandle fp none)
  | closeFails {card : Card ι} {fp : Fil} {file : ι} {text : List Char} {err : FResult}
      (hwrites : card.handles fp = some (.writing file text)) (herr : err ≠ .ok)
      (left : Option (List Char)) :
      Step name card ⟨.fClose fp, err⟩ ((card.setFile file left).setHandle fp none)
  | closeRead {card : Card ι} {fp : Fil} {err : FResult}
      (hwrites : ∀ file text, card.handles fp ≠ some (.writing file text)) :
      Step name card ⟨.fClose fp, err⟩ (card.setHandle fp none)
  -- a work area that is registered anew knows no open files; what was being
  -- written may or may not be on the card
  | mount {card card' : Card ι} {fs : Option WorkArea} {err : FResult}
      (hfiles : ∀ file, ¬ card.Writes file → card'.files file = card.files file)
      (hhandles : card'.handles = fun _ => none) :
      Step name card ⟨.fMount fs, err⟩ card'
  | mountFails {card : Card ι} {fs : Option WorkArea} {err : FResult} (herr : err ≠ .ok) :
      Step name card ⟨.fMount fs, err⟩ card
  | mkfs {card card' : Card ι} {vol : ℤ} {err : FResult}
      (hhandles : ∀ fp, card'.handles fp = card.handles fp ∨ card'.handles fp = none) :
      Step name card ⟨.fMkfs vol, err⟩ card'
  | aside {card : Card ι} {op : Op} {x : Res op} (hop : IsAside op) : Step name card ⟨op, x⟩ card

section Accessors
variable {card : Card ι} {fp fp' : Fil} {file file' : ι} {h : Option (Handle ι)}
variable {text : Option (List Char)}

@[simp] theorem setHandle_same : (card.setHandle fp h).handles fp = h := if_pos rfl

@[simp] theorem setHandle_other (hne : fp' ≠ fp) :
    (card.setHandle fp h).handles fp' = card.handles fp' := if_neg hne

variable [DecidableEq ι]

@[simp] theorem setFile_handles : (card.setFile file text).handles = card.handles := rfl

@[simp] theorem setFile_same : (card.setFile file text).files file = text := if_pos rfl

@[simp] theorem setFile_other (hne : file' ≠ file) :
    (card.setFile file text).files file' = card.files file' := if_neg hne

end Accessors

/-- A card on which every call succeeds that can. -/
def textCard [DecidableEq ι] (name : List Char → ι) : Env Op Res (Card ι)
  | card, .fOpen fp path mode =>
    if mode = createMode then
      (.ok, (card.setFile (name path) (some [])).setHandle fp (some (.writing (name path) [])))
    else match card.files (name path) with
      | some text => (.ok, card.setHandle fp (some (.reading (name path) text text)))
      | none => (.noFile, card.setHandle fp none)
  | card, .fGets len fp =>
    match card.handles fp with
    | some (.reading file text rest) =>
      if card.files file = some text then
        ({ ret := if (getsLine len rest).1 = [] then none else some (getsLine len rest).1 },
          card.setHandle fp (some (.reading file text (getsLine len rest).2)))
      else ({ ret := none, err := true }, card.setHandle fp none)
    | _ => ({ ret := none, err := true }, card.setHandle fp none)
  | card, .fRead fp btr =>
    match card.handles fp with
    | some (.reading file text rest) =>
      if card.files file = some text then
        ((.ok, rest.take btr), card.setHandle fp (some (.reading file text (rest.drop btr))))
      else ((.diskErr, []), card.setHandle fp none)
    | _ => ((.invalidObject, []), card.setHandle fp none)
  | card, .fPuts str fp =>
    match card.handles fp with
    | some (.writing file text) =>
      ((putsText str).length, card.setHandle fp (some (.writing file (text ++ putsText str))))
    | _ => (-1, card)
  | card, .fClose fp =>
    match card.handles fp with
    | some (.writing file text) => (.ok, (card.setFile file (some text)).setHandle fp none)
    | some (.reading _ _ _) => (.ok, card.setHandle fp none)
    | none => (.invalidObject, card.setHandle fp none)
  | card, .fMount _ => (.ok, { card with handles := fun _ => none })
  | _, .fMkfs _ => (.ok, ⟨fun _ => none, fun _ => none⟩)
  | card, op => (success op, card)

theorem textCard_steps [DecidableEq ι] (name : List Char → ι) (card : Card ι) (op : Op) :
    Step name card ⟨op, (textCard name card op).1⟩ (textCard name card op).2 := by
  cases op with
  | fOpen fp path mode =>
    by_cases hmode : mode = createMode
    · simp only [textCard, if_pos hmode]
      exact .create hmode
    · simp only [textCard, if_neg hmode]
      cases hfile : card.files (name path) with
      | none => exact .openReadFails hmode (by simp)
      | some text => exact .openRead hmode hfile
  | fGets len fp =>
    simp only [textCard]
    cases hfp : card.handles fp with
    | none => exact .getsFails (.inl rfl)
    | some handle =>
      cases handle with
      | reading file text rest =>
        by_cases hfile : card.files file = some text
        · simp only [if_pos hfile]
          exact .gets ⟨hfp, hfile⟩
        · simp only [if_neg hfile]
          exact .getsFails (.inl rfl)
      | writing file text => exact .getsFails (.inl rfl)
  | fRead fp btr =>
    simp only [textCard]
    cases hfp : card.handles fp with
    | none => exact .readFails (.inl (by simp))
    | some handle =>
      cases handle with
      | reading file text rest =>
        by_cases hfile : card.files file = some text
        · simp only [if_pos hfile]
          exact .read ⟨hfp, hfile⟩
        · simp only [if_neg hfile]
          exact .readFails (.inl (by simp))
      | writing file text => exact .readFails (.inl (by simp))
  | fPuts str fp =>
    simp only [textCard]
    cases hfp : card.handles fp with
    | none => exact .putsNowhere (by simp [hfp])
    | some handle =>
      cases handle with
      | reading file text rest => exact .putsNowhere (by simp [hfp])
      | writing file text =>
        have hwritten : ((putsText str).length : ℤ) ≠ -1 := by omega
        exact .puts hfp hwritten
  | fClose fp =>
    simp only [textCard]
    cases hfp : card.handles fp with
    | none => exact .closeRead (by simp [hfp])
    | some handle =>
      cases handle with
      | reading file text rest => exact .closeRead (by simp [hfp])
      | writing file text => exact .close hfp
  | fMount fs => exact .mount (fun _ _ => rfl) rfl
  | fMkfs vol => exact .mkfs fun _ => .inr rfl
  | _ => exact .aside trivial

/-! ## Files that a session leaves alone -/

/-- What a file object may come to be open for: nothing that writes the file. -/
def Handle.Spares (file : ι) : Option (Handle ι) → Prop
  | some (.writing file' _) => file' ≠ file
  | _ => True

theorem not_writes {card : Card ι} {file : ι} :
    ¬ card.Writes file ↔ ∀ fp, Handle.Spares file (card.handles fp) := by
  constructor
  · intro h fp
    cases hfp : card.handles fp with
    | none => trivial
    | some handle =>
      cases handle with
      | reading file' text rest => trivial
      | writing file' text =>
        rintro rfl
        exact h ⟨fp, text, hfp⟩
  · rintro h ⟨fp, text, hfp⟩
    have hspares := h fp
    rw [hfp] at hspares
    exact hspares rfl

theorem not_writes_closed {card : Card ι} (h : ∀ fp, card.handles fp = none) (file : ι) :
    ¬ card.Writes file := by
  rintro ⟨fp, text, hfp⟩
  rw [h fp] at hfp
  cases hfp

theorem setHandle_spares (card : Card ι) {file : ι} (h : ∀ fp, Handle.Spares file (card.handles fp))
    {handle : Option (Handle ι)} (hhandle : Handle.Spares file handle) (fp fp' : Fil) :
    Handle.Spares file ((card.setHandle fp handle).handles fp') := by
  by_cases hne : fp' = fp
  · subst hne
    rwa [setHandle_same]
  · rw [setHandle_other hne]
    exact h fp'

/-- The calls that do not create the file or make a new volume. -/
def SparesFile (name : List Char → ι) (file : ι) : Op → Prop
  | .fOpen _ path mode => mode = createMode → name path ≠ file
  | .fMkfs _ => False
  | _ => True

variable {name : List Char → ι} {card card' : Card ι} {e : Event} {file : ι}
variable {T : Target} {fuel : ℕ} {regs regs' : Regs} {t : Trace} {c : Command}

/-- The commands that a file need not survive. -/
def MayChange (name : List Char → ι) (file : ι) : Command → Prop
  | .mkfs _ => True
  | .hello _ => name helloName = file
  | .gcodetest => name logName = file
  | _ => False

theorem performs_spares {op : Op} (h : Performs c op) (hc : ¬ MayChange name file c) :
    SparesFile name file op := by
  cases op with
  | fMkfs vol =>
    obtain ⟨argv, rfl⟩ := h
    exact hc trivial
  | fOpen fp path mode =>
    rintro rfl
    have hopens : (fp, path, createMode) ∈ opens c := h
    cases c with
    | hello argv =>
      obtain ⟨-, rfl⟩ : fp = .helloFsrc ∧ path = helloName := by simpa [opens] using hopens
      exact hc
    | gcodetest =>
      obtain ⟨-, rfl⟩ : fp = .debugfil ∧ path = logName := by
        simpa [opens, createMode] using hopens
      exact hc
    | _ => simp [opens, createMode] at hopens
  | _ => trivial

variable [DecidableEq ι]

/-- A file that no object is open to write, and that is not created, stays. -/
theorem step_spares (h : Step name card e card') (hop : SparesFile name file e.op)
    (hw : ¬ card.Writes file) : ¬ card'.Writes file ∧ card'.files file = card.files file := by
  rw [not_writes] at hw ⊢
  have hwriting {fp : Fil} {file' : ι} {text : List Char}
      (hfp : card.handles fp = some (.writing file' text)) : file' ≠ file := by
    have hspares := hw fp
    rwa [hfp] at hspares
  cases h with
  | openRead hmode hfile => exact ⟨setHandle_spares card hw (by trivial) _, rfl⟩
  | openReadFails hmode herr => exact ⟨setHandle_spares card hw (by trivial) _, rfl⟩
  | create hmode =>
    have hne := hop hmode
    exact ⟨setHandle_spares (card.setFile _ _) hw (by exact hne) _, setFile_other hne.symm⟩
  | createFails hmode herr left =>
    have hne := hop hmode
    exact ⟨setHandle_spares (card.setFile _ _) hw (by trivial) _, setFile_other hne.symm⟩
  | gets hreads => exact ⟨setHandle_spares card hw (by trivial) _, rfl⟩
  | getsFails hfail => exact ⟨setHandle_spares card hw (by trivial) _, rfl⟩
  | read hreads => exact ⟨setHandle_spares card hw (by trivial) _, rfl⟩
  | readFails hfail => exact ⟨setHandle_spares card hw (by trivial) _, rfl⟩
  | puts hwrites hwritten => exact ⟨setHandle_spares card hw (by exact hwriting hwrites) _, rfl⟩
  | putsFails hwrites left => exact ⟨setHandle_spares card hw (by exact hwriting hwrites) _, rfl⟩
  | putsNowhere hwrites => exact ⟨hw, rfl⟩
  | close hwrites =>
    exact ⟨setHandle_spares (card.setFile _ _) hw (by trivial) _,
      setFile_other (hwriting hwrites).symm⟩
  | closeFails hwrites herr left =>
    exact ⟨setHandle_spares (card.setFile _ _) hw (by trivial) _,
      setFile_other (hwriting hwrites).symm⟩
  | closeRead hwrites => exact ⟨setHandle_spares card hw (by trivial) _, rfl⟩
  | mount hfiles hhandles =>
    refine ⟨fun fp => ?_, hfiles file (not_writes.mpr hw)⟩
    rw [hhandles]
    trivial
  | mountFails herr => exact ⟨hw, rfl⟩
  | mkfs hhandles => exact absurd hop id
  | aside hop => exact ⟨hw, rfl⟩

theorem takes_spares (h : Takes (Step name) card t card')
    (ht : ∀ e ∈ t, SparesFile name file e.op) (hw : ¬ card.Writes file) :
    ¬ card'.Writes file ∧ card'.files file = card.files file := by
  refine takes_keeps (fun card' => ¬ card'.Writes file ∧ card'.files file = card.files file)
    (P := fun e => SparesFile name file e.op) ?_ h ht ⟨hw, rfl⟩
  rintro m e m' ⟨hm, hfile⟩ hop hstep
  obtain ⟨hm', hfile'⟩ := step_spares hstep hop hm
  exact ⟨hm', hfile'.trans hfile⟩

theorem command_spares {r : Except Stop Regs} (h : Runs (c.run T fuel regs) t r)
    (hc : ¬ MayChange name file c) (hcard : Takes (Step name) card t card')
    (hw : ¬ card.Writes file) : ¬ card'.Writes file ∧ card'.files file = card.files file :=
  takes_spares hcard (fun e he => performs_spares (runs_only h (command_footprint c) e he) hc) hw

theorem session_spares {cs : List Command} {ts : List Trace}
    (h : RunsSeq (Command.run T fuel) regs cs ts regs')
    (hcard : Takes (Step name) card ts.flatten card') (hw : ¬ card.Writes file)
    (hcs : ∀ c ∈ cs, ¬ MayChange name file c) : card'.files file = card.files file := by
  induction h generalizing card with
  | nil => rw [takes_nil.mp hcard]
  | cons hrun _ ih =>
    obtain ⟨hc, hcs⟩ := List.forall_mem_cons.mp hcs
    obtain ⟨between, hfirst, hrest⟩ := takes_append.mp hcard
    obtain ⟨hw', hfile⟩ := command_spares hrun hc hfirst hw
    exact (ih hrest hw' hcs).trans hfile

/-! ## No file stays open -/

section Tracking
omit [DecidableEq ι]

/-- The objects that are open are among those that the calls left open. -/
def Tracks (card : Card ι) (o : OpenFiles) : Prop := ∀ fp, o fp = false → card.handles fp = none

theorem setHandle_tracks (card : Card ι) {o : OpenFiles} (h : Tracks card o) {fp : Fil} {handle : Option (Handle ι)}
    {b : Bool} (hb : b = false → handle = none) : Tracks (card.setHandle fp handle) (o.set fp b) := by
  intro fp' hfp'
  by_cases hne : fp' = fp
  · subst hne
    rw [setHandle_same]
    exact hb (by simpa using hfp')
  · rw [setHandle_other hne]
    exact h fp' (by simpa [hne] using hfp')

theorem setHandle_tracks_open {o : OpenFiles} (h : Tracks card o) {fp : Fil}
    (hfp : card.handles fp ≠ none) (handle : Option (Handle ι)) :
    Tracks (card.setHandle fp handle) o := by
  intro fp' hfp'
  have hne : fp' ≠ fp := by
    rintro rfl
    exact hfp (h fp' hfp')
  rw [setHandle_other hne]
  exact h fp' hfp'

theorem setHandle_none_tracks {o : OpenFiles} (h : Tracks card o) (fp : Fil) :
    Tracks (card.setHandle fp none) o := by
  intro fp' hfp'
  by_cases hne : fp' = fp
  · subst hne
    exact setHandle_same
  · rw [setHandle_other hne]
    exact h fp' hfp'

theorem aside_next {op : Op} (hop : IsAside op) (o : OpenFiles) (x : Res op) : o.next ⟨op, x⟩ = o := by
  cases op <;> first | exact hop.elim | rfl

end Tracking

theorem step_tracks {o : OpenFiles} (h : Step name card e card') (hrel : Tracks card o) :
    Tracks card' (o.next e) := by
  cases h with
  | openRead hmode hfile => exact setHandle_tracks card hrel (by simp)
  | openReadFails hmode herr => exact setHandle_tracks card hrel (by simp)
  | create hmode => exact setHandle_tracks (card.setFile _ _) hrel (by simp)
  | createFails hmode herr left => exact setHandle_tracks (card.setFile _ _) hrel (by simp)
  | gets hreads => exact setHandle_tracks_open hrel (by simp [hreads.1]) _
  | getsFails hfail => exact setHandle_none_tracks hrel _
  | read hreads => exact setHandle_tracks_open hrel (by simp [hreads.1]) _
  | readFails hfail => exact setHandle_none_tracks hrel _
  | puts hwrites hwritten => exact setHandle_tracks_open hrel (by simp [hwrites]) _
  | putsFails hwrites left => exact setHandle_tracks_open hrel (by simp [hwrites]) _
  | putsNowhere hwrites => exact hrel
  | close hwrites => exact setHandle_tracks (card.setFile _ _) hrel (by simp)
  | closeFails hwrites herr left =>
    exact setHandle_tracks (card.setFile _ _) hrel (by simp)
  | closeRead hwrites => exact setHandle_tracks card hrel (by simp)
  | mount hfiles hhandles =>
    intro fp _
    rw [hhandles]
  | mountFails herr => exact hrel
  | mkfs hhandles =>
    intro fp hfp
    rcases hhandles fp with hsame | hnone
    · rw [hsame]
      exact hrel fp hfp
    · exact hnone
  | aside hop =>
    rw [aside_next hop]
    exact hrel

theorem command_closes (h : Runs (c.run T fuel regs) t (.ok regs'))
    (hcard : Takes (Step name) card t card') (hstart : ∀ fp, card.handles fp = none) :
    ∀ fp, card'.handles fp = none := by
  have htracks := (takes_follows Tracks OpenFiles.next (fun _ _ => True) (P := fun _ => True)
    (fun hrel _ hstep => ⟨trivial, step_tracks hstep hrel⟩) hcard (fun _ _ => trivial)
    fun fp (_ : noneOpen fp = false) => hstart fp).2
  rw [(command_orderly h).2] at htracks
  exact fun fp => htracks fp rfl

theorem session_closes {cs : List Command} {ts : List Trace}
    (h : RunsSeq (Command.run T fuel) regs cs ts regs')
    (hcard : Takes (Step name) card ts.flatten card') (hstart : ∀ fp, card.handles fp = none) :
    ∀ fp, card'.handles fp = none := by
  induction h generalizing card with
  | nil =>
    rw [takes_nil.mp hcard]
    exact hstart
  | cons hrun _ ih =>
    obtain ⟨between, hfirst, hrest⟩ := takes_append.mp hcard
    exact ih hrest (command_closes hrun hfirst hstart)

/-- **Frame.** Whatever the card answers in a session that starts with no file
open, none is open behind it, and a file is as it was unless there was a `mkfs`,
or the command that writes this very file. -/
theorem session_frame {cs : List Command} {ts : List Trace}
    (h : RunsSeq (Command.run T fuel) regs cs ts regs')
    (hcard : Takes (Step name) card ts.flatten card') (hstart : ∀ fp, card.handles fp = none) :
    (∀ fp, card'.handles fp = none) ∧
      ∀ file, (∀ c ∈ cs, ¬ MayChange name file c) → card'.files file = card.files file := by
  refine ⟨session_closes h hcard hstart, fun file hcs => ?_⟩
  exact session_spares h hcard (not_writes_closed hstart file) hcs

/-- FatFs tells no upper from lower case. -/
def upper (path : List Char) : List Char := path.map Char.toUpper

/-- A card that holds the job file and no other. -/
def jobOnly (content : List Char) : Card (List Char) where
  files file := if file = upper jobName then some content else none
  handles _ := none

/-- A `hello` that goes well. -/
def helloTrace : Trace :=
  [⟨.fOpen .helloFsrc helloName createMode, FResult.ok⟩, say "FS: f_open(\"hello.txt\") succeeded\r\n",
    ⟨.fPuts "Hello World" .helloFsrc, (11 : ℤ)⟩,
    say "FS: f_puts(\"Hello World\",\"hello.txt\") succeeded\r\n", ⟨.fClose .helloFsrc, FResult.ok⟩]

theorem helloTrace_runs : RunsSeq (Command.run T fuel) regs [.hello []] [helloTrace] regs := by
  have hhello : Runs (Command.run T fuel (.hello []) regs) helloTrace (.ok regs) := by
    simp [Command.run, cmdHello, helloTrace, say]
  exact .cons hhello (.nil _)

theorem helloTrace_takes (content : List Char) :
    ∃ card', Takes (Step upper) (jobOnly content) helloTrace card' ∧
      card'.files (upper helloName) = some (putsText "Hello World") :=
  ⟨_, .cons (.create rfl) (.cons (.aside trivial) (.cons (.puts rfl (by decide))
    (.cons (.aside trivial) (.cons (.close rfl) (.nil _))))), rfl⟩

/-- The job file is there behind a `hello`. -/
theorem session_frame_hello :
    ∃ card' : Card (List Char), card'.files (upper helloName) = some (putsText "Hello World") ∧
      (∀ fp, card'.handles fp = none) ∧
      ∀ file, (∀ c ∈ [Command.hello []], ¬ MayChange upper file c) →
        card'.files file = (jobOnly ['G', '1']).files file := by
  obtain ⟨card', htakes, hhello⟩ := helloTrace_takes ['G', '1']
  have hsession : Takes (Step upper) (jobOnly ['G', '1']) [helloTrace].flatten card' := htakes
  have hruns : RunsSeq (Command.run .exact 0) boot [.hello []] [helloTrace] boot := helloTrace_runs
  exact ⟨card', hhello, session_frame hruns hsession fun _ => rfl⟩

end GcodeFatfs.CardFiles
