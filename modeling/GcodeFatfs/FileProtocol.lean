import GcodeFatfs.CommandRuns

/-! The protocol of file objects: a call on a file object finds it open, an
object is not opened twice, and none is open when the volume is unregistered.
A session that follows it and ends with nothing open has closed every object it
opened exactly once. -/

namespace GcodeFatfs.FileProtocol
open GcodeFatfs.Interact GcodeFatfs.CArith GcodeFatfs.Board
open GcodeFatfs.FatCommands GcodeFatfs.GcodeParser GcodeFatfs.Gcodetest GcodeFatfs.CommandRuns

/-- What may be called with the objects `o` open. -/
def Allowed (o : OpenFiles) (e : Event) : Prop :=
  match e.op with
  | .fClose fp | .fGets _ fp | .fPuts _ fp | .fRead fp _ => o fp = true
  | .fOpen fp _ _ => o fp = false
  | .fMount none => o = noneOpen
  | _ => True

abbrev Protocol (o : OpenFiles) (t : Trace) : Prop := Follows OpenFiles.next Allowed o t

/-- The outcomes with which a command keeps to the protocol: `gcodetest` opens
the job and the log and fails to unregister the volume; `bentest` opens its
file. -/
def Orderly (c : Command) (t : Trace) : Prop :=
  match c with
  | .gcodetest =>
    ⟨.fOpen .fil jobName [.read], FResult.ok⟩ ∈ t ∧
      ⟨.fOpen .debugfil logName createMode, FResult.ok⟩ ∈ t ∧
      ⟨.fMount none, FResult.ok⟩ ∉ t
  | .bentest => ⟨.fOpen .bentestFil bentestName [.read], FResult.ok⟩ ∈ t
  | _ => True

variable {T : Target} {fuel : ℕ} {regs regs' : Regs} {o : OpenFiles} {t : Trace}

@[simp] theorem noneOpen_apply (fp : Fil) : noneOpen fp = false := rfl

@[simp] theorem set_same (fp : Fil) (b : Bool) : o.set fp b fp = b := by
  simp [OpenFiles.set]

@[simp] theorem set_other {fp fp' : Fil} (h : fp' ≠ fp) (b : Bool) : o.set fp b fp' = o fp' := by
  simp [OpenFiles.set, h]

@[simp] theorem set_set (fp : Fil) (b b' : Bool) : (o.set fp b).set fp b' = o.set fp b' := by
  funext fp'
  by_cases h : fp' = fp
  · subst h
    simp
  · simp [h]

@[simp] theorem set_closed {fp : Fil} (h : ¬ o fp = true) : o.set fp false = o := by
  funext fp'
  by_cases he : fp' = fp
  · subst he
    simp [h]
  · simp [he]

/-- The operations without a part in the protocol. -/
def IsOther (op : Op) : Prop :=
  needsOpen op = none ∧ (∀ fp p m, op ≠ .fOpen fp p m) ∧ op ≠ .fMount none

theorem other_allowed {e : Event} (h : IsOther e.op) : Allowed o e ∧ o.next e = o := by
  obtain ⟨op, x⟩ := e
  obtain ⟨hneeds, hopen, hmount⟩ := h
  cases op with
  | fOpen fp p m => exact absurd rfl (hopen fp p m)
  | fMount fs =>
    cases fs with
    | none => exact absurd rfl hmount
    | some _ => exact ⟨trivial, rfl⟩
  | fClose _ | fGets _ _ | fPuts _ _ | fRead _ _ => cases hneeds
  | _ => exact ⟨trivial, rfl⟩

theorem others_follow (h : ∀ e ∈ t, IsOther e.op) :
    Protocol o t ∧ t.foldl OpenFiles.next o = o :=
  ⟨follows_fixed fun e he => other_allowed (h e he),
    foldl_fixed fun e he => (other_allowed (h e he)).2⟩

theorem volumeOp_isOther {op : Op} (h : IsVolumeOp op) : IsOther op := by
  cases op <;> first | exact absurd h id | simp [IsOther, needsOpen]

/-- A turn of the loop of `cmd_gcodetest` is allowed with its two files open. -/
theorem jobTurn_allowed {e : Event} (h : IsJobTurn e.op) (hf : o .fil = true)
    (hd : o .debugfil = true) : Allowed o e ∧ o.next e = o := by
  obtain ⟨op, x⟩ := e
  cases op with
  | fGets len fp => cases fp <;> first | exact ⟨hf, rfl⟩ | cases h
  | fPuts s fp => cases fp <;> first | exact ⟨hd, rfl⟩ | cases h
  | chprintf m => exact ⟨trivial, rfl⟩
  | enterProcessLine line => exact ⟨trivial, rfl⟩
  | _ => cases h

theorem jobTurn_next {e : Event} (h : IsJobTurn e.op) : o.next e = o := by
  obtain ⟨op, x⟩ := e
  cases op <;> first | rfl | cases h

theorem catTurn_allowed {e : Event} (h : IsCatTurn e) (hf : o .catFsrc = true) :
    Allowed o e ∧ o.next e = o := by
  rcases h with ⟨_, rfl⟩ | ⟨_, rfl⟩
  · exact ⟨hf, rfl⟩
  · exact ⟨trivial, rfl⟩

theorem bentestTurn_allowed {e : Event} (h : IsBentestTurn e) (hf : o .bentestFil = true) :
    Allowed o e ∧ o.next e = o := by
  rcases h with h | ⟨_, rfl⟩
  · obtain ⟨op, x⟩ := e
    cases h
    exact ⟨hf, rfl⟩
  · exact ⟨trivial, rfl⟩

theorem bentestTurn_next {e : Event} (h : IsBentestTurn e) : o.next e = o := by
  rcases h with h | ⟨_, rfl⟩
  · obtain ⟨op, x⟩ := e
    cases h
    rfl
  · rfl

/-! ## One command -/

theorem unmountReport_follows (fmt : String) (err : FResult) :
    Protocol o (unmountReport fmt err) ∧ (unmountReport fmt err).foldl OpenFiles.next o = o := by
  refine others_follow ?_
  unfold unmountReport
  split <;> simp [say, sayError, IsOther, needsOpen]

theorem hello_orderly {argv : List (List Char)} (h : Runs (cmdHello argv) t (.ok ())) :
    Protocol noneOpen t ∧ t.foldl OpenFiles.next noneOpen = noneOpen := by
  rcases hello_runs h with rfl | ⟨err, he, rfl⟩ | ⟨written, cl, rfl⟩
  · exact ⟨by simp [Allowed, say], rfl⟩
  · simp [Allowed, OpenFiles.next, say, sayError, he]
  · simp [Allowed, OpenFiles.next, say]

theorem cat_orderly {argv : List (List Char)} (h : Runs (cmdCat fuel argv) t (.ok ())) :
    Protocol noneOpen t ∧ t.foldl OpenFiles.next noneOpen = noneOpen := by
  rcases cat_runs h with rfl | ⟨arg, err, he, rfl⟩ | ⟨arg, loop, hloop, hend⟩
  · exact ⟨by simp [Allowed, say], rfl⟩
  · simp [Allowed, OpenFiles.next, say, sayError, he]
  · have hturns : ∀ e ∈ loop, Allowed (noneOpen.set .catFsrc true) e ∧
        (noneOpen.set .catFsrc true).next e = noneOpen.set .catFsrc true :=
      fun e he => catTurn_allowed (hloop e he) (by simp)
    have hfollow : Protocol (noneOpen.set .catFsrc true) loop := follows_fixed hturns
    have hstay : loop.foldl OpenFiles.next (noneOpen.set .catFsrc true) =
        noneOpen.set .catFsrc true := foldl_fixed fun e he => (hturns e he).2
    rcases hend with ⟨cl, rfl⟩ | ⟨err, bytes, cl, -, rfl⟩
    · simp [Allowed, OpenFiles.next, say, hfollow, hstay]
    · simp [Allowed, OpenFiles.next, say, sayError, hfollow, hstay]

theorem bentest_orderly (h : Runs (cmdBentest fuel) t (.ok ())) :
    (Protocol noneOpen t ↔ Orderly .bentest t) ∧ t.foldl OpenFiles.next noneOpen = noneOpen := by
  obtain ⟨c, m, fr, cl, d, err, loop, hloop, rfl⟩ := bentest_runs h
  have hstay : ∀ o : OpenFiles, loop.foldl OpenFiles.next o = o :=
    fun o => foldl_fixed fun e he => bentestTurn_next (hloop e he)
  have hreport := unmountReport_follows (o := noneOpen) "FS: f_mount() unmount failed\r\n" err
  have hnot : ∀ x, (⟨.fOpen .bentestFil bentestName [.read], x⟩ : Event) ∉ loop := by
    intro x hx
    rcases hloop _ hx with h | ⟨_, h⟩ <;> cases h
  have hnot' : (⟨.fOpen .bentestFil bentestName [.read], FResult.ok⟩ : Event) ∉
      unmountReport "FS: f_mount() unmount failed\r\n" err := by
    unfold unmountReport
    split <;> simp [say, sayError]
  constructor
  · by_cases hfr : fr = .ok
    · subst hfr
      have hfollow : Protocol (noneOpen.set .bentestFil true) loop :=
        follows_fixed fun e he => bentestTurn_allowed (hloop e he) (by simp)
      simp [Allowed, OpenFiles.next, Orderly, say, hstay, hreport, hfollow]
    · -- the `f_close` is made all the same
      have hfr' : FResult.ok ≠ fr := fun h => hfr h.symm
      simp [Allowed, OpenFiles.next, Orderly, say, hstay, hfr, hfr', hnot, hnot']
  · simp [OpenFiles.next, say, hstay, hreport]

theorem openJobTrace_next (c : SdcRes) (m fr : FResult) :
    (openJobTrace c m fr).foldl OpenFiles.next o = o.set .fil (fr = .ok) := by
  unfold openJobTrace
  by_cases hfr : fr = .ok <;> simp [OpenFiles.next, say, hfr]

theorem openJobTrace_protocol (c : SdcRes) (m fr : FResult) :
    Protocol o (openJobTrace c m fr) ↔ o .fil = false := by
  unfold openJobTrace
  by_cases hfr : fr = .ok <;> simp [Allowed, OpenFiles.next, say, hfr]

theorem closeJobTrace_next (cl : FResult) (d : SdcRes) (err cl₂ : FResult) :
    (closeJobTrace cl d err cl₂).foldl OpenFiles.next o = o.set .fil false := by
  unfold closeJobTrace
  by_cases herr : err = .ok <;> simp [OpenFiles.next, say, sayError, herr]

/-- The job is closed once more behind a successful `f_mount(0, "", 0)`. -/
theorem closeJobTrace_protocol (cl : FResult) (d : SdcRes) (err cl₂ : FResult) :
    Protocol o (closeJobTrace cl d err cl₂) ↔
      o .fil = true ∧ o.set .fil false = noneOpen ∧ err ≠ .ok := by
  unfold closeJobTrace
  by_cases herr : err = .ok <;> simp [Allowed, OpenFiles.next, say, sayError, herr]

/-- `gcodetest` closes both files whatever happened. -/
theorem gcodetest_orderly (h : Runs (cmdGcodetest T fuel regs) t (.ok regs')) :
    (Protocol noneOpen t ↔ Orderly .gcodetest t) ∧ t.foldl OpenFiles.next noneOpen = noneOpen := by
  obtain ⟨c, m, fr, dfr, cd, cl, d, err, cl₂, loop, hloop, -, rfl⟩ := gcodetest_runs h
  have hstay : ∀ o : OpenFiles, loop.foldl OpenFiles.next o = o :=
    fun o => foldl_fixed fun e he => jobTurn_next (hloop e he)
  have hopen : ∀ fp path mode x, (⟨.fOpen fp path mode, x⟩ : Event) ∉ loop :=
    fun fp path mode x he => hloop _ he
  have hmount : ∀ fs x, (⟨.fMount fs, x⟩ : Event) ∉ loop := fun fs x he => hloop _ he
  have hsym : ∀ x : FResult, FResult.ok = x ↔ x = .ok := fun x => eq_comm
  have horderly : Orderly .gcodetest (openJobTrace c m fr ++
      ⟨.fOpen .debugfil logName createMode, dfr⟩ :: loop ++
        ⟨.fClose .debugfil, cd⟩ :: closeJobTrace cl d err cl₂) ↔
      fr = .ok ∧ dfr = .ok ∧ err ≠ .ok := by
    by_cases hfr : fr = .ok <;> by_cases herr : err = .ok <;>
      simp [Orderly, openJobTrace, closeJobTrace, say, sayError, hopen, hmount, hfr, herr, hsym]
  -- what is open at the `f_close` of the log
  have hmid : (openJobTrace c m fr ++ ⟨.fOpen .debugfil logName createMode, dfr⟩ :: loop).foldl
      OpenFiles.next noneOpen = (noneOpen.set .fil (fr = .ok)).set .debugfil (dfr = .ok) := by
    rw [List.foldl_append, openJobTrace_next, List.foldl_cons, hstay]
    rfl
  have hclosed : OpenFiles.next ((noneOpen.set .fil (fr = .ok)).set .debugfil (dfr = .ok))
      ⟨.fClose .debugfil, cd⟩ = noneOpen.set .fil (fr = .ok) := by
    show ((noneOpen.set .fil (fr = .ok)).set .debugfil (dfr = .ok)).set .debugfil false = _
    rw [set_set, set_closed (by simp)]
  rw [horderly]
  constructor
  · rw [Protocol, follows_append, hmid, follows_cons, hclosed]
    show _ ∧ _ ∧ Protocol _ (closeJobTrace cl d err cl₂) ↔ _
    rw [closeJobTrace_protocol]
    constructor
    · rintro ⟨-, hlog, hjob, -, herr⟩
      have hdfr : decide (dfr = .ok) = true := by simpa [Allowed] using hlog
      exact ⟨by simpa using hjob, by simpa using hdfr, herr⟩
    · rintro ⟨rfl, rfl, herr⟩
      have hturns : Protocol ((noneOpen.set .fil true).set .debugfil true) loop :=
        follows_fixed fun e he => jobTurn_allowed (hloop e he) (by simp) (by simp)
      refine ⟨follows_append.mpr ⟨(openJobTrace_protocol c m .ok).mpr rfl, ?_⟩, ?_⟩
      · rw [openJobTrace_next]
        exact ⟨by simp [Allowed], hturns⟩
      · exact ⟨by simp [Allowed], by simp, by simp, herr⟩
  · rw [List.foldl_append, hmid, List.foldl_cons, hclosed, closeJobTrace_next]
    simp

/-- Every command started with nothing open ends so, and keeps to the protocol
exactly with orderly outcomes. -/
theorem command_orderly {c : Command} (h : Runs (c.run T fuel regs) t (.ok regs')) :
    (Protocol noneOpen t ↔ Orderly c t) ∧ t.foldl OpenFiles.next noneOpen = noneOpen := by
  have hothers {P : Event → Prop} (hP : ∀ e, P e → IsOther e.op) (ht : ∀ e ∈ t, P e) :
      (Protocol noneOpen t ↔ True) ∧ t.foldl OpenFiles.next noneOpen = noneOpen := by
    obtain ⟨hfollow, hend⟩ := others_follow fun e he => hP e (ht e he)
    exact ⟨iff_of_true hfollow trivial, hend⟩
  have hvolume (hc : IsVolumeCommand c) := hothers (fun _ => volumeOp_isOther)
    (runs_only h (volume_only hc))
  cases c with
  | mkfs argv => exact hvolume trivial
  | mount =>
    refine hothers (P := fun e => IsOther e.op) (fun _ => id) ?_
    rcases mount_runs (runs_keep_regs h) with ⟨err, -, rfl⟩ | ⟨c, rfl⟩ <;>
      simp [IsOther, needsOpen, say, sayError]
  | unmount =>
    obtain ⟨c, err, rfl⟩ := unmount_runs (runs_keep_regs h)
    have hreport := unmountReport_follows (o := noneOpen) "FS: f_mount() unmount failed\r\n" err
    simp [Allowed, OpenFiles.next, Orderly, hreport]
  | getlabel argv => exact hvolume trivial
  | setlabel argv => exact hvolume trivial
  | tree => exact hvolume trivial
  | free => exact hvolume trivial
  | mkdir argv => exact hvolume trivial
  | hello argv =>
    obtain ⟨hfollow, hend⟩ := hello_orderly (runs_keep_regs h)
    exact ⟨iff_of_true hfollow trivial, hend⟩
  | cat argv =>
    obtain ⟨hfollow, hend⟩ := cat_orderly (runs_keep_regs h)
    exact ⟨iff_of_true hfollow trivial, hend⟩
  | gcodetest => exact gcodetest_orderly h
  | bentest => exact bentest_orderly (runs_keep_regs h)

/-! ## Sessions -/

theorem session_orderly {cs : List Command} {ts : List Trace}
    (h : RunsSeq (Command.run T fuel) regs cs ts regs') :
    (Protocol noneOpen ts.flatten ↔ List.Forall₂ Orderly cs ts) ∧
      ∀ o ∈ checkpoints OpenFiles.next noneOpen ts, o = noneOpen := by
  induction h with
  | nil => simp [checkpoints]
  | cons hrun _ ih =>
    obtain ⟨hfollow, hend⟩ := command_orderly hrun
    simpa [checkpoints, hend, hfollow, ih.1] using ih.2

/-- **File objects.** In any session every call finds its file object open, no
open object is opened and none is left open at an `f_mount(0, "", 0)` or behind
a command, if and only if every command has orderly outcomes. -/
theorem protocol_iff {cs : List Command} {ts : List Trace} (h : Session T fuel cs ts) :
    (Protocol noneOpen ts.flatten ∧ ∀ o ∈ checkpoints OpenFiles.next noneOpen ts, o = noneOpen) ↔
      List.Forall₂ Orderly cs ts := by
  obtain ⟨regs, h⟩ := h
  obtain ⟨hfollow, hend⟩ := session_orderly h
  rw [hfollow]
  exact and_iff_left hend

/-- `gcodetest` on an empty job with every call successful but the last: FatFs
rejects the `f_close` of a closed object. -/
def emptyJobTrace : Trace :=
  openJobTrace .success .ok .ok ++
    [⟨.fOpen .debugfil logName createMode, FResult.ok⟩, ⟨.fGets lineSize .fil, { ret := none }⟩,
      ⟨.fClose .debugfil, FResult.ok⟩] ++ closeJobTrace .ok .success .ok .invalidObject

theorem emptyJobTrace_session : Session .exact 1 [.gcodetest] [emptyJobTrace] := by
  have hrun : Runs (Command.run .exact 1 .gcodetest boot) emptyJobTrace (.ok boot) := by
    simp [Command.run, cmdGcodetest, openJob, jobLoop, closeJob, emptyJobTrace, openJobTrace,
      closeJobTrace, say]
  exact ⟨boot, .cons hrun (.nil boot)⟩

theorem protocol_iff_emptyJob :
    (Protocol noneOpen [emptyJobTrace].flatten ∧
      ∀ o ∈ checkpoints OpenFiles.next noneOpen [emptyJobTrace], o = noneOpen) ↔
      List.Forall₂ Orderly [.gcodetest] [emptyJobTrace] :=
  protocol_iff emptyJobTrace_session

/-- A `gcodetest` that goes well closes the job twice. -/
theorem job_closed_twice :
    Session .exact 1 [.gcodetest] [emptyJobTrace] ∧
      ¬ Protocol noneOpen [emptyJobTrace].flatten := by
  refine ⟨emptyJobTrace_session, ?_⟩
  simp [emptyJobTrace, openJobTrace, closeJobTrace, Allowed, OpenFiles.next, say]

end GcodeFatfs.FileProtocol
