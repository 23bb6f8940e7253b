import GcodeFatfs.CommandRuns

/-! The blue LED. readme.txt: it "will illuminate when a SD card is mounted".
Here the card is mounted when a work area is registered with FatFs and the card
is connected, and the question is when the LED says so between commands. -/

namespace GcodeFatfs.MountLed
open GcodeFatfs.Interact GcodeFatfs.CArith GcodeFatfs.Board
open GcodeFatfs.FatCommands GcodeFatfs.GcodeParser GcodeFatfs.Gcodetest GcodeFatfs.CommandRuns

/-- Whether an SD driver call leaves the card connected. -/
def SdcRes.leaves : SdcRes → Bool → Bool
  | .success, asked => asked
  | .failed connected, _ => connected

/-- The LED, the registered work area and the card. -/
structure Mount where
  lit : Bool := false
  area : Option WorkArea := none
  connected : Bool := false
  deriving DecidableEq, Repr

/-- A failed `f_mount` leaves the registration as it was. -/
def Mount.next (w : Mount) : Event → Mount
  | ⟨.palSetPad, _⟩ => { w with lit := true }
  | ⟨.palClearPad, _⟩ => { w with lit := false }
  | ⟨.sdcConnect, r⟩ => { w with connected := SdcRes.leaves r true }
  | ⟨.sdcDisconnect, r⟩ => { w with connected := SdcRes.leaves r false }
  | ⟨.fMount fs, err⟩ => if err = .ok then { w with area := fs } else w
  | _ => w

/-- The LED is lit exactly when the card is mounted. -/
def Mount.Agrees (w : Mount) : Prop := w.lit = true ↔ w.area.isSome = true ∧ w.connected = true

/-- The outcomes with which a command leaves the LED right: a `mount` fails in
`f_mount` or connects the card; a command that ends by unmounting unregisters
the work area, or disconnects the card, or there was no area to unregister. -/
def LeavesRight (c : Command) (w : Mount) (t : Trace) : Prop :=
  match c with
  | .mount =>
    (∃ err, ⟨.fMount (some .fat), err⟩ ∈ t ∧ err ≠ FResult.ok) ∨
      ∃ r, ⟨.sdcConnect, r⟩ ∈ t ∧ SdcRes.leaves r true = true
  | .unmount | .gcodetest | .bentest =>
    ⟨.fMount none, FResult.ok⟩ ∈ t ∨
      (∃ r, ⟨.sdcDisconnect, r⟩ ∈ t ∧ SdcRes.leaves r false = false) ∨
      w.area = none ∧ ∀ fs, ⟨.fMount (some fs), FResult.ok⟩ ∉ t
  | _ => True

variable {T : Target} {fuel : ℕ} {regs regs' : Regs} {w : Mount} {t : Trace}

/-- The operations that change the state. -/
def IsMountOp : Op → Prop
  | .palSetPad | .palClearPad | .sdcConnect | .sdcDisconnect | .fMount _ => True
  | _ => False

theorem foldl_noMount (h : ∀ e ∈ t, ¬ IsMountOp e.op) : t.foldl Mount.next w = w := by
  apply foldl_fixed
  intro e he
  have hop := h e he
  obtain ⟨op, x⟩ := e
  cases op <;> first | rfl | exact absurd trivial hop

theorem noMount_of_volumeOp {o : Op} (h : IsVolumeOp o) : ¬ IsMountOp o := by
  cases o <;> first | exact id | cases h

theorem noMount_of_jobTurn {o : Op} (h : IsJobTurn o) : ¬ IsMountOp o := by
  cases o <;> first | exact id | cases h

theorem noMount_of_catTurn {e : Event} (h : IsCatTurn e) : ¬ IsMountOp e.op := by
  rcases h with ⟨_, rfl⟩ | ⟨_, rfl⟩ <;> exact id

theorem noMount_of_bentestTurn {e : Event} (h : IsBentestTurn e) : ¬ IsMountOp e.op := by
  rcases h with h | ⟨_, rfl⟩
  · rw [h]
    exact id
  · exact id

/-! ## One command -/

/-- The state after the LED is put out, the card disconnected and the work area
unregistered, with the answers of the two calls. -/
def Mount.unmounted (w : Mount) (d : SdcRes) (err : FResult) : Mount :=
  ⟨false, if err = .ok then none else w.area, SdcRes.leaves d false⟩

theorem unmounted_agrees (w : Mount) (d : SdcRes) (err : FResult) :
    (w.unmounted d err).Agrees ↔
      err = .ok ∨ SdcRes.leaves d false = false ∨ w.area = none := by
  unfold Mount.Agrees Mount.unmounted
  by_cases he : err = .ok
  · simp [he]
  · cases hd : SdcRes.leaves d false <;> simp [he]

theorem foldl_unmountReport (fmt : String) (err : FResult) :
    (unmountReport fmt err).foldl Mount.next w = w := by
  unfold unmountReport
  split <;> rfl

theorem mount_leavesRight (h : Runs cmdMount t (.ok ())) (hw : w.Agrees) :
    (t.foldl Mount.next w).Agrees ↔ LeavesRight .mount w t := by
  rcases mount_runs h with ⟨err, he, rfl⟩ | ⟨c, rfl⟩
  · have hsame : List.foldl Mount.next w [⟨.fMount (some .fat), err⟩,
        say "FS: f_mount() failed. Is the SD card inserted?\r\n", sayError err] = w := if_neg he
    rw [hsame]
    exact ⟨fun _ => .inl ⟨err, by simp, he⟩, fun _ => hw⟩
  · simp [Mount.next, Mount.Agrees, LeavesRight, say]

theorem unmount_leavesRight (h : Runs cmdUnmount t (.ok ())) :
    (t.foldl Mount.next w).Agrees ↔ LeavesRight .unmount w t := by
  obtain ⟨d, err, rfl⟩ := unmount_runs h
  have hend : List.foldl Mount.next w ([⟨.palClearPad, ()⟩, ⟨.sdcDisconnect, d⟩,
      ⟨.fMount none, err⟩] ++ unmountReport "FS: f_mount() unmount failed\r\n" err) =
      w.unmounted d err := by
    rw [List.foldl_append, foldl_unmountReport]
    simp only [List.foldl_cons, List.foldl_nil, Mount.next, Mount.unmounted]
    split <;> rfl
  rw [hend, unmounted_agrees]
  unfold LeavesRight unmountReport
  by_cases he : err = .ok
  · simp [he]
  · have he' : ¬ FResult.ok = err := fun h => he h.symm
    simp [he, he', say, sayError]

/-- A command that mounts at its start and unmounts at its end: `pre` ends with
the answer `m` to the registration, `post` starts before the LED goes out. -/
theorem job_leavesRight (pre loop post : Trace) (fs : WorkArea) (c d : SdcRes) (m err : FResult)
    (hpre : ∀ e ∈ pre, ¬ IsMountOp e.op) (hloop : ∀ e ∈ loop, ¬ IsMountOp e.op)
    (hpost : ∀ e ∈ post, ¬ IsMountOp e.op)
    (ht : t = pre ++ [⟨.palSetPad, ()⟩, ⟨.sdcConnect, c⟩, ⟨.fMount (some fs), m⟩] ++ loop ++
      [⟨.palClearPad, ()⟩, ⟨.sdcDisconnect, d⟩, ⟨.fMount none, err⟩] ++ post) :
    (t.foldl Mount.next w).Agrees ↔ LeavesRight .gcodetest w t := by
  have hfold : t.foldl Mount.next w =
      (Mount.next (Mount.next { w with lit := true } ⟨.sdcConnect, c⟩)
        ⟨.fMount (some fs), m⟩).unmounted d err := by
    rw [ht]
    simp only [List.foldl_append, foldl_noMount hpre, foldl_noMount hpost, List.foldl_cons,
      List.foldl_nil, foldl_noMount hloop]
    simp only [Mount.next, Mount.unmounted]
    split <;> rfl
  have hnone {e : Event} (he : IsMountOp e.op) : e ∉ pre ∧ e ∉ loop ∧ e ∉ post :=
    ⟨fun h => hpre e h he, fun h => hloop e h he, fun h => hpost e h he⟩
  have hreg (fs : Option WorkArea) (x : FResult) := @hnone ⟨.fMount fs, x⟩ trivial
  have hdis (r : SdcRes) := @hnone ⟨.sdcDisconnect, r⟩ trivial
  rw [hfold, unmounted_agrees, ht]
  have hsym (x : FResult) : FResult.ok = x ↔ x = .ok := eq_comm
  simp only [LeavesRight, List.mem_append, List.mem_cons, List.not_mem_nil, or_false, hreg, hdis]
  by_cases hm : m = .ok
  · simp [Mount.next, hsym, hm]
  · simp [Mount.next, hsym, hm]

theorem noMount_report (fmt : String) (err : FResult) :
    ∀ e ∈ unmountReport fmt err, ¬ IsMountOp e.op := by
  unfold unmountReport
  split <;> simp [say, sayError, IsMountOp]

theorem bentest_leavesRight (h : Runs (cmdBentest fuel) t (.ok ())) :
    (t.foldl Mount.next w).Agrees ↔ LeavesRight .bentest w t := by
  obtain ⟨c, m, fr, cl, d, err, loop, hloop, rfl⟩ := bentest_runs h
  refine job_leavesRight [say "Attempting to read out message.txt\r\n"]
    ([⟨.fOpen .bentestFil bentestName [.read], fr⟩] ++ loop ++ [⟨.fClose .bentestFil, cl⟩])
    (unmountReport "FS: f_mount() unmount failed\r\n" err) .fat c d m err
    (by simp [say, IsMountOp]) ?_ (noMount_report _ _) (by simp)
  have hturns : ∀ e ∈ loop, ¬ IsMountOp e.op := fun e he => noMount_of_bentestTurn (hloop e he)
  simpa [IsMountOp, or_imp, forall_and] using hturns

theorem gcodetest_leavesRight (h : Runs (cmdGcodetest T fuel regs) t (.ok regs')) :
    (t.foldl Mount.next w).Agrees ↔ LeavesRight .gcodetest w t := by
  obtain ⟨c, m, fr, dfr, cd, cl, d, err, cl₂, loop, hloop, -, rfl⟩ := gcodetest_runs h
  have hturns : ∀ e ∈ loop, ¬ IsMountOp e.op := fun e he => noMount_of_jobTurn (hloop e he)
  refine job_leavesRight [say "attempting to read job file\r\n"]
    ([⟨.fOpen .fil jobName [.read], fr⟩] ++
      (if fr = .ok then [] else [say "FS: f_open() cannot open file %s\r\n" [.str jobName]]) ++
      [⟨.fOpen .debugfil logName createMode, dfr⟩] ++ loop ++
      [⟨.fClose .debugfil, cd⟩, ⟨.fClose .fil, cl⟩])
    (if err = .ok then [⟨.fClose .fil, cl₂⟩]
      else [say "FS: f_mount() unmount failed!\r\n", sayError err]) .gcode c d m err
    (by simp [say, IsMountOp]) ?_ ?_ (by simp [openJobTrace, closeJobTrace])
  · split <;> simpa [say, IsMountOp, or_imp, forall_and] using hturns
  · split <;> simp [say, sayError, IsMountOp]

/-- One command of any kind, started with the LED right. -/
theorem command_leavesRight {c : Command} (h : Runs (c.run T fuel regs) t (.ok regs'))
    (hw : w.Agrees) : (t.foldl Mount.next w).Agrees ↔ LeavesRight c w t := by
  have hsame {P : Event → Prop} (hP : ∀ e, P e → ¬ IsMountOp e.op) (ht : ∀ e ∈ t, P e) :
      (t.foldl Mount.next w).Agrees ↔ True := by
    rw [foldl_noMount fun e he => hP e (ht e he)]
    exact iff_of_true hw trivial
  have hvolume (hc : IsVolumeCommand c) : (t.foldl Mount.next w).Agrees ↔ True :=
    hsame (fun _ => noMount_of_volumeOp) (runs_only h (volume_only hc))
  cases c with
  | mkfs argv => exact hvolume trivial
  | mount => exact mount_leavesRight (runs_keep_regs h) hw
  | unmount => exact unmount_leavesRight (runs_keep_regs h)
  | getlabel argv => exact hvolume trivial
  | setlabel argv => exact hvolume trivial
  | tree => exact hvolume trivial
  | free => exact hvolume trivial
  | mkdir argv => exact hvolume trivial
  | hello argv =>
    refine hsame (P := fun e => ¬ IsMountOp e.op) (fun _ => id) ?_
    rcases hello_runs (runs_keep_regs h) with rfl | ⟨_, _, rfl⟩ | ⟨_, _, rfl⟩ <;>
      simp [say, sayError, IsMountOp]
  | cat argv =>
    refine hsame (P := fun e => ¬ IsMountOp e.op) (fun _ => id) ?_
    rcases cat_runs (runs_keep_regs h) with rfl | ⟨_, _, _, rfl⟩ | ⟨arg, loop, hloop, hend⟩
    · simp [say, IsMountOp]
    · simp [say, sayError, IsMountOp]
    · have hturns : ∀ e ∈ loop, ¬ IsMountOp e.op := fun e he => noMount_of_catTurn (hloop e he)
      rcases hend with ⟨_, rfl⟩ | ⟨_, _, _, _, rfl⟩ <;>
        simpa [say, sayError, IsMountOp, or_imp, forall_and] using hturns
  | gcodetest => exact gcodetest_leavesRight h
  | bentest => exact bentest_leavesRight (runs_keep_regs h)

/-! ## Sessions -/

/-- Every command of a session has outcomes with which it leaves the LED right. -/
def AllLeaveRight : List Command → Mount → List Trace → Prop
  | c :: cs, w, t :: ts => LeavesRight c w t ∧ AllLeaveRight cs (t.foldl Mount.next w) ts
  | _, _, _ => True

theorem checkpoints_agree {cs : List Command} {ts : List Trace}
    (h : RunsSeq (Command.run T fuel) regs cs ts regs') (hw : w.Agrees) :
    (∀ w' ∈ checkpoints Mount.next w ts, w'.Agrees) ↔ AllLeaveRight cs w ts := by
  induction h generalizing w with
  | nil => simp [checkpoints, AllLeaveRight]
  | cons hrun _ ih =>
    have hstep := command_leavesRight hrun hw
    simp only [checkpoints, AllLeaveRight, List.forall_mem_cons]
    constructor
    · rintro ⟨ha, hrest⟩
      exact ⟨hstep.mp ha, (ih ha).mp hrest⟩
    · rintro ⟨hl, hrest⟩
      have ha := hstep.mpr hl
      exact ⟨ha, (ih ha).mpr hrest⟩

/-- **The LED.** In any session from boot the LED is lit exactly when the card is
mounted, between all commands, if and only if every command has outcomes with
which it leaves the LED right. -/
theorem led_agrees_iff {cs : List Command} {ts : List Trace} (h : Session T fuel cs ts) :
    (∀ w ∈ checkpoints Mount.next {} ts, w.Agrees) ↔ AllLeaveRight cs {} ts := by
  obtain ⟨regs, h⟩ := h
  exact checkpoints_agree h (by simp [Mount.Agrees])

/-- A `mount` whose `f_mount` succeeds, with the answer of `sdcConnect`. -/
def mountTrace (c : SdcRes) : Trace :=
  [⟨.fMount (some .fat), FResult.ok⟩, say "FS: f_mount() succeeded\r\n", ⟨.palSetPad, ()⟩,
    ⟨.sdcConnect, c⟩]

theorem mountTrace_session (c : SdcRes) : Session .exact 0 [.mount] [mountTrace c] := by
  have hrun : Runs (Command.run .exact 0 .mount boot) (mountTrace c) (.ok boot) := by
    simp [Command.run, cmdMount, mountTrace, say]
  exact ⟨boot, .cons hrun (.nil boot)⟩

theorem led_agrees_iff_mount :
    (∀ w ∈ checkpoints Mount.next {} [mountTrace .success], w.Agrees) ↔
      AllLeaveRight [.mount] {} [mountTrace .success] :=
  led_agrees_iff (mountTrace_session .success)

/-- Without a card `mount` lights the LED all the same. -/
theorem led_lit_without_card :
    Session .exact 0 [.mount] [mountTrace (.failed false)] ∧
      checkpoints Mount.next {} [mountTrace (.failed false)] = [⟨true, some .fat, false⟩] ∧
      ¬ ∀ w ∈ checkpoints Mount.next {} [mountTrace (.failed false)], w.Agrees := by
  refine ⟨mountTrace_session _, rfl, ?_⟩
  intro h
  have hlit := (h ⟨true, some .fat, false⟩ (by simp [checkpoints, mountTrace, say, Mount.next,
    SdcRes.leaves])).mp rfl
  exact absurd hlit.2 (by decide)

end GcodeFatfs.MountLed
