import GcodeFatfs.FaultReports
import GcodeFatfs.Footprint

/-! What the operator can rely on in a failure message: the call it names has
just failed, and the text behind it is that of the code the call returned. -/

namespace GcodeFatfs.Diagnostics
open GcodeFatfs.Interact GcodeFatfs.CArith GcodeFatfs.CString GcodeFatfs.Board
open GcodeFatfs.FatCommands GcodeFatfs.GcodeParser GcodeFatfs.Gcodetest GcodeFatfs.CommandRuns
open GcodeFatfs.FaultReports GcodeFatfs.Footprint

/-! ## Messages and calls -/

/-- The calls that a failure message is about. -/
def IsAbout (fmt : String) : Op → Prop
  | .fOpendir _ _ => fmt = "FS: f_opendir() failed\r\n"
  | .fMount (some _) => fmt = "FS: f_mount() failed. Is the SD card inserted?\r\n"
  | .fMount none =>
    fmt = "FS: f_mount() unmount failed\r\n" ∨ fmt = "FS: f_mount() unmount failed!\r\n"
  | .fMkfs _ => fmt = "FS: f_mkfs() failed\r\n"
  | .fGetfree _ => fmt = "FS: f_getfree() failed\r\n"
  | .fSetlabel _ => fmt = "FS: f_setlabel(%s) failed.\r\n"
  | .fGetlabel _ => fmt = "FS: f_getlabel failed.\r\n"
  | .fMkdir _ => fmt = "FS: f_mkdir(%s) failed\r\n"
  | .fOpen fp _ _ =>
    (fp = .helloFsrc ∧ fmt = "FS: f_open(\"hello.txt\") failed.\r\n") ∨
      (fp = .catFsrc ∧ fmt = "FS: f_open(%s) failed.\r\n") ∨
      (fp = .fil ∧ fmt = "FS: f_open() cannot open file %s\r\n")
  | .fPuts _ _ => fmt = "FS: f_puts(\"Hello World\",\"hello.txt\") failed\r\n"
  | .fRead _ _ => fmt = "FS: f_read() failed\r\n"
  | _ => False

/-- The code a call returned. -/
def code : Event → Option FResult
  | ⟨.fMount _, err⟩ => some err
  | ⟨.fOpen _ _ _, err⟩ => some err
  | ⟨.fClose _, err⟩ => some err
  | ⟨.fRead _ _, r⟩ => some r.1
  | ⟨.fOpendir _ _, err⟩ => some err
  | ⟨.fReaddir _, r⟩ => some r.1
  | ⟨.fGetfree _, r⟩ => some r.1
  | ⟨.fMkdir _, err⟩ => some err
  | ⟨.fSetlabel _, err⟩ => some err
  | ⟨.fGetlabel _, r⟩ => some r.1
  | ⟨.fMkfs _, err⟩ => some err
  | _ => none

/-- A failure message stands right behind a failed call it is about, an error
text right behind such a message, with the code of the call. -/
def Justified (past : Trace) (e : Event) : Prop :=
  match e.op with
  | .chprintf m =>
    (m.fmt ∈ failureFmts → ∃ call rest, past = call :: rest ∧ Failed call ∧ IsAbout m.fmt call.op) ∧
    (m.fmt = errorFmt → ∃ msg call rest err, past = msg :: call :: rest ∧ TellsFailure msg.op ∧
      code call = some err ∧ err ≠ .ok ∧ m.args = [.text (fresultStr err)])
  | _ => True

def push (past : Trace) (e : Event) : Trace := e :: past

/-- Every failure message and error text of a trace is justified by what stands
in front of it. -/
abbrev Honest (past t : Trace) : Prop := Follows push Justified past t

abbrev ObeysHonest {α : Type} (past : Trace) (p : Shell α) : Prop := p.Obeys push Justified past

variable {α : Type} {T : Target} {fuel : ℕ} {regs regs' : Regs} {t past : Trace}

/-! ## Operations without a part in it -/

/-- The operations that report no failure. -/
def IsPlain : Op → Prop
  | .chprintf m => m.fmt ∉ failureFmts ∧ m.fmt ≠ errorFmt
  | _ => True

theorem plain_justified (past : Trace) (e : Event) (h : IsPlain e.op) : Justified past e := by
  obtain ⟨op, x⟩ := e
  cases op with
  | chprintf m => exact ⟨fun hf => absurd hf h.1, fun hf => absurd hf h.2⟩
  | _ => trivial

theorem plain_honest {p : Shell α} (h : p.Only IsPlain) : ObeysHonest past p :=
  obeys_of_only plain_justified h past

/-- A failed call, its failure message and the text of its code. -/
theorem report_honest {call : Event} {err : FResult} {fmt : String} {args : List Arg}
    {k : Unit → Shell α} (hcode : code call = some err) (herr : err ≠ .ok) (hfailed : Failed call)
    (habout : IsAbout fmt call.op) (hfmt : fmt ∈ failureFmts) (hk : (k ()).Only IsPlain) :
    ObeysHonest (call :: past) (.call (.chprintf ⟨fmt, args⟩) fun _ =>
      .call (.chprintf ⟨errorFmt, [.text (fresultStr err)]⟩) k) := by
  have herror : errorFmt ∉ failureFmts := by simp [failureFmts, errorFmt]
  refine fun _ => ⟨⟨fun _ => ⟨call, past, rfl, hfailed, habout⟩, ?_⟩, fun _ => ⟨⟨?_, ?_⟩, plain_honest hk⟩⟩
  · rintro rfl
    exact absurd hfmt herror
  · exact fun hf => absurd hf herror
  · exact fun _ => ⟨_, call, past, err, rfl, hfmt, hcode, herr, rfl⟩

/-- A failure message without an error text behind it. -/
theorem told_honest {call : Event} {fmt : String} {args : List Arg} {k : Unit → Shell α}
    (hfailed : Failed call) (habout : IsAbout fmt call.op) (hne : fmt ≠ errorFmt)
    (hk : (k ()).Only IsPlain) :
    ObeysHonest (call :: past) (.call (.chprintf ⟨fmt, args⟩) k) := fun _ =>
  ⟨⟨fun _ => ⟨call, past, rfl, hfailed, habout⟩, fun hf => absurd hf hne⟩, plain_honest hk⟩

/-- What comes behind a call whose code is looked at. -/
theorem checked_honest {call : Event} {err : FResult} {fmt : String} {args : List Arg}
    {good : Shell Unit} (hcode : code call = some err) (hfailed : Failed call ↔ err ≠ .ok)
    (habout : IsAbout fmt call.op) (hfmt : fmt ∈ failureFmts) (hgood : ObeysHonest (call :: past) good) :
    ObeysHonest (call :: past)
      (if err ≠ .ok then (do chprintf fmt args; verboseError err) else good) := by
  split
  · rename_i herr
    exact report_honest hcode herr (hfailed.mpr herr) habout hfmt trivial
  · exact hgood

/-! ## The commands -/

theorem mount_honest : ObeysHonest past cmdMount := fun _ =>
  ⟨trivial, checked_honest rfl Iff.rfl rfl (by simp [failureFmts])
    (plain_honest (by simp [IsPlain, failureFmts, errorFmt]))⟩

theorem unmountEnd_honest {fmt : String} (habout : IsAbout fmt (.fMount none))
    (hfmt : fmt ∈ failureFmts) : ObeysHonest past (do
      let err ← fMount none
      if err ≠ .ok then
        chprintf fmt
        verboseError err) := fun _ =>
  ⟨trivial, checked_honest rfl Iff.rfl habout hfmt trivial⟩

theorem unmount_honest : ObeysHonest past cmdUnmount := fun _ =>
  ⟨trivial, fun _ => ⟨trivial, unmountEnd_honest (.inl rfl) (by simp [failureFmts])⟩⟩

theorem mkfs_honest (argv : List (List Char)) : ObeysHonest past (cmdMkfs argv) := by
  unfold cmdMkfs
  split
  · refine fun _ => ⟨by simp [Justified, failureFmts, errorFmt], fun _ => ⟨trivial, ?_⟩⟩
    exact checked_honest rfl Iff.rfl rfl (by simp [failureFmts])
      (plain_honest (by simp [IsPlain, failureFmts, errorFmt]))
  · exact plain_honest (by simp [IsPlain, failureFmts, errorFmt])

theorem setlabel_honest (argv : List (List Char)) : ObeysHonest past (cmdSetlabel argv) := by
  unfold cmdSetlabel
  split
  · exact fun _ => ⟨trivial, checked_honest rfl Iff.rfl rfl (by simp [failureFmts])
      (plain_honest (by simp [IsPlain, failureFmts, errorFmt]))⟩
  · exact plain_honest (by simp [IsPlain, failureFmts, errorFmt])

theorem getlabel_honest (argv : List (List Char)) : ObeysHonest past (cmdGetlabel argv) := by
  unfold cmdGetlabel
  split
  · exact fun _ => ⟨trivial, checked_honest rfl Iff.rfl rfl (by simp [failureFmts])
      (plain_honest (by simp [IsPlain, failureFmts, errorFmt]))⟩
  · exact plain_honest (by simp [IsPlain, failureFmts, errorFmt])

theorem mkdir_honest (argv : List (List Char)) : ObeysHonest past (cmdMkdir argv) := by
  unfold cmdMkdir
  split
  · exact fun _ => ⟨trivial, checked_honest rfl Iff.rfl rfl (by simp [failureFmts])
      (plain_honest (by simp [IsPlain, failureFmts, errorFmt]))⟩
  · exact plain_honest (by simp [IsPlain, failureFmts, errorFmt])

theorem free_honest : ObeysHonest past cmdFree := by
  rintro ⟨err, clusters, csize⟩
  refine ⟨trivial, ?_⟩
  show ObeysHonest _ (if err ≠ .ok then _ else _)
  split
  · exact told_honest ‹_› rfl (by simp [errorFmt]) trivial
  · exact plain_honest (by simp [IsPlain, failureFmts, errorFmt])

theorem hello_honest (argv : List (List Char)) : ObeysHonest past (cmdHello argv) := by
  unfold cmdHello
  split
  · refine fun err => ⟨trivial, ?_⟩
    refine checked_honest rfl Iff.rfl (.inl ⟨rfl, rfl⟩) (by simp [failureFmts]) ?_
    refine fun _ => ⟨by simp [Justified, failureFmts, errorFmt], fun written => ⟨trivial, ?_⟩⟩
    show ObeysHonest _ (if written = -1 then _ else _)
    split
    · exact told_honest ‹_› rfl (by simp [errorFmt]) ⟨trivial, fun _ => trivial⟩
    · exact plain_honest (by simp [IsPlain, failureFmts, errorFmt])
  · exact plain_honest (by simp [IsPlain, failureFmts, errorFmt])

/-- Only a failing `f_opendir` is reported. -/
theorem scan_honest (fuel : ℕ) :
    (∀ dir path past, ObeysHonest past (scanFiles fuel dir path)) ∧
      ∀ dir i path past, ObeysHonest past (scanLoop fuel dir i path) := by
  induction fuel with
  | zero => exact ⟨fun _ _ _ => trivial, fun _ _ _ _ => trivial⟩
  | succ fuel ih =>
    obtain ⟨ihFiles, ihLoop⟩ := ih
    constructor
    · intro dir path past
      simp only [scanFiles, fOpendir, chprintf, call_bind, ret_bind, obeys_call]
      intro res
      refine ⟨trivial, ?_⟩
      split
      · exact ihLoop _ _ _ _
      · exact told_honest ‹_› rfl (by simp [errorFmt]) trivial
    · intro dir i path past
      simp only [scanLoop, fReaddir, chprintf, call_bind, ret_bind, obeys_call]
      intro r
      refine ⟨trivial, ?_⟩
      split
      · trivial
      split
      · exact ihLoop _ _ _ _
      refine obeys_call.mpr fun _ => ⟨by simp [Justified, failureFmts, errorFmt], ?_⟩
      split
      · refine obeys_bind (plain_honest (store_only _ _ _)) fun _ _ => ?_
        refine obeys_bind (plain_honest (strcpyAt_only _ _ _)) fun _ _ => ?_
        refine obeys_call.mpr fun _ => ⟨by simp [Justified, failureFmts, errorFmt], ?_⟩
        refine obeys_bind (ihFiles _ _ _) fun _ _ => ?_
        split
        · trivial
        · exact obeys_bind (plain_honest (store_only _ _ _)) fun _ _ => ihLoop _ _ _ _
      · exact obeys_call.mpr fun _ =>
          ⟨by simp [Justified, failureFmts, errorFmt], ihLoop _ _ _ _⟩

theorem catLoop_honest (fuel : ℕ) (past : Trace) : ObeysHonest past (catLoop fuel) := by
  induction fuel generalizing past with
  | zero => trivial
  | succ fuel ih =>
    rintro ⟨err, bytes⟩
    refine ⟨trivial, ?_⟩
    show ObeysHonest _ (if err ≠ .ok then _ else _)
    split
    · rename_i herr
      exact report_honest rfl herr herr rfl (by simp [failureFmts]) ⟨trivial, fun _ => trivial⟩
    · refine fun _ => ⟨by simp [Justified, failureFmts, errorFmt], ?_⟩
      show ObeysHonest _ (if bytes.length ≥ catBufferSize then _ else _)
      split
      · exact ih _
      · trivial

theorem cat_honest (argv : List (List Char)) : ObeysHonest past (cmdCat fuel argv) := by
  unfold cmdCat
  split
  · refine fun err => ⟨trivial, ?_⟩
    refine checked_honest rfl Iff.rfl (.inr (.inl ⟨rfl, rfl⟩)) (by simp [failureFmts]) ?_
    refine obeys_bind (catLoop_honest fuel _) fun finished past => ?_
    cases finished with
    | true => exact plain_honest (by simp [IsPlain, failureFmts, errorFmt])
    | false => trivial
  · exact plain_honest (by simp [IsPlain, failureFmts, errorFmt])

theorem bentest_honest : ObeysHonest past (cmdBentest fuel) := by
  have hloop (fuel : ℕ) : (bentestLoop fuel).Only IsPlain := by
    induction fuel with
    | zero => trivial
    | succ fuel ih =>
      simp only [bentestLoop, fGets, chprintf, call_bind, ret_bind, only_call]
      refine ⟨trivial, fun got => ?_⟩
      split
      · trivial
      · exact only_call.mpr ⟨by simp [IsPlain, failureFmts, errorFmt], fun _ => ih⟩
  unfold cmdBentest
  simp only [chprintf, palSetPad, sdcConnect, fMount, fOpen, call_bind, ret_bind, obeys_call]
  intro _
  refine ⟨by simp [Justified, failureFmts, errorFmt], fun _ => ⟨trivial, fun _ => ⟨trivial,
    fun _ => ⟨trivial, fun _ => ⟨trivial, obeys_bind (plain_honest (hloop fuel)) fun _ past => ?_⟩⟩⟩⟩⟩
  exact fun _ => ⟨trivial, unmount_honest⟩

theorem openJob_honest : ObeysHonest past (openJob jobName) := by
  refine fun _ => ⟨by simp [Justified, failureFmts, errorFmt], fun _ => ⟨trivial, fun _ => ⟨trivial,
    fun _ => ⟨trivial, fun fr => ⟨trivial, ?_⟩⟩⟩⟩⟩
  show ObeysHonest _ (if fr ≠ .ok then _ else _)
  split
  · exact told_honest ‹_› (.inr (.inr ⟨rfl, rfl⟩)) (by simp [errorFmt]) trivial
  · trivial

theorem closeJob_honest : ObeysHonest past closeJob := by
  refine fun _ => ⟨trivial, fun _ => ⟨trivial, fun _ => ⟨trivial, fun err => ⟨trivial, ?_⟩⟩⟩⟩
  show ObeysHonest _ (if err ≠ .ok then _ else _)
  split
  · rename_i herr
    exact report_honest rfl herr herr (.inr rfl) (by simp [failureFmts]) trivial
  · exact fun _ => ⟨trivial, trivial⟩

theorem jobLoop_plain (T : Target) (fuel : ℕ) (regs : Regs) :
    (jobLoop T fuel regs).Only IsPlain := by
  refine jobLoop_only T trivial (fun _ => trivial) (fun _ => trivial) ?_ ?_ fuel regs
  · intro regs line m hm
    rcases processLine_msgs hm with h | h <;> simp [IsPlain, failureFmts, errorFmt, h]
  · intro p m hm
    simp only [moveMsgs, List.mem_cons, List.not_mem_nil, or_false] at hm
    rcases hm with rfl | rfl | rfl | rfl | rfl | rfl <;> simp [IsPlain, failureFmts, errorFmt]

theorem gcodetest_honest : ObeysHonest past (cmdGcodetest T fuel regs) := by
  refine obeys_bind openJob_honest fun retval past => ?_
  simp only [fOpen, call_bind, ret_bind, obeys_call]
  refine fun _ => ⟨trivial, ?_⟩
  have hclose (regs₁ : Regs) (past : Trace) : ObeysHonest past (do
      let _ ← fClose .debugfil
      let _ ← closeJob
      pure regs₁) := by
    simp only [fClose, call_bind, ret_bind, obeys_call]
    exact fun _ => ⟨trivial, obeys_bind closeJob_honest fun _ _ => trivial⟩
  split
  · exact obeys_bind (plain_honest (jobLoop_plain T fuel regs)) hclose
  · exact hclose regs _

theorem command_honest (c : Command) : ObeysHonest past (c.run T fuel regs) := by
  cases c with
  | mkfs argv => exact obeys_bind (mkfs_honest argv) fun _ _ => trivial
  | mount => exact obeys_bind mount_honest fun _ _ => trivial
  | unmount => exact obeys_bind unmount_honest fun _ _ => trivial
  | getlabel argv => exact obeys_bind (getlabel_honest argv) fun _ _ => trivial
  | setlabel argv => exact obeys_bind (setlabel_honest argv) fun _ _ => trivial
  | tree =>
    exact obeys_bind (obeys_bind ((scan_honest fuel).1 _ _ _) fun _ _ => trivial) fun _ _ => trivial
  | free => exact obeys_bind free_honest fun _ _ => trivial
  | mkdir argv => exact obeys_bind (mkdir_honest argv) fun _ _ => trivial
  | hello argv => exact obeys_bind (hello_honest argv) fun _ _ => trivial
  | cat argv => exact obeys_bind (cat_honest argv) fun _ _ => trivial
  | gcodetest => exact gcodetest_honest
  | bentest => exact obeys_bind bentest_honest fun _ _ => trivial

/-! ## Sessions -/

theorem session_honest {cs : List Command} {ts : List Trace}
    (h : RunsSeq (Command.run T fuel) regs cs ts regs') (past : Trace) : Honest past ts.flatten := by
  induction h generalizing past with
  | nil => trivial
  | cons hrun _ ih => exact follows_append.mpr ⟨runs_follows hrun (command_honest _), ih _⟩

/-- Each event of an honest trace is justified by what stands in front of it. -/
theorem honest_split {past before after : Trace} {e : Event}
    (h : Honest past (before ++ e :: after)) : Justified (before.reverse ++ past) e := by
  have hpush : before.foldl push past = before.reverse ++ past := by
    clear h
    induction before generalizing past with
    | nil => rfl
    | cons d before ih =>
      simp only [List.foldl_cons, ih, push, List.reverse_cons, List.append_assoc,
        List.singleton_append]
  rw [← hpush]
  exact (follows_append.mp h).2.1

/-- **Diagnostics.** Whatever the card answers in a session, a failure message is
printed right behind a failed call that it names, and an error text right behind
such a message: it is the text of the code that call returned. -/
theorem failures_justified {cs : List Command} {ts : List Trace} {before after : Trace} {e : Event}
    (h : RunsSeq (Command.run T fuel) regs cs ts regs') (hsplit : ts.flatten = before ++ e :: after) :
    Justified before.reverse e := by
  have hhonest := session_honest h []
  rw [hsplit] at hhonest
  simpa using honest_split hhonest

/-- A `mount` without a card. -/
def noCard : Trace :=
  [⟨.fMount (some .fat), FResult.notReady⟩,
    say "FS: f_mount() failed. Is the SD card inserted?\r\n", sayError .notReady]

theorem noCard_runs : RunsSeq (Command.run .exact 0) boot [.mount] [noCard] boot := by
  have hmount : Runs (Command.run .exact 0 .mount boot) noCard (.ok boot) := by
    simp [Command.run, cmdMount, noCard, say, sayError]
  exact .cons hmount (.nil _)

theorem failures_justified_noCard : Justified (noCard.take 2).reverse (sayError .notReady) := by
  have hsplit : [noCard].flatten = noCard.take 2 ++ sayError .notReady :: [] := rfl
  exact failures_justified noCard_runs hsplit

/-- The text of a code tells the code. -/
theorem fresultStr_injective : Function.Injective fresultStr := by
  intro a b h
  cases a <;> cases b <;> first | rfl | simp [fresultStr] at h

/-- **Codes.** The error text that is printed tells the code of the call that
failed two events before it. -/
theorem text_tells_code {cs : List Command} {ts : List Trace} {before after : Trace} {x : Unit}
    {err : FResult} (h : RunsSeq (Command.run T fuel) regs cs ts regs')
    (hsplit : ts.flatten =
      before ++ ⟨.chprintf ⟨errorFmt, [.text (fresultStr err)]⟩, x⟩ :: after) :
    ∃ before' call msg, before = before' ++ [call, msg] ∧ TellsFailure msg.op ∧
      code call = some err ∧ err ≠ .ok := by
  have hhonest := session_honest h []
  rw [hsplit] at hhonest
  obtain ⟨msg, call, rest, err', hpast, hmsg, hcode, herr, hargs⟩ := (honest_split hhonest).2 rfl
  obtain rfl : err = err' := fresultStr_injective (by simpa using hargs)
  refine ⟨rest.reverse, call, msg, ?_, hmsg, hcode, herr⟩
  have := congrArg List.reverse hpast
  simpa using this

end GcodeFatfs.Diagnostics
