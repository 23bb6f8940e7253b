import GcodeFatfs.Gcodetest

/-! What each command can do: the operations and answers of its finished runs,
whatever is answered. Every statement about commands over all outcomes is
derived from these. -/

namespace GcodeFatfs.CommandRuns
open GcodeFatfs.Interact GcodeFatfs.CArith GcodeFatfs.CString GcodeFatfs.Board
open GcodeFatfs.FatCommands GcodeFatfs.GcodeParser GcodeFatfs.Gcodetest

variable {T : Target} {fuel : ℕ} {regs regs' : Regs} {t : Trace}

/-- The commands without a part in the modal registers hand them through. -/
theorem runs_keep_regs {p : Shell Unit}
    (h : Runs (do p; pure regs) t (.ok regs')) : Runs p t (.ok ()) := by
  obtain ⟨t₁, a, t₂, h₁, h₂, rfl⟩ := runs_bind.mp h
  obtain ⟨rfl, -⟩ := runs_ret.mp h₂
  rw [List.append_nil]
  exact h₁

/-- A failure message with the error behind it. -/
theorem runs_report {α : Type} {fmt : String} {args : List Arg} {err : FResult} {k : Unit → Shell α}
    {r : Except Stop α} :
    Runs (.call (.chprintf ⟨fmt, args⟩) fun _ =>
        .call (.chprintf ⟨"\t%s.\r\n", [.text (fresultStr err)]⟩) k) t r ↔
      ∃ t', t = say fmt args :: sayError err :: t' ∧ Runs (k ()) t' r := by
  constructor
  · intro h
    obtain ⟨t₁, rfl, h₁⟩ := runs_chprintf.mp h
    obtain ⟨t₂, rfl, h₂⟩ := runs_chprintf.mp h₁
    exact ⟨t₂, rfl, h₂⟩
  · rintro ⟨t', rfl, h⟩
    exact runs_chprintf.mpr ⟨_, rfl, runs_chprintf.mpr ⟨t', rfl, h⟩⟩

/-- The two lines about its usage. -/
theorem usage_runs {usage what : String} (h : Runs (do chprintf usage; chprintf what) t (.ok ())) :
    t = [say usage, say what] := by
  obtain ⟨t₁, rfl, h₁⟩ := runs_chprintf.mp h
  obtain ⟨t₂, rfl, h₂⟩ := runs_chprintf.mp h₁
  obtain ⟨rfl, -⟩ := runs_ret.mp h₂
  rfl

/-! ## Commands on the volume alone -/

/-- The operations of the commands that neither mount nor open a file. -/
def IsVolumeOp : Op → Prop
  | .chprintf _ | .fOpendir _ _ | .fReaddir _ | .fGetfree _ | .fMkdir _ | .fSetlabel _
  | .fGetlabel _ | .fMkfs _ => True
  | _ => False

theorem store_only {P : Op → Prop} (path : List Char) (i : ℕ) (c : Char) :
    (store path i c).Only P := by
  unfold store
  split <;> trivial

theorem strcpyAt_only {P : Op → Prop} (path : List Char) (i : ℕ) (s : List Char) :
    (strcpyAt path i s).Only P := by
  induction s generalizing path i with
  | nil => exact store_only _ _ _
  | cons c s ih => exact only_bind (store_only _ _ _) fun _ => ih _ _

/-- `scan_files` opens and reads directories and prints. -/
theorem scan_only (fuel : ℕ) :
    (∀ dir path, (scanFiles fuel dir path).Only IsVolumeOp) ∧
      ∀ dir i path, (scanLoop fuel dir i path).Only IsVolumeOp := by
  induction fuel with
  | zero => exact ⟨fun _ _ => trivial, fun _ _ _ => trivial⟩
  | succ fuel ih =>
    constructor
    · intro dir path
      simp only [scanFiles, fOpendir, chprintf, call_bind, ret_bind, only_call]
      refine ⟨trivial, ?_⟩
      intro res
      split
      · exact ih.2 _ _ _
      · exact ⟨trivial, fun _ => trivial⟩
    · intro dir i path
      simp only [scanLoop, fReaddir, chprintf, call_bind, ret_bind, only_call]
      refine ⟨trivial, ?_⟩
      intro r
      split
      · trivial
      split
      · exact ih.2 _ _ _
      refine only_call.mpr ⟨trivial, ?_⟩
      intro _
      split
      · refine only_bind (store_only _ _ _) fun _ => only_bind (strcpyAt_only _ _ _) fun _ => ?_
        refine only_call.mpr ⟨trivial, fun _ => only_bind (ih.1 _ _) fun s => ?_⟩
        split
        · trivial
        · exact only_bind (store_only _ _ _) fun _ => ih.2 _ _ _
      · exact only_call.mpr ⟨trivial, fun _ => ih.2 _ _ _⟩

/-- The commands that neither mount nor open a file. -/
def IsVolumeCommand : Command → Prop
  | .mkfs _ | .getlabel _ | .setlabel _ | .tree | .free | .mkdir _ => True
  | _ => False

theorem volume_only {c : Command} (hc : IsVolumeCommand c) :
    (c.run T fuel regs).Only IsVolumeOp := by
  cases c with
  | mkfs argv =>
    refine only_bind ?_ fun _ => trivial
    unfold cmdMkfs
    split <;> simp [IsVolumeOp]
  | getlabel argv =>
    refine only_bind ?_ fun _ => trivial
    unfold cmdGetlabel
    split <;> simp [IsVolumeOp]
  | setlabel argv =>
    refine only_bind ?_ fun _ => trivial
    unfold cmdSetlabel
    split <;> simp [IsVolumeOp]
  | tree =>
    exact only_bind (only_bind ((scan_only fuel).1 _ _) fun _ => trivial) fun _ => trivial
  | free =>
    refine only_bind ?_ fun _ => trivial
    simp [cmdFree, IsVolumeOp]
  | mkdir argv =>
    refine only_bind ?_ fun _ => trivial
    unfold cmdMkdir
    split <;> simp [IsVolumeOp]
  | mount => cases hc
  | unmount => cases hc
  | hello argv => cases hc
  | cat argv => cases hc
  | gcodetest => cases hc
  | bentest => cases hc

/-! ## Mounting -/

theorem mount_runs (h : Runs cmdMount t (.ok ())) :
    (∃ err, err ≠ FResult.ok ∧ t = [⟨.fMount (some .fat), err⟩,
      say "FS: f_mount() failed. Is the SD card inserted?\r\n", sayError err]) ∨
    ∃ c, t = [⟨.fMount (some .fat), FResult.ok⟩, say "FS: f_mount() succeeded\r\n",
      ⟨.palSetPad, ()⟩, ⟨.sdcConnect, c⟩] := by
  simp only [cmdMount, fMount, chprintf, verboseError, palSetPad, sdcConnect, call_bind,
    ret_bind] at h
  obtain ⟨err, t₁, rfl, h₁⟩ := runs_call.mp h
  split at h₁
  · rename_i he
    obtain ⟨t₂, rfl, h₂⟩ := runs_report.mp h₁
    obtain ⟨rfl, -⟩ := runs_ret.mp h₂
    exact .inl ⟨err, he, rfl⟩
  · rename_i he
    obtain rfl := not_not.mp he
    obtain ⟨t₂, rfl, h₂⟩ := runs_chprintf.mp h₁
    obtain ⟨t₃, rfl, h₃⟩ := runs_palSetPad.mp h₂
    obtain ⟨c, t₄, rfl, h₄⟩ := runs_call.mp h₃
    obtain ⟨rfl, -⟩ := runs_ret.mp h₄
    exact .inr ⟨c, rfl⟩

/-- The end of an unmount: a report when it failed. -/
def unmountReport (fmt : String) (err : FResult) : Trace :=
  if err = .ok then [] else [say fmt, sayError err]

/-- What a command does behind its `f_mount(0, "", 0)`. -/
theorem unmountReport_runs {fmt : String} {err : FResult}
    (h : Runs (if err ≠ .ok then do chprintf fmt; verboseError err else pure ()) t (.ok ())) :
    t = unmountReport fmt err := by
  unfold unmountReport
  split at h
  · rename_i he
    obtain ⟨t', rfl, h'⟩ := runs_report.mp h
    obtain ⟨rfl, -⟩ := runs_ret.mp h'
    rw [if_neg he]
  · rename_i he
    obtain ⟨rfl, -⟩ := runs_ret.mp h
    rw [if_pos (not_not.mp he)]

theorem unmount_runs (h : Runs cmdUnmount t (.ok ())) :
    ∃ c err, t = [⟨.palClearPad, ()⟩, ⟨.sdcDisconnect, c⟩, ⟨.fMount none, err⟩] ++
      unmountReport "FS: f_mount() unmount failed\r\n" err := by
  simp only [cmdUnmount, palClearPad, sdcDisconnect, fMount, call_bind, ret_bind] at h
  obtain ⟨t₁, rfl, h₁⟩ := runs_palClearPad.mp h
  obtain ⟨c, t₂, rfl, h₂⟩ := runs_call.mp h₁
  obtain ⟨err, t₃, rfl, h₃⟩ := runs_call.mp h₂
  exact ⟨c, err, by rw [unmountReport_runs h₃]; rfl⟩

/-! ## Files -/

theorem hello_runs {argv : List (List Char)} (h : Runs (cmdHello argv) t (.ok ())) :
    (t = [say "Usage: hello\r\n", say "       Creates hello.txt with 'Hello World'\r\n"]) ∨
    (∃ err, err ≠ FResult.ok ∧ t = [⟨.fOpen .helloFsrc helloName createMode, err⟩,
      say "FS: f_open(\"hello.txt\") failed.\r\n", sayError err]) ∨
    ∃ written cl, t = [⟨.fOpen .helloFsrc helloName createMode, FResult.ok⟩,
      say "FS: f_open(\"hello.txt\") succeeded\r\n", ⟨.fPuts "Hello World" .helloFsrc, written⟩,
      say (if written = -1 then "FS: f_puts(\"Hello World\",\"hello.txt\") failed\r\n"
        else "FS: f_puts(\"Hello World\",\"hello.txt\") succeeded\r\n"),
      ⟨.fClose .helloFsrc, cl⟩] := by
  unfold cmdHello at h
  split at h
  · simp only [fOpen, fPuts, fClose, chprintf, verboseError, call_bind, ret_bind] at h
    obtain ⟨err, t₁, rfl, h₁⟩ := runs_call.mp h
    split at h₁
    · rename_i he
      obtain ⟨t₂, rfl, h₂⟩ := runs_report.mp h₁
      obtain ⟨rfl, -⟩ := runs_ret.mp h₂
      exact .inr (.inl ⟨err, he, rfl⟩)
    · rename_i he
      obtain rfl := not_not.mp he
      obtain ⟨t₂, rfl, h₂⟩ := runs_chprintf.mp h₁
      obtain ⟨written, t₃, rfl, h₃⟩ := runs_call.mp h₂
      refine .inr (.inr ⟨written, ?_⟩)
      split at h₃
      · rename_i hw
        obtain ⟨t₄, rfl, h₄⟩ := runs_chprintf.mp h₃
        obtain ⟨cl, t₅, rfl, h₅⟩ := runs_call.mp h₄
        obtain ⟨rfl, -⟩ := runs_ret.mp h₅
        exact ⟨cl, by rw [if_pos hw]; rfl⟩
      · rename_i hw
        obtain ⟨t₄, rfl, h₄⟩ := runs_chprintf.mp h₃
        obtain ⟨cl, t₅, rfl, h₅⟩ := runs_call.mp h₄
        obtain ⟨rfl, -⟩ := runs_ret.mp h₅
        exact ⟨cl, by rw [if_neg hw]; rfl⟩
  · exact .inl (usage_runs h)

/-- The turns of the loop of `cmd_cat` that go on: a read and its print. -/
def IsCatTurn (e : Event) : Prop :=
  (∃ bytes, e = ⟨.fRead .catFsrc catBufferSize, (FResult.ok, bytes)⟩) ∨
    ∃ mem, e = say "%s" [.buf mem]

/-- The loop of `cmd_cat` ends after good reads only, or at a bad one. -/
theorem catLoop_runs {finished : Bool} (h : Runs (catLoop fuel) t (.ok finished)) :
    ∃ loop : Trace, (∀ e ∈ loop, IsCatTurn e) ∧
      (finished = true ∧ t = loop ∨
        finished = false ∧ ∃ err bytes cl, err ≠ FResult.ok ∧
          t = loop ++ [⟨.fRead .catFsrc catBufferSize, (err, bytes)⟩,
            say "FS: f_read() failed\r\n", sayError err, ⟨.fClose .catFsrc, cl⟩]) := by
  induction fuel generalizing t with
  | zero => cases h
  | succ fuel ih =>
    simp only [catLoop, fRead, fClose, chprintf, verboseError, call_bind, ret_bind] at h
    obtain ⟨⟨err, bytes⟩, t₁, rfl, h₁⟩ := runs_call.mp h
    simp only at h₁
    split at h₁
    · rename_i he
      obtain ⟨t₂, rfl, h₂⟩ := runs_report.mp h₁
      obtain ⟨cl, t₃, rfl, h₃⟩ := runs_call.mp h₂
      obtain ⟨rfl, hfinished⟩ := runs_ret.mp h₃
      exact ⟨[], by simp, .inr ⟨Except.ok.inj hfinished, err, bytes, cl, he, rfl⟩⟩
    · rename_i he
      obtain rfl := not_not.mp he
      obtain ⟨t₂, rfl, h₂⟩ := runs_chprintf.mp h₁
      have hturn : ∀ e ∈ ([⟨.fRead .catFsrc catBufferSize, (FResult.ok, bytes)⟩,
          say "%s" [.buf (catBuffer bytes)]] : Trace), IsCatTurn e := by
        intro e he
        rcases List.mem_pair.mp he with rfl | rfl
        · exact .inl ⟨bytes, rfl⟩
        · exact .inr ⟨_, rfl⟩
      split at h₂
      · obtain ⟨loop, hloop, hend⟩ := ih h₂
        refine ⟨_ ++ loop, List.forall_mem_append.mpr ⟨hturn, hloop⟩, ?_⟩
        rcases hend with ⟨hf, rfl⟩ | ⟨hf, err, bytes', cl, herr, rfl⟩
        · exact .inl ⟨hf, rfl⟩
        · exact .inr ⟨hf, err, bytes', cl, herr, rfl⟩
      · obtain ⟨rfl, hfinished⟩ := runs_ret.mp h₂
        exact ⟨_, hturn, .inl ⟨Except.ok.inj hfinished, rfl⟩⟩

theorem cat_runs {argv : List (List Char)} (h : Runs (cmdCat fuel argv) t (.ok ())) :
    (t = [say "Usage: cat filename\r\n", say "       Echos filename (no spaces)\r\n"]) ∨
    (∃ arg err, err ≠ FResult.ok ∧ t = [⟨.fOpen .catFsrc arg [.read], err⟩,
      say "FS: f_open(%s) failed.\r\n" [.str arg], sayError err]) ∨
    ∃ (arg : List Char) (loop : Trace), (∀ e ∈ loop, IsCatTurn e) ∧
      ((∃ cl, t = ⟨.fOpen .catFsrc arg [.read], FResult.ok⟩ :: loop ++
          [say "\r\n", ⟨.fClose .catFsrc, cl⟩]) ∨
        ∃ err bytes cl, err ≠ FResult.ok ∧ t = ⟨.fOpen .catFsrc arg [.read], FResult.ok⟩ :: loop ++
          [⟨.fRead .catFsrc catBufferSize, (err, bytes)⟩, say "FS: f_read() failed\r\n",
            sayError err, ⟨.fClose .catFsrc, cl⟩]) := by
  unfold cmdCat at h
  split at h
  · rename_i arg
    simp only [fOpen, fClose, chprintf, verboseError, call_bind, ret_bind] at h
    obtain ⟨err, t₁, rfl, h₁⟩ := runs_call.mp h
    split at h₁
    · rename_i he
      obtain ⟨t₂, rfl, h₂⟩ := runs_report.mp h₁
      obtain ⟨rfl, -⟩ := runs_ret.mp h₂
      exact .inr (.inl ⟨arg, err, he, rfl⟩)
    · rename_i he
      obtain rfl := not_not.mp he
      obtain ⟨t₂, finished, t₃, h₂, h₃, rfl⟩ := runs_bind.mp h₁
      obtain ⟨loop, hloop, ⟨rfl, rfl⟩ | ⟨rfl, err, bytes, cl, herr, rfl⟩⟩ := catLoop_runs h₂
      · rw [if_pos rfl] at h₃
        obtain ⟨t₄, rfl, h₄⟩ := runs_chprintf.mp h₃
        obtain ⟨cl, t₅, rfl, h₅⟩ := runs_call.mp h₄
        obtain ⟨rfl, -⟩ := runs_ret.mp h₅
        exact .inr (.inr ⟨arg, _, hloop, .inl ⟨cl, rfl⟩⟩)
      · rw [if_neg (by decide)] at h₃
        obtain ⟨rfl, -⟩ := runs_ret.mp h₃
        exact .inr (.inr ⟨arg, _, hloop, .inr ⟨err, bytes, cl, herr, by simp⟩⟩)
  · exact .inl (usage_runs h)

/-- The events of the loop of `cmd_bentest`. -/
def IsBentestTurn (e : Event) : Prop :=
  e.op = .fGets lineSize .bentestFil ∨ ∃ line, e = say "%s\r\n" [.str line]

theorem bentestLoop_runs (h : Runs (bentestLoop fuel) t (.ok ())) : ∀ e ∈ t, IsBentestTurn e := by
  induction fuel generalizing t with
  | zero => cases h
  | succ fuel ih =>
    simp only [bentestLoop, fGets, chprintf, call_bind, ret_bind] at h
    obtain ⟨got, t₁, rfl, h₁⟩ := runs_call.mp h
    refine List.forall_mem_cons.mpr ⟨.inl rfl, ?_⟩
    split at h₁
    · obtain ⟨rfl, -⟩ := runs_ret.mp h₁
      exact List.forall_mem_nil _
    · obtain ⟨t₂, rfl, h₂⟩ := runs_chprintf.mp h₁
      exact List.forall_mem_cons.mpr ⟨.inr ⟨_, rfl⟩, ih h₂⟩

theorem bentest_runs (h : Runs (cmdBentest fuel) t (.ok ())) :
    ∃ c m fr cl d err, ∃ loop : Trace, (∀ e ∈ loop, IsBentestTurn e) ∧
      t = [say "Attempting to read out message.txt\r\n", ⟨.palSetPad, ()⟩, ⟨.sdcConnect, c⟩,
          ⟨.fMount (some .fat), m⟩, ⟨.fOpen .bentestFil bentestName [.read], fr⟩] ++ loop ++
        [⟨.fClose .bentestFil, cl⟩, ⟨.palClearPad, ()⟩, ⟨.sdcDisconnect, d⟩, ⟨.fMount none, err⟩] ++
        unmountReport "FS: f_mount() unmount failed\r\n" err := by
  simp only [cmdBentest, chprintf, palSetPad, sdcConnect, fMount, fOpen, fClose, palClearPad,
    sdcDisconnect, call_bind, ret_bind] at h
  obtain ⟨t₁, rfl, h₁⟩ := runs_chprintf.mp h
  obtain ⟨t₂, rfl, h₂⟩ := runs_palSetPad.mp h₁
  obtain ⟨c, t₃, rfl, h₃⟩ := runs_call.mp h₂
  obtain ⟨m, t₄, rfl, h₄⟩ := runs_call.mp h₃
  obtain ⟨fr, t₅, rfl, h₅⟩ := runs_call.mp h₄
  obtain ⟨loop, _, t₆, hloop, h₆, rfl⟩ := runs_bind.mp h₅
  obtain ⟨cl, t₇, rfl, h₇⟩ := runs_call.mp h₆
  obtain ⟨t₈, rfl, h₈⟩ := runs_palClearPad.mp h₇
  obtain ⟨d, t₉, rfl, h₉⟩ := runs_call.mp h₈
  obtain ⟨err, t₁₀, rfl, h₁₀⟩ := runs_call.mp h₉
  refine ⟨c, m, fr, cl, d, err, loop, bentestLoop_runs hloop, ?_⟩
  rw [unmountReport_runs h₁₀]
  simp [say]

/-! ## The job -/

def openJobTrace (c : SdcRes) (m fr : FResult) : Trace :=
  [say "attempting to read job file\r\n", ⟨.palSetPad, ()⟩, ⟨.sdcConnect, c⟩,
    ⟨.fMount (some .gcode), m⟩, ⟨.fOpen .fil jobName [.read], fr⟩] ++
  if fr = .ok then [] else [say "FS: f_open() cannot open file %s\r\n" [.str jobName]]

/-- `_open_job` returns, with GCODE_OK exactly when the file was opened. -/
theorem openJob_runs {r : Except Stop GcodeError} (h : Runs (openJob jobName) t r) :
    ∃ c m fr, t = openJobTrace c m fr ∧ ∃ ret, r = .ok ret ∧ (ret = .ok ↔ fr = .ok) := by
  simp only [openJob, chprintf, palSetPad, sdcConnect, fMount, fOpen, call_bind, ret_bind] at h
  obtain ⟨t₁, rfl, h₁⟩ := runs_chprintf.mp h
  obtain ⟨t₂, rfl, h₂⟩ := runs_palSetPad.mp h₁
  obtain ⟨c, t₃, rfl, h₃⟩ := runs_call.mp h₂
  obtain ⟨m, t₄, rfl, h₄⟩ := runs_call.mp h₃
  obtain ⟨fr, t₅, rfl, h₅⟩ := runs_call.mp h₄
  refine ⟨c, m, fr, ?_⟩
  unfold openJobTrace
  split at h₅
  · rename_i he
    obtain ⟨t₆, rfl, h₆⟩ := runs_chprintf.mp h₅
    obtain ⟨rfl, rfl⟩ := runs_ret.mp h₆
    rw [if_neg he]
    exact ⟨rfl, _, rfl, iff_of_false (by decide) he⟩
  · rename_i he
    obtain rfl := not_not.mp he
    obtain ⟨rfl, rfl⟩ := runs_ret.mp h₅
    exact ⟨rfl, _, rfl, iff_of_true rfl rfl⟩

/-- The second `f_close` comes only behind a successful `f_mount(0, "", 0)`. -/
def closeJobTrace (cl : FResult) (d : SdcRes) (err cl₂ : FResult) : Trace :=
  [⟨.fClose .fil, cl⟩, ⟨.palClearPad, ()⟩, ⟨.sdcDisconnect, d⟩, ⟨.fMount none, err⟩] ++
  if err = .ok then [⟨.fClose .fil, cl₂⟩]
  else [say "FS: f_mount() unmount failed!\r\n", sayError err]

/-- `_close_job` returns. -/
theorem closeJob_runs {r : Except Stop GcodeError} (h : Runs closeJob t r) :
    ∃ cl d err cl₂, t = closeJobTrace cl d err cl₂ ∧ ∃ ret, r = .ok ret := by
  simp only [closeJob, fClose, palClearPad, sdcDisconnect, fMount, chprintf, verboseError, call_bind,
    ret_bind] at h
  obtain ⟨cl, t₁, rfl, h₁⟩ := runs_call.mp h
  obtain ⟨t₂, rfl, h₂⟩ := runs_palClearPad.mp h₁
  obtain ⟨d, t₃, rfl, h₃⟩ := runs_call.mp h₂
  obtain ⟨err, t₄, rfl, h₄⟩ := runs_call.mp h₃
  unfold closeJobTrace
  split at h₄
  · rename_i he
    obtain ⟨t₅, rfl, h₅⟩ := runs_report.mp h₄
    obtain ⟨rfl, rfl⟩ := runs_ret.mp h₅
    refine ⟨cl, d, err, .ok, ?_, _, rfl⟩
    rw [if_neg he]
    rfl
  · rename_i he
    obtain ⟨cl₂, t₅, rfl, h₅⟩ := runs_call.mp h₄
    obtain ⟨rfl, rfl⟩ := runs_ret.mp h₅
    refine ⟨cl, d, err, cl₂, ?_, _, rfl⟩
    rw [if_pos (not_not.mp he)]
    rfl

/-- The loop keeps to reading the job, writing the log and printing. -/
theorem jobLoop_only {P : Op → Prop} (T : Target) (hgets : P (.fGets lineSize .fil))
    (hputs : ∀ s, P (.fPuts s .debugfil)) (henter : ∀ line, P (.enterProcessLine line))
    (hline : ∀ regs line, ∀ m ∈ (processLine T regs line).msgs, P (.chprintf m))
    (hmove : ∀ p, ∀ m ∈ moveMsgs p, P (.chprintf m)) (fuel : ℕ) (regs : Regs) :
    (jobLoop T fuel regs).Only P := by
  have hprint : ∀ ms : List Msg, (∀ m ∈ ms, P (.chprintf m)) → (printAll ms).Only P := by
    intro ms hms
    induction ms with
    | nil => trivial
    | cons m ms ih =>
      exact ⟨hms m (by simp), fun _ => ih fun m' hm' => hms m' (by simp [hm'])⟩
  induction fuel generalizing regs with
  | zero => trivial
  | succ fuel ih =>
    simp only [jobLoop, fGets, enterProcessLine, fPuts, call_bind, ret_bind, only_call]
    refine ⟨hgets, ?_⟩
    intro got
    split
    · trivial
    · refine only_call.mpr ⟨henter _, ?_⟩
      intro _
      apply only_bind (hprint _ (hline _ _))
      intro _
      apply only_bind (hprint _ (hmove _))
      intro _
      exact ⟨hputs _, fun _ => ih _⟩

/-- The operations of the loop of `cmd_gcodetest`. -/
def IsJobTurn : Op → Prop
  | .fGets _ .fil | .fPuts _ .debugfil | .enterProcessLine _ | .chprintf _ => True
  | _ => False

/-- A run of `cmd_gcodetest` stops inside the loop or closes both files. -/
theorem gcodetest_runs_any {r : Except Stop Regs} (h : Runs (cmdGcodetest T fuel regs) t r) :
    ∃ c m fr dfr, ∃ loop : Trace,
      (∃ e, Runs (if fr = .ok then jobLoop T fuel regs else pure regs) loop (.error e) ∧
        r = .error e ∧
        t = openJobTrace c m fr ++ ⟨.fOpen .debugfil logName createMode, dfr⟩ :: loop) ∨
      ∃ regs₁ cd cl d err cl₂,
        Runs (if fr = .ok then jobLoop T fuel regs else pure regs) loop (.ok regs₁) ∧
        r = .ok regs₁ ∧
        t = openJobTrace c m fr ++ ⟨.fOpen .debugfil logName createMode, dfr⟩ :: loop ++
          ⟨.fClose .debugfil, cd⟩ :: closeJobTrace cl d err cl₂ := by
  unfold cmdGcodetest at h
  rcases runs_bind_any.mp h with ⟨e, he, -⟩ | ⟨t₁, ret, t₂, h₁, h₂, rfl⟩
  · obtain ⟨_, _, _, -, _, ⟨⟩, -⟩ := openJob_runs he
  obtain ⟨c, m, fr, rfl, _, ⟨⟩, hret⟩ := openJob_runs h₁
  simp only [fOpen, call_bind, ret_bind, runs_call, hret] at h₂
  obtain ⟨dfr, t₃, rfl, h₃⟩ := h₂
  have hloop : Runs ((if fr = .ok then jobLoop T fuel regs else pure regs) >>= fun regs₁ => do
      let _ ← fClose .debugfil
      let _ ← closeJob
      pure regs₁) t₃ r := by
    by_cases hfr : fr = .ok
    · rw [if_pos hfr] at h₃ ⊢
      exact h₃
    · rw [if_neg hfr] at h₃ ⊢
      exact h₃
  rcases runs_bind_any.mp hloop with ⟨e, he, rfl⟩ | ⟨loop, regs₁, t₄, h₄, h₅, rfl⟩
  · exact ⟨c, m, fr, dfr, t₃, .inl ⟨e, he, rfl, rfl⟩⟩
  simp only [fClose, call_bind, ret_bind, runs_call] at h₅
  obtain ⟨cd, t₅, rfl, h₆⟩ := h₅
  rcases runs_bind_any.mp h₆ with ⟨e, he, -⟩ | ⟨t₆, ret', t₇, h₇, h₈, rfl⟩
  · obtain ⟨_, _, _, _, -, _, ⟨⟩⟩ := closeJob_runs he
  obtain ⟨cl, d, err, cl₂, rfl, -⟩ := closeJob_runs h₇
  obtain ⟨rfl, rfl⟩ := runs_ret.mp h₈
  exact ⟨c, m, fr, dfr, loop, .inr ⟨regs₁, cd, cl, d, err, cl₂, h₄, rfl, by simp⟩⟩

/-- A finished run, with what the loop did when the job was opened. -/
theorem gcodetest_runs (h : Runs (cmdGcodetest T fuel regs) t (.ok regs')) :
    ∃ c m fr dfr cd cl d err cl₂, ∃ loop : Trace, (∀ e ∈ loop, IsJobTurn e.op) ∧
      Runs (if fr = .ok then jobLoop T fuel regs else pure regs) loop (.ok regs') ∧
      t = openJobTrace c m fr ++ ⟨.fOpen .debugfil logName createMode, dfr⟩ :: loop ++
        ⟨.fClose .debugfil, cd⟩ :: closeJobTrace cl d err cl₂ := by
  obtain ⟨c, m, fr, dfr, loop, hend⟩ := gcodetest_runs_any h
  obtain ⟨e, -, ⟨⟩, -⟩ | ⟨_, cd, cl, d, err, cl₂, hrun, ⟨⟩, rfl⟩ := hend
  refine ⟨c, m, fr, dfr, cd, cl, d, err, cl₂, loop, ?_, hrun, rfl⟩
  split at hrun
  · exact runs_only hrun (jobLoop_only T trivial (fun _ => trivial) (fun _ => trivial)
      (fun _ _ _ _ => trivial) (fun _ _ _ => trivial) fuel regs)
  · obtain ⟨rfl, -⟩ := runs_ret.mp hrun
    simp

end GcodeFatfs.CommandRuns
