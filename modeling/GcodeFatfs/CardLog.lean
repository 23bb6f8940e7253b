import GcodeFatfs.CardFiles
import GcodeFatfs.Output

/-! What a `gcodetest` leaves on the card. output.log holds a record for each
line of the job, it stays until the next job, and it is all there to be read. -/

namespace GcodeFatfs.CardLog
open GcodeFatfs.Interact GcodeFatfs.CArith GcodeFatfs.CString GcodeFatfs.Board
open GcodeFatfs.FatCommands GcodeFatfs.GcodeParser GcodeFatfs.Gcodetest GcodeFatfs.CommandRuns
open GcodeFatfs.JobRun GcodeFatfs.JobLog GcodeFatfs.SessionRuns GcodeFatfs.CardFiles

variable {ι : Type} {card card' : Card ι} {e : Event}
variable {T : Target} {fuel : ℕ} {regs regs₁ regs₂ regs₃ : Regs} {t : Trace} {r : Except Stop Regs}
variable {file : ι} {text content : List Char}

/-! ## Writing the log -/

/-- The text that is handed over for output.log. -/
def logText (t : Trace) : List Char := (logged t).flatMap putsText

@[simp] theorem logText_append (t t' : Trace) : logText (t ++ t') = logText t ++ logText t' := by
  simp [logText]

/-- The calls that the log depends on. -/
def OnLog : Op → Prop
  | .fOpen .debugfil _ _ | .fPuts _ .debugfil | .fClose .debugfil => True
  | _ => False

/-- The log is being written, and by no other object. -/
def Logging (file : ι) (card : Card ι) (text : List Char) : Prop :=
  card.handles .debugfil = some (.writing file text) ∧
    ∀ fp, fp ≠ .debugfil → Handle.Spares file (card.handles fp)

theorem fil_of_turn {len : ℕ} {fp : Fil} (h : IsJobTurn (.fGets len fp)) : fp = .fil := by
  cases fp <;> first | rfl | exact h.elim

theorem debugfil_of_turn {str : String} {fp : Fil} (h : IsJobTurn (.fPuts str fp)) :
    fp = .debugfil := by
  cases fp <;> first | rfl | exact h.elim

theorem setHandle_logging (h : Logging file card text) {handle : Option (Handle ι)}
    (hhandle : Handle.Spares file handle) : Logging file (card.setHandle .fil handle) text := by
  refine ⟨h.1, fun fp hfp => ?_⟩
  by_cases hne : fp = .fil
  · subst hne
    rwa [setHandle_same]
  · rw [setHandle_other hne]
    exact h.2 fp hfp

theorem logText_aside {op : Op} (hop : IsAside op) (x : Res op) : logText [⟨op, x⟩] = [] := by
  cases op <;> first | exact hop.elim | rfl

theorem logText_cons (e : Event) (t : Trace) : logText (e :: t) = logText [e] ++ logText t :=
  logText_append [e] t

variable {name : List Char → ι}

theorem openJobTrace_spares (c : SdcRes) (m fr : FResult) :
    ∀ e ∈ openJobTrace c m fr, SparesFile name file e.op := by
  unfold openJobTrace
  split <;> simp [SparesFile, say, createMode]

theorem closeJobTrace_spares (cl : FResult) (d : SdcRes) (err cl₂ : FResult) :
    ∀ e ∈ closeJobTrace cl d err cl₂, SparesFile name file e.op := by
  unfold closeJobTrace
  split <;> simp [SparesFile, say, sayError]

variable [DecidableEq ι]

/-- What a call of the loop adds to the log. -/
theorem turn_logging (h : Step name card e card') (hop : IsJobTurn e.op)
    (hgood : OnLog e.op → ¬ Failed e) (hlog : Logging file card text) :
    Logging file card' (text ++ logText [e]) := by
  cases h with
  | gets hreads =>
    obtain rfl := fil_of_turn hop
    simpa [logText, logged] using setHandle_logging hlog (by trivial)
  | getsFails hfail =>
    obtain rfl := fil_of_turn hop
    simpa [logText, logged] using setHandle_logging hlog (by trivial)
  | puts hwrites hwritten =>
    obtain rfl := debugfil_of_turn hop
    cases hlog.1.symm.trans hwrites
    refine ⟨?_, fun fp hfp => ?_⟩
    · rw [setHandle_same]
      simp [logText, logged]
    · rw [setHandle_other hfp]
      exact hlog.2 fp hfp
  | putsFails hwrites left =>
    obtain rfl := debugfil_of_turn hop
    exact absurd rfl (hgood trivial)
  | putsNowhere hwrites =>
    obtain rfl := debugfil_of_turn hop
    exact absurd rfl (hgood trivial)
  | aside haside =>
    rw [logText_aside haside, List.append_nil]
    exact hlog
  | _ => exact hop.elim

theorem loop_logging (h : Takes (Step name) card t card') (ht : ∀ e ∈ t, IsJobTurn e.op)
    (hgood : ∀ e ∈ t, OnLog e.op → ¬ Failed e) (hlog : Logging file card text) :
    Logging file card' (text ++ logText t) := by
  have hturns := (takes_follows (Logging file) (fun text e => text ++ logText [e])
    (fun _ _ => True) (P := fun e => IsJobTurn e.op ∧ (OnLog e.op → ¬ Failed e))
    (fun hlog hP hstep => ⟨trivial, turn_logging hstep hP.1 hP.2 hlog⟩) h
    (fun e he => ⟨ht e he, hgood e he⟩) hlog).2
  have hfold : t.foldl (fun text e => text ++ logText [e]) text = text ++ logText t := by
    clear hturns hlog hgood ht h
    induction t generalizing text with
    | nil => simp [logText, logged]
    | cons e t ih => rw [List.foldl_cons, ih, logText_cons e t, List.append_assoc]
  rwa [hfold] at hturns

theorem create_logging {path : List Char} (hw : ¬ card.Writes (name path))
    (h : Step name card ⟨.fOpen .debugfil path createMode, FResult.ok⟩ card') :
    Logging (name path) card' [] := by
  rw [not_writes] at hw
  cases h with
  | openRead hmode hfile => exact absurd rfl hmode
  | openReadFails hmode herr => exact absurd rfl herr
  | create hmode =>
    refine ⟨setHandle_same, fun fp hfp => ?_⟩
    rw [setHandle_other hfp]
    exact hw fp
  | createFails hmode herr left => exact absurd rfl herr
  | aside hop => exact hop.elim

theorem close_logging (hlog : Logging file card text)
    (h : Step name card ⟨.fClose .debugfil, FResult.ok⟩ card') :
    card'.files file = some text ∧ ¬ card'.Writes file := by
  cases h with
  | close hwrites =>
    cases hlog.1.symm.trans hwrites
    refine ⟨setFile_same, not_writes.mpr fun fp => ?_⟩
    by_cases hfp : fp = .debugfil
    · subst hfp
      rw [setHandle_same]
      trivial
    · rw [setHandle_other hfp]
      exact hlog.2 fp hfp
  | closeFails hwrites herr left => exact absurd rfl herr
  | closeRead hwrites => exact absurd hlog.1 (hwrites file text)
  | aside hop => exact hop.elim

/-- A `gcodetest` whose calls for the log succeed leaves what it logged. -/
theorem gcodetest_leaves (h : Runs (cmdGcodetest T fuel regs) t (.ok regs₁))
    (hcard : Takes (Step name) card t card') (hw : ¬ card.Writes (name logName))
    (hgood : ∀ e ∈ t, OnLog e.op → ¬ Failed e) :
    card'.files (name logName) = some (logText t) ∧ ¬ card'.Writes (name logName) := by
  obtain ⟨c, m, fr, dfr, cd, cl, d, err, cl₂, loop, hturns, -, rfl⟩ := gcodetest_runs h
  obtain ⟨card₃, hfront, hback⟩ := takes_append.mp hcard
  obtain ⟨card₁, hopen, hmiddle⟩ := takes_append.mp hfront
  obtain ⟨card₂, hcreate, hloop⟩ := takes_cons.mp hmiddle
  obtain ⟨card₄, hclose, hend⟩ := takes_cons.mp hback
  have hdfr : dfr = .ok := by
    by_contra hne
    exact hgood ⟨.fOpen .debugfil logName createMode, dfr⟩ (by simp) trivial hne
  have hcd : cd = .ok := by
    by_contra hne
    exact hgood ⟨.fClose .debugfil, cd⟩ (by simp) trivial hne
  subst hdfr hcd
  obtain ⟨hw₁, -⟩ := takes_spares hopen (openJobTrace_spares c m fr) hw
  have hlog := loop_logging hloop hturns (fun e he => hgood e (by simp [he]))
    (create_logging hw₁ hcreate)
  obtain ⟨hfile, hw₄⟩ := close_logging hlog hclose
  obtain ⟨hw', hsame⟩ := takes_spares hend (closeJobTrace_spares cl d err cl₂) hw₄
  refine ⟨?_, hw'⟩
  have hidle {t : Trace} (ht : IsIdle t) : logText t = [] := by
    rw [logText, ht.2.1]
    rfl
  rw [hsame, hfile, logText_append, logText_append, logText_cons _ loop, logText_cons _ (closeJobTrace _ _ _ _),
    hidle (openJobTrace_idle c m fr), hidle (closeJobTrace_idle cl d err cl₂)]
  simp [logText, logged]

/-- **The log on the card.** Behind a session, output.log holds a record of what
each string read by its last `gcodetest` emits, from the registers that all the
jobs before it left, when the calls of that `gcodetest` for the log succeed; a
string that is no move emits 0, 0. Whatever else fails, and whatever the commands
behind it are but a `mkfs` and those that write this file, does not matter. -/
theorem log_of_last_job {cs₁ cs₂ : List Command} {ts₁ ts₂ : List Trace}
    (h₁ : RunsSeq (Command.run T fuel) regs cs₁ ts₁ regs₁)
    (h : Runs (cmdGcodetest T fuel regs₁) t (.ok regs₂))
    (h₂ : RunsSeq (Command.run T fuel) regs₂ cs₂ ts₂ regs₃)
    (hcard : Takes (Step name) card (ts₁.flatten ++ t ++ ts₂.flatten) card')
    (hstart : ∀ fp, card.handles fp = none) (hgood : ∀ e ∈ t, OnLog e.op → ¬ Failed e)
    (hlast : ∀ c ∈ cs₂, ¬ MayChange name (name logName) c) :
    card'.files (name logName) =
      some (((emitted T (processLines T regs (handed ts₁.flatten)) (handed t)).map
        fun p => record p.x p.y).flatMap putsText) := by
  obtain ⟨card₂, hfront, hafter⟩ := takes_append.mp hcard
  obtain ⟨card₁, hbefore, hjob⟩ := takes_append.mp hfront
  have hclosed := session_closes h₁ hbefore hstart
  obtain ⟨hfile, hw⟩ := gcodetest_leaves h hjob (not_writes_closed hclosed _) hgood
  rw [session_spares h₂ hafter hw hlast, hfile, ← (runsSeq_refines h₁).1, logText,
    (gcodetest_refines h).2.logged]

/-! ## Reading the job -/

/-- The calls that reading the job depends on. -/
def OnJob : Op → Prop
  | .fOpen .fil _ _ | .fGets _ .fil => True
  | _ => False

/-- The job is open and unchanged, with `rest` of it left. -/
def ReadsJob (file : ι) (content : List Char) (card : Card ι) (rest : List Char) : Prop :=
  card.Reads .fil file content rest ∧ ¬ card.Writes file

theorem aside_serves {op : Op} (hop : IsAside op) (rest : List Char) (x : Res op) :
    Serves rest ⟨op, x⟩ ∧ unread rest ⟨op, x⟩ = rest := by
  cases op <;> first | exact hop.elim | exact ⟨trivial, rfl⟩

theorem turn_readsJob {rest : List Char} (h : Step name card e card') (hop : IsJobTurn e.op)
    (hgood : OnJob e.op → ¬ Failed e) (hjob : ReadsJob file content card rest) :
    Serves rest e ∧ ReadsJob file content card' (unread rest e) := by
  obtain ⟨⟨hfp, hfile⟩, hw⟩ := hjob
  have hspares : SparesFile name file e.op := by
    obtain ⟨op, x⟩ := e
    cases op <;> trivial
  obtain ⟨hw', hfile'⟩ := step_spares h hspares hw
  rw [hfile] at hfile'
  cases h with
  | gets hreads =>
    obtain rfl := fil_of_turn hop
    cases hfp.symm.trans hreads.1
    exact ⟨rfl, ⟨setHandle_same, hfile'⟩, hw'⟩
  | getsFails hfail =>
    obtain rfl := fil_of_turn hop
    rcases hfail with herr | hstale
    · exact absurd herr (hgood trivial)
    · exact absurd ⟨hfp, hfile⟩ (hstale file content rest)
  | puts hwrites hwritten =>
    obtain rfl := debugfil_of_turn hop
    exact ⟨trivial, ⟨(setHandle_other (by decide)).trans hfp, hfile'⟩, hw'⟩
  | putsFails hwrites left =>
    obtain rfl := debugfil_of_turn hop
    exact ⟨trivial, ⟨(setHandle_other (by decide)).trans hfp, hfile'⟩, hw'⟩
  | putsNowhere hwrites => exact ⟨trivial, ⟨hfp, hfile'⟩, hw'⟩
  | aside haside =>
    obtain ⟨hserves, hunread⟩ := aside_serves haside rest _
    rw [hunread]
    exact ⟨hserves, ⟨hfp, hfile'⟩, hw'⟩
  | _ => exact hop.elim

/-- Behind `_open_job` the job is open from its start. -/
theorem open_readsJob {c : SdcRes} {m : FResult}
    (h : Takes (Step name) card (openJobTrace c m .ok) card')
    (hfile : card.files (name jobName) = some content) (hw : ¬ card.Writes (name jobName)) :
    ReadsJob (name jobName) content card' content := by
  obtain ⟨hw', hfile'⟩ := takes_spares h (openJobTrace_spares c m .ok) hw
  rw [hfile] at hfile'
  refine ⟨⟨?_, hfile'⟩, hw'⟩
  have hsplit : openJobTrace c m .ok = [say "attempting to read job file\r\n", ⟨.palSetPad, ()⟩,
      ⟨.sdcConnect, c⟩, ⟨.fMount (some .gcode), m⟩] ++ [⟨.fOpen .fil jobName [.read], .ok⟩] := rfl
  rw [hsplit, takes_append] at h
  obtain ⟨card₁, -, hopen⟩ := h
  obtain ⟨_, hstep, hnil⟩ := takes_cons.mp hopen
  obtain rfl := takes_nil.mp hnil
  cases hstep with
  | openRead hmode hread =>
    obtain rfl := Option.some.inj (hread.symm.trans hfile')
    exact setHandle_same
  | create hmode => exact absurd hmode (by decide)
  | openReadFails hmode herr => exact absurd rfl herr
  | createFails hmode herr left => exact absurd rfl herr
  | aside hop => exact hop.elim

theorem create_readsJob {rest : List Char} {dfr : FResult} (hne : name logName ≠ name jobName)
    (h : Step name card ⟨.fOpen .debugfil logName createMode, dfr⟩ card')
    (hjob : ReadsJob (name jobName) content card rest) :
    ReadsJob (name jobName) content card' rest := by
  obtain ⟨⟨hfp, hfile⟩, hw⟩ := hjob
  obtain ⟨hw', hfile'⟩ := step_spares h (fun _ => hne) hw
  rw [hfile] at hfile'
  refine ⟨⟨?_, hfile'⟩, hw'⟩
  cases h with
  | openRead hmode hread => exact absurd rfl hmode
  | openReadFails hmode herr => exact absurd rfl hmode
  | create hmode => exact (setHandle_other (by decide)).trans hfp
  | createFails hmode herr left => exact (setHandle_other (by decide)).trans hfp
  | aside hop => exact hop.elim

theorem loop_turns {fr : FResult} (h : Runs (if fr = .ok then jobLoop T fuel regs else pure regs) t r) :
    ∀ e ∈ t, IsJobTurn e.op := by
  split at h
  · exact runs_only h (jobLoop_only T trivial (fun _ => trivial) (fun _ => trivial)
      (fun _ _ _ _ => trivial) (fun _ _ _ => trivial) fuel regs)
  · obtain ⟨rfl, -⟩ := runs_ret.mp h
    simp

/-- Up to the end of the loop the job is served from its start. -/
theorem front_onFile {c : SdcRes} {m dfr : FResult} {loop : Trace}
    (hcard : Takes (Step name) card
      (openJobTrace c m .ok ++ ⟨.fOpen .debugfil logName createMode, dfr⟩ :: loop) card')
    (hturns : ∀ e ∈ loop, IsJobTurn e.op) (hfile : card.files (name jobName) = some content)
    (hw : ¬ card.Writes (name jobName)) (hne : name logName ≠ name jobName)
    (hgood : ∀ e ∈ loop, OnJob e.op → ¬ Failed e) :
    OnFile content
      (openJobTrace c m .ok ++ ⟨.fOpen .debugfil logName createMode, dfr⟩ :: loop) := by
  obtain ⟨card₁, hopen, hrest⟩ := takes_append.mp hcard
  obtain ⟨card₂, hcreate, hloop⟩ := takes_cons.mp hrest
  have hstart := create_readsJob hne hcreate (open_readsJob hopen hfile hw)
  have hserved := (takes_follows (ReadsJob (name jobName) content) unread Serves
    (P := fun e => IsJobTurn e.op ∧ (OnJob e.op → ¬ Failed e))
    (fun hjob hP hstep => turn_readsJob hstep hP.1 hP.2 hjob) hloop
    (fun e he => ⟨hturns e he, hgood e he⟩) hstart).1
  exact follows_append.mpr ⟨⟨trivial, trivial, trivial, trivial, rfl, trivial⟩, trivial, hserved⟩

/-- On a card with the job file, `gcodetest` finds it served. -/
theorem gcodetest_onFile (h : Runs (cmdGcodetest T fuel regs) t r)
    (hcard : Takes (Step name) card t card') (hfile : card.files (name jobName) = some content)
    (hw : ¬ card.Writes (name jobName)) (hne : name logName ≠ name jobName)
    (hgood : ∀ e ∈ t, OnJob e.op → ¬ Failed e) : OnFile content t := by
  obtain ⟨c, m, fr, dfr, loop, hend⟩ := gcodetest_runs_any h
  have hfr : fr = .ok := by
    by_contra hne
    have hopen : (⟨.fOpen .fil jobName [.read], fr⟩ : Event) ∈ t := by
      obtain ⟨e, -, -, rfl⟩ | ⟨_, _, _, _, _, _, -, -, rfl⟩ := hend <;> simp [openJobTrace]
    exact hgood _ hopen trivial hne
  subst hfr
  obtain ⟨e, hrun, -, rfl⟩ | ⟨regs₁, cd, cl, d, err, cl₂, hrun, -, rfl⟩ := hend
  · exact front_onFile hcard (loop_turns hrun) hfile hw hne fun e he => hgood e (by simp [he])
  · obtain ⟨card₃, hfront, -⟩ := takes_append.mp hcard
    refine follows_append.mpr ⟨front_onFile hfront (loop_turns hrun) hfile hw hne
      fun e he => hgood e (by simp [he]), ?_⟩
    apply follows_fixed
    unfold closeJobTrace
    split <;> simp [Serves, unread, say, sayError]

/-- **A job on a card.** On a card with the job file and no file open, when the
calls for the job and the log succeed, `gcodetest` returns and leaves a record of
what each line of the file emits in output.log, and all other files alone. -/
theorem job_on_card (h : Runs (cmdGcodetest T fuel regs) t r)
    (hcard : Takes (Step name) card t card') (hstart : ∀ fp, card.handles fp = none)
    (hfile : card.files (name jobName) = some content) (hne : name logName ≠ name jobName)
    (hgood : ∀ e ∈ t, OnJob e.op ∨ OnLog e.op → ¬ Failed e) (hfuel : content.length < fuel) :
    r = .ok (processLines T regs (fileReads content)) ∧
      card'.files (name logName) =
        some (((emitted T regs (fileReads content)).map fun p => record p.x p.y).flatMap putsText) ∧
      ∀ file, file ≠ name logName → card'.files file = card.files file := by
  have honfile := gcodetest_onFile h hcard hfile (not_writes_closed hstart _) hne
    fun e he hop => hgood e he (.inl hop)
  obtain ⟨rfl, hworks⟩ := gcodetest_worksOff h honfile hfuel
  refine ⟨rfl, ?_, fun file hother => ?_⟩
  · obtain ⟨hlog, -⟩ := gcodetest_leaves h hcard (not_writes_closed hstart _)
      fun e he hop => hgood e he (.inr hop)
    rw [hlog, logText, hworks.logged]
  · have hrun : Runs (Command.run T fuel .gcodetest regs) t _ := h
    exact (command_spares hrun (fun heq => hother heq.symm) hcard (not_writes_closed hstart _)).2

/-! ## A card on which it can be done -/

/-- Inside the loop: the job can be read and the log be written. -/
def Ready (card : Card ι) : Prop :=
  (∃ file text rest, card.Reads .fil file text rest) ∧
    ∃ file text, card.handles .debugfil = some (.writing file text)

theorem turn_ready (h : Answers (textCard name) card e card') (hop : IsJobTurn e.op)
    (hready : Ready card) : (OnJob e.op ∨ OnLog e.op → ¬ Failed e) ∧ Ready card' := by
  obtain ⟨⟨file, text, rest, hfp, hfile⟩, file', text', hlog⟩ := hready
  obtain ⟨op, x⟩ := e
  cases op with
  | fGets len fp =>
    obtain rfl := fil_of_turn hop
    simp only [Answers, textCard, hfp, hfile, if_true, Prod.mk.injEq] at h
    obtain ⟨rfl, rfl⟩ := h
    refine ⟨fun _ => by simp [Failed], ⟨file, text, _, setHandle_same, hfile⟩, file', text', ?_⟩
    exact (setHandle_other (by decide)).trans hlog
  | fPuts str fp =>
    obtain rfl := debugfil_of_turn hop
    simp only [Answers, textCard, hlog, Prod.mk.injEq] at h
    obtain ⟨rfl, rfl⟩ := h
    refine ⟨fun _ => by simp [Failed], ⟨file, text, rest, ?_, hfile⟩, file', _, setHandle_same⟩
    exact (setHandle_other (by decide)).trans hfp
  | chprintf m =>
    obtain ⟨-, rfl⟩ := Prod.mk.inj h
    exact ⟨fun _ => id, ⟨file, text, rest, hfp, hfile⟩, file', text', hlog⟩
  | enterProcessLine line =>
    obtain ⟨-, rfl⟩ := Prod.mk.inj h
    exact ⟨fun _ => id, ⟨file, text, rest, hfp, hfile⟩, file', text', hlog⟩
  | _ => exact hop.elim

theorem open_ready {c : SdcRes} {m fr dfr : FResult} {tail : Trace}
    (h : Takes (Answers (textCard name)) card
      (openJobTrace c m fr ++ ⟨.fOpen .debugfil logName createMode, dfr⟩ :: tail) card')
    (hfile : card.files (name jobName) = some content) (hne : name logName ≠ name jobName) :
    fr = .ok ∧ dfr = .ok ∧
      ∃ card₂, Ready card₂ ∧ Takes (Answers (textCard name)) card₂ tail card' := by
  have hmode : [Access.read] ≠ createMode := by decide
  obtain ⟨card₁, hopen, hrest⟩ := takes_append.mp h
  obtain ⟨card₂, hcreate, htail⟩ := takes_cons.mp hrest
  simp only [openJobTrace, takes_append, takes_cons, takes_nil] at hopen
  obtain ⟨_, ⟨_, hsay, _, hset, _, hconnect, _, hmount, _, hjob, rfl⟩, hreport⟩ := hopen
  obtain ⟨-, rfl⟩ := Prod.mk.inj hsay
  obtain ⟨-, rfl⟩ := Prod.mk.inj hset
  obtain ⟨-, rfl⟩ := Prod.mk.inj hconnect
  obtain ⟨-, rfl⟩ := Prod.mk.inj hmount
  simp only [Answers, textCard, if_neg hmode, hfile, Prod.mk.injEq] at hjob
  obtain ⟨rfl, rfl⟩ := hjob
  obtain rfl := takes_nil.mp hreport
  simp only [Answers, textCard, if_true, Prod.mk.injEq] at hcreate
  obtain ⟨rfl, rfl⟩ := hcreate
  refine ⟨rfl, rfl, _, ⟨⟨name jobName, content, content, ?_, ?_⟩, _, _, setHandle_same⟩, htail⟩
  · rw [setHandle_other (by decide), setFile_handles, setHandle_same]
  · exact (setFile_other hne.symm).trans hfile

/-- The calls that a job depends on succeed on a card that has it. -/
theorem textCard_good (hrun : Runs (cmdGcodetest T fuel regs) t r)
    (h : Takes (Answers (textCard name)) card t card')
    (hfile : card.files (name jobName) = some content) (hne : name logName ≠ name jobName) :
    ∀ e ∈ t, OnJob e.op ∨ OnLog e.op → ¬ Failed e := by
  obtain ⟨c, m, fr, dfr, loop, hend⟩ := gcodetest_runs_any hrun
  have hloop {card₂ card₃ : Card ι} {r₁ : Except Stop Regs} (hready : Ready card₂)
      (hrun : Runs (if fr = .ok then jobLoop T fuel regs else pure regs) loop r₁)
      (h : Takes (Answers (textCard name)) card₂ loop card₃) :
      (∀ e ∈ loop, OnJob e.op ∨ OnLog e.op → ¬ Failed e) ∧ Ready card₃ := by
    have hturns := takes_follows (fun card (_ : Unit) => Ready card) (fun _ _ => ())
      (fun _ e => OnJob e.op ∨ OnLog e.op → ¬ Failed e) (P := fun e => IsJobTurn e.op) (n := ())
      (fun hready hop hstep => turn_ready hstep hop hready) h (loop_turns hrun) hready
    exact ⟨follows_const.mp hturns.1, hturns.2⟩
  have hopened {c : SdcRes} {m : FResult} :
      ∀ e ∈ openJobTrace c m .ok, OnJob e.op ∨ OnLog e.op → ¬ Failed e := by
    simp [openJobTrace, OnJob, OnLog, Failed, say]
  obtain ⟨e, hturns, -, rfl⟩ | ⟨regs₁, cd, cl, d, err, cl₂, hturns, -, rfl⟩ := hend
  · obtain ⟨rfl, rfl, card₂, hready, hrest⟩ := open_ready h hfile hne
    have hgood := (hloop hready hturns hrest).1
    refine List.forall_mem_append.mpr ⟨hopened, List.forall_mem_cons.mpr ⟨?_, hgood⟩⟩
    simp [Failed]
  · rw [List.append_assoc, List.cons_append] at h
    obtain ⟨rfl, rfl, card₂, hready, hrest⟩ := open_ready h hfile hne
    obtain ⟨card₃, hturned, hclose⟩ := takes_append.mp hrest
    obtain ⟨hgood, -, file, text, hlog⟩ := hloop hready hturns hturned
    obtain ⟨card₄, hstep, -⟩ := takes_cons.mp hclose
    simp only [Answers, textCard, hlog, Prod.mk.injEq] at hstep
    obtain ⟨rfl, -⟩ := hstep
    refine List.forall_mem_append.mpr ⟨List.forall_mem_append.mpr
      ⟨hopened, List.forall_mem_cons.mpr ⟨by simp [Failed], hgood⟩⟩,
      List.forall_mem_cons.mpr ⟨by simp [Failed], ?_⟩⟩
    unfold closeJobTrace
    split <;> simp [OnJob, OnLog, say, sayError]

def xJobRun : Trace × Except Stop Regs × Card (List Char) :=
  exec (textCard upper) (cmdGcodetest .exact 8 boot) (jobOnly xJob)

theorem upper_names : upper logName ≠ upper jobName := by decide

theorem jobOnly_job (content : List Char) :
    (jobOnly content).files (upper jobName) = some content := by
  simp [jobOnly]

theorem xJobRun_good : ∀ e ∈ xJobRun.1, OnJob e.op ∨ OnLog e.op → ¬ Failed e :=
  textCard_good (exec_runs _ _ _) (exec_answers _ _ _) (jobOnly_job xJob) upper_names

theorem xJobRun_onFile : OnFile xJob xJobRun.1 :=
  gcodetest_onFile (exec_runs _ _ _) (exec_takes (textCard_steps upper) _ _) (jobOnly_job xJob)
    (not_writes_closed (fun _ => rfl) _) upper_names fun e he hop => xJobRun_good e he (.inl hop)

/-- The registers behind the job. -/
def xRegs : Regs := processLines .exact boot (fileReads xJob)

theorem xJobRun_runs : Runs (cmdGcodetest .exact 8 boot) xJobRun.1 (.ok xRegs) := by
  have hrun : Runs (cmdGcodetest .exact 8 boot) xJobRun.1 xJobRun.2.1 := exec_runs _ _ _
  have hr := (gcodetest_worksOff hrun xJobRun_onFile (by decide)).1
  rwa [hr] at hrun

theorem xJobRun_takes : Takes (Step upper) (jobOnly xJob) xJobRun.1 xJobRun.2.2 :=
  exec_takes (textCard_steps upper) _ _

/-- A `mount` that goes well. -/
def mounted : Trace :=
  [⟨.fMount (some .fat), FResult.ok⟩, say "FS: f_mount() succeeded\r\n", ⟨.palSetPad, ()⟩,
    ⟨.sdcConnect, SdcRes.success⟩]

theorem mounted_runs (T : Target) (fuel : ℕ) (regs : Regs) :
    RunsSeq (Command.run T fuel) regs [.mount] [mounted] regs := by
  have hmount : Runs (Command.run T fuel .mount regs) mounted (.ok regs) := by
    simp [Command.run, cmdMount, mounted, say]
  exact .cons hmount (.nil _)

theorem mounted_takes (h : ∀ fp, card.handles fp = none) : Takes (Step name) card mounted card :=
  .cons (.mount (fun _ _ => rfl) (funext h))
    (.cons (.aside trivial) (.cons (.aside trivial) (.cons (.aside trivial) (.nil card))))

theorem job_on_card_xJob :
    xJobRun.2.1 = .ok (processLines .exact boot (fileReads xJob)) ∧
      xJobRun.2.2.files (upper logName) =
        some (((emitted .exact boot (fileReads xJob)).map fun p => record p.x p.y).flatMap putsText) ∧
      ∀ file, file ≠ upper logName → xJobRun.2.2.files file = (jobOnly xJob).files file := by
  have hrun : Runs (cmdGcodetest .exact 8 boot) xJobRun.1 xJobRun.2.1 := exec_runs _ _ _
  exact job_on_card hrun xJobRun_takes (fun _ => rfl) (jobOnly_job xJob) upper_names xJobRun_good
    (by decide)

/-- A `mount`, a job, and another `mount`. -/
theorem log_of_last_job_xJob :
    xJobRun.2.2.files (upper logName) =
      some (((emitted .exact (processLines .exact boot (handed [mounted].flatten))
        (handed xJobRun.1)).map fun p => record p.x p.y).flatMap putsText) := by
  have hclosed : ∀ fp, xJobRun.2.2.handles fp = none :=
    command_closes (c := .gcodetest) xJobRun_runs xJobRun_takes fun _ => rfl
  have htakes : Takes (Step upper) (jobOnly xJob)
      ([mounted].flatten ++ xJobRun.1 ++ [mounted].flatten) xJobRun.2.2 :=
    takes_append.mpr ⟨_, takes_append.mpr ⟨_, mounted_takes fun _ => rfl, xJobRun_takes⟩,
      mounted_takes hclosed⟩
  exact log_of_last_job (mounted_runs .exact 8 boot) xJobRun_runs (mounted_runs .exact 8 xRegs)
    htakes (fun _ => rfl) (fun e he hop => xJobRun_good e he (.inr hop))
    (List.forall_mem_singleton.mpr id)

end GcodeFatfs.CardLog
