import GcodeFatfs.CommandRuns
import GcodeFatfs.Library.Lines

/-! A `gcodetest` on a job file. `f_gets` hands out the file through the line
buffer, and what the loop does with each line is all that the command hands on,
logs and prints about moves. -/

namespace GcodeFatfs.JobRun
open GcodeFatfs.Interact GcodeFatfs.Lines GcodeFatfs.CArith GcodeFatfs.CString GcodeFatfs.Board
open GcodeFatfs.FatCommands GcodeFatfs.GcodeParser GcodeFatfs.Gcodetest GcodeFatfs.CommandRuns

/-! ## The job file -/

/-- One `f_gets`: carriage returns are dropped, and there is room for one
character less than the buffer holds. -/
def getsLine (len : ℕ) (rest : List Char) : List Char × List Char :=
  readLine '\n' (· = '\r') (len - 1) rest

/-- What of the job file is left to read after an event. -/
def unread (rest : List Char) : Event → List Char
  | ⟨.fGets len .fil, _⟩ => (getsLine len rest).2
  | _ => rest

/-- The answers about the job file when it is there to be read; `f_gets` returns
NULL when there is nothing left. -/
def Serves (rest : List Char) : Event → Prop
  | ⟨.fGets len .fil, got⟩ =>
    got = { ret := if (getsLine len rest).1 = [] then none else some (getsLine len rest).1 }
  | ⟨.fOpen .fil _ _, err⟩ => err = .ok
  | _ => True

/-- A run in which the job file is opened and holds `content`. -/
abbrev OnFile (content : List Char) (t : Trace) : Prop := Follows unread Serves content t

/-- A card with the job file on it, where every call succeeds. -/
def jobCard : Env Op Res (List Char)
  | rest, .fGets len .fil =>
    ({ ret := if (getsLine len rest).1 = [] then none else some (getsLine len rest).1 },
      (getsLine len rest).2)
  | rest, op => (success op, rest)

/-- Any program run on such a card finds the file served. -/
theorem jobCard_onFile {ε α : Type} (p : Prog Op Res ε α) (content : List Char) :
    OnFile content (exec jobCard p content).1 := by
  refine exec_follows (fun rest op => ?_) p content
  cases op with
  | fGets len fp => cases fp <;> exact ⟨by simp [Serves, jobCard], rfl⟩
  | fOpen fp path mode => cases fp <;> exact ⟨by simp [Serves, jobCard, success], rfl⟩
  | _ => exact ⟨trivial, rfl⟩

theorem jobCard_succeeds {ε α : Type} (p : Prog Op Res ε α) (content : List Char) :
    ∀ e ∈ (exec jobCard p content).1, ¬ Failed e := by
  refine exec_forall (fun rest op => ?_) p content
  cases op with
  | fGets len fp => cases fp <;> simp [Failed, jobCard, success]
  | _ => simp [Failed, jobCard, success]

/-- The lines of a job file, each with its newline. -/
def fileLines (content : List Char) : List (List Char) := lines '\n' (kept (· = '\r') content)

/-- The strings that `f_gets` cuts a job file into. -/
def fileReads (content : List Char) : List (List Char) :=
  reads '\n' (· = '\r') (lineSize - 1) content

/-! ## What a run hands on, logs and prints -/

/-- The strings handed to `_process_line`. -/
def handed (t : Trace) : List (List Char) :=
  t.filterMap fun e => match e.op with
    | .enterProcessLine line => some line
    | _ => none

/-- The records handed to `f_puts` for output.log. -/
def logged (t : Trace) : List String :=
  t.filterMap fun e => match e.op with
    | .fPuts s .debugfil => some s
    | _ => none

def moveFmts : List String := (moveMsgs {}).map Msg.fmt

/-- The prints about moves. -/
def printedMoves (t : Trace) : List Msg :=
  t.filterMap fun e => match e.op with
    | .chprintf m => if m.fmt ∈ moveFmts then some m else none
    | _ => none

/-- What `_process_line` leaves in `param` for each of some lines in a row. -/
def emitted (T : Target) : Regs → List (List Char) → List Param
  | _, [] => []
  | regs, line :: lines =>
    (processLine T regs line).param :: emitted T (processLine T regs line).regs lines

/-- A trace hands on `lines`, and logs and prints what they emit. -/
structure WorksOff (T : Target) (regs : Regs) (lines : List (List Char)) (t : Trace) : Prop where
  handed : handed t = lines
  logged : logged t = (emitted T regs lines).map fun p => record p.x p.y
  printed : printedMoves t = (emitted T regs lines).flatMap moveMsgs

/-- The events of some prints in a row. -/
def printTrace (ms : List Msg) : Trace := ms.map fun m => ⟨.chprintf m, ()⟩

@[simp] theorem handed_append (t t' : Trace) : handed (t ++ t') = handed t ++ handed t' :=
  List.filterMap_append

@[simp] theorem logged_append (t t' : Trace) : logged (t ++ t') = logged t ++ logged t' :=
  List.filterMap_append

@[simp] theorem printedMoves_append (t t' : Trace) :
    printedMoves (t ++ t') = printedMoves t ++ printedMoves t' :=
  List.filterMap_append

@[simp] theorem handed_printTrace (ms : List Msg) : handed (printTrace ms) = [] := by
  simp [handed, printTrace]

@[simp] theorem logged_printTrace (ms : List Msg) : logged (printTrace ms) = [] := by
  simp [logged, printTrace]

@[simp] theorem printedMoves_printTrace (ms : List Msg) :
    printedMoves (printTrace ms) = ms.filter (·.fmt ∈ moveFmts) := by
  induction ms with
  | nil => rfl
  | cons m ms ih =>
    have hcons : printedMoves (printTrace (m :: ms)) =
        printedMoves [⟨.chprintf m, ()⟩] ++ printedMoves (printTrace ms) :=
      printedMoves_append [_] _
    rw [hcons, ih]
    by_cases h : m.fmt ∈ moveFmts <;> simp [printedMoves, h]

/-! ## One turn of the loop -/

variable {T : Target} {fuel : ℕ} {regs : Regs} {content rest : List Char} {t t' : Trace}
variable {r : Except Stop Regs}

/-- The loop's events for a line behind the `f_gets`. -/
def turnTrace (T : Target) (regs : Regs) (line : List Char) (written : ℤ) : Trace :=
  let r := processLine T regs line
  [⟨.enterProcessLine line, ()⟩] ++ printTrace r.msgs ++ printTrace (moveMsgs r.param) ++
    [⟨.fPuts (record r.param.x r.param.y) .debugfil, written⟩]

theorem printAll_bind_runs {α : Type} {ms : List Msg} {k : Shell α} {r : Except Stop α} :
    Runs (do printAll ms; k) t r ↔
      ∃ t', t = printTrace ms ++ t' ∧ Runs k t' r := by
  induction ms generalizing t with
  | nil => simp [printAll, printTrace]
  | cons m ms ih =>
    simp only [printAll, chprintf, call_bind, ret_bind, runs_chprintf, printTrace, List.map_cons,
      List.cons_append]
    constructor
    · rintro ⟨t₁, rfl, h⟩
      obtain ⟨t₂, rfl, h'⟩ := ih.mp h
      exact ⟨t₂, rfl, h'⟩
    · rintro ⟨t₂, rfl, h⟩
      exact ⟨_, rfl, ih.mpr ⟨t₂, rfl, h⟩⟩

/-- A turn of the loop: nothing was read, or a line is worked off. -/
theorem jobLoop_turn (h : Runs (jobLoop T (fuel + 1) regs) t r) :
    (∃ got, got.ret = none ∧ t = [⟨.fGets lineSize .fil, got⟩] ∧ r = .ok regs) ∨
    ∃ got line written t', got.ret = some line ∧
      t = [⟨.fGets lineSize .fil, got⟩] ++ turnTrace T regs line written ++ t' ∧
      Runs (jobLoop T fuel (processLine T regs line).regs) t' r := by
  simp only [jobLoop, fGets, call_bind, ret_bind, runs_call] at h
  obtain ⟨got, t₁, rfl, h⟩ := h
  split at h
  · rename_i hgot
    obtain ⟨rfl, rfl⟩ := runs_ret.mp h
    exact .inl ⟨got, hgot, rfl, rfl⟩
  · rename_i line hgot
    obtain ⟨⟨⟩, t₂, rfl, h₂⟩ := runs_call.mp h
    obtain ⟨t₃, rfl, h₃⟩ := printAll_bind_runs.mp h₂
    obtain ⟨t₄, rfl, h₄⟩ := printAll_bind_runs.mp h₃
    obtain ⟨written, t₅, rfl, h₅⟩ := runs_call.mp h₄
    exact .inr ⟨got, line, written, t₅, hgot, by simp [turnTrace], h₅⟩

theorem turnTrace_unread (line : List Char) (written : ℤ) :
    ∀ e ∈ turnTrace T regs line written, unread rest e = rest := by
  simp [turnTrace, printTrace, or_imp, forall_and, unread]

theorem lineMsgs_not_moves (T : Target) (regs : Regs) (line : List Char) :
    (processLine T regs line).msgs.filter (·.fmt ∈ moveFmts) = [] := by
  apply List.filter_eq_nil_iff.mpr
  intro m hm
  rcases processLine_msgs hm with hfmt | hfmt <;> simp [moveFmts, moveMsgs, hfmt]

theorem moveMsgs_moves (p : Param) : (moveMsgs p).filter (·.fmt ∈ moveFmts) = moveMsgs p := by
  simp [moveFmts, moveMsgs]

@[simp] theorem handed_turnTrace (line : List Char) (written : ℤ) :
    handed (turnTrace T regs line written) = [line] := by
  simp only [turnTrace, handed_append, handed_printTrace]
  rfl

@[simp] theorem logged_turnTrace (line : List Char) (written : ℤ) :
    logged (turnTrace T regs line written) =
      [record (processLine T regs line).param.x (processLine T regs line).param.y] := by
  simp only [turnTrace, logged_append, logged_printTrace]
  rfl

@[simp] theorem printedMoves_turnTrace (line : List Char) (written : ℤ) :
    printedMoves (turnTrace T regs line written) = moveMsgs (processLine T regs line).param := by
  simp only [turnTrace, printedMoves_append, printedMoves_printTrace, lineMsgs_not_moves,
    moveMsgs_moves]
  rfl

/-- A turn hands on its line, and logs and prints what the line emits. -/
theorem worksOff_turn {line : List Char} {lines : List (List Char)} (got : GetsRes) (written : ℤ)
    (h : WorksOff T (processLine T regs line).regs lines t) :
    WorksOff T regs (line :: lines)
      ([⟨.fGets lineSize .fil, got⟩] ++ turnTrace T regs line written ++ t) := by
  constructor
  · rw [handed_append, handed_append, handed_turnTrace, h.handed]
    rfl
  · rw [logged_append, logged_append, logged_turnTrace, h.logged]
    rfl
  · rw [printedMoves_append, printedMoves_append, printedMoves_turnTrace, h.printed]
    rfl

theorem fileReads_nil (h : (getsLine lineSize content).1 = []) : fileReads content = [] :=
  reads_nil _ _ h

theorem fileReads_cons (h : (getsLine lineSize content).1 ≠ []) :
    fileReads content =
      (getsLine lineSize content).1 :: fileReads (getsLine lineSize content).2 :=
  reads_cons _ _ h

/-- The loop works off what `f_gets` cuts the file into, given turns enough. -/
theorem jobLoop_worksOff (h : Runs (jobLoop T fuel regs) t r) (hfile : OnFile content t)
    (hfuel : content.length < fuel) :
    r = .ok (processLines T regs (fileReads content)) ∧
      WorksOff T regs (fileReads content) t := by
  induction fuel generalizing regs t content with
  | zero => omega
  | succ fuel ih =>
    rcases jobLoop_turn h with ⟨got, hgot, rfl, rfl⟩ | ⟨got, line, written, t', hgot, rfl, hrun⟩
    · have hserve : got = _ := hfile.1
      rw [hserve] at hgot
      have hend : (getsLine lineSize content).1 = [] := by
        by_contra hne
        simp [hne] at hgot
      rw [fileReads_nil hend]
      exact ⟨rfl, rfl, rfl, rfl⟩
    · obtain ⟨hturn, hrest⟩ := follows_append.mp hfile
      have hserve : got = _ := (follows_append.mp hturn).1.1
      rw [hserve] at hgot
      have hne : (getsLine lineSize content).1 ≠ [] := by
        intro hnil
        simp [hnil] at hgot
      obtain rfl : (getsLine lineSize content).1 = line := by simpa [hne] using hgot
      rw [List.foldl_append, foldl_fixed (turnTrace_unread _ _)] at hrest
      have hshort : (getsLine lineSize content).2.length < content.length :=
        readLine_shorter _ _ hne
      obtain ⟨hr, hworks⟩ := ih hrun hrest (by simp [unread]; omega)
      rw [fileReads_cons hne]
      exact ⟨hr, worksOff_turn got written hworks⟩

/-! ## The whole command -/

/-- A trace that hands on, logs and prints no move. -/
def IsIdle (t : Trace) : Prop := handed t = [] ∧ logged t = [] ∧ printedMoves t = []

theorem isIdle_append (h : IsIdle t) (h' : IsIdle t') : IsIdle (t ++ t') := by
  obtain ⟨hh, hl, hp⟩ := h
  obtain ⟨hh', hl', hp'⟩ := h'
  simp only [IsIdle, handed_append, logged_append, printedMoves_append, hh, hl, hp, hh', hl', hp',
    List.append_nil, and_self]

theorem openJobTrace_idle (c : SdcRes) (m fr : FResult) : IsIdle (openJobTrace c m fr) := by
  unfold openJobTrace
  split <;> simp [IsIdle, handed, logged, printedMoves, say, moveFmts, moveMsgs]

theorem closeJobTrace_idle (cl : FResult) (d : SdcRes) (err cl₂ : FResult) :
    IsIdle (closeJobTrace cl d err cl₂) := by
  unfold closeJobTrace
  split <;> simp [IsIdle, handed, logged, printedMoves, say, sayError, moveFmts, moveMsgs]

theorem worksOff_between {lines : List (List Char)} {pre post : Trace} (hpre : IsIdle pre)
    (h : WorksOff T regs lines t) (hpost : IsIdle post) :
    WorksOff T regs lines (pre ++ t ++ post) := by
  obtain ⟨hh, hl, hp⟩ := hpre
  obtain ⟨hh', hl', hp'⟩ := hpost
  constructor
  · rw [handed_append, handed_append, hh, hh', List.append_nil, List.nil_append, h.handed]
  · rw [logged_append, logged_append, hl, hl', List.append_nil, List.nil_append, h.logged]
  · rw [printedMoves_append, printedMoves_append, hp, hp', List.append_nil, List.nil_append,
      h.printed]

/-- A `gcodetest` on a file returns, and works off what `f_gets` cuts the file
into. -/
theorem gcodetest_worksOff (h : Runs (cmdGcodetest T fuel regs) t r) (hfile : OnFile content t)
    (hfuel : content.length < fuel) :
    r = .ok (processLines T regs (fileReads content)) ∧
      WorksOff T regs (fileReads content) t := by
  obtain ⟨c, m, fr, dfr, loop, hend⟩ := gcodetest_runs_any h
  have hfront : OnFile content (openJobTrace c m fr ++
      ⟨.fOpen .debugfil logName createMode, dfr⟩ :: loop) := by
    obtain ⟨e, -, -, rfl⟩ | ⟨_, _, _, _, _, _, -, -, rfl⟩ := hend
    · exact hfile
    · exact (follows_append.mp hfile).1
  obtain ⟨hopen, hrest⟩ := follows_append.mp hfront
  obtain ⟨-, -, -, -, hserve, -⟩ := (follows_append.mp hopen).1
  obtain rfl : fr = .ok := hserve
  -- nothing is read before the loop
  have hread : (openJobTrace c m .ok).foldl unread content = content := rfl
  rw [hread] at hrest
  have hloop : OnFile content loop := (follows_cons.mp hrest).2
  simp only [if_true] at hend
  obtain ⟨e, hrun, -, -⟩ | ⟨regs₁, cd, cl, d, err, cl₂, hrun, rfl, rfl⟩ := hend
  · obtain ⟨⟨⟩, -⟩ := jobLoop_worksOff hrun hloop hfuel
  obtain ⟨hregs, hworks⟩ := jobLoop_worksOff hrun hloop hfuel
  refine ⟨hregs, ?_⟩
  have hpre : IsIdle (openJobTrace c m .ok ++ [⟨.fOpen .debugfil logName createMode, dfr⟩]) :=
    isIdle_append (openJobTrace_idle c m .ok) ⟨rfl, rfl, rfl⟩
  have hpost : IsIdle ([⟨.fClose .debugfil, cd⟩] ++ closeJobTrace cl d err cl₂) :=
    isIdle_append ⟨rfl, rfl, rfl⟩ (closeJobTrace_idle cl d err cl₂)
  simpa using worksOff_between hpre hworks hpost

/-! ## Framing -/

/-- **Line framing.** A `gcodetest` on a file returns, and the strings it hands
on are the lines of the file exactly when each of them fits the line buffer. -/
theorem framing_iff (h : Runs (cmdGcodetest T fuel regs) t r) (hfile : OnFile content t)
    (hfuel : content.length < fuel) :
    (∃ regs', r = .ok regs') ∧
      (handed t = fileLines content ↔
        ∀ line ∈ fileLines content, line.length ≤ lineSize - 1) := by
  obtain ⟨hr, hworks⟩ := gcodetest_worksOff h hfile hfuel
  rw [hworks.handed]
  exact ⟨⟨_, hr⟩, reads_eq_lines_iff (by decide) content⟩

/-- A `gcodetest` on a card with the job file. -/
def jobRun (T : Target) (regs : Regs) (content : List Char) : Trace × Except Stop Regs × List Char :=
  exec jobCard (cmdGcodetest T (content.length + 1) regs) content

theorem jobRun_runs (T : Target) (regs : Regs) (content : List Char) :
    Runs (cmdGcodetest T (content.length + 1) regs) (jobRun T regs content).1
        (jobRun T regs content).2.1 ∧
      OnFile content (jobRun T regs content).1 :=
  ⟨exec_runs _ _ _, jobCard_onFile _ _⟩

theorem jobRun_succeeds (T : Target) (regs : Regs) (content : List Char) :
    ∀ e ∈ (jobRun T regs content).1, ¬ Failed e :=
  jobCard_succeeds _ _

theorem jobRun_worksOff (T : Target) (regs : Regs) (content : List Char) :
    WorksOff T regs (fileReads content) (jobRun T regs content).1 := by
  obtain ⟨hrun, hfile⟩ := jobRun_runs T regs content
  exact (gcodetest_worksOff hrun hfile (Nat.lt_succ_self _)).2

theorem framing_iff_shortLines :
    (∃ regs', (jobRun .exact boot "G1 X5\n".toList).2.1 = .ok regs') ∧
      (handed (jobRun .exact boot "G1 X5\n".toList).1 = fileLines "G1 X5\n".toList ↔
        ∀ line ∈ fileLines "G1 X5\n".toList, line.length ≤ lineSize - 1) :=
  framing_iff (jobRun_runs _ _ _).1 (jobRun_runs _ _ _).2 (Nat.lt_succ_self _)

/-- A comment that fills the buffer, with a move behind it on the same line. -/
def longComment : List Char := ';' :: List.replicate 80 ' ' ++ "G1 X5\n".toList

theorem longComment_reads :
    fileReads longComment = [';' :: List.replicate 80 ' ', "G1 X5\n".toList] := by
  have hfirst : getsLine lineSize longComment =
      (';' :: List.replicate 80 ' ', "G1 X5\n".toList) := by decide
  have hsecond : getsLine lineSize "G1 X5\n".toList = ("G1 X5\n".toList, []) := by decide
  rw [fileReads_cons (by decide), hfirst, fileReads_cons (by decide), hsecond,
    fileReads_nil rfl]

/-- The end of the comment is handed on as a command, and is an accepted move. -/
theorem longComment_cut :
    (Runs (cmdGcodetest .exact (longComment.length + 1) boot) (jobRun .exact boot longComment).1
        (jobRun .exact boot longComment).2.1 ∧
      OnFile longComment (jobRun .exact boot longComment).1) ∧
    handed (jobRun .exact boot longComment).1 ≠ fileLines longComment ∧
    "G1 X5\n".toList ∈ handed (jobRun .exact boot longComment).1 ∧
    Accepted "G1 X5\n".toList := by
  have hhanded := (jobRun_worksOff .exact boot longComment).handed.trans longComment_reads
  refine ⟨jobRun_runs _ _ _, ?_, ?_, by decide⟩
  · rw [hhanded]
    decide
  · rw [hhanded]
    simp

end GcodeFatfs.JobRun
