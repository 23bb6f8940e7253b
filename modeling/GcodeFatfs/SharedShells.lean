import GcodeFatfs.Toolpath
import GcodeFatfs.JobAlgebra
import GcodeFatfs.Library.Interleave

/-! Several shells that run jobs at once. main.c creates one shell on its way up
and another one from its loop, and the modal registers are `static`, one set for
all of them. With no time quantum in chconf.h a thread keeps the processor until
it waits, and `_process_line` waits for nothing but its prints, which stand behind
the last use of a register: between the shells it is one action on the registers.
The file objects are shared, too; what FatFs answers is left open here. -/

namespace GcodeFatfs.SharedShells
open GcodeFatfs.Interact GcodeFatfs.Interleave GcodeFatfs.CArith GcodeFatfs.CString
open GcodeFatfs.Board GcodeFatfs.FatCommands GcodeFatfs.GcodeParser GcodeFatfs.Gcodetest
open GcodeFatfs.CommandRuns GcodeFatfs.Modal GcodeFatfs.JobRun GcodeFatfs.JobAlgebra
open GcodeFatfs.Toolpath

/-- A shell whose lines are worked off by registers that are not its own. -/
abbrev SharedShell := SharedProg Op (List Char) Res LineResult Stop
abbrev SharedTrace := Interleave.SharedTrace Op (List Char) Res LineResult
abbrev SharedEvent := Interleave.SharedEvent Op (List Char) Res LineResult

/-- The registers as the object that the shells share. -/
def onRegs (T : Target) (regs : Regs) (line : List Char) : LineResult × Regs :=
  (processLine T regs line, (processLine T regs line).regs)

def calls {α : Type} (p : Shell α) : SharedShell α := lift (List Char) LineResult p

/-- The call of `_process_line`. -/
def act (line : List Char) : SharedShell LineResult := .call (.inr line) .ret

/-- The loop of `cmd_gcodetest`. -/
def sharedLoop : (fuel : ℕ) → SharedShell Unit
  | 0 => .fail .fuel
  | fuel + 1 => do
    let got ← calls (fGets lineSize .fil)
    match got.ret with
    | none => pure ()
    | some line => do
      let r ← act line
      calls (printAll r.msgs)
      calls (printAll (moveMsgs r.param))
      let _ ← calls (fPuts (record r.param.x r.param.y) .debugfil)
      sharedLoop fuel

/-- `cmd_gcodetest`. -/
def sharedGcodetest (fuel : ℕ) : SharedShell Unit := do
  let retval ← calls (openJob jobName)
  let _ ← calls (fOpen .debugfil logName createMode)
  if retval = .ok then sharedLoop fuel else pure ()
  let _ ← calls (fClose .debugfil)
  let _ ← calls closeJob
  pure ()

/-- Jobs in a row. -/
def jobs (fuel : ℕ) : (n : ℕ) → SharedShell Unit
  | 0 => pure ()
  | n + 1 => do
    sharedGcodetest fuel
    jobs fuel n

/-! ## A shell alone -/

/-- A shell alone with the registers. -/
def alone {α : Type} (T : Target) (regs : Regs) (p : SharedShell α) : Shell (α × Regs) :=
  thread (onRegs T) .enterProcessLine regs p

section Alone
variable {α β : Type} (T : Target) (regs : Regs)

theorem alone_ret (a : α) : alone T regs (.ret a) = .ret (a, regs) := rfl

theorem alone_bind (p : SharedShell α) (f : α → SharedShell β) :
    alone T regs (p >>= f) = alone T regs p >>= fun q => alone T q.2 (f q.1) :=
  thread_bind _ _ p f regs

theorem alone_calls_bind (p : Shell α) (f : α → SharedShell β) :
    alone T regs (calls p >>= f) = p >>= fun a => alone T regs (f a) := by
  have hcalls : alone T regs (calls p) = p >>= fun a => .ret (a, regs) := thread_lift _ _ p regs
  rw [alone_bind, hcalls, prog_bind_assoc]
  rfl

theorem alone_act_bind (line : List Char) (f : LineResult → SharedShell α) :
    alone T regs (act line >>= f) =
      enterProcessLine line >>= fun _ =>
        alone T (processLine T regs line).regs (f (processLine T regs line)) := rfl

theorem alone_loop (fuel : ℕ) :
    alone T regs (sharedLoop fuel) = jobLoop T fuel regs >>= fun regs' => pure ((), regs') := by
  induction fuel generalizing regs with
  | zero => rfl
  | succ fuel ih =>
    rw [sharedLoop, jobLoop, alone_calls_bind, prog_bind_assoc]
    congr 1
    funext got
    cases got.ret with
    | none => rfl
    | some line =>
      simp only [alone_act_bind, alone_calls_bind, ih, prog_bind_assoc]

/-- A shell alone runs `cmd_gcodetest` as it is. -/
theorem alone_gcodetest (fuel : ℕ) :
    alone T regs (sharedGcodetest fuel) =
      cmdGcodetest T fuel regs >>= fun regs' => pure ((), regs') := by
  rw [sharedGcodetest, cmdGcodetest, alone_calls_bind, prog_bind_assoc]
  congr 1
  funext retval
  rw [alone_calls_bind, prog_bind_assoc]
  congr 1
  funext _
  by_cases hret : retval = .ok
  · simp only [if_pos hret]
    rw [alone_bind, alone_loop]
    simp only [prog_bind_assoc, pure_eq_ret, ret_bind, alone_calls_bind, alone_ret]
  · simp only [if_neg hret, prog_bind_assoc, pure_eq_ret, ret_bind, alone_calls_bind, alone_ret]

/-- Jobs in a row, each from the registers that the one before it left. -/
theorem alone_jobs (fuel n : ℕ) :
    alone T regs (jobs fuel (n + 1)) =
      cmdGcodetest T fuel regs >>= fun regs' => alone T regs' (jobs fuel n) := by
  rw [jobs, alone_bind, alone_gcodetest, prog_bind_assoc]
  rfl

end Alone

/-! ## What a shell reports -/

variable {T : Target} {fuel : ℕ} {regs regs' : Regs} {t t' : SharedTrace}

/-- Every answer is one of `_process_line`, whatever the registers held. -/
def Answered (T : Target) (t : SharedTrace) : Prop :=
  ∀ e ∈ exchanges t, ∃ regs, e.2 = processLine T regs e.1

/-- A trace logs and prints the moves that were answered, in that order. -/
structure Reports (t : SharedTrace) : Prop where
  logged : logged (operations t) = (exchanges t).map fun e => record e.2.param.x e.2.param.y
  printed : printedMoves (operations t) = (exchanges t).flatMap fun e => moveMsgs e.2.param

theorem reports_liftTrace {t : Trace} (h : IsIdle t) : Reports (liftTrace _ _ t) := by
  obtain ⟨-, hlogged, hprinted⟩ := h
  constructor
  · rw [operations_liftTrace, exchanges_liftTrace, hlogged]
    rfl
  · rw [operations_liftTrace, exchanges_liftTrace, hprinted]
    rfl

theorem reports_append (h : Reports t) (h' : Reports t') : Reports (t ++ t') := by
  constructor
  · rw [operations_append, exchanges_append, logged_append, h.logged, h'.logged, List.map_append]
  · rw [operations_append, exchanges_append, printedMoves_append, h.printed, h'.printed,
      List.flatMap_append]

theorem answered_append : Answered T (t ++ t') ↔ Answered T t ∧ Answered T t' := by
  unfold Answered
  rw [exchanges_append, List.forall_mem_append]

/-- The events of a turn that works off a line. -/
def sharedTurn (got : GetsRes) (line : List Char) (r : LineResult) (written : ℤ) : SharedTrace :=
  liftTrace _ _ [⟨.fGets lineSize .fil, got⟩] ++ [⟨.inr line, r⟩] ++
    liftTrace _ _ (printTrace r.msgs ++ printTrace (moveMsgs r.param) ++
      [⟨.fPuts (record r.param.x r.param.y) .debugfil, written⟩])

theorem exchanges_turn (got : GetsRes) (line : List Char) (r : LineResult) (written : ℤ) :
    exchanges (sharedTurn got line r written) = [(line, r)] := by
  rw [sharedTurn, exchanges_append, exchanges_append, exchanges_liftTrace, exchanges_liftTrace]
  rfl

theorem reports_turn (got : GetsRes) (line : List Char) (written : ℤ) :
    Reports (sharedTurn got line (processLine T regs line) written) := by
  constructor
  · rw [exchanges_turn, sharedTurn, operations_append, operations_append, operations_liftTrace,
      operations_liftTrace]
    simp only [logged_append, logged_printTrace]
    rfl
  · rw [exchanges_turn, sharedTurn, operations_append, operations_append, operations_liftTrace,
      operations_liftTrace]
    simp only [printedMoves_append, printedMoves_printTrace, lineMsgs_not_moves, moveMsgs_moves]
    simp [printedMoves, operations]

theorem printAll_runs {ms : List Msg} {t : Trace} {r : Except Stop Unit} :
    Runs (printAll ms) t r ↔ t = printTrace ms ∧ r = .ok () := by
  induction ms generalizing t with
  | nil => exact runs_ret
  | cons m ms ih =>
    simp only [printAll, chprintf, call_bind, ret_bind, runs_chprintf, ih]
    constructor
    · rintro ⟨t', rfl, rfl, hr⟩
      exact ⟨rfl, hr⟩
    · rintro ⟨rfl, hr⟩
      exact ⟨_, rfl, rfl, hr⟩

/-- A turn of the loop: nothing was read, or a line is worked off. -/
theorem sharedLoop_turn (h : Runs (sharedLoop (fuel + 1)) t (.ok ())) :
    (∃ got, t = liftTrace _ _ [⟨.fGets lineSize .fil, got⟩]) ∨
    ∃ got line r written t', t = sharedTurn got line r written ++ t' ∧
      Runs (sharedLoop fuel) t' (.ok ()) := by
  obtain ⟨got, t₁, rfl, h₁⟩ := runs_lift_call.mp h
  split at h₁
  · obtain ⟨rfl, -⟩ := runs_ret.mp h₁
    exact .inl ⟨got, List.append_nil _⟩
  · rename_i line _
    obtain ⟨r, t₂, rfl, h₂⟩ := runs_call.mp h₁
    obtain ⟨t₃, _, t₄, h₃, h₄, rfl⟩ := runs_lift_bind.mp h₂
    obtain ⟨t₅, _, t₆, h₅, h₆, rfl⟩ := runs_lift_bind.mp h₄
    obtain ⟨rfl, -⟩ := printAll_runs.mp h₃
    obtain ⟨rfl, -⟩ := printAll_runs.mp h₅
    obtain ⟨written, t₇, rfl, h₇⟩ := runs_lift_call.mp h₆
    exact .inr ⟨got, line, r, written, t₇, by simp [sharedTurn, liftTrace], h₇⟩

theorem sharedLoop_reports (h : Runs (sharedLoop fuel) t (.ok ())) (ht : Answered T t) :
    Reports t := by
  induction fuel generalizing t with
  | zero => cases h
  | succ fuel ih =>
    rcases sharedLoop_turn h with ⟨got, rfl⟩ | ⟨got, line, r, written, t', rfl, hrun⟩
    · exact reports_liftTrace ⟨rfl, rfl, rfl⟩
    · obtain ⟨hturn, hrest⟩ := answered_append.mp ht
      rw [Answered, exchanges_turn, List.forall_mem_singleton] at hturn
      obtain ⟨regs, hr⟩ := hturn
      have hr : r = processLine T regs line := hr
      subst hr
      exact reports_append (reports_turn got line written) (ih hrun hrest)

/-- The end of `cmd_gcodetest`. -/
def sharedClose : SharedShell Unit := do
  let _ ← calls (fClose .debugfil)
  let _ ← calls closeJob
  pure ()

theorem sharedClose_reports (h : Runs sharedClose t (.ok ())) : Reports t := by
  obtain ⟨_, t₁, rfl, h₁⟩ := runs_lift_call.mp h
  obtain ⟨t₂, _, t₃, h₂, h₃, rfl⟩ := runs_lift_bind.mp h₁
  obtain ⟨cl, d, err, cl₂, rfl, -⟩ := closeJob_runs h₂
  obtain ⟨rfl, -⟩ := runs_ret.mp h₃
  rw [List.append_nil]
  exact reports_append (reports_liftTrace ⟨rfl, rfl, rfl⟩)
    (reports_liftTrace (closeJobTrace_idle cl d err cl₂))

theorem sharedGcodetest_reports (h : Runs (sharedGcodetest fuel) t (.ok ())) (ht : Answered T t) :
    Reports t := by
  obtain ⟨t₁, retval, t₂, h₁, h₂, rfl⟩ := runs_lift_bind.mp h
  obtain ⟨c, m, fr, rfl, -⟩ := openJob_runs h₁
  obtain ⟨dfr, t₃, rfl, h₃⟩ := runs_lift_call.mp h₂
  refine reports_append (reports_liftTrace (openJobTrace_idle c m fr))
    (reports_append (reports_liftTrace ⟨rfl, rfl, rfl⟩) ?_)
  obtain ⟨-, hrest⟩ := answered_append.mp ht
  obtain ⟨-, hloop⟩ := answered_append.mp hrest
  split at h₃
  · obtain ⟨t₄, _, t₅, h₄, h₅, rfl⟩ := runs_bind.mp h₃
    exact reports_append (sharedLoop_reports h₄ (answered_append.mp hloop).1)
      (sharedClose_reports h₅)
  · exact sharedClose_reports h₃

theorem jobs_reports {n : ℕ} (h : Runs (jobs fuel n) t (.ok ())) (ht : Answered T t) :
    Reports t := by
  induction n generalizing t with
  | zero =>
    obtain ⟨rfl, -⟩ := runs_ret.mp h
    exact ⟨rfl, rfl⟩
  | succ n ih =>
    obtain ⟨t₁, _, t₂, h₁, h₂, rfl⟩ := runs_bind.mp h
    obtain ⟨ht₁, ht₂⟩ := answered_append.mp ht
    exact reports_append (sharedGcodetest_reports h₁ ht₁) (ih h₂ ht₂)

/-! ## All shells in one row -/

variable {ι : Type} [DecidableEq ι] {m : List (ι × SharedEvent)}

/-- One shell logs and prints what it is answered in the row. -/
theorem own_reports {n : ℕ} {i : ι} (h : Runs (jobs fuel n) (own i m) (.ok ()))
    (hserved : Served (onRegs T) regs (m.map Prod.snd) regs') :
    logged (operations (own i m)) =
        (own i (serve (onRegs T) regs (row m))).map (fun r => record r.param.x r.param.y) ∧
      printedMoves (operations (own i m)) =
        (own i (serve (onRegs T) regs (row m))).flatMap fun r => moveMsgs r.param := by
  obtain ⟨-, hanswers, hhonest⟩ := own_exchanges hserved i
  obtain ⟨hlogged, hprinted⟩ := jobs_reports h hhonest
  rw [← hanswers]
  constructor
  · rw [hlogged, List.map_map]
    rfl
  · rw [hprinted, List.flatMap_map]

/-- **One row.** Let any shells run any jobs, interleaved in any way. The registers
end as all the lines leave them, in the order of the calls of `_process_line`, and
each shell logs and prints what its own lines are answered in that row. -/
theorem shells_in_one_row {n : ι → ℕ} (h : ∀ i, Runs (jobs fuel (n i)) (own i m) (.ok ()))
    (hserved : Served (onRegs T) regs (m.map Prod.snd) regs') :
    regs' = processLines T regs ((row m).map Prod.snd) ∧ ∀ i,
      (exchanges (own i m)).map Prod.fst = own i (row m) ∧
        logged (operations (own i m)) =
          (own i (serve (onRegs T) regs (row m))).map (fun r => record r.param.x r.param.y) ∧
        printedMoves (operations (own i m)) =
          (own i (serve (onRegs T) regs (row m))).flatMap fun r => moveMsgs r.param :=
  ⟨(served_in_one_row hserved).2, fun i =>
    ⟨(own_exchanges hserved i).1, own_reports (h i) hserved⟩⟩

/-! ## Shells that do not notice -/

/-- A line that sets an axis, or is no move, emits the same there on any registers. -/
theorem processLine_get_free {line : List Char} {a : Axis}
    (h : Accepted line → lineSets T a line ≠ none) (regs regs₀ : Regs) :
    (processLine T regs line).param.get a = (processLine T regs₀ line).param.get a := by
  by_cases hacc : Accepted line
  · obtain ⟨v, hv⟩ := Option.ne_none_iff_exists'.mp (h hacc)
    rw [processLine_emits T regs hacc, processLine_overwrites, processLine_emits T regs₀ hacc,
      processLine_overwrites, overwrite, overwrite, hv]
    rfl
  · rw [(processLine_rejected T regs hacc).2, (processLine_rejected T regs₀ hacc).2]

/-- A move that does not set an axis emits what the register holds there. -/
theorem processLine_get_kept {line : List Char} {a : Axis} (hacc : Accepted line)
    (h : lineSets T a line = none) (regs : Regs) :
    (processLine T regs line).param.get a = (regs.get a).toInt32 := by
  rw [processLine_emits T regs hacc, processLine_overwrites, overwrite, h]
  rfl

theorem own_serve_get {i : ι} {a : Axis} {r : List (ι × List Char)}
    (h : ∀ line ∈ own i r, Accepted line → lineSets T a line ≠ none) (regs₀ : Regs) :
    (own i (serve (onRegs T) regs r)).map (·.param.get a) =
      (emitted T regs₀ (own i r)).map (·.get a) := by
  induction r generalizing regs regs₀ with
  | nil => rfl
  | cons p r ih =>
    obtain ⟨j, line⟩ := p
    rw [serve, own_cons, own_cons]
    rw [own_cons] at h
    split at h
    · obtain ⟨hline, hrest⟩ := List.forall_mem_cons.mp h
      rw [if_pos ‹_›, if_pos ‹_›, List.map_cons, emitted, List.map_cons, ih hrest]
      exact congrArg (· :: _) (processLine_get_free hline regs regs₀)
    · rw [if_neg ‹_›, if_neg ‹_›]
      exact ih h regs₀

/-- A shell that has the registers to itself. -/
theorem own_serve_alone (i : ι) (ls : List (List Char)) :
    (own i (serve (onRegs T) regs (ls.map fun l => (i, l)))).map (·.param) = emitted T regs ls := by
  induction ls generalizing regs with
  | nil => rfl
  | cons l ls ih =>
    rw [List.map_cons, serve, own_cons, if_pos rfl, List.map_cons, ih]
    rfl

/-! ## Any order can come about -/

/-- The events that open a job. -/
def opening : SharedTrace :=
  liftTrace _ _ (openJobTrace .success .ok .ok ++
    [⟨.fOpen .debugfil logName createMode, FResult.ok⟩])

/-- The events behind the last line of a job. -/
def closing : SharedTrace :=
  liftTrace _ _ ([⟨.fGets lineSize .fil, { ret := none }⟩, ⟨.fClose .debugfil, FResult.ok⟩] ++
    closeJobTrace .ok .success .ok .ok)

def turnOf (line : List Char) (r : LineResult) : SharedTrace := sharedTurn { ret := some line } line r 0

theorem runs_printTrace {ms : List Msg} {k : SharedShell Unit} (h : Runs k t (.ok ())) :
    Runs (do calls (printAll ms); k) (liftTrace _ _ (printTrace ms) ++ t) (.ok ()) :=
  runs_lift_bind.mpr ⟨_, (), t, printAll_runs.mpr ⟨rfl, rfl⟩, h, rfl⟩

theorem runs_puts {str : String} (written : ℤ) {k : SharedShell Unit} (h : Runs k t (.ok ())) :
    Runs (do let _ ← calls (fPuts str .debugfil); k)
      (liftTrace _ _ [⟨.fPuts str .debugfil, written⟩] ++ t) (.ok ()) :=
  runs_lift_call.mpr ⟨written, t, rfl, h⟩

theorem runs_turnOf {line : List Char} {r : LineResult} (h : Runs (sharedLoop fuel) t (.ok ())) :
    Runs (sharedLoop (fuel + 1)) (turnOf line r ++ t) (.ok ()) := by
  have hact : Runs (act line >>= fun r => do
      calls (printAll r.msgs)
      calls (printAll (moveMsgs r.param))
      let _ ← calls (fPuts (record r.param.x r.param.y) .debugfil)
      sharedLoop fuel) _ (.ok ()) :=
    .call r (runs_printTrace (runs_printTrace (runs_puts 0 h)))
  have hgets : Runs (sharedLoop (fuel + 1)) _ (.ok ()) :=
    (runs_lift_call (o := Op.fGets lineSize .fil)).mpr ⟨({ ret := some line } : GetsRes), _, rfl, hact⟩
  simp only [turnOf, sharedTurn, liftTrace, List.map_append, List.append_assoc]
  exact hgets

theorem runs_turns (es : List (List Char × LineResult)) (hfuel : es.length < fuel) :
    Runs (sharedLoop fuel) (es.flatMap (fun e => turnOf e.1 e.2) ++
      liftTrace _ _ [⟨.fGets lineSize .fil, { ret := none }⟩]) (.ok ()) := by
  induction es generalizing fuel with
  | nil =>
    obtain ⟨fuel, rfl⟩ : ∃ k, fuel = k + 1 := ⟨fuel - 1, by simp at hfuel; omega⟩
    exact runs_lift_call.mpr ⟨{ ret := none }, [], rfl, .ret ()⟩
  | cons e es ih =>
    obtain ⟨fuel, rfl⟩ : ∃ k, fuel = k + 1 := ⟨fuel - 1, by simp at hfuel; omega⟩
    rw [List.flatMap_cons, List.append_assoc]
    exact runs_turnOf (ih (by simpa using hfuel))

theorem runs_job (es : List (List Char × LineResult)) (hfuel : es.length < fuel) :
    Runs (sharedGcodetest fuel)
      (opening ++ es.flatMap (fun e => turnOf e.1 e.2) ++ closing) (.ok ()) := by
  have hopen : Runs (openJob jobName) (openJobTrace .success .ok .ok) (.ok .ok) := by
    simp [openJob, openJobTrace, say]
  have hclose : Runs closeJob (closeJobTrace .ok .success .ok .ok) (.ok .ok) := by
    simp [closeJob, closeJobTrace]
  have hend : Runs sharedClose (liftTrace _ _ [⟨.fClose .debugfil, FResult.ok⟩] ++
      (liftTrace _ _ (closeJobTrace .ok .success .ok .ok) ++ [])) (.ok ()) :=
    runs_lift_call.mpr ⟨.ok, _, rfl, runs_lift_bind.mpr ⟨_, .ok, _, hclose, .ret (), rfl⟩⟩
  have hloop : Runs (sharedLoop fuel >>= fun _ => sharedClose) _ (.ok ()) :=
    runs_bind.mpr ⟨_, (), _, runs_turns es hfuel, hend, rfl⟩
  refine runs_lift_bind.mpr ⟨_, .ok, _, hopen, runs_lift_call.mpr ⟨.ok, _, rfl, hloop⟩, ?_⟩
  simp [opening, closing, liftTrace]

/-- Lines in a row, worked off one after the other. -/
def played (T : Target) : Regs → List (ι × List Char) → List (ι × SharedEvent)
  | _, [] => []
  | regs, (i, line) :: r =>
    (turnOf line (processLine T regs line)).map (fun e => (i, e)) ++
      played T (processLine T regs line).regs r

omit [DecidableEq ι] in
theorem row_played (r : List (ι × List Char)) : row (played T regs r) = r := by
  induction r generalizing regs with
  | nil => rfl
  | cons p r ih =>
    obtain ⟨i, line⟩ := p
    rw [played, row_append, ih, row_tagged, turnOf, exchanges_turn]
    rfl

omit [DecidableEq ι] in
theorem served_played (r : List (ι × List Char)) :
    Served (onRegs T) regs ((played T regs r).map Prod.snd)
      (processLines T regs (r.map Prod.snd)) := by
  induction r generalizing regs with
  | nil => rfl
  | cons p r ih =>
    obtain ⟨i, line⟩ := p
    have hturn : Served (onRegs T) regs (turnOf line (processLine T regs line))
        (processLine T regs line).regs :=
      served_append.mpr ⟨_, ⟨rfl, rfl⟩, served_quiet (exchanges_liftTrace _)⟩
    have hid : Prod.snd ∘ (fun e : SharedEvent => (i, e)) = id := rfl
    rw [played, List.map_append, List.map_map, hid, List.map_id]
    exact served_append.mpr ⟨_, hturn, ih⟩

theorem own_played (T : Target) (regs : Regs) (i : ι) (r : List (ι × List Char)) :
    ∃ es : List (List Char × LineResult), es.map Prod.fst = own i r ∧
      own i (played T regs r) = es.flatMap fun e => turnOf e.1 e.2 := by
  induction r generalizing regs with
  | nil => exact ⟨[], rfl, rfl⟩
  | cons p r ih =>
    obtain ⟨j, line⟩ := p
    obtain ⟨es, hlines, hown⟩ := ih (processLine T regs line).regs
    rw [played, own_append, own_tagged, own_cons]
    split
    · exact ⟨(line, processLine T regs line) :: es, congrArg _ hlines, congrArg _ hown⟩
    · exact ⟨es, hlines, hown⟩

/-- Some shells with a job each, at these lines. -/
def together (T : Target) (regs : Regs) (is : List ι) (r : List (ι × List Char)) :
    List (ι × SharedEvent) :=
  (is.flatMap fun i => opening.map fun e => (i, e)) ++ played T regs r ++
    is.flatMap fun i => closing.map fun e => (i, e)

theorem together_runs (T : Target) (regs : Regs) {is : List ι} (his : is.Nodup) {r : List (ι × List Char)}
    (hr : ∀ p ∈ r, p.1 ∈ is) (hfuel : r.length < fuel) (i : ι) :
    Runs (jobs fuel (if i ∈ is then 1 else 0)) (own i (together T regs is r)) (.ok ()) := by
  obtain ⟨es, hlines, hown⟩ := own_played T regs i r
  rw [together, own_append, own_append, own_each his, own_each his, hown]
  by_cases hi : i ∈ is
  · have hlen : es.length ≤ r.length := by
      rw [← List.length_map Prod.fst, hlines, own, List.length_map]
      exact List.length_filter_le _ _
    rw [if_pos hi, if_pos hi, if_pos hi]
    exact runs_bind.mpr ⟨_, (), [], runs_job es (by omega), .ret (), (List.append_nil _).symm⟩
  · have hnone : own i r = [] := by
      rw [own, List.map_eq_nil_iff, List.filter_eq_nil_iff]
      intro p hp hpi
      exact hi (of_decide_eq_true hpi ▸ hr p hp)
    rw [hnone, List.map_eq_nil_iff] at hlines
    rw [if_neg hi, if_neg hi, if_neg hi, hlines]
    exact .ret ()

theorem opening_quiet : exchanges opening = [] := exchanges_liftTrace _
theorem closing_quiet : exchanges closing = [] := exchanges_liftTrace _

omit [DecidableEq ι] in
theorem together_row (is : List ι) (r : List (ι × List Char)) :
    row (together T regs is r) = r := by
  rw [together, row_append, row_append, row_played, row, row, taggedExchanges_each opening_quiet,
    taggedExchanges_each closing_quiet]
  exact List.append_nil r

omit [DecidableEq ι] in
theorem together_served (T : Target) (regs : Regs) (is : List ι) (r : List (ι × List Char)) :
    Served (onRegs T) regs ((together T regs is r).map Prod.snd)
      (processLines T regs (r.map Prod.snd)) := by
  have hquiet {t : SharedTrace} {regs : Regs} (ht : exchanges t = []) :
      Served (onRegs T) regs ((is.flatMap fun i => t.map fun e => (i, e)).map Prod.snd) regs := by
    apply served_quiet
    rw [exchanges_untag, taggedExchanges_each ht]
    rfl
  rw [together, List.map_append, List.map_append]
  exact served_append.mpr ⟨_, served_append.mpr ⟨_, hquiet opening_quiet, served_played r⟩,
    hquiet closing_quiet⟩

/-- Two shells, the first with a move on each side of the second's. -/
def crossed : List (Bool × List Char) :=
  [(false, "G1 X1\n".toList), (true, "G1 Y2\n".toList), (false, "G1 Z3\n".toList)]

/-- The first shell logs the second one's y. -/
theorem shells_in_one_row_crossed :
    logged (operations (own false (together .exact boot [false, true] crossed))) =
      ["1000, 0\n", "1000, 2000\n"] := by
  have hruns : ∀ i, Runs (jobs 4 (if i ∈ [false, true] then 1 else 0))
      (own i (together .exact boot [false, true] crossed)) (.ok ()) :=
    together_runs .exact boot (by decide) (by decide) (by decide)
  rw [((shells_in_one_row hruns (together_served _ _ _ _)).2 false).2.1, together_row]
  decide +kernel

/-! ## Undisturbed shells -/

/-- The lines of shell `i`, with one of shell `j` in between. -/
def intruded (i j : ι) (pre : List (List Char)) (line : List Char) (post : List (List Char)) :
    List (ι × List Char) :=
  pre.map (fun l => (i, l)) ++ (j, line) :: post.map fun l => (i, l)

theorem own_intruded {i j : ι} (hij : i ≠ j) (pre : List (List Char)) (line : List Char)
    (post : List (List Char)) : own i (intruded i j pre line post) = pre ++ post := by
  rw [intruded, own_append, own_cons, own_tagged, own_tagged, if_pos rfl, if_pos rfl,
    if_neg hij.symm]

omit [DecidableEq ι] in
theorem intruded_mem {i j : ι} {pre : List (List Char)} {line : List Char}
    {post : List (List Char)} : ∀ q ∈ intruded i j pre line post, q.1 ∈ [i, j] := by
  intro q hq
  simp only [intruded, List.mem_append, List.mem_cons, List.mem_map] at hq
  rcases hq with ⟨_, _, rfl⟩ | rfl | ⟨_, _, rfl⟩ <;> simp

/-- A move that does not set an axis is answered otherwise behind a line of another
shell that moves the axis. -/
theorem own_serve_intruded (hT : T.Accurate) (regs : Regs) {i j : ι} (hij : i ≠ j) {a : Axis}
    {line : List Char} (hacc : Accepted line) (hnone : lineSets T a line = none)
    (pre post : List (List Char)) :
    ∃ p : Position,
      (own i (serve (onRegs T) regs
          (intruded i j pre p.textLine.text (line :: post)))).map (·.param.get a) ≠
        (emitted T regs (pre ++ line :: post)).map (·.get a) := by
  obtain ⟨k, hk, hne⟩ : ∃ k : Int32, k ≠ -1 ∧ k ≠ ((processLines T regs pre).get a).toInt32 := by
    by_cases hzero : ((processLines T regs pre).get a).toInt32 = 0
    · exact ⟨1, by decide, by rw [hzero]; decide⟩
    · exact ⟨0, by decide, fun h => hzero h.symm⟩
  let p : Position := ⟨fun _ => k, fun _ => hk⟩
  refine ⟨p, fun hsame => hne ?_⟩
  have hpre : (emitted T regs pre).map (·.get a) =
      (own i (serve (onRegs T) regs (pre.map fun l => (i, l)))).map (·.param.get a) := by
    rw [← own_serve_alone i pre, List.map_map]
    rfl
  rw [intruded, serve_append, own_append, List.map_append, emitted_append, List.map_append,
    hpre] at hsame
  have htail := List.append_cancel_left hsame
  rw [serve, own_cons, if_neg hij.symm, List.map_cons, serve, own_cons, if_pos rfl] at htail
  have hhead : (processLine T (processLine T _ p.textLine.text).regs line).param.get a =
      (processLine T (processLines T regs pre) line).param.get a := (List.cons.inj htail).1
  rw [processLine_get_kept hacc hnone, processLine_get_kept hacc hnone,
    (p.processLine_text hT _ a).2, Int32.toInt32_toUInt32] at hhead
  exact hhead

/-- However a shell with these lines is interleaved with others, it is answered
the same on an axis as alone. -/
def Undisturbed (T : Target) (fuel : ℕ) (regs : Regs) (i : ι) (a : Axis)
    (ls : List (List Char)) : Prop :=
  ∀ (n : ι → ℕ) (m : List (ι × SharedEvent)) (regs' : Regs),
    (∀ k, Runs (jobs fuel (n k)) (own k m) (.ok ())) →
    Served (onRegs T) regs (m.map Prod.snd) regs' → own i (row m) = ls →
    (exchanges (own i m)).map (fun e => e.2.param.get a) = (emitted T regs ls).map (·.get a)

/-- What a shell is answered on an axis, read off the row. -/
theorem own_answers_get {m : List (ι × SharedEvent)}
    (h : Served (onRegs T) regs (m.map Prod.snd) regs') (i : ι) (a : Axis) :
    (exchanges (own i m)).map (fun e => e.2.param.get a) =
      (own i (serve (onRegs T) regs (row m))).map (·.param.get a) := by
  rw [← (own_exchanges h i).2.1, List.map_map]
  rfl

/-- **Undisturbed.** A shell is safe from every other shell on an axis exactly when
each of its moves sets the axis itself. -/
theorem undisturbed_iff (hT : T.Accurate) {i j : ι} (hij : i ≠ j) (a : Axis)
    (ls : List (List Char)) (hfuel : ls.length + 1 < fuel) :
    Undisturbed T fuel regs i a ls ↔
      ∀ line ∈ ls, Accepted line → lineSets T a line ≠ none := by
  constructor
  · intro h line hline hacc hnone
    obtain ⟨pre, post, rfl⟩ := List.append_of_mem hline
    obtain ⟨p, hdiffer⟩ := own_serve_intruded hT regs hij hacc hnone pre post
    let r := intruded i j pre p.textLine.text (line :: post)
    have hlen : r.length < fuel := by
      simp only [r, intruded, List.length_append, List.length_map, List.length_cons] at hfuel ⊢
      omega
    have hserved := together_served T regs [i, j] r
    have hsame := h _ _ _ (together_runs T regs (by simpa using hij) intruded_mem hlen) hserved
      (by rw [together_row, own_intruded hij])
    rw [own_answers_get hserved, together_row] at hsame
    exact hdiffer hsame
  · rintro h n m regs' - hserved rfl
    rw [own_answers_get hserved]
    exact own_serve_get h regs

theorem undisturbed_iff_crossed :
    ¬ Undisturbed .exact 4 boot false .y (own false crossed) := by
  rw [undisturbed_iff Target.exact_accurate (j := true) (by decide) .y _ (by decide)]
  decide

/-! ## Toolpaths on several shells -/

/-- A shell with the lines of some positions is answered these positions. -/
theorem own_serve_positions (hT : T.Accurate) {i : ι} {r : List (ι × List Char)}
    {ps : List Position} (h : own i r = ps.map (·.textLine.text)) :
    (own i (serve (onRegs T) regs r)).map (·.param.get) = ps.map Position.get := by
  induction r generalizing regs ps with
  | nil =>
    rw [List.map_eq_nil_iff.mp h.symm]
    rfl
  | cons q r ih =>
    obtain ⟨j, line⟩ := q
    rw [serve, own_cons]
    rw [own_cons] at h
    split at h
    · cases ps with
      | nil => cases h
      | cons p ps =>
        obtain ⟨rfl, hrest⟩ := List.cons.inj h
        have hget : (processLine T regs p.textLine.text).param.get = p.get :=
          funext fun a => (p.processLine_text hT regs a).1
        rw [if_pos ‹_›, List.map_cons, ih hrest, List.map_cons]
        exact congrArg (· :: _) hget
    · rw [if_neg ‹_›]
      exact ih h

/-- **Toolpaths together.** On every accurate target a shell that runs the jobs of
some positions logs and prints exactly these, whatever other shells run meanwhile
and however they are interleaved. -/
theorem toolpaths_together (hT : T.Accurate) {n : ℕ} {i : ι} {ps : List Position}
    (h : Runs (jobs fuel n) (own i m) (.ok ()))
    (hserved : Served (onRegs T) regs (m.map Prod.snd) regs')
    (hlines : own i (row m) = ps.map (·.textLine.text)) :
    logged (operations (own i m)) = ps.map (fun p => record (p.get .x) (p.get .y)) ∧
      printedMoves (operations (own i m)) = ps.flatMap fun p => moveMsgs p.param := by
  obtain ⟨hlogged, hprinted⟩ := own_reports h hserved
  have hanswers : ((own i (serve (onRegs T) regs (row m))).map (·.param)).map Param.get =
      ps.map Position.get := by
    rw [List.map_map]
    exact own_serve_positions hT hlines
  have hrecords := map_congr_get record_congr hanswers
  have hmsgs := map_congr_get (fun _ _ h => moveMsgs_congr (congrFun h)) hanswers
  rw [List.map_map] at hrecords hmsgs
  constructor
  · rw [hlogged]
    exact hrecords
  · rw [hprinted, List.flatMap, List.flatMap]
    exact congrArg List.flatten hmsgs

/-- A toolpath of one position beside a shell that moves in x alone. -/
def oneStop : Position where
  get a := match a with
    | .x => 5
    | .y => -7
    | _ => 0
  sayable a := by cases a <;> decide

def beside : List (Bool × List Char) :=
  [(true, "G1 X1\n".toList), (false, oneStop.textLine.text), (true, "G1 X2\n".toList)]

theorem toolpaths_together_oneStop :
    logged (operations (own false (together .exact boot [false, true] beside))) = ["5, -7\n"] := by
  have hruns : Runs (jobs 4 (if false ∈ [false, true] then 1 else 0))
      (own false (together .exact boot [false, true] beside)) (.ok ()) :=
    together_runs .exact boot (by decide) (by simp [beside]) (by simp [beside]) false
  have hlines : own false (row (together .exact boot [false, true] beside)) =
      [oneStop].map (·.textLine.text) := by
    rw [together_row]
    rfl
  rw [(toolpaths_together Target.exact_accurate hruns (together_served _ _ _ _) hlines).1]
  decide +kernel

end GcodeFatfs.SharedShells
