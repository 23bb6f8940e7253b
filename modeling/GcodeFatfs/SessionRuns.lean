import GcodeFatfs.JobAlgebra
import GcodeFatfs.Footprint

/-! Whole sessions against the lines they hand on. Whatever FatFs and the card
answer, a session is one run of `_process_line` over the strings that were read,
with the registers carried from each job to the next. -/

namespace GcodeFatfs.SessionRuns
open GcodeFatfs.Interact GcodeFatfs.CArith GcodeFatfs.CString GcodeFatfs.Board
open GcodeFatfs.FatCommands GcodeFatfs.GcodeParser GcodeFatfs.Gcodetest GcodeFatfs.CommandRuns
open GcodeFatfs.JobRun GcodeFatfs.JobLog GcodeFatfs.JobAlgebra GcodeFatfs.Footprint

variable {T : Target} {fuel : ℕ} {regs regs' : Regs} {t t' : Trace} {c : Command}

/-- A trace hands on lines, logs and prints what they emit from the registers on,
and leaves the registers they leave. -/
def Refines (T : Target) (regs : Regs) (t : Trace) (regs' : Regs) : Prop :=
  regs' = processLines T regs (handed t) ∧ WorksOff T regs (handed t) t

theorem refines_idle (h : IsIdle t) : Refines T regs t regs := by
  obtain ⟨hhanded, hlogged, hprinted⟩ := h
  unfold Refines
  rw [hhanded]
  exact ⟨rfl, hhanded, hlogged, hprinted⟩

/-- Refining traces may stand one behind the other. -/
theorem refines_append {regs₁ regs₂ : Regs} (h : Refines T regs t regs₁)
    (h' : Refines T regs₁ t' regs₂) : Refines T regs (t ++ t') regs₂ := by
  obtain ⟨rfl, hworks⟩ := h
  obtain ⟨rfl, hworks'⟩ := h'
  refine ⟨?_, rfl, ?_, ?_⟩
  · rw [handed_append, processLines_append]
  · rw [logged_append, handed_append, hworks.logged, hworks'.logged, emitted_append, List.map_append]
  · rw [printedMoves_append, handed_append, hworks.printed, hworks'.printed, emitted_append,
      List.flatMap_append]

/-! ## One command -/

theorem refines_turn (got : GetsRes) (line : List Char) (written : ℤ) :
    Refines T regs ([⟨.fGets lineSize .fil, got⟩] ++ turnTrace T regs line written)
      (processLine T regs line).regs := by
  have hend : WorksOff T (processLine T regs line).regs [] [] := ⟨rfl, rfl, rfl⟩
  have hworks := worksOff_turn got written hend
  rw [List.append_nil] at hworks
  unfold Refines
  rw [hworks.handed]
  exact ⟨rfl, hworks⟩

/-- The loop of `cmd_gcodetest` refines the lines it gets, whatever they are. -/
theorem jobLoop_refines (h : Runs (jobLoop T fuel regs) t (.ok regs')) :
    Refines T regs t regs' := by
  induction fuel generalizing regs t with
  | zero => cases h
  | succ fuel ih =>
    rcases jobLoop_turn h with ⟨got, -, rfl, hr⟩ | ⟨got, line, written, t', -, rfl, hrun⟩
    · obtain rfl := Except.ok.inj hr
      exact refines_idle ⟨rfl, rfl, rfl⟩
    · exact refines_append (refines_turn got line written) (ih hrun)

theorem gcodetest_refines (h : Runs (cmdGcodetest T fuel regs) t (.ok regs')) :
    Refines T regs t regs' := by
  obtain ⟨d, m, fr, dfr, cd, cl, d', err, cl₂, loop, -, hloop, rfl⟩ := gcodetest_runs h
  have hturns : Refines T regs loop regs' := by
    split at hloop
    · exact jobLoop_refines hloop
    · obtain ⟨rfl, hr⟩ := runs_ret.mp hloop
      obtain rfl := Except.ok.inj hr
      exact refines_idle ⟨rfl, rfl, rfl⟩
  have hopen : IsIdle (openJobTrace d m fr ++ [⟨.fOpen .debugfil logName createMode, dfr⟩]) :=
    isIdle_append (openJobTrace_idle d m fr) ⟨rfl, rfl, rfl⟩
  have hclose : IsIdle ([⟨.fClose .debugfil, cd⟩] ++ closeJobTrace cl d' err cl₂) :=
    isIdle_append ⟨rfl, rfl, rfl⟩ (closeJobTrace_idle cl d' err cl₂)
  simpa using refines_append (refines_append (refines_idle hopen) hturns) (refines_idle hclose)

/-- No other command prints what a move prints, or writes the log. -/
theorem other_performs (hc : c ≠ .gcodetest) :
    (∀ fmt ∈ fmts c, fmt ∉ moveFmts) ∧ ∀ path, (.debugfil, path, createMode) ∉ opens c := by
  cases c with
  | gcodetest => exact absurd rfl hc
  | _ => exact ⟨by simp [fmts, errorFmt, moveFmts, moveMsgs], by simp [opens]⟩

theorem other_idle (hc : c ≠ .gcodetest) (h : ∀ e ∈ t, Performs c e.op) : IsIdle t := by
  obtain ⟨hfmts, hopens⟩ := other_performs hc
  unfold IsIdle handed logged printedMoves
  simp only [List.filterMap_eq_nil_iff]
  refine ⟨?_, ?_, ?_⟩
  · rintro ⟨op, x⟩ he
    have hop : Performs c op := h _ he
    cases op with
    | enterProcessLine line => exact absurd hop hc
    | _ => rfl
  · rintro ⟨op, x⟩ he
    have hop : Performs c op := h _ he
    cases op with
    | fPuts s fp =>
      cases fp with
      | debugfil =>
        obtain ⟨path, hpath⟩ := hop
        exact absurd hpath (hopens path)
      | _ => rfl
    | _ => rfl
  · rintro ⟨op, x⟩ he
    have hop : Performs c op := h _ he
    cases op with
    | chprintf m => exact if_neg (hfmts m.fmt hop)
    | _ => rfl

/-- The other commands hand the registers through. -/
theorem other_keeps (hc : c ≠ .gcodetest) (h : Runs (c.run T fuel regs) t (.ok regs')) :
    regs' = regs := by
  have hpure {p : Shell Unit} (hp : Runs (do p; pure regs) t (.ok regs')) : regs' = regs := by
    obtain ⟨_, _, _, _, hend, _⟩ := runs_bind.mp hp
    exact Except.ok.inj (runs_ret.mp hend).2
  cases c with
  | gcodetest => exact absurd rfl hc
  | _ => exact hpure h

theorem command_refines (h : Runs (c.run T fuel regs) t (.ok regs')) : Refines T regs t regs' := by
  by_cases hc : c = .gcodetest
  · subst hc
    exact gcodetest_refines h
  · obtain rfl := other_keeps hc h
    exact refines_idle (other_idle hc (runs_only h (command_footprint c)))

/-! ## Sessions -/

theorem runsSeq_refines {cs : List Command} {ts : List Trace}
    (h : RunsSeq (Command.run T fuel) regs cs ts regs') : Refines T regs ts.flatten regs' := by
  induction h with
  | nil => exact refines_idle ⟨rfl, rfl, rfl⟩
  | cons hrun _ ih => exact refines_append (command_refines hrun) ih

/-- **Sessions.** In any session, whatever is answered, the registers end as the
lines handed on leave them, one job behind the other, and what is logged and
printed of moves is what these lines emit in a row. -/
theorem session_refines {cs : List Command} {ts : List Trace}
    (h : RunsSeq (Command.run T fuel) regs cs ts regs') :
    regs' = processLines T regs (handed ts.flatten) ∧
      logged ts.flatten =
        (emitted T regs (handed ts.flatten)).map (fun p => record p.x p.y) ∧
      printedMoves ts.flatten = (emitted T regs (handed ts.flatten)).flatMap moveMsgs := by
  obtain ⟨hregs, hworks⟩ := runsSeq_refines h
  exact ⟨hregs, hworks.logged, hworks.printed⟩

/-- A job in x, a `cat` that finds no file, and a job in y. -/
def twoJobs : List Command := [.gcodetest, .cat [['f']], .gcodetest]

def noFile : Trace :=
  [⟨.fOpen .catFsrc ['f'] [.read], FResult.noFile⟩,
    say "FS: f_open(%s) failed.\r\n" [.str ['f']], sayError .noFile]

/-- The registers between the two jobs. -/
def between : Regs := processLines .exact boot (fileReads xJob)

def twoJobsTraces : List Trace :=
  [(jobRun .exact boot xJob).1, noFile, (jobRun .exact between yJob).1]

theorem twoJobs_runs :
    RunsSeq (Command.run .exact (xJob.length + 1)) boot twoJobs twoJobsTraces
      (processLines .exact between (fileReads yJob)) := by
  have hx := jobRun_runs .exact boot xJob
  have hy := jobRun_runs .exact between yJob
  have hcat : Runs (Command.run .exact (xJob.length + 1) (.cat [['f']]) between) noFile
      (.ok between) := by
    simp [Command.run, cmdCat, noFile, say, sayError]
  refine .cons ?_ (.cons hcat (.cons ?_ (.nil _)))
  · exact (gcodetest_worksOff hx.1 hx.2 (Nat.lt_succ_self _)).1 ▸ hx.1
  · exact (gcodetest_worksOff hy.1 hy.2 (Nat.lt_succ_self _)).1 ▸ hy.1

theorem session_refines_twoJobs :
    processLines .exact between (fileReads yJob) =
        processLines .exact boot (handed twoJobsTraces.flatten) ∧
      logged twoJobsTraces.flatten =
        (emitted .exact boot (handed twoJobsTraces.flatten)).map (fun p => record p.x p.y) ∧
      printedMoves twoJobsTraces.flatten =
        (emitted .exact boot (handed twoJobsTraces.flatten)).flatMap moveMsgs :=
  session_refines twoJobs_runs

end GcodeFatfs.SessionRuns
