import GcodeFatfs.JobRun
import GcodeFatfs.Modal

/-! The log of a job and the moves it prints, against the moves of its file and
against the modal registers it starts from. -/

namespace GcodeFatfs.JobLog
open GcodeFatfs.Interact GcodeFatfs.CArith GcodeFatfs.CString GcodeFatfs.Board
open GcodeFatfs.FatCommands GcodeFatfs.GcodeParser GcodeFatfs.Gcodetest
open GcodeFatfs.Modal GcodeFatfs.JobRun

variable {T : Target} {fuel : ℕ} {regs : Regs} {content : List Char} {t : Trace}
variable {r : Except Stop Regs}

/-! ## The log against the moves of the file -/

/-- The (x, y) targets of the accepted moves among some lines, where `x` and `y`
are the positions in front of them. -/
def moveTargets (T : Target) : (x y : Int32) → List (List Char) → List (Int32 × Int32)
  | _, _, [] => []
  | x, y, line :: lines =>
    let x' := overwrite (lineSets T .x) x line
    let y' := overwrite (lineSets T .y) y line
    if Accepted line then (x', y') :: moveTargets T x' y' lines else moveTargets T x' y' lines

theorem moveTargets_length (T : Target) (x y : Int32) (lines : List (List Char)) :
    (moveTargets T x y lines).length = lines.countP (Accepted ·) := by
  induction lines generalizing x y with
  | nil => rfl
  | cons line lines ih =>
    unfold moveTargets
    by_cases h : Accepted line
    · simp [h, ih]
    · simp [h, ih]

theorem emitted_length (T : Target) (regs : Regs) (lines : List (List Char)) :
    (emitted T regs lines).length = lines.length := by
  induction lines generalizing regs with
  | nil => rfl
  | cons line lines ih => simp [emitted, ih]

/-- Accepted moves in a row emit their targets. -/
theorem emitted_targets (T : Target) (regs : Regs) {lines : List (List Char)}
    (h : ∀ line ∈ lines, Accepted line) :
    (emitted T regs lines).map (fun p => (p.x, p.y)) =
      moveTargets T regs.x.toInt32 regs.y.toInt32 lines := by
  induction lines generalizing regs with
  | nil => rfl
  | cons line lines ih =>
    obtain ⟨hline, hlines⟩ := List.forall_mem_cons.mp h
    have hx := processLine_overwrites T regs line .x
    have hy := processLine_overwrites T regs line .y
    have hpx := processLine_emits T regs hline .x
    have hpy := processLine_emits T regs hline .y
    simp only [Regs.get, Param.get] at hx hy hpx hpy
    simp only [emitted, List.map_cons, moveTargets, if_pos hline]
    rw [ih _ hlines, hpx, hpy, hx, hy]

/-- **The log.** A `gcodetest` on a file whose lines fit the buffer returns, and
its log holds the targets of the accepted moves of the file, one each, exactly
when every line of the file is an accepted move. -/
theorem log_iff (h : Runs (cmdGcodetest T fuel regs) t r) (hfile : OnFile content t)
    (hfuel : content.length < fuel) (hfit : ∀ line ∈ fileLines content, line.length ≤ lineSize - 1) :
    (∃ regs', r = .ok regs') ∧
      (logged t = (moveTargets T regs.x.toInt32 regs.y.toInt32 (fileLines content)).map
          (fun p => record p.1 p.2) ↔
        ∀ line ∈ fileLines content, Accepted line) := by
  obtain ⟨hr, hworks⟩ := gcodetest_worksOff h hfile hfuel
  have hreads : fileReads content = fileLines content :=
    (Lines.reads_eq_lines_iff (by decide) content).mpr hfit
  rw [hworks.logged, hreads]
  refine ⟨⟨_, hr⟩, fun hlog => ?_, fun hall => ?_⟩
  · have hlen := congrArg List.length hlog
    rw [List.length_map, List.length_map, emitted_length, moveTargets_length] at hlen
    simpa using List.countP_eq_length.mp hlen.symm
  · rw [← emitted_targets T regs hall, List.map_map]
    rfl

/-- A job with a comment in front of its move. -/
def commentJob : List Char := ";start\nG1 X5\n".toList

theorem log_iff_commentJob :
    (∃ regs', (jobRun .exact boot commentJob).2.1 = .ok regs') ∧
      (logged (jobRun .exact boot commentJob).1 =
          (moveTargets .exact boot.x.toInt32 boot.y.toInt32 (fileLines commentJob)).map
            (fun p => record p.1 p.2) ↔
        ∀ line ∈ fileLines commentJob, Accepted line) :=
  log_iff (jobRun_runs _ _ _).1 (jobRun_runs _ _ _).2 (Nat.lt_succ_self _) (by decide)

/-- The comment is logged as a move to (0, 0). -/
theorem commentJob_logged :
    (Runs (cmdGcodetest .exact (commentJob.length + 1) boot) (jobRun .exact boot commentJob).1
        (jobRun .exact boot commentJob).2.1 ∧
      OnFile commentJob (jobRun .exact boot commentJob).1) ∧
    (∀ e ∈ (jobRun .exact boot commentJob).1, ¬ Failed e) ∧
    (∀ line ∈ fileLines commentJob, line.length ≤ lineSize - 1) ∧
    logged (jobRun .exact boot commentJob).1 = ["0, 0\n", "5000, 0\n"] ∧
    logged (jobRun .exact boot commentJob).1 ≠
      (moveTargets .exact boot.x.toInt32 boot.y.toInt32 (fileLines commentJob)).map
        (fun p => record p.1 p.2) := by
  have hreads : fileReads commentJob = fileLines commentJob :=
    (Lines.reads_eq_lines_iff (by decide) commentJob).mpr (by decide)
  have hlog : logged (jobRun .exact boot commentJob).1 = ["0, 0\n", "5000, 0\n"] := by
    rw [(jobRun_worksOff .exact boot commentJob).logged, hreads]
    decide +kernel
  refine ⟨jobRun_runs _ _ _, jobRun_succeeds _ _ _, by decide, hlog, ?_⟩
  rw [hlog]
  decide +kernel

/-! ## The moves against the registers the job starts from -/

theorem lineSets_none_iff {line : List Char} (h : Accepted line) (a : Axis) :
    lineSets T a line = none ↔ (lineMove T line).get a = -1 := by
  rw [lineSets, if_pos h, lineMove_get T h]
  cases (lastWord a (args T line)).map (gcodeUnits T) with
  | none => simp
  | some v => simp [Option.filter_eq_none_iff]

/-- The registers agree on the axes that a line leaves out. -/
def AgreeOnUnset (T : Target) (line : List Char) (regs₁ regs₂ : Regs) : Prop :=
  ∀ a, lineSets T a line = none → regs₁.get a = regs₂.get a

/-- A move that finds the registers it needs does the same with all others. -/
theorem processLine_agree {line : List Char} {regs₁ regs₂ : Regs} (h : Accepted line)
    (hagree : AgreeOnUnset T line regs₁ regs₂) :
    processLine T regs₁ line = processLine T regs₂ line := by
  have haxis : ∀ a, inherit ((lineMove T line).get a) (regs₁.get a) =
      inherit ((lineMove T line).get a) (regs₂.get a) := by
    intro a
    by_cases hv : (lineMove T line).get a = -1
    · rw [hagree a ((lineSets_none_iff h a).mpr hv)]
    · simp [inherit, hv]
  have hall : inheritAll regs₁ (lineMove T line) = inheritAll regs₂ (lineMove T line) := by
    have hx := haxis .x
    have hy := haxis .y
    have hz := haxis .z
    have he := haxis .e
    have hf := haxis .f
    simp only [Param.get, Regs.get] at hx hy hz he hf
    simp only [inheritAll, hx, hy, hz, he, hf]
  rw [processLine_accepted T regs₁ h, processLine_accepted T regs₂ h, hall]

theorem moveMsgs_get {p q : Param} (h : moveMsgs p = moveMsgs q) (a : Axis) : p.get a = q.get a := by
  simp only [moveMsgs, List.cons.injEq, Msg.mk.injEq, Arg.int.injEq, Int32.toInt_inj, and_true,
    true_and] at h
  cases a <;> simp [Param.get, h]

/-- What some lines in a row emit depends on the registers through the first
move alone. -/
theorem emitted_agree (lines : List (List Char)) (regs₁ regs₂ : Regs)
    (h : ∀ line, lines.find? (Accepted ·) = some line → AgreeOnUnset T line regs₁ regs₂) :
    emitted T regs₁ lines = emitted T regs₂ lines := by
  induction lines generalizing regs₁ regs₂ with
  | nil => rfl
  | cons line lines ih =>
    by_cases hline : Accepted line
    · have hsame := processLine_agree hline (h line (by simp [hline]))
      simp only [emitted, hsame]
    · obtain ⟨hr₁, hp₁⟩ := processLine_rejected T regs₁ hline
      obtain ⟨hr₂, hp₂⟩ := processLine_rejected T regs₂ hline
      simp only [emitted, hr₁, hr₂, hp₁, hp₂]
      rw [ih regs₁ regs₂ fun l hl => h l (by simpa [hline] using hl)]

/-- The prints of the first move show the registers it inherits from. -/
theorem agree_of_prints (lines : List (List Char)) (regs₁ regs₂ : Regs)
    (h : (emitted T regs₁ lines).flatMap moveMsgs = (emitted T regs₂ lines).flatMap moveMsgs)
    (line : List Char) (hfind : lines.find? (Accepted ·) = some line) :
    AgreeOnUnset T line regs₁ regs₂ := by
  induction lines generalizing regs₁ regs₂ with
  | nil => cases hfind
  | cons first lines ih =>
    simp only [emitted, List.flatMap_cons] at h
    obtain ⟨hhead, htail⟩ := List.append_inj h (by simp [moveMsgs])
    by_cases hfirst : Accepted first
    · obtain rfl : first = line := by simpa [hfirst] using hfind
      intro a ha
      have hget := moveMsgs_get hhead a
      rw [processLine_emits T regs₁ hfirst, processLine_emits T regs₂ hfirst,
        processLine_overwrites, processLine_overwrites, overwrite, overwrite, ha] at hget
      have hback := congrArg Int32.toUInt32 hget
      simpa using hback
    · rw [(processLine_rejected T regs₁ hfirst).1, (processLine_rejected T regs₂ hfirst).1] at htail
      exact ih regs₁ regs₂ htail (by simpa [hfirst] using hfind)

/-- **Replay.** Two runs of `gcodetest` on one file return, and they log and print
the same moves exactly when the registers they start from agree on every axis
that the first accepted move leaves out. -/
theorem replay_iff {regs₁ regs₂ : Regs} {fuel₁ fuel₂ : ℕ} {t₁ t₂ : Trace} {r₁ r₂ : Except Stop Regs}
    (h₁ : Runs (cmdGcodetest T fuel₁ regs₁) t₁ r₁) (h₂ : Runs (cmdGcodetest T fuel₂ regs₂) t₂ r₂)
    (hfile₁ : OnFile content t₁) (hfile₂ : OnFile content t₂) (hfuel₁ : content.length < fuel₁)
    (hfuel₂ : content.length < fuel₂) :
    ((∃ regs', r₁ = .ok regs') ∧ ∃ regs', r₂ = .ok regs') ∧
      (logged t₁ = logged t₂ ∧ printedMoves t₁ = printedMoves t₂ ↔
        ∀ line, (fileReads content).find? (Accepted ·) = some line →
          AgreeOnUnset T line regs₁ regs₂) := by
  obtain ⟨hr₁, hworks₁⟩ := gcodetest_worksOff h₁ hfile₁ hfuel₁
  obtain ⟨hr₂, hworks₂⟩ := gcodetest_worksOff h₂ hfile₂ hfuel₂
  refine ⟨⟨⟨_, hr₁⟩, ⟨_, hr₂⟩⟩, ?_⟩
  rw [hworks₁.logged, hworks₂.logged, hworks₁.printed, hworks₂.printed]
  constructor
  · rintro ⟨-, hprint⟩
    exact agree_of_prints _ regs₁ regs₂ hprint
  · intro hagree
    rw [emitted_agree _ regs₁ regs₂ hagree]
    exact ⟨rfl, rfl⟩

/-- A job that moves in x alone. -/
def xJob : List Char := "G1 X1\n".toList

theorem replay_iff_xJob :
    ((∃ regs', (jobRun .exact boot xJob).2.1 = .ok regs') ∧
        ∃ regs', (jobRun .exact { y := 7 } xJob).2.1 = .ok regs') ∧
      (logged (jobRun .exact boot xJob).1 = logged (jobRun .exact { y := 7 } xJob).1 ∧
          printedMoves (jobRun .exact boot xJob).1 =
            printedMoves (jobRun .exact { y := 7 } xJob).1 ↔
        ∀ line, (fileReads xJob).find? (Accepted ·) = some line →
          AgreeOnUnset .exact line boot { y := 7 }) :=
  replay_iff (jobRun_runs _ _ _).1 (jobRun_runs _ _ _).1 (jobRun_runs _ _ _).2
    (jobRun_runs _ _ _).2 (Nat.lt_succ_self _) (Nat.lt_succ_self _)

/-- The y of an earlier job is in the log of this one. -/
theorem xJob_logged :
    (Runs (cmdGcodetest .exact (xJob.length + 1) boot) (jobRun .exact boot xJob).1
          (jobRun .exact boot xJob).2.1 ∧
        OnFile xJob (jobRun .exact boot xJob).1) ∧
      (∀ e ∈ (jobRun .exact boot xJob).1, ¬ Failed e) ∧
      (Runs (cmdGcodetest .exact (xJob.length + 1) { y := 7 }) (jobRun .exact { y := 7 } xJob).1
          (jobRun .exact { y := 7 } xJob).2.1 ∧
        OnFile xJob (jobRun .exact { y := 7 } xJob).1) ∧
      (∀ e ∈ (jobRun .exact { y := 7 } xJob).1, ¬ Failed e) ∧
      logged (jobRun .exact { y := 7 } xJob).1 = ["1000, 7\n"] ∧
      logged (jobRun .exact boot xJob).1 ≠ logged (jobRun .exact { y := 7 } xJob).1 := by
  have hreads : fileReads xJob = fileLines xJob :=
    (Lines.reads_eq_lines_iff (by decide) xJob).mpr (by decide)
  have hboot : logged (jobRun .exact boot xJob).1 = ["1000, 0\n"] := by
    rw [(jobRun_worksOff .exact boot xJob).logged, hreads]
    decide +kernel
  have hseven : logged (jobRun .exact { y := 7 } xJob).1 = ["1000, 7\n"] := by
    rw [(jobRun_worksOff .exact { y := 7 } xJob).logged, hreads]
    decide +kernel
  refine ⟨jobRun_runs _ _ _, jobRun_succeeds _ _ _, jobRun_runs _ _ _, jobRun_succeeds _ _ _,
    hseven, ?_⟩
  rw [hboot, hseven]
  decide

end GcodeFatfs.JobLog
