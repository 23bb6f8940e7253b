import GcodeFatfs.JobLog

/-! Lines as programs on the modal registers: when two of them may stand for each
other in front of any further lines, and how a job may be cut in two. -/

namespace GcodeFatfs.JobAlgebra
open GcodeFatfs.Interact GcodeFatfs.Lines GcodeFatfs.CArith GcodeFatfs.CString GcodeFatfs.Board
open GcodeFatfs.FatCommands GcodeFatfs.GcodeParser GcodeFatfs.Gcodetest
open GcodeFatfs.Modal GcodeFatfs.JobRun GcodeFatfs.JobLog

/-! ## Equivalent lines -/

/-- What some lines set an axis to last, if they set it. -/
def lastSet (T : Target) (a : Axis) (lines : List (List Char)) : Option Int32 :=
  (lines.filterMap (lineSets T a)).getLast?

theorem processLines_lastSet (T : Target) (regs : Regs) (lines : List (List Char)) (a : Axis) :
    ((processLines T regs lines).get a).toInt32 =
      (lastSet T a lines).getD (regs.get a).toInt32 :=
  processLines_lastWritten T regs lines a

/-- All that can be seen of some lines: the moves of any lines behind them. -/
def Equivalent (T : Target) (ls ls' : List (List Char)) : Prop :=
  ∀ regs post, emitted T (processLines T regs ls) post = emitted T (processLines T regs ls') post

/-- A line that emits the registers and leaves them alone. -/
def showLine : List Char := ['G', '1']

theorem showLine_accepted : Accepted showLine := by decide

theorem showLine_emits (T : Target) (regs : Regs) (a : Axis) :
    (processLine T regs showLine).param.get a = (regs.get a).toInt32 := by
  have hnone : lineSets T a showLine = none := by
    rw [lineSets, if_pos showLine_accepted]
    rfl
  rw [processLine_emits T regs showLine_accepted, processLine_overwrites, overwrite, hnone]
  rfl

/-- Registers that hold one value on every axis. -/
def Regs.const (k : Int32) : Regs := ⟨k.toUInt32, k.toUInt32, k.toUInt32, k.toUInt32, k.toUInt32⟩

theorem const_get (k : Int32) (a : Axis) : ((Regs.const k).get a).toInt32 = k := by
  cases a <;> exact Int32.toInt32_toUInt32 k

/-- What is kept or overwritten alike for every value is the same. -/
theorem eq_of_getD {o o' : Option Int32} (h : ∀ k, o.getD k = o'.getD k) : o = o' := by
  cases o with
  | none =>
    cases o' with
    | none => rfl
    | some v =>
      have hsucc : v + 1 = v := h (v + 1)
      simp at hsucc
  | some v =>
    cases o' with
    | none =>
      have hsucc : v = v + 1 := h (v + 1)
      simp at hsucc
    | some w => exact congrArg some (h 0)

theorem equivalent_of_lastSet {T : Target} {ls ls' : List (List Char)}
    (h : ∀ a, lastSet T a ls = lastSet T a ls') : Equivalent T ls ls' := by
  intro regs post
  have hregs : processLines T regs ls = processLines T regs ls' := by
    apply Regs.ext_get
    intro a
    rw [← UInt32.toUInt32_toInt32 ((processLines T regs ls).get a), processLines_lastSet, h a,
      ← processLines_lastSet, UInt32.toUInt32_toInt32]
  rw [hregs]

/-- **Equivalent lines.** Lines may stand for other lines in front of any further
ones exactly when both set the same axes to the same values last. -/
theorem equivalent_iff (T : Target) (ls ls' : List (List Char)) :
    Equivalent T ls ls' ↔ ∀ a, lastSet T a ls = lastSet T a ls' := by
  constructor
  · intro h a
    apply eq_of_getD
    intro k
    have hparam := (List.cons.inj (h (Regs.const k) [showLine])).1
    have hget := congrArg (Param.get · a) hparam
    simp only [showLine_emits, processLines_lastSet, const_get] at hget
    exact hget
  · exact equivalent_of_lastSet

/-! ## Jobs in parts -/

theorem emitted_append (T : Target) (regs : Regs) (ls ls' : List (List Char)) :
    emitted T regs (ls ++ ls') = emitted T regs ls ++ emitted T (processLines T regs ls) ls' := by
  induction ls generalizing regs with
  | nil => rfl
  | cons line ls ih =>
    rw [List.cons_append, emitted, ih]
    rfl

theorem processLines_append (T : Target) (regs : Regs) (ls ls' : List (List Char)) :
    processLines T regs (ls ++ ls') = processLines T (processLines T regs ls) ls' :=
  List.foldl_append

/-- What is read of a file that ends with a newline is read of it in front of
another, too. -/
theorem fileReads_append {content : List Char} (h : Closed '\n' content) (content' : List Char) :
    fileReads (content ++ content') = fileReads content ++ fileReads content' :=
  reads_append (by decide) (by decide) h content'

variable {T : Target} {fuel fuel₁ fuel₂ : ℕ} {regs regs₁ regs₂ : Regs} {t t₁ t₂ : Trace}
variable {r : Except Stop Regs} {content₁ content₂ : List Char}

/-- **Jobs in parts.** A job cut in two behind a newline, with its parts run one
after the other, hands on the same lines as the whole, prints and logs the same
moves and leaves the same registers. -/
theorem job_in_parts (hclosed : Closed '\n' content₁)
    (h₁ : Runs (cmdGcodetest T fuel₁ regs) t₁ (.ok regs₁)) (hfile₁ : OnFile content₁ t₁)
    (hfuel₁ : content₁.length < fuel₁)
    (h₂ : Runs (cmdGcodetest T fuel₂ regs₁) t₂ (.ok regs₂)) (hfile₂ : OnFile content₂ t₂)
    (hfuel₂ : content₂.length < fuel₂)
    (h : Runs (cmdGcodetest T fuel regs) t r) (hfile : OnFile (content₁ ++ content₂) t)
    (hfuel : (content₁ ++ content₂).length < fuel) :
    r = .ok regs₂ ∧ handed t = handed t₁ ++ handed t₂ ∧ logged t = logged t₁ ++ logged t₂ ∧
      printedMoves t = printedMoves t₁ ++ printedMoves t₂ := by
  obtain ⟨hr₁, hworks₁⟩ := gcodetest_worksOff h₁ hfile₁ hfuel₁
  obtain ⟨hr₂, hworks₂⟩ := gcodetest_worksOff h₂ hfile₂ hfuel₂
  obtain ⟨hr, hworks⟩ := gcodetest_worksOff h hfile hfuel
  obtain rfl := Except.ok.inj hr₁
  obtain rfl := Except.ok.inj hr₂
  rw [fileReads_append hclosed] at hr hworks
  refine ⟨?_, ?_, ?_, ?_⟩
  · rw [hr, processLines_append]
  · rw [hworks.handed, hworks₁.handed, hworks₂.handed]
  · rw [hworks.logged, hworks₁.logged, hworks₂.logged, emitted_append, List.map_append]
  · rw [hworks.printed, hworks₁.printed, hworks₂.printed, emitted_append, List.flatMap_append]

/-- A move in x, and one in y behind it. -/
def yJob : List Char := "G1 Y2\n".toList

theorem job_in_parts_xJob_yJob :
    (jobRun .exact boot (xJob ++ yJob)).2.1 =
        (jobRun .exact (processLines .exact boot (fileReads xJob)) yJob).2.1 := by
  have hrun₁ := jobRun_runs .exact boot xJob
  have hr₁ := (gcodetest_worksOff hrun₁.1 hrun₁.2 (Nat.lt_succ_self _)).1
  have hrun₂ := jobRun_runs .exact (processLines .exact boot (fileReads xJob)) yJob
  have hr₂ := (gcodetest_worksOff hrun₂.1 hrun₂.2 (Nat.lt_succ_self _)).1
  have hrun := jobRun_runs .exact boot (xJob ++ yJob)
  rw [hr₂]
  exact (job_in_parts (by decide) (hr₁ ▸ hrun₁.1) hrun₁.2 (Nat.lt_succ_self _)
    (hr₂ ▸ hrun₂.1) hrun₂.2 (Nat.lt_succ_self _) hrun.1 hrun.2 (Nat.lt_succ_self _)).1

end GcodeFatfs.JobAlgebra
