import GcodeFatfs.GcodeParser

/-! The modal registers over whole runs. Abstractly an axis is a cell that a line
overwrites or keeps, and it holds the value set last; `lineSets` says what a
line sets, and the five registers of gcode_parser.c refine five such cells. -/

namespace GcodeFatfs.Modal
open GcodeFatfs.CArith GcodeFatfs.CString GcodeFatfs.GcodeParser

/-! ## Cells that are overwritten or kept -/

section Cells
variable {ι α : Type}

/-- A cell after one more write, if there is one. -/
def overwrite (f : ι → Option α) (old : α) (i : ι) : α := (f i).getD old

/-- The value written last, or the initial one. -/
def lastWritten (f : ι → Option α) (initial : α) (is : List ι) : α :=
  (is.filterMap f).getLast?.getD initial

theorem lastWritten_cons (f : ι → Option α) (initial : α) (i : ι) (is : List ι) :
    lastWritten f initial (i :: is) = lastWritten f (overwrite f initial i) is := by
  unfold lastWritten overwrite
  cases h : f i with
  | none => simp [h]
  | some v => simp [h, List.getLast?_cons]

theorem lastWritten_append (f : ι → Option α) (initial : α) (is : List ι) (i : ι) :
    lastWritten f initial (is ++ [i]) = overwrite f (lastWritten f initial is) i := by
  unfold lastWritten overwrite
  cases h : f i with
  | none => simp [h]
  | some v => simp [h]

end Cells

/-! ## The registers as cells -/

/-- What a line sets an axis to: the conversion of its last word for the axis,
when the line is a move and the conversion is not -1. -/
def lineSets (T : Target) (a : Axis) (line : List Char) : Option Int32 :=
  if Accepted line then ((lastWord a (args T line)).map (gcodeUnits T)).filter (· ≠ -1) else none

/-- The value of an axis after a history of lines from boot. -/
def axisValue (T : Target) (a : Axis) (lines : List (List Char)) : Int32 :=
  lastWritten (lineSets T a) 0 lines

theorem inherit_fst (v : Int32) (curr : UInt32) :
    (inherit v curr).1 = (inherit v curr).2.toInt32 := by
  unfold inherit
  split
  · rfl
  · exact (Int32.toInt32_toUInt32 v).symm

theorem inherit_snd (k : Option Int32) (curr : UInt32) :
    (inherit (k.getD (-1)) curr).2.toInt32 = (k.filter (· ≠ -1)).getD curr.toInt32 := by
  cases k with
  | none => rfl
  | some v =>
    by_cases h : v = -1
    · simp [inherit, h, Option.filter]
    · simp [inherit, h, Option.filter]

/-- The emitted coordinate and the register of an axis after an accepted line. -/
theorem processLine_get (T : Target) (regs : Regs) {line : List Char} (h : Accepted line)
    (a : Axis) :
    ((processLine T regs line).param.get a, (processLine T regs line).regs.get a) =
      inherit (((lastWord a (args T line)).map (gcodeUnits T)).getD (-1)) (regs.get a) := by
  rw [processLine_accepted T regs h, ← lineMove_get T h a]
  exact inheritAll_get regs (lineMove T line) a

/-- An accepted line emits the registers it leaves. -/
theorem processLine_emits (T : Target) (regs : Regs) {line : List Char} (h : Accepted line)
    (a : Axis) :
    (processLine T regs line).param.get a = ((processLine T regs line).regs.get a).toInt32 := by
  obtain ⟨hp, hr⟩ := Prod.mk.inj (processLine_get T regs h a)
  rw [hp, hr]
  exact inherit_fst _ _

/-- One line overwrites or keeps each register. -/
theorem processLine_overwrites (T : Target) (regs : Regs) (line : List Char) (a : Axis) :
    ((processLine T regs line).regs.get a).toInt32 =
      overwrite (lineSets T a) (regs.get a).toInt32 line := by
  by_cases h : Accepted line
  · have hr := congrArg Prod.snd (processLine_get T regs h a)
    simp only at hr
    rw [hr, inherit_snd, overwrite, lineSets, if_pos h]
  · rw [(processLine_rejected T regs h).1, overwrite, lineSets, if_neg h]
    rfl

/-- A whole run leaves in each register the value written last. -/
theorem processLines_lastWritten (T : Target) (regs : Regs) (lines : List (List Char)) (a : Axis) :
    ((processLines T regs lines).get a).toInt32 =
      lastWritten (lineSets T a) (regs.get a).toInt32 lines := by
  induction lines generalizing regs with
  | nil => rfl
  | cons line lines ih =>
    rw [lastWritten_cons, ← processLine_overwrites]
    exact ih _

/-- Lines that are not accepted moves have no part in a run. -/
theorem processLines_filter (T : Target) (regs : Regs) (lines : List (List Char)) :
    processLines T regs lines = processLines T regs (lines.filter (Accepted ·)) := by
  induction lines generalizing regs with
  | nil => rfl
  | cons line lines ih =>
    by_cases h : Accepted line
    · rw [List.filter_cons_of_pos (by simpa using h)]
      exact ih _
    · rw [List.filter_cons_of_neg (by simpa using h), ← ih]
      exact congrArg (processLines T · lines) (processLine_rejected T regs h).1

/-- **Modal state.** In any run from boot an accepted line emits, on each axis,
the register's new value, which is the value written last; any other line
changes nothing, emits zeros and has no part in what later lines find. -/
theorem modal_state (T : Target) (lines : List (List Char)) (line : List Char) :
    (Accepted line → ∀ a,
      (processLine T (processLines T boot lines) line).param.get a =
          ((processLine T (processLines T boot lines) line).regs.get a).toInt32 ∧
        (processLine T (processLines T boot lines) line).param.get a =
          axisValue T a (lines ++ [line])) ∧
    (¬ Accepted line →
      (processLine T (processLines T boot lines) line).regs = processLines T boot lines ∧
        (processLine T (processLines T boot lines) line).param = {}) ∧
    processLines T boot lines = processLines T boot (lines.filter (Accepted ·)) := by
  refine ⟨fun h a => ?_, fun h => processLine_rejected T _ h, processLines_filter T boot lines⟩
  have hparam := processLine_emits T (processLines T boot lines) h a
  have hboot : (boot.get a).toInt32 = 0 := by cases a <;> rfl
  refine ⟨hparam, ?_⟩
  rw [hparam, processLine_overwrites, processLines_lastWritten, hboot, axisValue,
    lastWritten_append]

/-! ## Words taken for absent ones -/

/-- The value of a word is in the range of the conversion. -/
def InRange (T : Target) (w : CmdData) : Prop :=
  if w.isFloat then
    ∃ q, T.add (1 / 2) (T.mul gcodeUom w.dval) = .fin q ∧ FitsInt32 (trunc q)
  else FitsInt32 (w.ival.toInt * gcodeUom)

/-- A word with a point whose value times 1000, plus one half, lies above -2 and
not above -1. -/
def InBand (T : Target) (w : CmdData) : Prop :=
  w.isFloat = true ∧ ∃ q, T.add (1 / 2) (T.mul gcodeUom w.dval) = .fin q ∧ -2 < q ∧ q ≤ -1

/-- The test in front of the inheriting branch of an axis. -/
def Inherits (T : Target) (line : List Char) (a : Axis) : Prop := (lineMove T line).get a = -1

/-- What a word says is what is emitted and kept, and only an axis without a
word inherits. -/
def WordsKept (T : Target) (regs : Regs) (line : List Char) : Prop :=
  ∀ a, (∀ w, lastWord a (args T line) = some w →
      (processLine T regs line).param.get a = gcodeUnits T w ∧
        (processLine T regs line).regs.get a = (gcodeUnits T w).toUInt32) ∧
    (Inherits T line a ↔ lastWord a (args T line) = none)

theorem int32_eq_neg_one_iff (k : Int32) : k = -1 ↔ k.toInt = -1 := by
  constructor
  · rintro rfl
    decide
  · intro h
    exact Int32.toInt_inj.mp h

/-- The integer path never gives -1: a multiple of 1000 stays away from -2. -/
theorem fxptLong_ne_neg_one (T : Target) (k : Int32) (h : FitsInt32 (k.toInt * gcodeUom)) :
    fxptLong T k gcodeUom ≠ -1 := by
  have hm : (T.mulLong k (Int32.ofNat gcodeUom)).toInt = k.toInt * gcodeUom :=
    T.mulLong_of_fits h
  have hmul : k.toInt * gcodeUom ≠ -2 := by
    unfold gcodeUom
    omega
  unfold fxptLong
  rw [hm, Ne, int32_eq_neg_one_iff, T.add_half_int h]
  generalize k.toInt * (gcodeUom : ℤ) = m at h hmul
  have htr : FitsInt32 (trunc ((m : ℚ) + 1 / 2)) := by
    rw [trunc_add_half]
    unfold FitsInt32 int32Min int32Max at h ⊢
    split <;> omega
  rw [T.toInt32_of_fits htr, trunc_add_half]
  split <;> omega

/-- A word in range converts to -1 exactly inside the band. -/
theorem gcodeUnits_eq_neg_one_iff (T : Target) (w : CmdData) (h : InRange T w) :
    gcodeUnits T w = -1 ↔ InBand T w := by
  unfold InRange at h
  unfold InBand gcodeUnits fxpt
  cases hw : w.isFloat with
  | false =>
    rw [hw] at h
    simpa using fxptLong_ne_neg_one T w.ival h
  | true =>
    rw [hw, if_pos rfl] at h
    obtain ⟨q, hq, hfit⟩ := h
    have hband := trunc_eq_neg_iff q (-1) (by decide)
    norm_num at hband
    rw [if_pos rfl, fxptDouble, hq, int32_eq_neg_one_iff, T.toInt32_of_fits hfit, hband]
    simp

/-- **Explicit words.** On an accepted line with values in range every word is
kept, and only absent words are inherited, exactly when no axis ends with a
word inside the band. -/
theorem wordsKept_iff (T : Target) (regs : Regs) (line : List Char) (h : Accepted line)
    (hr : ∀ a w, lastWord a (args T line) = some w → InRange T w) :
    WordsKept T regs line ↔ ∀ a w, lastWord a (args T line) = some w → ¬ InBand T w := by
  constructor
  · intro hk a w hw hband
    have hinh : Inherits T line a := by
      rw [Inherits, lineMove_get T h, hw]
      exact (gcodeUnits_eq_neg_one_iff T w (hr a w hw)).mpr hband
    have hnone := (hk a).2.mp hinh
    rw [hw] at hnone
    cases hnone
  · intro hb a
    have hget := processLine_get T regs h a
    rw [Inherits, lineMove_get T h]
    cases hw : lastWord a (args T line) with
    | none => simp
    | some w =>
      have hne : gcodeUnits T w ≠ -1 :=
        fun he => hb a w hw ((gcodeUnits_eq_neg_one_iff T w (hr a w hw)).mp he)
      rw [hw] at hget
      simp only [Option.map_some, Option.getD_some, inherit, if_neg hne, Prod.mk.injEq] at hget
      simp [hget, hne]

def smallNegative : List Char := "G1 X-0.002".toList

theorem smallNegative_inRange (a : Axis) (w : CmdData)
    (hw : lastWord a (args .exact smallNegative) = some w) : InRange .exact w := by
  have hx : lastWord .x (args .exact smallNegative) =
      some { cmdLtr := 'X', isFloat := true, dval := .fin (-1 / 500) } := by decide +kernel
  have hother : ∀ b, b ≠ .x → lastWord b (args .exact smallNegative) = none := by
    intro b hb
    cases b <;> first | exact absurd rfl hb | decide
  by_cases ha : a = .x
  · subst ha
    obtain rfl := Option.some.inj (hx.symm.trans hw)
    exact ⟨-3 / 2, by decide +kernel, by decide +kernel⟩
  · rw [hother a ha] at hw
    cases hw

theorem wordsKept_iff_smallNegative :
    WordsKept .exact { x := 7 } smallNegative ↔
      ∀ a w, lastWord a (args .exact smallNegative) = some w → ¬ InBand .exact w :=
  wordsKept_iff .exact { x := 7 } smallNegative (by decide) smallNegative_inRange

/-- The word of `G1 X-0.002` is lost: the axis keeps its old value, 7. -/
theorem smallNegative_not_kept :
    Accepted smallNegative ∧
      (∀ a w, lastWord a (args .exact smallNegative) = some w → InRange .exact w) ∧
      (processLine .exact { x := 7 } smallNegative).param.x = 7 ∧
      ¬ WordsKept .exact { x := 7 } smallNegative := by
  refine ⟨by decide, smallNegative_inRange, by decide +kernel, ?_⟩
  intro hk
  have hinh : Inherits .exact smallNegative .x := by
    unfold Inherits
    decide +kernel
  have hnone : lastWord .x (args .exact smallNegative) ≠ none := by decide
  exact hnone ((hk .x).2.mp hinh)

/-- With exact arithmetic the band is a value from above -0.0025 to -0.0015. -/
theorem inBand_exact (w : CmdData) (v : ℚ) (hv : w.dval = .fin v) :
    InBand .exact w ↔ w.isFloat = true ∧ -25 / 10000 < v ∧ v ≤ -15 / 10000 := by
  unfold InBand
  rw [hv, Target.add_mul_exact Target.exact_exact]
  simp only [Double.fin.injEq, exists_eq_left', gcodeUom]
  push_cast
  constructor
  · rintro ⟨hf, h1, h2⟩
    exact ⟨hf, by linarith, by linarith⟩
  · rintro ⟨hf, h1, h2⟩
    exact ⟨hf, by linarith, by linarith⟩

end GcodeFatfs.Modal
