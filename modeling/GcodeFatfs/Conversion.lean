import GcodeFatfs.Modal

/-! The fixed-point conversion of a word, over the whole range of its value:
where what is stored for it is rounded to nearest, and where the product and the
cast of `FXPT` are defined. -/

namespace GcodeFatfs.Conversion
open GcodeFatfs.CArith GcodeFatfs.CString GcodeFatfs.GcodeParser

/-! ## The value of a word -/

/-- The number a word carries, in whichever field it is. -/
def value (w : CmdData) : Option ℚ :=
  if w.isFloat then
    match w.dval with
    | .fin v => some v
    | _ => none
  else some w.ival.toInt

/-- A value whose thousandths are in the range of `int32_t`. -/
def FitsUnits (v : ℚ) : Prop := int32Min ≤ v * gcodeUom ∧ v * gcodeUom ≤ int32Max

instance (v : ℚ) : Decidable (FitsUnits v) := inferInstanceAs (Decidable (_ ∧ _))

theorem value_float {w : CmdData} {v : ℚ} (hw : w.isFloat = true) (hv : value w = some v) :
    w.dval = .fin v := by
  unfold value at hv
  rw [if_pos hw] at hv
  cases hd : w.dval with
  | fin q =>
    rw [hd] at hv
    rw [Option.some.inj hv]
  | inf neg =>
    rw [hd] at hv
    cases hv
  | nan =>
    rw [hd] at hv
    cases hv

theorem value_int {w : CmdData} {v : ℚ} (hw : w.isFloat = false) (hv : value w = some v) :
    v = w.ival.toInt := by
  unfold value at hv
  rw [hw] at hv
  exact (Option.some.inj hv).symm

/-- The sum that `FXPT` casts is a function of the value, on either path. -/
theorem gcodeUnits_of_value {T : Target} (hT : T.Exact) {w : CmdData} {v : ℚ}
    (hv : value w = some v) (hfit : FitsUnits v) :
    gcodeUnits T w = T.toInt32 (.fin (v * gcodeUom + 1 / 2)) := by
  unfold gcodeUnits fxpt
  cases hw : w.isFloat with
  | true =>
    rw [if_pos rfl, fxptDouble, value_float hw hv, Target.add_mul_exact hT]
  | false =>
    have hint := value_int hw hv
    have hprod : FitsInt32 (w.ival.toInt * (Int32.ofNat gcodeUom).toInt) := by
      obtain ⟨hlo, hhi⟩ := hfit
      rw [hint] at hlo hhi
      constructor
      · exact_mod_cast hlo
      · exact_mod_cast hhi
    have hcast : ((w.ival.toInt * (Int32.ofNat gcodeUom).toInt : ℤ) : ℚ) = v * gcodeUom := by
      rw [hint]
      push_cast
      rfl
    rw [if_neg (by simp), fxptLong, T.mulLong_of_fits hprod, hcast]
    exact congrArg T.toInt32 (hT _)

/-- The conversion adds one half and drops the fraction. -/
theorem toInt_gcodeUnits {T : Target} (hT : T.Exact) {w : CmdData} {v : ℚ}
    (hv : value w = some v) (hfit : FitsUnits v) :
    (gcodeUnits T w).toInt = trunc (v * gcodeUom + 1 / 2) := by
  rw [gcodeUnits_of_value hT hv hfit]
  apply T.toInt32_of_fits
  obtain ⟨hlo, hhi⟩ := hfit
  rw [fitsInt32_trunc_iff]
  unfold int32Min at hlo
  unfold int32Max at hhi
  push_cast at hlo hhi
  constructor <;> linarith

/-! ## Rounding -/

/-- An integer nearest to a number, which it equals when the number is one. -/
def Nearest (k : ℤ) (y : ℚ) : Prop := |(k : ℚ) - y| ≤ 1 / 2 ∧ ∀ m : ℤ, y = m → k = m

theorem nearest_iff (k : ℤ) (y : ℚ) : Nearest k y ↔ |(k : ℚ) - y| ≤ 1 / 2 := by
  refine ⟨fun h => h.1, fun h => ⟨h, ?_⟩⟩
  rintro m rfl
  have hdist : |((k - m : ℤ) : ℚ)| ≤ 1 / 2 := by
    push_cast
    exact h
  have hlt : |k - m| < 1 := by
    have hlt' : ((|k - m| : ℤ) : ℚ) < 1 := by
      push_cast at hdist ⊢
      linarith
    exact_mod_cast hlt'
  have hzero := Int.abs_lt_one_iff.mp hlt
  omega

theorem nearest_trunc_iff (y : ℚ) :
    Nearest (trunc (y + 1 / 2)) y ↔ -1 / 2 ≤ y ∨ ∃ m : ℤ, y = m + 1 / 2 := by
  have hhalf : (∃ m : ℤ, y + 1 / 2 = m) ↔ ∃ m : ℤ, y = m + 1 / 2 := by
    constructor
    · rintro ⟨m, hm⟩
      refine ⟨m - 1, ?_⟩
      push_cast
      linarith
    · rintro ⟨m, hm⟩
      refine ⟨m + 1, ?_⟩
      push_cast
      linarith
  rw [nearest_iff, trunc_add_half_near_iff, hhalf]

/-- The numbers of thousandths that are converted to -1, the mark of an absent word. -/
def TakenForAbsent (y : ℚ) : Prop := -5 / 2 < y ∧ y ≤ -3 / 2

instance (y : ℚ) : Decidable (TakenForAbsent y) := inferInstanceAs (Decidable (_ ∧ _))

theorem trunc_add_half_eq_neg_one_iff (y : ℚ) : trunc (y + 1 / 2) = -1 ↔ TakenForAbsent y := by
  rw [trunc_eq_neg_iff _ _ (by decide), TakenForAbsent]
  push_cast
  constructor
  · rintro ⟨hlo, hhi⟩
    constructor <;> linarith
  · rintro ⟨hlo, hhi⟩
    constructor <;> linarith

/-- From minus one half up, and below that halfway between two integers; -3/2,
which lies between -2 and -1, is taken for absent. -/
def RoundsNearest (y : ℚ) : Prop := -1 / 2 ≤ y ∨ ∃ m : ℤ, m ≠ -2 ∧ y = m + 1 / 2

theorem not_roundsNearest {y : ℚ} (h : TakenForAbsent y) : ¬ RoundsNearest y := by
  obtain ⟨hlo, hhi⟩ := h
  rintro (hy | ⟨m, hm, rfl⟩)
  · linarith
  · have hlo' : (-3 : ℚ) < m := by linarith
    have hhi' : (m : ℚ) ≤ -2 := by linarith
    norm_cast at hlo' hhi'
    omega

theorem nearest_trunc_iff_roundsNearest {y : ℚ} (h : ¬ TakenForAbsent y) :
    Nearest (trunc (y + 1 / 2)) y ↔ RoundsNearest y := by
  rw [nearest_trunc_iff]
  constructor
  · rintro (hy | ⟨m, rfl⟩)
    · exact .inl hy
    · refine .inr ⟨m, ?_, rfl⟩
      rintro rfl
      exact h (by norm_num [TakenForAbsent])
  · rintro (hy | ⟨m, -, hm⟩)
    · exact .inl hy
    · exact .inr ⟨m, hm⟩

/-- The coordinate that a line emits on an axis and the one it leaves in the
register are both nearest to a number. -/
def StoresNearest (T : Target) (regs : Regs) (line : List Char) (a : Axis) (y : ℚ) : Prop :=
  Nearest ((processLine T regs line).param.get a).toInt y ∧
    Nearest ((processLine T regs line).regs.get a).toInt32.toInt y

/-- What a line emits for its last word of an axis: the sum with its fraction
dropped, and the old register for a word that is taken for absent. -/
theorem toInt_emitted {T : Target} (hT : T.Exact) (regs : Regs) {line : List Char}
    (h : Accepted line) {a : Axis} {w : CmdData} (hw : lastWord a (args T line) = some w) {v : ℚ}
    (hv : value w = some v) (hfit : FitsUnits v) :
    ((processLine T regs line).param.get a).toInt =
      if TakenForAbsent (1000 * v) then (regs.get a).toInt32.toInt else trunc (1000 * v + 1 / 2) := by
  have hunits : (gcodeUnits T w).toInt = trunc (1000 * v + 1 / 2) := by
    have hcomm : v * (gcodeUom : ℚ) = 1000 * v := by
      unfold gcodeUom
      push_cast
      ring
    rw [toInt_gcodeUnits hT hv hfit, hcomm]
  have habsent : gcodeUnits T w = -1 ↔ TakenForAbsent (1000 * v) := by
    rw [Modal.int32_eq_neg_one_iff, hunits, trunc_add_half_eq_neg_one_iff]
  have hparam := congrArg Prod.fst (Modal.processLine_get T regs h a)
  rw [hw] at hparam
  simp only [Option.map_some, Option.getD_some, inherit, habsent] at hparam
  rw [hparam]
  split
  · rfl
  · exact hunits

/-- From one state of the registers a word that is taken for absent may still find
a nearest number of thousandths in its register. -/
theorem storesNearest_iff {T : Target} (hT : T.Exact) (regs : Regs) {line : List Char}
    (h : Accepted line) {a : Axis} {w : CmdData} (hw : lastWord a (args T line) = some w) {v : ℚ}
    (hv : value w = some v) (hfit : FitsUnits v) :
    StoresNearest T regs line a (1000 * v) ↔
      RoundsNearest (1000 * v) ∨
        TakenForAbsent (1000 * v) ∧ Nearest (regs.get a).toInt32.toInt (1000 * v) := by
  unfold StoresNearest
  rw [← Modal.processLine_emits T regs h a, and_self, toInt_emitted hT regs h hw hv hfit]
  split
  · rename_i habsent
    simp only [habsent, not_roundsNearest habsent, true_and, false_or]
  · rename_i habsent
    simp only [habsent, nearest_trunc_iff_roundsNearest habsent, false_and, or_false]

/-- The registers of boot hold 0, which is near no value that is taken for absent. -/
theorem boot_not_nearest {a : Axis} {y : ℚ} (h : TakenForAbsent y) :
    ¬ Nearest (boot.get a).toInt32.toInt y := by
  intro hnear
  have hzero : (boot.get a).toInt32.toInt = 0 := by cases a <;> rfl
  rw [hzero, nearest_iff] at hnear
  have hup := (abs_le.mp hnear).2
  have hhi := h.2
  push_cast at hup
  linarith

/-- **Rounding.** From one state of the registers, what is emitted and kept for the
last word of an axis is a nearest number of thousandths exactly when the value is
rounded to nearest, or is taken for absent and the old register is such a number.
From every state it is so exactly when the value is rounded to nearest. -/
theorem rounding_iff (T : Target) (hT : T.Exact) (line : List Char) (h : Accepted line) (a : Axis)
    (w : CmdData) (hw : lastWord a (args T line) = some w) (v : ℚ) (hv : value w = some v)
    (hfit : FitsUnits v) :
    (∀ regs, StoresNearest T regs line a (1000 * v) ↔
      RoundsNearest (1000 * v) ∨
        TakenForAbsent (1000 * v) ∧ Nearest (regs.get a).toInt32.toInt (1000 * v)) ∧
    ((∀ regs, StoresNearest T regs line a (1000 * v)) ↔ RoundsNearest (1000 * v)) := by
  have hstored (regs : Regs) := storesNearest_iff hT regs h hw hv hfit
  refine ⟨hstored, ?_⟩
  constructor
  · intro hall
    rcases (hstored boot).mp (hall boot) with hrounds | ⟨habsent, hnear⟩
    · exact hrounds
    · exact absurd hnear (boot_not_nearest habsent)
  · intro hrounds regs
    exact (hstored regs).mpr (.inl hrounds)

def retraction : List Char := "G1 E-1\n".toList

theorem retraction_word :
    lastWord .e (args .exact retraction) = some { cmdLtr := 'E', ival := -1 } := by decide

theorem retraction_fits : FitsUnits (-1) := by
  unfold FitsUnits int32Min int32Max gcodeUom
  constructor <;> norm_num

theorem rounding_iff_retraction :
    (∀ regs, StoresNearest .exact regs retraction .e (1000 * (-1 : ℚ))) ↔
      RoundsNearest (1000 * (-1 : ℚ)) :=
  (rounding_iff .exact Target.exact_exact retraction (by decide) .e _ retraction_word (-1) rfl
    retraction_fits).2

/-- `G1 E-1` asks for -1000 thousandths, an integer, and -999 is stored. -/
theorem retraction_stored :
    Accepted retraction ∧
      lastWord .e (args .exact retraction) = some { cmdLtr := 'E', ival := -1 } ∧
      value { cmdLtr := 'E', ival := -1 } = some (-1) ∧ FitsUnits (-1) ∧
      (processLine .exact boot retraction).param.e.toInt = -999 ∧
      (processLine .exact boot retraction).regs.e.toInt32.toInt = -999 ∧
      ¬ StoresNearest .exact boot retraction .e (1000 * (-1 : ℚ)) := by
  have hacc : Accepted retraction := by decide
  have hemitted : (processLine .exact boot retraction).param.e.toInt = -999 := by decide +kernel
  have hkept : (processLine .exact boot retraction).regs.e.toInt32.toInt = -999 := by
    decide +kernel
  refine ⟨hacc, retraction_word, rfl, retraction_fits, hemitted, hkept, ?_⟩
  rintro ⟨hnear, -⟩
  have hexact : (processLine .exact boot retraction).param.e.toInt = -1000 :=
    hnear.2 (-1000) (by norm_num)
  rw [hemitted] at hexact
  cases hexact

/-! ## The conversions a line performs -/

/-- One use of `FXPT`: a number from either field of a word, and the factor. -/
inductive Fxpt where
  | ofDouble (dx : Double) (p : ℕ)
  | ofLong (dx : Int32) (p : ℕ)
  deriving DecidableEq, Repr

def Fxpt.eval (T : Target) : Fxpt → Int32
  | .ofDouble dx p => fxptDouble T dx p
  | .ofLong dx p => fxptLong T dx p

/-- The product does not overflow and the sum is in the range of the cast. -/
def Fxpt.InRange (T : Target) : Fxpt → Prop
  | .ofDouble dx p => ∃ q, T.add (1 / 2) (T.mul p dx) = .fin q ∧ FitsInt32 (trunc q)
  | .ofLong dx p => FitsInt32 (dx.toInt * (Int32.ofNat p).toInt) ∧
      ∃ q, T.add (1 / 2) (.fin (dx.toInt * (Int32.ofNat p).toInt : ℤ)) = .fin q ∧
        FitsInt32 (trunc q)

def Fxpt.read (isFloat : Bool) (c : CmdData) (p : ℕ) : Fxpt :=
  if isFloat then .ofDouble c.dval p else .ofLong c.ival p

/-- The conversion made for a word; an 'S' converts entry 1 of `cmd_data`. -/
def conversion (c₁ w : CmdData) : Option Fxpt :=
  match w.cmdLtr with
  | 'X' | 'Y' | 'Z' | 'E' | 'F' => some (.read w.isFloat w gcodeUom)
  | 'S' => some (.read w.isFloat c₁ 1)
  | _ => none

/-- The letters of the axes, the 'S', and all others. -/
theorem letter_cases (l : Char) :
    (∃ a : Axis, l = a.letter) ∨ l = 'S' ∨ ((∀ a : Axis, l ≠ a.letter) ∧ l ≠ 'S') := by
  by_cases haxis : ∃ a : Axis, l = a.letter
  · exact .inl haxis
  · by_cases htemp : l = 'S'
    · exact .inr (.inl htemp)
    · exact .inr (.inr ⟨fun a ha => haxis ⟨a, ha⟩, htemp⟩)

theorem conversion_axis {c₁ w : CmdData} {a : Axis} (h : w.cmdLtr = a.letter) :
    conversion c₁ w = some (.read w.isFloat w gcodeUom) := by
  unfold conversion
  cases a <;> rw [h] <;> rfl

theorem conversion_temp {c₁ w : CmdData} (h : w.cmdLtr = 'S') :
    conversion c₁ w = some (.read w.isFloat c₁ 1) := by
  unfold conversion
  rw [h]
  rfl

theorem conversion_other {c₁ w : CmdData} (haxis : ∀ a : Axis, w.cmdLtr ≠ a.letter)
    (htemp : w.cmdLtr ≠ 'S') : conversion c₁ w = none := by
  unfold conversion
  split
  · exact absurd ‹_› (haxis .x)
  · exact absurd ‹_› (haxis .y)
  · exact absurd ‹_› (haxis .z)
  · exact absurd ‹_› (haxis .e)
  · exact absurd ‹_› (haxis .f)
  · exact absurd ‹_› htemp
  · rfl

/-- Where the converted value of a word goes. -/
def assign (param : Param) (cmdLtr : Char) (k : Int32) : Param :=
  match cmdLtr with
  | 'X' => { param with x := place param.relPos param.x k }
  | 'Y' => { param with y := place param.relPos param.y k }
  | 'Z' => { param with z := place param.relPos param.z k }
  | 'E' => { param with e := place param.relPos param.e k }
  | 'F' => { param with f := k }
  | 'S' => { param with targetTemp := k }
  | _ => param

/-- One turn of the loop of `_get_xyzef`: at most one conversion, and its value
put where it goes. -/
def turn (T : Target) (c₁ : CmdData) (param : Param) (w : CmdData) : Param :=
  match conversion c₁ w with
  | none => param
  | some k => assign param w.cmdLtr (k.eval T)

theorem Fxpt.eval_read (T : Target) (isFloat : Bool) (c : CmdData) (p : ℕ) :
    (Fxpt.read isFloat c p).eval T =
      if isFloat then fxptDouble T c.dval p else fxptLong T c.ival p := by
  cases isFloat <;> rfl

theorem xyzefStep_eq_turn (T : Target) (cmdData : List CmdData) (param : Param) (i : ℕ) :
    xyzefStep T cmdData param i = turn T (cmdData.getD 1 {}) param (cmdData.getD i {}) := by
  unfold xyzefStep turn
  generalize cmdData.getD i {} = w
  generalize cmdData.getD 1 {} = c₁
  rcases letter_cases w.cmdLtr with ⟨a, ha⟩ | htemp | ⟨haxis, htemp⟩
  · rw [conversion_axis ha]
    simp only [Fxpt.eval_read, ha]
    cases a <;> simp only [Axis.letter, assign] <;> rfl
  · rw [conversion_temp htemp]
    simp only [Fxpt.eval_read, htemp]
    rfl
  · rw [conversion_other haxis htemp]
    show _ = param
    simp only
    split
    · exact absurd ‹_› (haxis .x)
    · exact absurd ‹_› (haxis .y)
    · exact absurd ‹_› (haxis .z)
    · exact absurd ‹_› (haxis .e)
    · exact absurd ‹_› (haxis .f)
    · exact absurd ‹_› htemp
    · rfl

/-- The whole loop, over the words behind the first one. -/
theorem lineMove_eq_foldl (T : Target) {line : List Char} (h : Accepted line) :
    lineMove T line = (args T line).foldl (turn T ((args T line).headD {})) unset := by
  unfold lineMove getXyzef
  simp only [funext₂ (xyzefStep_eq_turn T _), entry_one T h]
  rw [← map_entries T h, List.foldl_map, map_entries T h]

/-- Every conversion `_get_xyzef` performs for a line, turn by turn. -/
def conversions (T : Target) (line : List Char) : List Fxpt :=
  let cmdData := fill (stores T (cstr line))
  (List.range' 1 ((stores T (cstr line)).length - 1)).filterMap fun i =>
    conversion (cmdData.getD 1 {}) (cmdData.getD i {})

theorem conversions_eq (T : Target) {line : List Char} (h : Accepted line) :
    conversions T line = (args T line).filterMap (conversion ((args T line).headD {})) := by
  unfold conversions
  simp only [entry_one T h]
  rw [← map_entries T h, List.filterMap_map, map_entries T h]
  rfl

theorem Fxpt.eval_of_inRange {T T' : Target} (hfl : T.fl = T'.fl) {k : Fxpt} (h : k.InRange T) :
    k.eval T = k.eval T' := by
  have hadd (c : ℚ) (d : Double) : T.add c d = T'.add c d := by
    cases d <;> simp [Target.add, hfl]
  have hmul (p : ℕ) (d : Double) : T.mul p d = T'.mul p d := by
    cases d <;> simp [Target.mul, hfl]
  have hcast {q : ℚ} (hq : FitsInt32 (trunc q)) : T.toInt32 (.fin q) = T'.toInt32 (.fin q) := by
    simp only [Target.toInt32, if_pos hq]
  cases k with
  | ofDouble dx p =>
    obtain ⟨q, hq, hfit⟩ := h
    show T.toInt32 (T.add (1 / 2) (T.mul p dx)) = T'.toInt32 (T'.add (1 / 2) (T'.mul p dx))
    rw [← hadd, ← hmul, hq, hcast hfit]
  | ofLong dx p =>
    obtain ⟨hprod, q, hq, hfit⟩ := h
    show T.toInt32 (T.add (1 / 2) (.fin (T.mulLong dx (Int32.ofNat p)).toInt)) =
      T'.toInt32 (T'.add (1 / 2) (.fin (T'.mulLong dx (Int32.ofNat p)).toInt))
    rw [T.mulLong_of_fits hprod, T'.mulLong_of_fits hprod, ← hadd, hq, hcast hfit]

theorem foldl_turn_congr {T T' : Target} {c₁ : CmdData} {ws : List CmdData} (param : Param)
    (h : ∀ k ∈ ws.filterMap (conversion c₁), k.eval T = k.eval T') :
    ws.foldl (turn T c₁) param = ws.foldl (turn T' c₁) param := by
  induction ws generalizing param with
  | nil => rfl
  | cons w ws ih =>
    have hturn : turn T c₁ param w = turn T' c₁ param w := by
      unfold turn
      cases hk : conversion c₁ w with
      | none => rfl
      | some k => simp only [h k (by simp [hk])]
    have htail : ∀ k ∈ ws.filterMap (conversion c₁), k.eval T = k.eval T' := by
      intro k hk
      apply h
      obtain ⟨v, hv, hvk⟩ := List.mem_filterMap.mp hk
      exact List.mem_filterMap.mpr ⟨v, List.mem_cons_of_mem _ hv, hvk⟩
    rw [List.foldl_cons, List.foldl_cons, hturn, ih _ htail]

/-- With every conversion in range a line does not depend on what the target
makes of an overflow. -/
theorem lineMove_of_inRange {T T' : Target} (hfl : T.fl = T'.fl) {line : List Char}
    (h : Accepted line) (hr : ∀ k ∈ conversions T line, k.InRange T) :
    lineMove T line = lineMove T' line := by
  have hargs : args T line = args T' line := by
    unfold args
    congr 1
    funext token
    simp only [argCmd, hfl]
  rw [conversions_eq T h] at hr
  rw [lineMove_eq_foldl T h, lineMove_eq_foldl T' h, ← hargs]
  apply foldl_turn_congr
  intro k hk
  exact Fxpt.eval_of_inRange hfl (hr k hk)

/-! ## Range -/

/-- The sum, as the target computes it, lies strictly between the integers next
to the range. -/
def SumFits (T : Target) (p : ℕ) (d : Double) : Prop :=
  ∃ q, T.add (1 / 2) (T.mul p d) = .fin q ∧ -2 ^ 31 - 1 < q ∧ q < 2 ^ 31

/-- A number whose product with `p` may be rounded into the range. -/
def ValueFits (p : ℕ) (d : Double) : Prop :=
  ∃ v, d = .fin v ∧ -2 ^ 31 - 3 / 2 < v * p ∧ v * p < 2 ^ 31 - 1 / 2

/-- The condition on one word behind the first; `c₁` is the word next to the
first, and `fits` says which `double`s may be converted. -/
def WordFits (fits : ℕ → Double → Prop) (c₁ w : CmdData) : Prop :=
  (∀ a : Axis, w.cmdLtr = a.letter →
    if w.isFloat then fits gcodeUom w.dval else -2147483 ≤ w.ival.toInt ∧ w.ival.toInt ≤ 2147483) ∧
  (w.cmdLtr = 'S' → w.isFloat = true → fits 1 c₁.dval)

theorem sumFits_exact {T : Target} (hT : T.Exact) (p : ℕ) (d : Double) :
    SumFits T p d ↔ ValueFits p d := by
  unfold SumFits ValueFits
  cases d with
  | fin v =>
    simp only [Target.add_mul_exact hT, Double.fin.injEq, exists_eq_left']
    constructor
    · rintro ⟨hlo, hhi⟩
      constructor <;> linarith
    · rintro ⟨hlo, hhi⟩
      constructor <;> linarith
  | inf neg => simp [Target.mul, Target.add]
  | nan => simp [Target.mul, Target.add]

theorem inRange_ofDouble (T : Target) (dx : Double) (p : ℕ) :
    (Fxpt.ofDouble dx p).InRange T ↔ SumFits T p dx := by
  show (∃ q, _ ∧ FitsInt32 (trunc q)) ↔ _
  simp only [fitsInt32_trunc_iff]
  rfl

/-- A `long` product that does not overflow is converted in range. -/
theorem inRange_ofLong (T : Target) (dx : Int32) (p : ℕ) :
    (Fxpt.ofLong dx p).InRange T ↔ FitsInt32 (dx.toInt * (Int32.ofNat p).toInt) := by
  constructor
  · intro h
    exact h.1
  · intro h
    refine ⟨h, _, T.add_half_int h, ?_⟩
    rw [trunc_add_half]
    unfold FitsInt32 int32Min int32Max at h ⊢
    split <;> omega

theorem inRange_read (T : Target) (isFloat : Bool) (c : CmdData) (p : ℕ) :
    (Fxpt.read isFloat c p).InRange T ↔
      if isFloat then SumFits T p c.dval else FitsInt32 (c.ival.toInt * (Int32.ofNat p).toInt) := by
  cases isFloat with
  | true => exact inRange_ofDouble T c.dval p
  | false => exact inRange_ofLong T c.ival p

theorem letter_ne_temp (a : Axis) : a.letter ≠ 'S' := by cases a <;> decide

/-- The conversion of a word is in range exactly when the word fits. -/
theorem conversion_inRange_iff (T : Target) (c₁ w : CmdData) :
    (∀ k ∈ conversion c₁ w, k.InRange T) ↔ WordFits (SumFits T) c₁ w := by
  by_cases haxis : ∃ a : Axis, w.cmdLtr = a.letter
  · obtain ⟨a, ha⟩ := haxis
    have hprod : FitsInt32 (w.ival.toInt * (Int32.ofNat gcodeUom).toInt) ↔
        -2147483 ≤ w.ival.toInt ∧ w.ival.toInt ≤ 2147483 := by
      show FitsInt32 (w.ival.toInt * 1000) ↔ _
      unfold FitsInt32 int32Min int32Max
      omega
    rw [conversion_axis ha]
    simp only [Option.mem_def, Option.some.injEq, forall_eq', inRange_read, hprod]
    constructor
    · intro h
      exact ⟨fun _ _ => h, fun htemp => absurd (ha.symm.trans htemp) (letter_ne_temp a)⟩
    · intro h
      exact h.1 a ha
  · have hnone : ∀ a : Axis, w.cmdLtr ≠ a.letter := fun a ha => haxis ⟨a, ha⟩
    by_cases htemp : w.cmdLtr = 'S'
    · have hone : FitsInt32 (c₁.ival.toInt * (Int32.ofNat 1).toInt) := by
        show FitsInt32 (c₁.ival.toInt * 1)
        have hlo := c₁.ival.le_toInt
        have hhi := c₁.ival.toInt_lt
        unfold FitsInt32 int32Min int32Max
        omega
      rw [conversion_temp htemp]
      simp only [Option.mem_def, Option.some.injEq, forall_eq', inRange_read]
      constructor
      · intro h
        refine ⟨fun a ha => absurd ha (hnone a), fun _ hfloat => ?_⟩
        rwa [if_pos hfloat] at h
      · intro h
        split
        · exact h.2 htemp ‹_›
        · exact hone
    · rw [conversion_other hnone htemp]
      constructor
      · intro _
        exact ⟨fun a ha => absurd ha (hnone a), fun h => absurd h htemp⟩
      · rintro _ k ⟨⟩

/-- **Range.** The conversions made for an accepted line are all in range
exactly when each of its words fits: up to 2147483 for a number without a point,
and within the bounds of the cast for one with a point. -/
theorem conversions_inRange_iff (T : Target) (line : List Char) (h : Accepted line) :
    ((∀ k ∈ conversions T line, k.InRange T) ↔
      ∀ w ∈ args T line, WordFits (SumFits T) ((args T line).headD {}) w) ∧
    (T.Exact → ((∀ k ∈ conversions T line, k.InRange T) ↔
      ∀ w ∈ args T line, WordFits ValueFits ((args T line).headD {}) w)) := by
  have hwords : (∀ k ∈ conversions T line, k.InRange T) ↔
      ∀ w ∈ args T line, WordFits (SumFits T) ((args T line).headD {}) w := by
    simp only [conversions_eq T h, ← conversion_inRange_iff]
    constructor
    · intro hr w hw k hk
      exact hr k (List.mem_filterMap.mpr ⟨w, hw, hk⟩)
    · intro hr k hk
      obtain ⟨w, hw, hwk⟩ := List.mem_filterMap.mp hk
      exact hr w hw k hwk
  refine ⟨hwords, fun hT => ?_⟩
  rw [hwords]
  simp only [WordFits, sumFits_exact hT]

def farMove : List Char := "G1 X2147484 Y1.5\n".toList

theorem conversions_inRange_iff_farMove :
    (∀ k ∈ conversions .exact farMove, k.InRange .exact) ↔
      ∀ w ∈ args .exact farMove, WordFits ValueFits ((args .exact farMove).headD {}) w :=
  (conversions_inRange_iff .exact farMove (by decide)).2 Target.exact_exact

/-- `G1 X2147484 Y1.5` is accepted, and 2147484000 is no `long` of 32 bits. -/
theorem farMove_overflows :
    Accepted farMove ∧ .ofLong 2147484 1000 ∈ conversions .exact farMove ∧
      ¬ (Fxpt.ofLong 2147484 1000).InRange .exact := by
  refine ⟨by decide, by decide, ?_⟩
  rw [inRange_ofLong]
  decide

end GcodeFatfs.Conversion
