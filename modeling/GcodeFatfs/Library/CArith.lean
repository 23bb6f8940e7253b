import Mathlib.Data.Rat.Floor
import Mathlib.Tactic.Linarith
import Mathlib.Tactic.Ring
import Mathlib.Tactic.NormNum

/-! C arithmetic of a 32-bit target: `long` and `int32_t` are 32 bits wide and
`double` is a rational, an infinity or a NaN. What C leaves to the target (the
rounding of a `double` operation and the two overflows without a defined
result) is a field of `Target`, so a theorem over `T : Target` holds for any of
them. -/

namespace GcodeFatfs.CArith

/-- A `double`. The sign of a zero is not kept: no operation below can see it. -/
inductive Double where
  | fin (q : ℚ)
  | inf (neg : Bool)
  | nan
  deriving DecidableEq, Repr

abbrev int32Min : ℤ := -2 ^ 31
abbrev int32Max : ℤ := 2 ^ 31 - 1

def FitsInt32 (n : ℤ) : Prop := int32Min ≤ n ∧ n ≤ int32Max

instance (n : ℤ) : Decidable (FitsInt32 n) := inferInstanceAs (Decidable (_ ∧ _))

/-- Conversion to an integer drops the fraction, toward zero. -/
def trunc (q : ℚ) : ℤ := if 0 ≤ q then ⌊q⌋ else ⌈q⌉

/-- What the compiler and the machine add to the C standard: the result `fl q`
of a `double` operation whose exact result is `q`, and the results of the two
operations that have none, a `long` product that overflows and the cast to
`int32_t` of a `double` outside its range. -/
structure Target where
  fl : ℚ → Double
  longOverflow : ℤ → Int32
  castOverflow : Double → Int32
  /-- Every half of an integer a little past 32 bits is a `double`. -/
  fl_half : ∀ n : ℤ, -2 ^ 33 ≤ n → n ≤ 2 ^ 33 → fl (n / 2) = .fin (n / 2)

/-- Product of two `long`s. -/
def Target.mulLong (T : Target) (a b : Int32) : Int32 :=
  if FitsInt32 (a.toInt * b.toInt) then Int32.ofInt (a.toInt * b.toInt)
  else T.longOverflow (a.toInt * b.toInt)

/-- Product of a `double` and a positive integer constant. -/
def Target.mul (T : Target) (p : ℕ) : Double → Double
  | .fin q => T.fl (q * p)
  | .inf neg => .inf neg
  | .nan => .nan

/-- Sum of a `double` and a constant. -/
def Target.add (T : Target) (c : ℚ) : Double → Double
  | .fin q => T.fl (q + c)
  | .inf neg => .inf neg
  | .nan => .nan

/-- The cast to `int32_t`, defined when the truncated value is representable. -/
def Target.toInt32 (T : Target) (d : Double) : Int32 :=
  match d with
  | .fin q => if FitsInt32 (trunc q) then Int32.ofInt (trunc q) else T.castOverflow d
  | _ => T.castOverflow d

/-- Every `double` operation is exact, products wrap and casts saturate. -/
def Target.exact : Target where
  fl := .fin
  longOverflow := Int32.ofInt
  castOverflow
    | .fin q => if 0 ≤ q then Int32.ofInt int32Max else Int32.ofInt int32Min
    | .inf neg => Int32.ofInt (if neg then int32Min else int32Max)
    | .nan => 0
  fl_half _ _ _ := rfl

/-- Every `double` operation gives its exact result. -/
def Target.Exact (T : Target) : Prop := ∀ q, T.fl q = .fin q

theorem Target.exact_exact : Target.exact.Exact := fun _ => rfl

theorem toInt_ofInt_of_fits {n : ℤ} (h : FitsInt32 n) : (Int32.ofInt n).toInt = n :=
  Int32.toInt_ofInt_of_le h.1 (by have := h.2; unfold int32Max at this; omega)

/-- Adding one half and truncating is exact from zero up, and one too large
below zero. -/
theorem trunc_add_half (m : ℤ) : trunc ((m : ℚ) + 1 / 2) = if 0 ≤ m then m else m + 1 := by
  unfold trunc
  split <;> rename_i h
  · have hm : 0 ≤ m := by
      by_contra hn
      have hle : (m : ℚ) ≤ -1 := by exact_mod_cast (show m ≤ -1 by omega)
      linarith
    rw [if_pos hm, Int.floor_eq_iff]
    constructor <;> linarith
  · have hm : ¬ 0 ≤ m := by
      intro hn
      have hle : (0 : ℚ) ≤ m := by exact_mod_cast hn
      linarith
    rw [if_neg hm, Int.ceil_eq_iff]
    push_cast
    constructor <;> linarith

/-- The cast gives a fixed in-range negative integer on one half-open interval. -/
theorem trunc_eq_neg_iff (q : ℚ) (k : ℤ) (hk : k < 0) : trunc q = k ↔ (k : ℚ) - 1 < q ∧ q ≤ k := by
  have hk' : (k : ℚ) ≤ -1 := by exact_mod_cast (show k ≤ -1 by omega)
  unfold trunc
  split <;> rename_i h
  · constructor
    · intro hf
      have := Int.floor_nonneg.mpr h
      omega
    · rintro ⟨_, h2⟩
      linarith
  · exact Int.ceil_eq_iff

/-- Integers above zero are counted by the floor, those below by the ceiling. -/
theorem le_trunc_iff (q : ℚ) {n : ℤ} (hn : 0 < n) : n ≤ trunc q ↔ (n : ℚ) ≤ q := by
  have hn' : (0 : ℚ) < n := by exact_mod_cast hn
  unfold trunc
  split <;> rename_i h
  · exact Int.le_floor
  · have hceil : ⌈q⌉ ≤ 0 := Int.ceil_le.mpr (by push_cast; linarith)
    constructor
    · intro hle
      omega
    · intro hle
      linarith

theorem trunc_le_iff (q : ℚ) {n : ℤ} (hn : n < 0) : trunc q ≤ n ↔ q ≤ n := by
  have hn' : (n : ℚ) < 0 := by exact_mod_cast hn
  unfold trunc
  split <;> rename_i h
  · have hfloor : 0 ≤ ⌊q⌋ := Int.floor_nonneg.mpr h
    constructor
    · intro hle
      omega
    · intro hle
      linarith
  · exact Int.ceil_le

/-- Two numbers are cast to one integer when no integer but zero parts them. -/
theorem trunc_eq_trunc_iff (x y : ℚ) : trunc x = trunc y ↔
    (∀ n : ℤ, 0 < n → ((n : ℚ) ≤ x ↔ (n : ℚ) ≤ y)) ∧ ∀ n : ℤ, n < 0 → (x ≤ n ↔ y ≤ n) := by
  constructor
  · intro h
    constructor
    · intro n hn
      rw [← le_trunc_iff x hn, ← le_trunc_iff y hn, h]
    · intro n hn
      rw [← trunc_le_iff x hn, ← trunc_le_iff y hn, h]
  · rintro ⟨habove, hbelow⟩
    have hup (n : ℤ) (hn : 0 < n) : n ≤ trunc x ↔ n ≤ trunc y := by
      rw [le_trunc_iff x hn, le_trunc_iff y hn, habove n hn]
    have hdown (n : ℤ) (hn : n < 0) : trunc x ≤ n ↔ trunc y ≤ n := by
      rw [trunc_le_iff x hn, trunc_le_iff y hn, hbelow n hn]
    rcases lt_trichotomy (trunc x) (trunc y) with hlt | heq | hlt
    · by_cases hy : 0 < trunc y
      · have := (hup (trunc y) hy).mpr le_rfl
        omega
      · have := (hdown (trunc x) (by omega)).mp le_rfl
        omega
    · exact heq
    · by_cases hx : 0 < trunc x
      · have := (hup (trunc x) hx).mp le_rfl
        omega
      · have := (hdown (trunc y) (by omega)).mpr le_rfl
        omega

/-- The cast is defined strictly between the integers next to the range. -/
theorem fitsInt32_trunc_iff (q : ℚ) : FitsInt32 (trunc q) ↔ -2 ^ 31 - 1 < q ∧ q < 2 ^ 31 := by
  unfold FitsInt32 trunc
  split <;> rename_i h
  · have hfloor : 0 ≤ ⌊q⌋ := Int.floor_nonneg.mpr h
    have hlt : ⌊q⌋ < 2 ^ 31 ↔ q < 2 ^ 31 := by
      rw [Int.floor_lt]
      norm_num
    constructor
    · rintro ⟨-, hhi⟩
      exact ⟨by linarith, hlt.mp (by unfold int32Max at hhi; omega)⟩
    · rintro ⟨-, hhi⟩
      have := hlt.mpr hhi
      unfold int32Min int32Max
      omega
  · have hceil : ⌈q⌉ ≤ 0 := Int.ceil_le.mpr (by push_cast; linarith)
    have hlt : -2 ^ 31 - 1 < ⌈q⌉ ↔ -2 ^ 31 - 1 < q := by
      rw [Int.lt_ceil]
      norm_num
    constructor
    · rintro ⟨hlo, -⟩
      exact ⟨hlt.mp (by unfold int32Min at hlo; omega), by linarith⟩
    · rintro ⟨hlo, -⟩
      have := hlt.mpr hlo
      unfold int32Min int32Max
      omega

/-- Adding one half and truncating gives a nearest integer from minus one half
up; below that only where the sum is an integer itself. -/
theorem trunc_add_half_near_iff (y : ℚ) :
    |(trunc (y + 1 / 2) : ℚ) - y| ≤ 1 / 2 ↔ -1 / 2 ≤ y ∨ ∃ m : ℤ, y + 1 / 2 = m := by
  unfold trunc
  split <;> rename_i h
  · have hle := Int.floor_le (y + 1 / 2)
    have hlt := Int.lt_floor_add_one (y + 1 / 2)
    constructor
    · intro _
      exact .inl (by linarith)
    · intro _
      rw [abs_le]
      constructor <;> linarith
  · have hge := Int.le_ceil (y + 1 / 2)
    constructor
    · intro hnear
      have hup := (abs_le.mp hnear).2
      exact .inr ⟨⌈y + 1 / 2⌉, by linarith⟩
    · rintro (hy | ⟨m, hm⟩)
      · exact absurd (by linarith) h
      · have hc : ⌈y + 1 / 2⌉ = m := by rw [hm, Int.ceil_intCast]
        have hval : (⌈y + 1 / 2⌉ : ℚ) - y = 1 / 2 := by rw [hc, ← hm]; ring
        rw [hval, abs_of_pos (by norm_num)]

/-- Exact arithmetic adds one half to the product itself. -/
theorem Target.add_mul_exact {T : Target} (hT : T.Exact) (p : ℕ) (v : ℚ) :
    T.add (1 / 2) (T.mul p (.fin v)) = .fin (v * p + 1 / 2) := by
  show T.add (1 / 2) (T.fl (v * p)) = _
  rw [hT]
  exact hT _

/-- The sum of an integer and one half is exact on every target. -/
theorem Target.add_half_int (T : Target) {m : ℤ} (h : FitsInt32 m) :
    T.add (1 / 2) (.fin m) = .fin ((m : ℚ) + 1 / 2) := by
  obtain ⟨hlo, hhi⟩ := h
  unfold int32Min at hlo
  unfold int32Max at hhi
  have he : (m : ℚ) + 1 / 2 = ((2 * m + 1 : ℤ) : ℚ) / 2 := by push_cast; ring
  show T.fl ((m : ℚ) + 1 / 2) = _
  rw [he]
  exact T.fl_half (2 * m + 1) (by omega) (by omega)

theorem Target.mulLong_of_fits (T : Target) {a b : Int32} (h : FitsInt32 (a.toInt * b.toInt)) :
    (T.mulLong a b).toInt = a.toInt * b.toInt := by
  unfold Target.mulLong
  rw [if_pos h, toInt_ofInt_of_fits h]

theorem Target.toInt32_of_fits (T : Target) {q : ℚ} (h : FitsInt32 (trunc q)) :
    (T.toInt32 (.fin q)).toInt = trunc q := by
  unfold Target.toInt32
  simp only
  rw [if_pos h, toInt_ofInt_of_fits h]

/-! ## Packed words -/

/-- A mask of ones, shifted down, cuts a field out. -/
theorem masked_shiftRight (w shift width : ℕ) :
    ((2 ^ width - 1) * 2 ^ shift &&& w) >>> shift = w / 2 ^ shift % 2 ^ width := by
  have hmask : ((2 ^ width - 1) * 2 ^ shift) >>> shift = 2 ^ width - 1 := by
    rw [Nat.shiftRight_eq_div_pow, Nat.mul_div_cancel _ (Nat.two_pow_pos shift)]
  rw [Nat.shiftRight_and_distrib, hmask, Nat.and_comm, Nat.and_two_pow_sub_one_eq_mod,
    Nat.shiftRight_eq_div_pow]

/-! ## Sums of `int32_t` -/

/-- Additions to `old`, one after another, none of which overflows. -/
def SumsFit (old : ℤ) : List ℤ → Prop
  | [] => True
  | k :: ks => FitsInt32 (old + k) ∧ SumsFit (old + k) ks

theorem toInt_add_of_fits {a b : Int32} (h : FitsInt32 (a.toInt + b.toInt)) :
    (a + b).toInt = a.toInt + b.toInt := by
  obtain ⟨hlo, hhi⟩ := h
  unfold int32Min at hlo
  unfold int32Max at hhi
  rw [Int32.toInt_add]
  exact Int.bmod_eq_of_le (by omega) (by omega)

theorem toInt_foldl_add {old : Int32} {ks : List Int32}
    (h : SumsFit old.toInt (ks.map Int32.toInt)) :
    (ks.foldl (· + ·) old).toInt = old.toInt + (ks.map Int32.toInt).sum := by
  induction ks generalizing old with
  | nil => simp
  | cons k ks ih =>
    obtain ⟨hfit, hrest⟩ := h
    have hadd := toInt_add_of_fits hfit
    rw [List.foldl_cons, ih (hadd ▸ hrest), hadd, List.map_cons, List.sum_cons, Int.add_assoc]

/-! ## Rounding errors -/

/-- What IEEE 754 says of the numbers up to 2^32 and more: rounding gives a number,
and one this near. -/
def Target.Accurate (T : Target) : Prop :=
  ∀ q : ℚ, |q| ≤ 2 ^ 32 → ∃ r, T.fl q = .fin r ∧ |r - q| ≤ 1 / 2 ^ 12

theorem Target.exact_accurate : Target.exact.Accurate := by
  intro q _
  exact ⟨q, rfl, by norm_num⟩

/-- A number strictly between an integer from zero up and the next one. -/
theorem trunc_of_near_above {k : ℤ} {q : ℚ} (hk : 0 ≤ k) (h : |q - (k + 1 / 2)| < 1 / 2) :
    trunc q = k := by
  obtain ⟨hlo, hhi⟩ := abs_lt.mp h
  have hk' : (0 : ℚ) ≤ k := by exact_mod_cast hk
  unfold trunc
  rw [if_pos (by linarith), Int.floor_eq_iff]
  constructor <;> linarith

/-- A number strictly between an integer below zero and the one before it. -/
theorem trunc_of_near_below {k : ℤ} {q : ℚ} (hk : k < 0) (h : |q - (k - 1 / 2)| < 1 / 2) :
    trunc q = k := by
  obtain ⟨hlo, hhi⟩ := abs_lt.mp h
  rw [trunc_eq_neg_iff q k hk]
  constructor <;> linarith

end GcodeFatfs.CArith
