import GcodeFatfs.Library.CString

/-! Decimal numerals: how one is written, what it is worth, and that `strtol` and
`strtod` read it as that, whatever stands behind it. -/

namespace GcodeFatfs.Decimal
open GcodeFatfs.CArith GcodeFatfs.CString

/-! ## Digits -/

def digit (c : Char) : ℕ := c.toNat - '0'.toNat

/-- What a string of digits is worth. -/
def decimal (ds : List Char) : ℕ := ofDigits 10 (ds.map digit)

theorem digitVal_of_isDigit {c : Char} (h : c.isDigit = true) :
    digitVal c = some (digit c) ∧ digit c < 10 := by
  simp only [Char.isDigit, Bool.and_eq_true, decide_eq_true_eq] at h
  obtain ⟨hlo, hhi⟩ := h
  have hlo' : '0' ≤ c := hlo
  have hhi' : c ≤ '9' := hhi
  refine ⟨by rw [digitVal, if_pos ⟨hlo', hhi'⟩]; rfl, ?_⟩
  have hnat : c.toNat ≤ 57 := hhi
  show c.toNat - 48 < 10
  omega

theorem digitVal_of_not_isDigit {c : Char} (h : c.isDigit = false) {d : ℕ}
    (hd : digitVal c = some d) : ¬ d < 10 := by
  have hrange : ¬ ('0' ≤ c ∧ c ≤ '9') := by
    rintro ⟨hlo, hhi⟩
    have hdigit : c.isDigit = true := by
      simp only [Char.isDigit, Bool.and_eq_true, decide_eq_true_eq]
      exact ⟨hlo, hhi⟩
    rw [hdigit] at h
    cases h
  rw [digitVal, if_neg hrange] at hd
  split at hd
  · obtain rfl := Option.some.inj hd
    omega
  split at hd
  · obtain rfl := Option.some.inj hd
    omega
  · cases hd

/-- The digits in front of a string, and what follows them. -/
theorem takeDigits_eq (s : List Char) :
    takeDigits 10 s = ((s.takeWhile Char.isDigit).map digit, s.dropWhile Char.isDigit) := by
  induction s with
  | nil => rfl
  | cons c s ih =>
    cases hc : c.isDigit with
    | true =>
      obtain ⟨hval, hlt⟩ := digitVal_of_isDigit hc
      simp [takeDigits, hval, hlt, ih, hc]
    | false =>
      rw [List.takeWhile_cons_of_neg (by simp [hc]), List.dropWhile_cons_of_neg (by simp [hc])]
      unfold takeDigits
      cases hval : digitVal c with
      | none => rfl
      | some d => simp [digitVal_of_not_isDigit hc hval]

theorem takeDigits_append {ds rest : List Char} (hds : ∀ c ∈ ds, c.isDigit = true)
    (hrest : (first rest).isDigit = false) : takeDigits 10 (ds ++ rest) = (ds.map digit, rest) := by
  have hstop : rest.takeWhile Char.isDigit = [] ∧ rest.dropWhile Char.isDigit = rest := by
    cases rest with
    | nil => exact ⟨rfl, rfl⟩
    | cons c rest =>
      have hc : c.isDigit = false := hrest
      simp [hc]
  rw [takeDigits_eq, List.takeWhile_append_of_pos hds, List.dropWhile_append_of_pos hds, hstop.1,
    hstop.2, List.append_nil]

/-! ## Numerals -/

inductive Sign where
  | none | plus | minus
  deriving DecidableEq, Repr

def Sign.text : Sign → List Char
  | .none => []
  | .plus => ['+']
  | .minus => ['-']

def Sign.neg : Sign → Bool
  | .minus => true
  | _ => false

def signed (sg : Sign) (n : ℤ) : ℤ := if sg.neg then -n else n

/-- A decimal numeral: a sign, digits, and maybe a point with digits behind it. -/
structure Numeral where
  sign : Sign
  whole : List Char
  frac : Option (List Char)
  whole_digits : ∀ c ∈ whole, c.isDigit = true
  frac_digits : ∀ f ∈ frac, ∀ c ∈ f, c.isDigit = true
  nonempty : whole ++ frac.getD [] ≠ []

/-- How a numeral is written. -/
def Numeral.text (n : Numeral) : List Char :=
  n.sign.text ++ (n.whole ++ match n.frac with
    | none => []
    | some f => '.' :: f)

/-- What a numeral is worth. -/
def Numeral.value (n : Numeral) : ℚ :=
  let magnitude : ℚ := decimal (n.whole ++ n.frac.getD []) / 10 ^ (n.frac.getD []).length
  if n.sign.neg then -magnitude else magnitude

theorem Numeral.mem_text {n : Numeral} {c : Char} (h : c ∈ n.text) :
    c.isDigit = true ∨ c = '+' ∨ c = '-' ∨ c = '.' := by
  rcases List.mem_append.mp h with h | h
  · cases hs : n.sign <;> rw [hs] at h <;> simp_all [Sign.text]
  rcases List.mem_append.mp h with h | h
  · exact .inl (n.whole_digits c h)
  · split at h
    · cases h
    · rename_i f hf
      rcases List.mem_cons.mp h with rfl | h
      · exact .inr (.inr (.inr rfl))
      · exact .inl (n.frac_digits f hf c h)

theorem Numeral.mem_point {n : Numeral} : '.' ∈ n.text ↔ n.frac.isSome = true := by
  have hsign : '.' ∉ n.sign.text := by cases n.sign <;> simp [Sign.text]
  have hwhole : '.' ∉ n.whole := fun h => absurd (n.whole_digits _ h) (by decide)
  unfold Numeral.text
  cases n.frac <;> simp [hsign, hwhole]

/-! ## How a numeral is read -/

theorem dropWhile_isspace {s : List Char} (h : isspace (first s) = false) :
    s.dropWhile isspace = s := by
  cases s with
  | nil => rfl
  | cons c s =>
    have hc : isspace c = false := h
    rw [List.dropWhile_cons_of_neg (by simp [hc])]

theorem takeSign_text (sg : Sign) {s : List Char}
    (h : sg = .none → first s ≠ '-' ∧ first s ≠ '+') : takeSign (sg.text ++ s) = (sg.neg, s) := by
  cases sg with
  | none =>
    obtain ⟨hminus, hplus⟩ := h rfl
    cases s with
    | nil => rfl
    | cons c s =>
      show takeSign (c :: s) = (false, c :: s)
      unfold takeSign
      split <;> simp_all [first]
  | plus => rfl
  | minus => rfl

theorem isspace_text (sg : Sign) {s : List Char} (h : isspace (first s) = false) :
    isspace (first (sg.text ++ s)) = false := by
  cases sg with
  | none => exact h
  | plus => rfl
  | minus => rfl

/-- A digit or a point starts neither blanks nor a sign nor a word. -/
theorem digit_or_point {c : Char} (h : c.isDigit = true ∨ c = '.') :
    isspace c = false ∧ c ≠ '-' ∧ c ≠ '+' ∧ c.toLower = c ∧ c ≠ 'i' ∧ c ≠ 'n' ∧ c ≠ 'x' := by
  rcases h with h | rfl
  · have hne {d : Char} (hd : d.isDigit = false) : c ≠ d := by
      rintro rfl
      rw [hd] at h
      cases h
    simp only [Char.isDigit, Bool.and_eq_true, decide_eq_true_eq] at h
    have hhi : c.val ≤ 57 := h.2
    have hlower : ¬ (c.val ≥ 65 ∧ c.val ≤ 90) := by
      rintro ⟨hlo, -⟩
      have hle : (65 : UInt32) ≤ 57 := UInt32.le_trans hlo hhi
      exact absurd hle (by decide)
    refine ⟨?_, hne rfl, hne rfl, ?_, hne rfl, hne rfl, hne rfl⟩
    · simp [isspace, hne]
    · exact dif_neg hlower
  · decide

/-- A number held at the ends of the `long` range. -/
def saturate (n : ℤ) : Int32 := Int32.ofInt (max int32Min (min int32Max n))

theorem toInt_saturate (n : ℤ) : (saturate n).toInt = max int32Min (min int32Max n) := by
  apply toInt_ofInt_of_fits
  unfold FitsInt32 int32Min int32Max
  omega

theorem toInt_saturate_of_fits {n : ℤ} (h : FitsInt32 n) : (saturate n).toInt = n := by
  obtain ⟨hlo, hhi⟩ := h
  rw [toInt_saturate, min_eq_right hhi, max_eq_right hlo]

/-- The integer in front of a text: blanks, a sign and digits, all that there
are, and none of them need be there. -/
def Leads (n : ℤ) (s : List Char) : Prop :=
  ∃ blanks sg ds rest, s = blanks ++ (Sign.text sg ++ (ds ++ rest)) ∧
    (∀ c ∈ blanks, isspace c = true) ∧ isspace (first (Sign.text sg ++ (ds ++ rest))) = false ∧
    (sg = .none → first (ds ++ rest) ≠ '-' ∧ first (ds ++ rest) ≠ '+') ∧
    (∀ c ∈ ds, c.isDigit = true) ∧ (first rest).isDigit = false ∧ n = signed sg (decimal ds)

/-- `strtol` reads the integer in front. -/
theorem strtol_of_leads {n : ℤ} {s : List Char} (h : Leads n s) : strtol s = saturate n := by
  obtain ⟨blanks, sg, ds, rest, rfl, hblanks, hspace, hsign, hds, hrest, rfl⟩ := h
  unfold strtol
  rw [List.dropWhile_append_of_pos hblanks, dropWhile_isspace hspace, takeSign_text sg hsign]
  simp only [takeDigits_append hds hrest]
  rfl

theorem first_dropWhile_not (p : Char → Bool) {s : List Char} (hnul : p nul = false) :
    p (first (s.dropWhile p)) = false := by
  cases hd : s.dropWhile p with
  | nil => exact hnul
  | cons c rest =>
    have hh := List.head_dropWhile_not p (l := s) (by simp [hd])
    simpa [hd, first] using hh

theorem saturate_eq_iff (n k : ℤ) (hlo : int32Min < k) (hhi : k < int32Max) :
    saturate n = Int32.ofInt k ↔ n = k := by
  have hk : (Int32.ofInt k).toInt = k := toInt_ofInt_of_fits ⟨by omega, by omega⟩
  rw [← Int32.toInt_inj, hk, toInt_saturate]
  unfold int32Min at hlo ⊢
  unfold int32Max at hhi ⊢
  omega

/-- Every text has an integer in front. -/
theorem exists_leads (s : List Char) : ∃ n, Leads n s := by
  obtain ⟨sg, body, hbody, hsign⟩ : ∃ sg body, s.dropWhile isspace = Sign.text sg ++ body ∧
      (sg = .none → first body ≠ '-' ∧ first body ≠ '+') := by
    cases hd : s.dropWhile isspace with
    | nil => exact ⟨.none, [], rfl, fun _ => by decide⟩
    | cons c body =>
      by_cases hminus : c = '-'
      · exact ⟨.minus, body, by rw [hminus]; rfl, by simp⟩
      by_cases hplus : c = '+'
      · exact ⟨.plus, body, by rw [hplus]; rfl, by simp⟩
      · exact ⟨.none, c :: body, rfl, fun _ => ⟨hminus, hplus⟩⟩
  have hsplit : body.takeWhile Char.isDigit ++ body.dropWhile Char.isDigit = body :=
    List.takeWhile_append_dropWhile
  refine ⟨_, s.takeWhile isspace, sg, body.takeWhile Char.isDigit, body.dropWhile Char.isDigit,
    ?_, fun c hc => List.mem_takeWhile_imp hc, ?_, ?_, fun c hc => List.mem_takeWhile_imp hc,
    first_dropWhile_not _ rfl, rfl⟩
  · rw [hsplit, ← hbody, List.takeWhile_append_dropWhile]
  · rw [hsplit, ← hbody]
    exact first_dropWhile_not _ rfl
  · rw [hsplit]
    exact hsign

/-- Inside the range `strtol` reads a number exactly when it is the one in front. -/
theorem strtol_eq_iff (s : List Char) (k : ℤ) (hlo : int32Min < k) (hhi : k < int32Max) :
    strtol s = Int32.ofInt k ↔ Leads k s := by
  constructor
  · intro h
    obtain ⟨n, hn⟩ := exists_leads s
    rw [strtol_of_leads hn, saturate_eq_iff n k hlo hhi] at h
    exact h ▸ hn
  · intro h
    rw [strtol_of_leads h, saturate_eq_iff k k hlo hhi]

/-- A numeral without a point is read by `strtol`. -/
theorem strtol_numeral {n : Numeral} (hfrac : n.frac = none) {rest : List Char}
    (hrest : (first rest).isDigit = false) :
    strtol (n.text ++ rest) = saturate (signed n.sign (decimal n.whole)) := by
  obtain ⟨c, ds, hwhole⟩ : ∃ c ds, n.whole = c :: ds := by
    apply List.exists_cons_of_ne_nil
    simpa [hfrac] using n.nonempty
  have hc : c.isDigit = true := n.whole_digits c (by simp [hwhole])
  obtain ⟨hspace, hminus, hplus, -⟩ := digit_or_point (.inl hc)
  have hfirst : first (n.whole ++ rest) = c := by simp [hwhole, first]
  apply strtol_of_leads
  refine ⟨[], n.sign, n.whole, rest, ?_, by simp, isspace_text _ (hfirst ▸ hspace), ?_,
    n.whole_digits, hrest, rfl⟩
  · simp [Numeral.text, hfrac]
  · intro _
    exact ⟨hfirst ▸ hminus, hfirst ▸ hplus⟩

theorem value_of_frac_none {n : Numeral} (hfrac : n.frac = none) :
    n.value = signed n.sign (decimal n.whole) := by
  unfold Numeral.value signed
  rw [hfrac]
  cases n.sign.neg <;> simp

theorem startsWith_false {w : Char} {word s : List Char} (h : (first s).toLower ≠ w) :
    startsWith (w :: word) s = false := by
  cases s with
  | nil => rfl
  | cons c s =>
    have hc : c.toLower ≠ w := h
    simp [startsWith, List.isPrefixOf, Ne.symm hc]

theorem exponent_zero {es rest : List Char} (h : first rest ∉ es) : exponent es rest = 0 := by
  cases rest with
  | nil => rfl
  | cons c rest =>
    have hc : c ∉ es := h
    simp [exponent, hc]

section Point
variable {whole f rest : List Char} (hwhole : ∀ c ∈ whole, c.isDigit = true)
include hwhole

theorem first_point (s : List Char) :
    (first (whole ++ '.' :: s)).isDigit = true ∨ first (whole ++ '.' :: s) = '.' := by
  cases whole with
  | nil => exact .inr rfl
  | cons c ds => exact .inl (hwhole c List.mem_cons_self)

/-- The second character of digits with a point is no 'x'. -/
theorem startsWith_hex_point (s : List Char) :
    startsWith ['0', 'x'] (whole ++ '.' :: s) = false := by
  cases whole with
  | nil => exact startsWith_false (show Char.toLower '.' ≠ '0' by decide)
  | cons c ds =>
    have hlater : ∀ d ∈ ds, d.isDigit = true := fun d hd => hwhole d (List.mem_cons_of_mem _ hd)
    obtain ⟨-, -, -, hlower, -, -, hx⟩ := digit_or_point (first_point hlater s)
    have hsecond : startsWith ['x'] (ds ++ '.' :: s) = false :=
      startsWith_false (by rw [hlower]; exact hx)
    simp only [startsWith, List.map_cons, List.cons_append, List.isPrefixOf] at hsecond ⊢
    rw [hsecond, Bool.and_false]

theorem unsignedReal_point (hf : ∀ c ∈ f, c.isDigit = true) (hne : whole ++ f ≠ [])
    (hrest : (first rest).isDigit = false) (hexp : first rest ∉ ['e', 'E']) :
    unsignedReal 10 10 1 ['e', 'E'] (whole ++ '.' :: (f ++ rest)) =
      some ((decimal (whole ++ f) : ℚ) / 10 ^ f.length) := by
  have hpoint : takeDigits 10 (whole ++ '.' :: (f ++ rest)) =
      (whole.map digit, '.' :: (f ++ rest)) := takeDigits_append hwhole rfl
  have hsome : ¬ (whole.map digit = [] ∧ f.map digit = []) := by
    rintro ⟨h, h'⟩
    rw [List.map_eq_nil_iff.mp h, List.map_eq_nil_iff.mp h'] at hne
    exact hne rfl
  unfold unsignedReal
  simp only [hpoint, takeDigits_append hf hrest, exponent_zero hexp]
  rw [if_neg hsome]
  simp [decimal, zpow_neg, div_eq_mul_inv]

end Point

/-- A numeral with a point is read by `strtod`. -/
theorem strtod_numeral (fl : ℚ → Double) {n : Numeral} {f : List Char} (hfrac : n.frac = some f)
    {rest : List Char} (hrest : (first rest).isDigit = false) (hexp : first rest ∉ ['e', 'E']) :
    strtod fl (n.text ++ rest) = fl n.value := by
  have htext : n.text ++ rest = n.sign.text ++ (n.whole ++ '.' :: (f ++ rest)) := by
    simp [Numeral.text, hfrac]
  obtain ⟨hspace, hminus, hplus, hlower, hi, hn, -⟩ :=
    digit_or_point (first_point n.whole_digits (f ++ rest))
  have hsign : takeSign ((n.text ++ rest).dropWhile isspace) =
      (n.sign.neg, n.whole ++ '.' :: (f ++ rest)) := by
    rw [htext, dropWhile_isspace (isspace_text _ hspace)]
    exact takeSign_text _ fun _ => ⟨hminus, hplus⟩
  have hinf : startsWith ['i', 'n', 'f'] (n.whole ++ '.' :: (f ++ rest)) = false :=
    startsWith_false (by rw [hlower]; exact hi)
  have hnan : startsWith ['n', 'a', 'n'] (n.whole ++ '.' :: (f ++ rest)) = false :=
    startsWith_false (by rw [hlower]; exact hn)
  have hreal := unsignedReal_point n.whole_digits (n.frac_digits f hfrac)
    (by simpa [hfrac] using n.nonempty) hrest hexp
  unfold strtod
  rw [hsign]
  simp only [hinf, hnan, startsWith_hex_point n.whole_digits, hreal]
  unfold Numeral.value
  simp [hfrac]

/-! ## How a number is written -/

/-- The last `w` digits of a number. -/
def digitsOf : (w n : ℕ) → List Char
  | 0, _ => []
  | w + 1, n => digitsOf w (n / 10) ++ [Nat.digitChar (n % 10)]

theorem digit_digitChar : ∀ d < 10, (Nat.digitChar d).isDigit = true ∧ digit (Nat.digitChar d) = d := by
  decide

theorem length_digitsOf (w n : ℕ) : (digitsOf w n).length = w := by
  induction w generalizing n with
  | zero => rfl
  | succ w ih => simp [digitsOf, ih]

theorem digitsOf_isDigit (w n : ℕ) : ∀ c ∈ digitsOf w n, c.isDigit = true := by
  induction w generalizing n with
  | zero => simp [digitsOf]
  | succ w ih =>
    intro c hc
    rcases List.mem_append.mp hc with hc | hc
    · exact ih _ c hc
    · rw [List.mem_singleton.mp hc]
      exact (digit_digitChar _ (Nat.mod_lt n (by decide))).1

theorem decimal_concat (ds : List Char) (c : Char) : decimal (ds ++ [c]) = decimal ds * 10 + digit c := by
  simp [decimal, ofDigits]

/-- Written with room enough a number is read back. -/
theorem decimal_digitsOf {w n : ℕ} (h : n < 10 ^ w) : decimal (digitsOf w n) = n := by
  induction w generalizing n with
  | zero =>
    obtain rfl : n = 0 := by simpa using h
    rfl
  | succ w ih =>
    have hdiv : n / 10 < 10 ^ w := by
      rw [pow_succ] at h
      omega
    rw [digitsOf, decimal_concat, ih hdiv, (digit_digitChar _ (Nat.mod_lt n (by decide))).2]
    omega

theorem decimal_toDigits (n : ℕ) : decimal (Nat.toDigits 10 n) = n := by
  have hfold (ds : List Char) : decimal ds = Nat.ofDigitChars 10 ds 0 := by
    simp only [decimal, ofDigits, List.foldl_map, Nat.ofDigitChars_eq_foldl, digit, Nat.mul_comm]
  rw [hfold, Nat.ofDigitChars_ten_toDigits]

theorem noFrac_digits : ∀ f ∈ (none : Option (List Char)), ∀ c ∈ f, c.isDigit = true := by simp

/-- The numeral that `%ld` prints. -/
def intNumeral (n : ℤ) : Numeral where
  sign := if n < 0 then .minus else .none
  whole := Nat.toDigits 10 n.natAbs
  frac := none
  whole_digits _ hc := Nat.isDigit_of_mem_toDigits (by decide) (by decide) hc
  frac_digits := noFrac_digits
  nonempty := by simp

theorem toString_toList (n : ℤ) : (toString n).toList = (intNumeral n).text := by
  cases n with
  | ofNat n =>
    have hpos : ¬ (n : ℤ) < 0 := not_lt.mpr n.cast_nonneg
    simp [toString, Int.repr, intNumeral, Numeral.text, Sign.text, if_neg hpos]
  | negSucc n =>
    have hneg : Int.negSucc n < 0 := Int.negSucc_lt_zero n
    simp [toString, Int.repr, intNumeral, Numeral.text, Sign.text, hneg]

theorem signed_natAbs (n : ℤ) : signed (intNumeral n).sign n.natAbs = n := by
  unfold intNumeral signed
  by_cases hneg : n < 0
  · simp [hneg, Sign.neg, abs_of_neg hneg]
  · simp [hneg, Sign.neg, abs_of_nonneg (not_lt.mp hneg)]

/-- What `%ld` prints is read back by `strtol`. -/
theorem strtol_toString (k : Int32) {rest : List Char} (hrest : (first rest).isDigit = false) :
    strtol ((toString k.toInt).toList ++ rest) = k := by
  have hwhole : decimal (intNumeral k.toInt).whole = k.toInt.natAbs := decimal_toDigits _
  have hfits : FitsInt32 k.toInt := ⟨k.le_toInt, Int.le_of_lt_add_one k.toInt_lt⟩
  rw [toString_toList, strtol_numeral rfl hrest, hwhole, signed_natAbs, ← Int32.toInt_inj,
    toInt_saturate_of_fits hfits]

end GcodeFatfs.Decimal
