import GcodeFatfs.Conversion
import GcodeFatfs.Library.Decimal
import Mathlib.Data.List.Pairwise

/-! What `_process_line` makes of the words of a line: how far it depends on the
spaces between them, on their order, and on how a number is spelled. -/

namespace GcodeFatfs.Words
open GcodeFatfs.CArith GcodeFatfs.CString GcodeFatfs.Decimal GcodeFatfs.GcodeParser
open GcodeFatfs.Conversion

/-! ## Lines as text -/

/-- A line of text, with its newline apart. -/
structure TextLine where
  body : List Char
  newline : Bool
  body_newline : '\n' ∉ body
  body_nul : nul ∉ body

def TextLine.text (l : TextLine) : List Char := l.body ++ if l.newline then ['\n'] else []

/-- The words of a line, split at blanks and the line end. -/
def TextLine.words (l : TextLine) : List (List Char) := tokens whitespace l.body

/-- A newline that is no part of the last word. `_process_line` does not split
at it and finds a word of its own there. -/
def TextLine.Parted (l : TextLine) : Prop :=
  l.newline = true ∧ ∀ c ∈ l.body.getLast?, isDelim whitespace c = true

instance (l : TextLine) : Decidable l.Parted := inferInstanceAs (Decidable (_ ∧ _))

/-- The line starts with a blank. -/
def TextLine.Indented (l : TextLine) : Prop := isDelim whitespace (first l.body) = true

instance (l : TextLine) : Decidable l.Indented := inferInstanceAs (Decidable (_ = _))

theorem TextLine.cstr_text (l : TextLine) : cstr l.text = l.text := by
  have hnul : ∀ c ∈ l.text, decide (c ≠ nul) = true := by
    intro c hc
    rcases List.mem_append.mp hc with hc | hc
    · simpa using fun he : c = nul => l.body_nul (he ▸ hc)
    · split at hc
      · rw [List.mem_singleton.mp hc]
        decide
      · cases hc
  exact List.takeWhile_eq_self_iff.mpr hnul

theorem isDelim_newline : ∀ c ∈ ['\n'], isDelim whitespace c = false := by
  intro c hc
  rw [List.mem_singleton.mp hc]
  decide

/-- The words `strtok_r` finds: the line's own, its newline at the end of the
last one or as one more. -/
theorem TextLine.tokens_text (l : TextLine) :
    (¬ l.Parted ∧ (tokens whitespace l.text = l.words ∨
      ∃ ts w, w ≠ [] ∧ l.words = ts ++ [w] ∧ tokens whitespace l.text = ts ++ [w ++ ['\n']])) ∨
    (l.Parted ∧ tokens whitespace l.text = l.words ++ [['\n']]) := by
  unfold TextLine.text TextLine.words TextLine.Parted
  cases l.newline with
  | false => exact .inl ⟨by simp, .inl (by simp)⟩
  | true =>
    obtain ⟨ts, w, hw, hts, hparted, hv⟩ := tokens_append_word whitespace l.body
    have htext := hv ['\n'] (by simp) isDelim_newline
    by_cases hne : w = []
    · subst hne
      refine .inr ⟨⟨rfl, hparted.mp rfl⟩, ?_⟩
      rw [if_pos rfl, htext, hts]
      simp [tokens]
    · refine .inl ⟨fun h => hne (hparted.mpr h.2), .inr ⟨ts, w, hne, ?_, ?_⟩⟩
      · rw [hts, tokens_singleton hne hw]
      · rw [if_pos rfl, htext]

theorem argCmd_newline (T : Target) {w : List Char} (hw : w ≠ []) :
    argCmd T (w ++ ['\n']) = argCmd T w := by
  cases w with
  | nil => exact absurd rfl hw
  | cons c w =>
    show argCmd T (c :: (w ++ ['\n'])) = argCmd T (c :: w)
    have hpoint : '.' ∈ w ++ ['\n'] ↔ '.' ∈ w := by simp
    unfold argCmd
    simp only [List.tail_cons, hpoint, strtod_newline, strtol_newline]
    rfl

theorem argCmd_cmdLtr (T : Target) (w : List Char) : (argCmd T w).cmdLtr = first w := by
  unfold argCmd
  split <;> rfl

/-- What is stored for the words behind the first one. -/
def TextLine.argWords (T : Target) (l : TextLine) : List CmdData := l.words.tail.map (argCmd T)

theorem TextLine.length_tokens (l : TextLine) :
    (tokens whitespace l.text).length = l.words.length + if l.Parted then 1 else 0 := by
  rcases l.tokens_text with ⟨hp, htok | ⟨ts, w, -, hwords, htok⟩⟩ | ⟨hp, htok⟩
  · rw [htok, if_neg hp, Nat.add_zero]
  · rw [htok, hwords, if_neg hp]
    simp
  · rw [htok, if_pos hp]
    simp

theorem TextLine.strtol_first (l : TextLine) (hne : l.words ≠ []) :
    strtol ((tokens whitespace l.text).headD []).tail = strtol (l.words.headD []).tail := by
  rcases l.tokens_text with ⟨-, htok | ⟨ts, w, hw, hwords, htok⟩⟩ | ⟨-, htok⟩
  · rw [htok]
  · rw [htok, hwords]
    cases ts with
    | nil =>
      obtain ⟨c, w, rfl⟩ := List.exists_cons_of_ne_nil hw
      exact strtol_newline w
    | cons t ts => rfl
  · rw [htok]
    obtain ⟨t, ts, hwords⟩ := List.exists_cons_of_ne_nil hne
    rw [hwords]
    rfl

/-- The newline adds at most one word, which no turn of the loop acts on. -/
theorem TextLine.args_text (T : Target) (l : TextLine) (hne : l.words ≠ []) :
    args T l.text = l.argWords T ++ if l.Parted then [argCmd T ['\n']] else [] := by
  obtain ⟨t₀, ts₀, hcons⟩ := List.exists_cons_of_ne_nil hne
  unfold args TextLine.argWords
  rw [l.cstr_text]
  rcases l.tokens_text with ⟨hp, htok | ⟨ts, w, hw, hwords, htok⟩⟩ | ⟨hp, htok⟩
  · rw [htok, if_neg hp, List.append_nil]
  · rw [htok, hwords, if_neg hp, List.append_nil]
    cases ts with
    | nil => rfl
    | cons t ts => simp [argCmd_newline T hw]
  · rw [htok, if_pos hp, hcons]
    simp

/-! ## A line that moves, by its words -/

theorem first_append_newline (s : List Char) {c : Char} (hc : c ≠ nul ∧ c ≠ '\n') (b : Bool) :
    first (s ++ if b then ['\n'] else []) = c ↔ first s = c := by
  cases s with
  | nil => cases b <;> simp [first, Ne.symm hc.1, Ne.symm hc.2]
  | cons x s => rfl

theorem TextLine.words_ne_nil (l : TextLine) (h : first l.body = 'G') : l.words ≠ [] := by
  obtain ⟨token, ts, ht, -⟩ := tokens_of_letter (.inl rfl) h
  unfold TextLine.words
  rw [ht]
  simp

theorem TextLine.accepted_iff (l : TextLine) :
    Accepted l.text ↔ first l.body = 'G' ∧
      (strtol (l.words.headD []).tail = 0 ∨ strtol (l.words.headD []).tail = 1) ∧
      l.words.length + (if l.Parted then 1 else 0) < maxArgs := by
  have hfirst : first l.text = 'G' ↔ first l.body = 'G' :=
    first_append_newline l.body (by decide) l.newline
  unfold Accepted
  rw [l.cstr_text, hfirst, l.length_tokens]
  constructor
  · rintro ⟨hG, hcode, hlen⟩
    rw [l.strtol_first (l.words_ne_nil hG)] at hcode
    exact ⟨hG, hcode, hlen⟩
  · rintro ⟨hG, hcode, hlen⟩
    rw [← l.strtol_first (l.words_ne_nil hG)] at hcode
    exact ⟨hG, hcode, hlen⟩

/-- The loop of `_get_xyzef` over the line's own words. -/
theorem TextLine.lineMove_text (T : Target) {l : TextLine} (h : Accepted l.text) :
    lineMove T l.text = (l.argWords T).foldl (turn T ((l.argWords T).headD {})) unset := by
  have hne := l.words_ne_nil (l.accepted_iff.mp h).1
  have hskip (c₁ : CmdData) (param : Param) : turn T c₁ param (argCmd T ['\n']) = param := rfl
  rw [lineMove_eq_foldl T h, l.args_text T hne]
  split
  · cases l.argWords T with
    | nil => rfl
    | cons w ws =>
      rw [List.foldl_append]
      exact hskip w ((w :: ws).foldl (turn T w) unset)
  · rw [List.append_nil]

/-- Two lines do the same: `param` and the registers come out alike. -/
def DoSame (T : Target) (regs : Regs) (line line' : List Char) : Prop :=
  (processLine T regs line).param = (processLine T regs line').param ∧
    (processLine T regs line).regs = (processLine T regs line').regs

/-- Two lines that are accepted alike and fill in the same move do the same. -/
theorem processLine_congr (T : Target) (regs : Regs) {line line' : List Char}
    (hacc : Accepted line ↔ Accepted line')
    (hmove : Accepted line → Accepted line' → lineMove T line = lineMove T line') :
    DoSame T regs line line' := by
  unfold DoSame
  by_cases h : Accepted line
  · have h' := hacc.mp h
    rw [processLine_accepted T regs h, processLine_accepted T regs h', hmove h h']
    exact ⟨rfl, rfl⟩
  · have h' : ¬ Accepted line' := fun h' => h (hacc.mpr h')
    obtain ⟨hregs, hparam⟩ := processLine_rejected T regs h
    obtain ⟨hregs', hparam'⟩ := processLine_rejected T regs h'
    exact ⟨hparam.trans hparam'.symm, hregs.trans hregs'.symm⟩

/-! ## Spacing -/

/-- A line that does not start with a blank starts with its first word. -/
theorem TextLine.first_of_not_indented {l : TextLine} (h : ¬ l.Indented) :
    first l.body = first (l.words.headD []) := by
  have hd : isDelim whitespace (first l.body) = false := by simpa [TextLine.Indented] using h
  by_cases hnil : l.body = []
  · unfold TextLine.words
    rw [hnil]
    rfl
  · have hnul : first l.body ≠ nul := by
      obtain ⟨c, s, hs⟩ := List.exists_cons_of_ne_nil hnil
      rw [hs]
      intro he
      exact l.body_nul (by rw [hs, ← he]; exact List.mem_cons_self)
    obtain ⟨token, ts, ht, hfirst⟩ := tokens_of_first hnul hd
    unfold TextLine.words
    rw [ht]
    exact hfirst.symm

theorem TextLine.not_indented {l : TextLine} (h : Accepted l.text) : ¬ l.Indented := by
  intro hi
  rw [TextLine.Indented, (l.accepted_iff.mp h).1] at hi
  exact absurd hi (by decide)

/-- Whether a line is accepted depends on its first word and on how many there
are; a newline apart from the last word counts only where it makes ten of nine. -/
theorem TextLine.accepted_congr {l l' : TextLine} (hi : ¬ l.Indented) (hi' : ¬ l'.Indented)
    (hhead : l.words.head? = l'.words.head?) (hlen : l.words.length = l'.words.length)
    (hnine : l.words.length = maxArgs - 1 → (l.Parted ↔ l'.Parted)) :
    Accepted l.text ↔ Accepted l'.text := by
  have hheadD : l.words.headD [] = l'.words.headD [] := by
    rw [List.headD_eq_head?_getD, List.headD_eq_head?_getD, hhead]
  have hfirst : first l.body = first l'.body := by
    rw [TextLine.first_of_not_indented hi, TextLine.first_of_not_indented hi', hheadD]
  have hcount : l.words.length + (if l.Parted then 1 else 0) < maxArgs ↔
      l.words.length + (if l'.Parted then 1 else 0) < maxArgs := by
    by_cases hnine' : l.words.length = maxArgs - 1
    · simp only [hnine hnine']
    · unfold maxArgs at hnine' ⊢
      split <;> split <;> omega
  rw [l.accepted_iff, l'.accepted_iff, hfirst, hheadD, ← hlen, hcount]

/-- **Spacing.** Two lines with the same words, neither of which starts with a
blank, do the same, unless a newline apart from the last of nine words makes ten
of them in one line only. A line that starts with a blank does nothing. -/
theorem spacing (T : Target) (regs : Regs) (l l' : TextLine) (hwords : l.words = l'.words) :
    (¬ l.Indented → ¬ l'.Indented →
      (l.words.length = maxArgs - 1 → (l.Parted ↔ l'.Parted)) → DoSame T regs l.text l'.text) ∧
    (l.Indented →
      (processLine T regs l.text).regs = regs ∧ (processLine T regs l.text).param = {}) := by
  constructor
  · intro hi hi' hnine
    have hacc := TextLine.accepted_congr hi hi' (congrArg _ hwords) (congrArg _ hwords) hnine
    apply processLine_congr T regs hacc
    intro h h'
    rw [TextLine.lineMove_text T h, TextLine.lineMove_text T h']
    unfold TextLine.argWords
    rw [hwords]
  · intro hi
    exact processLine_rejected T regs fun h => TextLine.not_indented h hi

def plainMove : TextLine := ⟨"G1 X5".toList, false, by decide, by decide⟩
def spacedMove : TextLine := ⟨"G1\t X5 ".toList, true, by decide, by decide⟩
def indentedMove : TextLine := ⟨" G1 X5".toList, false, by decide, by decide⟩
def nineWords : TextLine := ⟨"G1 X1 Y2 Z3 E4 F5 A6 B7 C8".toList, true, by decide, by decide⟩
def nineWordsApart : TextLine := ⟨"G1 X1 Y2 Z3 E4 F5 A6 B7 C8 ".toList, true, by decide, by decide⟩

theorem spacing_plainMove : DoSame .exact boot plainMove.text spacedMove.text :=
  (spacing .exact boot plainMove spacedMove (by decide)).1 (by decide)
    (by decide) (by decide)

/-- The same words, and only the line that is not indented moves; and of nine
words those with the newline close by. -/
theorem indentedMove_ignored :
    (indentedMove.words = plainMove.words ∧
      (processLine .exact boot plainMove.text).regs.x = 5000 ∧
      (processLine .exact boot indentedMove.text).regs.x = 0) ∧
    (nineWordsApart.words = nineWords.words ∧
      (processLine .exact boot nineWords.text).regs.x = 1000 ∧
      (processLine .exact boot nineWordsApart.text).regs.x = 0) := by
  refine ⟨⟨?_, ?_, ?_⟩, ?_, ?_, ?_⟩ <;> decide +kernel

/-! ## Order -/

theorem assign_other (param : Param) {l : Char} (haxis : ∀ a : Axis, l ≠ a.letter)
    (htemp : l ≠ 'S') (k : Int32) : assign param l k = param := by
  unfold assign
  split
  · exact absurd rfl (haxis .x)
  · exact absurd rfl (haxis .y)
  · exact absurd rfl (haxis .z)
  · exact absurd rfl (haxis .e)
  · exact absurd rfl (haxis .f)
  · exact absurd rfl htemp
  · rfl

/-- Values for different letters go to different places. -/
theorem assign_comm (param : Param) {l l' : Char} (h : l ≠ l') (k k' : Int32) :
    assign (assign param l k) l' k' = assign (assign param l' k') l k := by
  rcases letter_cases l with ⟨a, rfl⟩ | rfl | ⟨haxis, htemp⟩
  · rcases letter_cases l' with ⟨a', rfl⟩ | rfl | ⟨haxis', htemp'⟩
    · cases a <;> cases a' <;> first | rfl | exact absurd rfl h
    · cases a <;> rfl
    · rw [assign_other _ haxis' htemp', assign_other _ haxis' htemp']
  · rcases letter_cases l' with ⟨a', rfl⟩ | rfl | ⟨haxis', htemp'⟩
    · cases a' <;> rfl
    · exact absurd rfl h
    · rw [assign_other _ haxis' htemp', assign_other _ haxis' htemp']
  · rw [assign_other _ haxis htemp, assign_other _ haxis htemp]

theorem turn_comm (T : Target) (c₁ : CmdData) (param : Param) {w w' : CmdData}
    (h : w.cmdLtr ≠ w'.cmdLtr) :
    turn T c₁ (turn T c₁ param w) w' = turn T c₁ (turn T c₁ param w') w := by
  unfold turn
  cases conversion c₁ w with
  | none => cases conversion c₁ w' <;> rfl
  | some k =>
    cases conversion c₁ w' with
    | none => rfl
    | some k' => exact assign_comm param h _ _

/-- Words with different letters may come in any order, if entry 1 stays. -/
theorem foldl_turn_perm (T : Target) (c₁ : CmdData) {ws ws' : List CmdData} (hperm : ws.Perm ws')
    (hdistinct : ws.Pairwise fun w w' => w.cmdLtr ≠ w'.cmdLtr) (param : Param) :
    ws.foldl (turn T c₁) param = ws'.foldl (turn T c₁) param := by
  have hsymm : Std.Symm fun w w' : CmdData => w.cmdLtr ≠ w'.cmdLtr := ⟨fun _ _ h => Ne.symm h⟩
  apply hperm.foldl_eq'
  intro w hw w' hw' p
  by_cases heq : w = w'
  · rw [heq]
  · exact turn_comm T c₁ p (hdistinct.forall hw hw' heq)

/-- The only 'S' of a line says what the temperature is. -/
theorem foldl_turn_temp (T : Target) (c₁ : CmdData) {ws : List CmdData} {s : CmdData} (hs : s ∈ ws)
    (htemp : s.cmdLtr = 'S') (hdistinct : ws.Pairwise fun w w' => w.cmdLtr ≠ w'.cmdLtr)
    (param : Param) :
    (ws.foldl (turn T c₁) param).targetTemp = (Fxpt.read s.isFloat c₁ 1).eval T := by
  have hlast : ws.Perm (ws.erase s ++ [s]) :=
    (List.perm_cons_erase hs).trans (List.perm_append_singleton s _).symm
  rw [foldl_turn_perm T c₁ hlast hdistinct, List.foldl_append, List.foldl_cons, List.foldl_nil]
  unfold turn
  rw [conversion_temp htemp, htemp]
  rfl

/-- Two integers for one temperature. -/
def SameLong (k k' : Int32) : Prop := k = k' ∨ (k = 0 ∧ k' = -1) ∨ (k = -1 ∧ k' = 0)

/-- Two numbers for one temperature: no step of the conversion lies between them.
It steps half below each integer but zero. -/
def SameStep (v v' : ℚ) : Prop :=
  (∀ n : ℤ, 0 < n → (n - 1 / 2 ≤ v ↔ n - 1 / 2 ≤ v')) ∧
    ∀ n : ℤ, n < 0 → (v ≤ n - 1 / 2 ↔ v' ≤ n - 1 / 2)

/-- An 'S' reads the same temperature out of either word, as the target converts
the field it reads. -/
def SameTemp (T : Target) (s c c' : CmdData) : Prop :=
  if s.isFloat then fxptDouble T c.dval 1 = fxptDouble T c'.dval 1 else SameLong c.ival c'.ival

/-- The same by the numbers in the words. -/
def SameNumber (s c c' : CmdData) : Prop :=
  if s.isFloat then ∃ v v', c.dval = .fin v ∧ c'.dval = .fin v' ∧ SameStep v v'
  else SameLong c.ival c'.ival

theorem toInt_fxptLong_one (T : Target) (k : Int32) :
    (fxptLong T k 1).toInt = if 0 ≤ k.toInt then k.toInt else k.toInt + 1 := by
  have hone : k.toInt * (Int32.ofNat 1).toInt = k.toInt := Int.mul_one _
  have hfit : FitsInt32 k.toInt := by
    have hlo := k.le_toInt
    have hhi := k.toInt_lt
    unfold FitsInt32 int32Min int32Max
    omega
  have hprod : (T.mulLong k (Int32.ofNat 1)).toInt = k.toInt := by
    rw [T.mulLong_of_fits (by rwa [hone]), hone]
  unfold fxptLong
  rw [hprod, T.add_half_int hfit, T.toInt32_of_fits, trunc_add_half]
  rw [trunc_add_half]
  unfold FitsInt32 int32Min int32Max at hfit ⊢
  split <;> omega

theorem sameTemp_iff (T : Target) (s c c' : CmdData) :
    (Fxpt.read s.isFloat c 1).eval T = (Fxpt.read s.isFloat c' 1).eval T ↔ SameTemp T s c c' := by
  unfold SameTemp SameLong
  rw [Fxpt.eval_read, Fxpt.eval_read]
  split
  · rfl
  · have h0 : (0 : Int32).toInt = 0 := rfl
    have h1 : (-1 : Int32).toInt = -1 := by decide
    simp only [← Int32.toInt_inj, toInt_fxptLong_one, h0, h1]
    split <;> split <;> omega

theorem toInt_fxptDouble_one {T : Target} (hT : T.Exact) {v : ℚ}
    (hfit : FitsInt32 (trunc (v + 1 / 2))) :
    (fxptDouble T (.fin v) 1).toInt = trunc (v + 1 / 2) := by
  have hsum : v * (1 : ℕ) + 1 / 2 = v + 1 / 2 := by push_cast; ring
  rw [fxptDouble, Target.add_mul_exact hT, hsum, T.toInt32_of_fits hfit]

theorem sameStep_iff (v v' : ℚ) : SameStep v v' ↔ trunc (v + 1 / 2) = trunc (v' + 1 / 2) := by
  rw [trunc_eq_trunc_iff]
  simp only [SameStep, sub_le_iff_le_add, le_sub_iff_add_le]

/-- Exact arithmetic in the range of the cast converts by the number alone. -/
theorem sameTemp_iff_sameNumber {T : Target} (hT : T.Exact) {s c c' : CmdData}
    (hfits : s.isFloat = true → ValueFits 1 c.dval ∧ ValueFits 1 c'.dval) :
    SameTemp T s c c' ↔ SameNumber s c c' := by
  unfold SameTemp SameNumber
  split
  · obtain ⟨⟨v, hv, hlo, hhi⟩, v', hv', hlo', hhi'⟩ := hfits ‹_›
    rw [Nat.cast_one, mul_one] at hlo hhi hlo' hhi'
    have hfit : FitsInt32 (trunc (v + 1 / 2)) :=
      (fitsInt32_trunc_iff _).mpr ⟨by linarith, by linarith⟩
    have hfit' : FitsInt32 (trunc (v' + 1 / 2)) :=
      (fitsInt32_trunc_iff _).mpr ⟨by linarith, by linarith⟩
    simp only [hv, hv', Double.fin.injEq, exists_and_left, exists_eq_left']
    rw [sameStep_iff, ← Int32.toInt_inj, toInt_fxptDouble_one hT hfit,
      toInt_fxptDouble_one hT hfit']
  · rfl

theorem conversion_not_temp (c₁ c₁' : CmdData) {w : CmdData} (h : w.cmdLtr ≠ 'S') :
    conversion c₁ w = conversion c₁' w := by
  rcases letter_cases w.cmdLtr with ⟨a, ha⟩ | htemp | ⟨haxis, htemp⟩
  · rw [conversion_axis ha, conversion_axis ha]
  · exact absurd htemp h
  · rw [conversion_other haxis htemp, conversion_other haxis htemp]

/-- The loop depends on entry 1 through the temperature only. -/
theorem foldl_turn_entry (T : Target) {c₁ c₁' : CmdData} {ws : List CmdData}
    (h : ∀ s ∈ ws, s.cmdLtr = 'S' → SameTemp T s c₁ c₁') (param : Param) :
    ws.foldl (turn T c₁) param = ws.foldl (turn T c₁') param := by
  apply List.foldl_ext
  intro p w hw
  by_cases htemp : w.cmdLtr = 'S'
  · have heval := (sameTemp_iff T w c₁ c₁').mpr (h w hw htemp)
    unfold turn
    rw [conversion_temp htemp, conversion_temp htemp]
    simp only [heval]
  · unfold turn
    rw [conversion_not_temp c₁ c₁' htemp]

/-- A line with the words behind the first one in another order. -/
structure Reordered (l l' : TextLine) : Prop where
  head : l.words.head? = l'.words.head?
  perm : l.words.tail.Perm l'.words.tail
  notIndented : ¬ l'.Indented
  parted : l.words.length = maxArgs - 1 → (l.Parted ↔ l'.Parted)

theorem Reordered.accepted {l l' : TextLine} (h : Reordered l l') (hacc : Accepted l.text) :
    Accepted l'.text := by
  have hlen : l.words.length = l'.words.length := by
    have htail := h.perm.length_eq
    have hhead := h.head
    cases hl : l.words with
    | nil => exact absurd hl (l.words_ne_nil (l.accepted_iff.mp hacc).1)
    | cons w ws =>
      cases hl' : l'.words with
      | nil =>
        rw [hl, hl'] at hhead
        cases hhead
      | cons w' ws' =>
        rw [hl, hl'] at htail
        exact congrArg (· + 1) htail
  exact (TextLine.accepted_congr (TextLine.not_indented hacc) h.notIndented h.head hlen
    h.parted).mp hacc

theorem doSame_iff_sameTemp (T : Target) (regs : Regs) {l l' : TextLine} (h : Accepted l.text)
    (h' : Accepted l'.text) (hperm : l.words.tail.Perm l'.words.tail)
    (hdistinct : l.words.tail.Pairwise fun w w' => first w ≠ first w') :
    DoSame T regs l.text l'.text ↔
      ∀ s ∈ l.argWords T, s.cmdLtr = 'S' →
        SameTemp T s ((l.argWords T).headD {}) ((l'.argWords T).headD {}) := by
  have hletters : (l.argWords T).Pairwise fun w w' => w.cmdLtr ≠ w'.cmdLtr := by
    unfold TextLine.argWords
    rw [List.pairwise_map]
    simpa only [argCmd_cmdLtr] using hdistinct
  have hwords : (l.argWords T).Perm (l'.argWords T) := hperm.map _
  have hmove : lineMove T l'.text =
      (l.argWords T).foldl (turn T ((l'.argWords T).headD {})) unset := by
    rw [TextLine.lineMove_text T h', foldl_turn_perm T _ hwords hletters]
  constructor
  · rintro ⟨hparam, -⟩ s hs htemp
    have htarget (line : List Char) (hacc : Accepted line) :
        (processLine T regs line).param.targetTemp = (lineMove T line).targetTemp := by
      rw [processLine_accepted T regs hacc]
      rfl
    have heq := congrArg Param.targetTemp hparam
    rw [htarget _ h, htarget _ h', TextLine.lineMove_text T h, hmove,
      foldl_turn_temp T _ hs htemp hletters, foldl_turn_temp T _ hs htemp hletters] at heq
    exact (sameTemp_iff T s _ _).mp heq
  · intro hsame
    apply processLine_congr T regs (iff_of_true h h')
    intro _ _
    rw [TextLine.lineMove_text T h, hmove]
    exact foldl_turn_entry T hsame unset

/-- **Order.** An accepted line whose words behind the first start with different
letters does the same with these words in another order exactly when an 'S' among
them finds the same temperature in the word next to the first. With exact
arithmetic in the range of the cast that is so by the numbers in these words. -/
theorem word_order_iff (T : Target) (regs : Regs) (l l' : TextLine) (h : Accepted l.text)
    (hdistinct : l.words.tail.Pairwise fun w w' => first w ≠ first w') (horder : Reordered l l') :
    (DoSame T regs l.text l'.text ↔
      ∀ s ∈ l.argWords T, s.cmdLtr = 'S' →
        SameTemp T s ((l.argWords T).headD {}) ((l'.argWords T).headD {})) ∧
    (T.Exact → (∀ s ∈ l.argWords T, s.cmdLtr = 'S' → s.isFloat = true →
        ValueFits 1 ((l.argWords T).headD {}).dval ∧
          ValueFits 1 ((l'.argWords T).headD {}).dval) →
      (DoSame T regs l.text l'.text ↔
        ∀ s ∈ l.argWords T, s.cmdLtr = 'S' →
          SameNumber s ((l.argWords T).headD {}) ((l'.argWords T).headD {}))) := by
  have hsame := doSame_iff_sameTemp T regs h (horder.accepted h) horder.perm hdistinct
  refine ⟨hsame, fun hT hfits => hsame.trans ?_⟩
  constructor
  · intro htemp s hs hS
    exact (sameTemp_iff_sameNumber hT (hfits s hs hS)).mp (htemp s hs hS)
  · intro hnumber s hs hS
    exact (sameTemp_iff_sameNumber hT (hfits s hs hS)).mpr (hnumber s hs hS)

def heatFirst : TextLine := ⟨"G1 S200 X1".toList, true, by decide, by decide⟩
def heatLast : TextLine := ⟨"G1 X1 S200".toList, true, by decide, by decide⟩

theorem heatFirst_accepted :
    Accepted heatFirst.text ∧ heatFirst.words.tail.Pairwise fun w w' => first w ≠ first w' := by
  decide

theorem heatFirst_reordered : Reordered heatFirst heatLast :=
  ⟨by decide, by decide, by decide, by decide⟩

theorem word_order_iff_heatFirst :
    DoSame .exact boot heatFirst.text heatLast.text ↔
      ∀ s ∈ heatFirst.argWords .exact, s.cmdLtr = 'S' →
        SameNumber s ((heatFirst.argWords .exact).headD {}) ((heatLast.argWords .exact).headD {}) := by
  have hlong : ∀ s ∈ heatFirst.argWords .exact, s.isFloat = false := by decide
  refine (word_order_iff .exact boot heatFirst heatLast heatFirst_accepted.1 heatFirst_accepted.2
    heatFirst_reordered).2 Target.exact_exact ?_
  intro s hs _ hfloat
  rw [hlong s hs] at hfloat
  cases hfloat

/-- With its 'S' in front a line asks for 200 degrees, behind an X1 for 1. -/
theorem heatLast_differs :
    (Accepted heatFirst.text ∧
        heatFirst.words.tail.Pairwise fun w w' => first w ≠ first w') ∧
      Reordered heatFirst heatLast ∧
      (processLine .exact boot heatFirst.text).param.targetTemp = 200 ∧
      (processLine .exact boot heatLast.text).param.targetTemp = 1 := by
  refine ⟨heatFirst_accepted, heatFirst_reordered, ?_, ?_⟩ <;> decide +kernel

/-! ## Spelling -/

theorem argCmd_int (T : Target) (c : Char) {s : List Char} (h : '.' ∉ s) :
    argCmd T (c :: s) = { cmdLtr := c, ival := strtol s } :=
  if_neg h

theorem argCmd_float (T : Target) (c : Char) {s : List Char} (h : '.' ∈ s) :
    argCmd T (c :: s) = { cmdLtr := c, isFloat := true, dval := strtod T.fl s } :=
  if_pos h

/-- Exact arithmetic stores the value of a numeral, in whichever field. -/
theorem value_numeral {T : Target} (hT : T.Exact) (c : Char) {n : Numeral}
    (hfit : FitsUnits n.value) : value (argCmd T (c :: n.text)) = some n.value := by
  have hpoint := n.mem_point
  cases hfrac : n.frac with
  | none =>
    have hval := value_of_frac_none hfrac
    have hread : strtol (n.text ++ []) = _ := strtol_numeral hfrac rfl
    rw [List.append_nil] at hread
    have hlong : FitsInt32 (signed n.sign (decimal n.whole)) := by
      obtain ⟨hlo, hhi⟩ := hfit
      rw [hval] at hlo hhi
      unfold int32Min gcodeUom at hlo
      unfold int32Max gcodeUom at hhi
      have hlo' : (-2 ^ 31 : ℤ) ≤ signed n.sign (decimal n.whole) * 1000 := by exact_mod_cast hlo
      have hhi' : signed n.sign (decimal n.whole) * 1000 ≤ (2 ^ 31 - 1 : ℤ) := by
        exact_mod_cast hhi
      unfold FitsInt32 int32Min int32Max
      omega
    rw [hfrac] at hpoint
    rw [argCmd_int T c (by simp [hpoint]), hval, hread]
    unfold value
    rw [if_neg (by simp), toInt_saturate_of_fits hlong]
  | some f =>
    have hread : strtod T.fl (n.text ++ []) = _ := strtod_numeral T.fl hfrac rfl (by decide)
    rw [List.append_nil] at hread
    rw [hfrac] at hpoint
    rw [argCmd_float T c (by simp [hpoint]), hread, hT]
    rfl

/-- The last value of an axis depends on the letter and the value of each word. -/
theorem lastWord_replace (T : Target) (a : Axis) (ws ws' : List CmdData) {w w' : CmdData}
    (hletter : w.cmdLtr = w'.cmdLtr) (hunits : gcodeUnits T w = gcodeUnits T w') :
    (lastWord a (ws ++ w :: ws')).map (gcodeUnits T) =
      (lastWord a (ws ++ w' :: ws')).map (gcodeUnits T) := by
  have hlast (v : CmdData) : lastWord a (ws ++ v :: ws') =
      (lastWord a (v :: ws')).or (lastWord a ws) := by
    unfold lastWord
    rw [List.filter_append, List.getLast?_append]
  rw [hlast, hlast, lastWord_cons, lastWord_cons, hletter]
  split
  · cases lastWord a ws' with
    | none => exact congrArg some hunits
    | some v => rfl
  · rfl

theorem TextLine.lastWord_text (T : Target) (l : TextLine) (hne : l.words ≠ []) (a : Axis) :
    lastWord a (args T l.text) = lastWord a (l.argWords T) := by
  have hskip : (argCmd T ['\n']).cmdLtr ≠ a.letter := by
    show '\n' ≠ a.letter
    cases a <;> decide
  rw [l.args_text T hne]
  split
  · unfold lastWord
    rw [List.filter_append, List.filter_cons_of_neg (by simpa using hskip), List.filter_nil,
      List.append_nil]
  · rw [List.append_nil]

theorem not_isDelim_numeral (a : Axis) (n : Numeral) :
    ∀ c ∈ a.letter :: n.text, isDelim whitespace c = false := by
  intro c hc
  rcases List.mem_cons.mp hc with rfl | hc
  · cases a <;> rfl
  · cases hd : isDelim whitespace c with
    | false => rfl
    | true =>
      have hblank : c = ' ' ∨ c = '\t' := by simpa [isDelim, whitespace] using hd
      have hnum := Numeral.mem_text hc
      rcases hblank with rfl | rfl <;> exact absurd hnum (by decide)

/-- A word with a numeral between blanks is one of the words. -/
theorem tokens_numeral (pre post : List Char) {d : Char} (hd : isDelim whitespace d = true)
    (hpost : post = [] ∨ isDelim whitespace (first post) = true) (a : Axis) (n : Numeral) :
    tokens whitespace (pre ++ d :: a.letter :: (n.text ++ post)) =
      tokens whitespace pre ++ (a.letter :: n.text) :: tokens whitespace post := by
  have hword := tokens_singleton (List.cons_ne_nil _ _) (not_isDelim_numeral a n)
  rw [tokens_append whitespace _ _ hd]
  congr 1
  cases post with
  | nil =>
    rw [List.append_nil, hword]
    rfl
  | cons c rest =>
    have hc : isDelim whitespace c = true := by simpa [first] using hpost
    rw [tokens_cons_delim whitespace hc]
    show tokens whitespace (a.letter :: n.text ++ c :: rest) = _
    rw [tokens_append whitespace _ _ hc, hword]
    rfl

/-- A line with a numeral in one of its words. -/
structure SpelledWith (l : TextLine) (pre : List Char) (d : Char) (a : Axis) (n : Numeral)
    (post : List Char) : Prop where
  body : l.body = pre ++ d :: a.letter :: (n.text ++ post)
  before : isDelim whitespace d = true
  behind : post = [] ∨ isDelim whitespace (first post) = true

section Spelling
variable {l l' : TextLine} {pre post : List Char} {d : Char} {a : Axis} {n n' : Numeral}

theorem SpelledWith.words_eq (h : SpelledWith l pre d a n post) :
    l.words = tokens whitespace pre ++ (a.letter :: n.text) :: tokens whitespace post := by
  unfold TextLine.words
  rw [h.body]
  exact tokens_numeral pre post h.before h.behind a n

theorem SpelledWith.parted_iff (h : SpelledWith l pre d a n post) :
    l.Parted ↔ l.newline = true ∧ post ≠ [] ∧ ∀ c ∈ post.getLast?, isDelim whitespace c = true := by
  unfold TextLine.Parted
  rw [h.body]
  cases post with
  | nil =>
    have hword := not_isDelim_numeral a n
    obtain ⟨c, hc⟩ : ∃ c, (a.letter :: n.text).getLast? = some c := by
      rw [List.getLast?_eq_getLast_of_ne_nil (List.cons_ne_nil _ _)]
      exact ⟨_, rfl⟩
    have hd := hword c (List.mem_of_getLast? hc)
    have hlast : (pre ++ d :: a.letter :: (n.text ++ [])).getLast? = some c := by
      rw [List.append_nil, List.getLast?_append, List.getLast?_cons_cons, hc]
      rfl
    rw [hlast]
    simp [hd]
  | cons c rest =>
    have hlast : (pre ++ d :: a.letter :: (n.text ++ c :: rest)).getLast? =
        (c :: rest).getLast? := by
      have hassoc : pre ++ d :: a.letter :: (n.text ++ c :: rest) =
          (pre ++ d :: a.letter :: n.text) ++ c :: rest := by simp
      rw [hassoc, List.getLast?_append_of_ne_nil _ (List.cons_ne_nil _ _)]
    rw [hlast]
    simp

/-- The words of an accepted line in front of a numeral are not none. -/
theorem SpelledWith.tokens_pre (h : SpelledWith l pre d a n post) (hG : first l.body = 'G') :
    ∃ token ts, tokens whitespace pre = token :: ts := by
  rw [h.body] at hG
  cases pre with
  | nil =>
    have hd := h.before
    rw [show d = 'G' from hG] at hd
    exact absurd hd (by decide)
  | cons c pre =>
    obtain ⟨token, ts, ht, -⟩ := tokens_of_letter (.inl rfl) (show first (c :: pre) = 'G' from hG)
    exact ⟨token, ts, ht⟩

/-- Another numeral in a word does not change whether a line is accepted. -/
theorem SpelledWith.accepted (h : SpelledWith l pre d a n post) (h' : SpelledWith l' pre d a n' post)
    (hnewline : l.newline = l'.newline) (hacc : Accepted l.text) : Accepted l'.text := by
  obtain ⟨hG, hcode, hlen⟩ := l.accepted_iff.mp hacc
  obtain ⟨token, ts, ht⟩ := h.tokens_pre hG
  have hfirst : first l'.body = first l.body := by
    rw [h.body, h'.body]
    cases pre <;> rfl
  have hparted : l'.Parted ↔ l.Parted := by rw [h.parted_iff, h'.parted_iff, hnewline]
  rw [h.words_eq, ht] at hcode hlen
  refine l'.accepted_iff.mpr ⟨hfirst.trans hG, ?_, ?_⟩
  · rw [h'.words_eq, ht]
    exact hcode
  · rw [h'.words_eq, ht]
    simpa only [hparted, List.cons_append, List.length_cons, List.length_append] using hlen

/-- The two spellings fill in the same move. -/
theorem SpelledWith.lineMove_get {T : Target} (hT : T.Exact) (h : SpelledWith l pre d a n post)
    (h' : SpelledWith l' pre d a n' post) (hacc : Accepted l.text) (hacc' : Accepted l'.text)
    (hvalue : n.value = n'.value) (hfit : FitsUnits n.value) (b : Axis) :
    (lineMove T l.text).get b = (lineMove T l'.text).get b := by
  obtain ⟨token, ts, ht⟩ := h.tokens_pre (l.accepted_iff.mp hacc).1
  have hunits : gcodeUnits T (argCmd T (a.letter :: n.text)) =
      gcodeUnits T (argCmd T (a.letter :: n'.text)) := by
    have hv := value_numeral hT a.letter hfit
    have hv' := value_numeral hT a.letter (hvalue ▸ hfit)
    rw [gcodeUnits_of_value hT hv hfit, gcodeUnits_of_value hT hv' (hvalue ▸ hfit), hvalue]
  have hletter : (argCmd T (a.letter :: n.text)).cmdLtr =
      (argCmd T (a.letter :: n'.text)).cmdLtr := by
    rw [argCmd_cmdLtr, argCmd_cmdLtr]
    rfl
  have hargs (l : TextLine) (n : Numeral) (h : SpelledWith l pre d a n post) :
      lastWord b (args T l.text) = lastWord b (ts.map (argCmd T) ++
        argCmd T (a.letter :: n.text) :: (tokens whitespace post).map (argCmd T)) := by
    have hwords := h.words_eq
    rw [ht] at hwords
    rw [l.lastWord_text T (by simp [hwords]), TextLine.argWords, hwords]
    simp
  rw [GcodeParser.lineMove_get T hacc, GcodeParser.lineMove_get T hacc', hargs l n h,
    hargs l' n' h', lastWord_replace T b _ _ hletter hunits]

/-- **Spelling.** Two numerals of one value may stand for each other in any word
of an axis: the line leaves the same registers and emits the same coordinates. -/
theorem spelling (T : Target) (hT : T.Exact) (regs : Regs) (l l' : TextLine)
    (pre post : List Char) (d : Char) (a : Axis) (n n' : Numeral)
    (h : SpelledWith l pre d a n post) (h' : SpelledWith l' pre d a n' post)
    (hnewline : l.newline = l'.newline) (hvalue : n.value = n'.value) (hfit : FitsUnits n.value) :
    (processLine T regs l.text).regs = (processLine T regs l'.text).regs ∧
      ∀ b, (processLine T regs l.text).param.get b = (processLine T regs l'.text).param.get b := by
  by_cases hacc : Accepted l.text
  · have hacc' := h.accepted h' hnewline hacc
    have hget (b : Axis) := h.lineMove_get hT h' hacc hacc' hvalue hfit b
    have hpair (b : Axis) := (inheritAll_get regs (lineMove T l.text) b).trans
      (hget b ▸ (inheritAll_get regs (lineMove T l'.text) b).symm)
    rw [processLine_accepted T regs hacc, processLine_accepted T regs hacc']
    refine ⟨?_, fun b => (Prod.mk.inj (hpair b)).1⟩
    apply Regs.ext_get
    intro b
    exact (Prod.mk.inj (hpair b)).2
  · have hacc' : ¬ Accepted l'.text := fun hx => hacc (h'.accepted h hnewline.symm hx)
    obtain ⟨hregs, hparam⟩ := processLine_rejected T regs hacc
    obtain ⟨hregs', hparam'⟩ := processLine_rejected T regs hacc'
    rw [hregs, hregs', hparam, hparam']
    exact ⟨rfl, fun _ => rfl⟩

end Spelling

def minusTwo : Numeral := ⟨.minus, ['2'], none, by simp, by simp, by simp⟩
def minusTwoPoint : Numeral :=
  ⟨.minus, ['0', '2'], some ['0'], by simp, by simp, by simp⟩
def backMove : TextLine := ⟨"G1 Y-2 F9".toList, true, by decide, by decide⟩
def backMovePoint : TextLine := ⟨"G1 Y-02.0 F9".toList, true, by decide, by decide⟩

theorem spelling_backMove :
    (processLine .exact boot backMove.text).regs =
        (processLine .exact boot backMovePoint.text).regs ∧
      ∀ b, (processLine .exact boot backMove.text).param.get b =
        (processLine .exact boot backMovePoint.text).param.get b :=
  spelling .exact Target.exact_exact boot backMove backMovePoint ['G', '1'] [' ', 'F', '9'] ' ' .y
    minusTwo minusTwoPoint ⟨rfl, rfl, .inr rfl⟩ ⟨rfl, rfl, .inr rfl⟩ rfl (by decide +kernel)
    (by decide +kernel)

end GcodeFatfs.Words
