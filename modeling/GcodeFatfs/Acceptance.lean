import GcodeFatfs.Modal
import GcodeFatfs.Library.Decimal

/-! Which lines `_process_line` takes. A line needs a 'G' in front, 0 or 1 read in
the rest of its first word and fewer than `_MAX_ARGS` words; neither there nor in
the words of the axes does anything look at what stands behind a number. -/

namespace GcodeFatfs.Acceptance
open GcodeFatfs.CArith GcodeFatfs.CString GcodeFatfs.Decimal GcodeFatfs.GcodeParser
open GcodeFatfs.Modal

/-! ## The argument limit -/

def maxArgsReached : String := "MAX ARGS reached, dropping cmd: %s\r\n"

/-- The line was dropped, with the message that says so. -/
def Dropped (T : Target) (regs : Regs) (line : List Char) : Prop :=
  ∃ m ∈ (processLine T regs line).msgs, m.fmt = maxArgsReached

/-- The number of a line's words. -/
def wordCount (line : List Char) : ℕ := (tokens whitespace (cstr line)).length

theorem stores_length_eq (T : Target) {line : List Char}
    (hGM : first (cstr line) = 'G' ∨ first (cstr line) = 'M') :
    (stores T (cstr line)).length = min (wordCount line) maxArgs := by
  obtain ⟨token, ts, ht, -⟩ := tokens_of_letter hGM rfl
  rw [stores_length T _ token ts ht, wordCount, ht, List.length_cons]

/-- The stores go to the entries from 0 on, each once. -/
theorem stores_indices (T : Target) {line : List Char}
    (hGM : first (cstr line) = 'G' ∨ first (cstr line) = 'M') :
    (stores T (cstr line)).map Prod.fst = List.range (min (wordCount line) maxArgs) := by
  obtain ⟨token, ts, ht, -⟩ := tokens_of_letter hGM rfl
  have hlength := stores_length_eq T hGM
  rw [← hlength, stores_eq T _ token ts ht, List.map_map]
  have hswap : (Prod.fst ∘ Prod.swap : CmdData × ℕ → ℕ) = Prod.snd := rfl
  rw [hswap, List.length_map, List.length_zipIdx, List.zipIdx_map_snd, List.range_eq_range']

theorem dropped_iff (T : Target) (regs : Regs) {line : List Char}
    (hGM : first (cstr line) = 'G' ∨ first (cstr line) = 'M') :
    Dropped T regs line ↔ maxArgs ≤ wordCount line := by
  have hlength := stores_length_eq T hGM
  unfold Dropped processLine
  simp only [if_pos hGM]
  by_cases hargc : (stores T (cstr line)).length ≥ maxArgs
  · rw [if_pos hargc]
    constructor
    · intro _
      omega
    · intro _
      exact ⟨_, List.mem_singleton_self _, rfl⟩
  · rw [if_neg hargc]
    constructor
    · rintro ⟨m, hm, -⟩
      cases hm
    · intro h
      omega

/-- A line below the limit is dispatched with all of its words. -/
theorem processLine_kept (T : Target) (regs : Regs) {line : List Char}
    (hGM : first (cstr line) = 'G' ∨ first (cstr line) = 'M') (hlt : wordCount line < maxArgs) :
    processLine T regs line =
      { regs := (dispatch T regs (wordCount line) (fill (stores T (cstr line)))).1,
        param := (dispatch T regs (wordCount line) (fill (stores T (cstr line)))).2 } := by
  have hargc : (stores T (cstr line)).length = wordCount line := by
    have hlength := stores_length_eq T hGM
    omega
  have hrun : ¬ wordCount line ≥ maxArgs := by omega
  unfold processLine
  simp only [if_pos hGM, hargc, if_neg hrun]

/-- **Argument limit.** The stores to `cmd_data` go to the entries from 0 on and
stay inside it. A line is dropped exactly when its words reach `_MAX_ARGS`, and
then nothing of it is executed; otherwise `cmd_data` holds all of its words. -/
theorem argument_limit (T : Target) (regs : Regs) (line : List Char)
    (hGM : first (cstr line) = 'G' ∨ first (cstr line) = 'M') :
    ((stores T (cstr line)).map Prod.fst = List.range (min (wordCount line) maxArgs) ∧
      ∀ s ∈ stores T (cstr line), s.1 < maxArgs) ∧
    (Dropped T regs line ↔ maxArgs ≤ wordCount line) ∧
    (Dropped T regs line →
      (processLine T regs line).regs = regs ∧ (processLine T regs line).param = {}) ∧
    (¬ Dropped T regs line →
      ∃ token ts, tokens whitespace (cstr line) = token :: ts ∧
        fill (stores T (cstr line)) = firstCmd token :: ts.map (argCmd T) ++
          List.replicate (maxArgs - wordCount line) ({} : CmdData) ∧
        (processLine T regs line).regs =
          (dispatch T regs (wordCount line) (fill (stores T (cstr line)))).1 ∧
        (processLine T regs line).param =
          (dispatch T regs (wordCount line) (fill (stores T (cstr line)))).2) := by
  have hindices := stores_indices T hGM
  have hlength := stores_length_eq T hGM
  refine ⟨⟨hindices, ?_⟩, dropped_iff T regs hGM, ?_, ?_⟩
  · intro s hs
    have hmem : s.1 ∈ (stores T (cstr line)).map Prod.fst := List.mem_map_of_mem hs
    rw [hindices, List.mem_range] at hmem
    omega
  · intro hdropped
    have hmax := (dropped_iff T regs hGM).mp hdropped
    apply processLine_rejected T regs
    rintro ⟨-, -, hlt⟩
    unfold wordCount at hmax
    omega
  · intro hkept
    have hlt : wordCount line < maxArgs := by
      by_contra hge
      exact hkept ((dropped_iff T regs hGM).mpr (by omega))
    have hargc : (stores T (cstr line)).length = wordCount line := by omega
    have hrun := processLine_kept T regs hGM hlt
    obtain ⟨token, ts, ht, -⟩ := tokens_of_letter hGM rfl
    have hts : ts.take (maxArgs - 1) = ts := by
      unfold wordCount at hlt
      rw [ht, List.length_cons] at hlt
      exact List.take_of_length_le (by omega)
    refine ⟨token, ts, ht, ?_, by rw [hrun], by rw [hrun]⟩
    rw [fill_stores T _ token ts ht, hts, hargc]

def tenWords : List Char := "G1 X1 Y2 Z3 E4 F5 A6 B7 C8 D9".toList

theorem argument_limit_tenWords :
    Dropped .exact boot tenWords ↔ maxArgs ≤ wordCount tenWords :=
  (argument_limit .exact boot tenWords (.inl (by decide))).2.1

/-- Ten words fit `cmd_data` and are all stored, and yet the line is dropped. -/
theorem tenWords_dropped :
    (first (cstr tenWords) = 'G' ∨ first (cstr tenWords) = 'M') ∧
      (stores .exact (cstr tenWords)).length = wordCount tenWords ∧
      Dropped .exact boot tenWords ∧ ¬ maxArgs < wordCount tenWords := by
  have hG : first (cstr tenWords) = 'G' := by decide
  refine ⟨.inl hG, by decide, ?_, by decide⟩
  rw [dropped_iff .exact boot (.inl hG)]
  decide

/-! ## Numbers with nothing checked behind them -/

/-- A line that moves, as text: 'G', and 0 or 1 in front of the rest of the first
word, which ends at the first blank. -/
def MoveLine (line : List Char) : Prop :=
  first (cstr line) = 'G' ∧ ∃ text ts, tokens whitespace (cstr line) = ('G' :: text) :: ts ∧
    ts.length + 1 < maxArgs ∧ (Leads 0 text ∨ Leads 1 text)

/-- The last word behind the first that starts with the letter of an axis. -/
def lastToken (a : Axis) (line : List Char) : Option (List Char) :=
  ((tokens whitespace (cstr line)).tail.filter (first · = a.letter)).getLast?

theorem accepted_iff_moveLine (line : List Char) : Accepted line ↔ MoveLine line := by
  have hcode (text : List Char) : strtol text = 0 ∨ strtol text = 1 ↔ Leads 0 text ∨ Leads 1 text :=
    or_congr (strtol_eq_iff text 0 (by decide) (by decide))
      (strtol_eq_iff text 1 (by decide) (by decide))
  constructor
  · rintro ⟨hG, hnum, hlen⟩
    obtain ⟨token, ts, ht, hfirst⟩ := tokens_of_letter (.inl rfl) hG
    cases token with
    | nil => exact absurd hfirst (by decide)
    | cons c text =>
      obtain rfl : c = 'G' := hfirst
      rw [ht] at hnum hlen
      exact ⟨hG, text, ts, ht, hlen, (hcode text).mp hnum⟩
  · rintro ⟨hG, text, ts, ht, hlen, hlead⟩
    refine ⟨hG, ?_, ?_⟩
    · rw [ht]
      exact (hcode text).mpr hlead
    · rw [ht]
      exact hlen

theorem lastWord_args (T : Target) (a : Axis) (line : List Char) :
    lastWord a (args T line) = (lastToken a line).map (argCmd T) := by
  have hletter : (fun w : CmdData => decide (w.cmdLtr = a.letter)) ∘ argCmd T =
      fun token => decide (first token = a.letter) := by
    funext token
    simp only [Function.comp_apply, argCmd]
    split <;> rfl
  unfold lastWord args lastToken
  rw [List.filter_map, hletter, List.getLast?_map]

/-- **What moves.** A line that changes a register or fills in `param` has a 'G'
in front, 0 or 1 in front of the rest of its first word and fewer than `_MAX_ARGS`
words. An axis that changes has a word that starts with its letter, and takes the
conversion of what is read in front of the rest of the last such word. -/
theorem moves_only_if (T : Target) (regs : Regs) (line : List Char) :
    ((processLine T regs line).regs ≠ regs ∨ (processLine T regs line).param ≠ {} →
      MoveLine line) ∧
    ∀ a, (processLine T regs line).regs.get a ≠ regs.get a →
      ∃ text, lastToken a line = some (a.letter :: text) ∧
        (processLine T regs line).regs.get a =
          (gcodeUnits T (argCmd T (a.letter :: text))).toUInt32 := by
  have hmoves : (processLine T regs line).regs ≠ regs ∨ (processLine T regs line).param ≠ {} →
      Accepted line := by
    intro h
    by_contra hrej
    obtain ⟨hregs, hparam⟩ := processLine_rejected T regs hrej
    rcases h with h | h
    · exact h hregs
    · exact h hparam
  refine ⟨fun h => (accepted_iff_moveLine line).mp (hmoves h), ?_⟩
  intro a hchange
  have hacc : Accepted line := hmoves (.inl fun he => hchange (by rw [he]))
  have hget := congrArg Prod.snd (processLine_get T regs hacc a)
  rw [lastWord_args] at hget
  cases hlast : lastToken a line with
  | none =>
    rw [hlast] at hget
    exact absurd hget hchange
  | some token =>
    have hfirst : first token = a.letter := by
      have hmem := List.mem_of_getLast? hlast
      simpa using (List.mem_filter.mp hmem).2
    rw [hlast] at hget
    cases token with
    | nil => exact absurd hfirst (by cases a <;> decide)
    | cons c text =>
      obtain rfl : c = a.letter := hfirst
      refine ⟨text, rfl, ?_⟩
      simp only [Option.map_some, Option.getD_some, inherit] at hget
      split at hget
      · exact absurd hget hchange
      · exact hget

def garbage : List Char := "GARBAGE X5".toList
def foo : List Char := "G1 Xfoo".toList

theorem moves_only_if_garbage : MoveLine garbage :=
  (moves_only_if .exact { x := 7 } garbage).1 (.inl (by decide +kernel))

/-- `GARBAGE X5` moves to 5 and `G1 Xfoo` to 0, though no number ends either word. -/
theorem garbage_moves :
    ((processLine .exact { x := 7 } garbage).regs.x = 5000 ∧
      (tokens whitespace (cstr garbage)).head? = some "GARBAGE".toList ∧
      ∀ n : Numeral, 'G' :: n.text ≠ "GARBAGE".toList) ∧
    ((processLine .exact { x := 7 } foo).regs.x = 0 ∧
      lastToken .x foo = some "Xfoo".toList ∧ ∀ n : Numeral, 'X' :: n.text ≠ "Xfoo".toList) := by
  refine ⟨⟨by decide +kernel, by decide, ?_⟩, by decide +kernel, by decide, ?_⟩
  · intro n h
    have htext : n.text = "ARBAGE".toList := List.cons.inj h |>.2
    have hmem : 'A' ∈ n.text := by rw [htext]; decide
    exact absurd (Numeral.mem_text hmem) (by decide)
  · intro n h
    have htext : n.text = "foo".toList := List.cons.inj h |>.2
    have hmem : 'f' ∈ n.text := by rw [htext]; decide
    exact absurd (Numeral.mem_text hmem) (by decide)

end GcodeFatfs.Acceptance
