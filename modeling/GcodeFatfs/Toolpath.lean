import GcodeFatfs.JobLog
import GcodeFatfs.Words

/-! Moves written out as a job file, for `gcodetest` to find again. A position is
any five values but the -1 that stands for an absent word, and what is written
for it is read back as it was, on every target whose `double` is accurate. -/

namespace GcodeFatfs.Toolpath
open GcodeFatfs.Interact GcodeFatfs.Lines GcodeFatfs.CArith GcodeFatfs.CString GcodeFatfs.Decimal
open GcodeFatfs.Board GcodeFatfs.FatCommands GcodeFatfs.GcodeParser GcodeFatfs.Gcodetest
open GcodeFatfs.Words GcodeFatfs.JobRun

/-! ## Writing a position -/

/-- Values for the five axes that a line can ask for. -/
structure Position where
  get : Axis → Int32
  sayable : ∀ a, get a ≠ -1

/-- The thousandths to write for a value: the cast takes a negative one up. -/
def thousandths (k : Int32) : ℤ := if 0 ≤ k.toInt then k.toInt else k.toInt - 1

/-- Ten digits are enough, three of them behind the point. -/
def numeralOf (k : Int32) : Numeral where
  sign := if 0 ≤ k.toInt then .none else .minus
  whole := (digitsOf 10 (thousandths k).natAbs).take 7
  frac := some ((digitsOf 10 (thousandths k).natAbs).drop 7)
  whole_digits c hc := digitsOf_isDigit _ _ c (List.mem_of_mem_take hc)
  frac_digits f hf c hc := by
    obtain rfl := Option.some.inj hf
    exact digitsOf_isDigit _ _ c (List.mem_of_mem_drop hc)
  nonempty := by
    intro h
    have hlen := congrArg List.length h
    simp [length_digitsOf] at hlen

def wordOf (a : Axis) (k : Int32) : List Char := a.letter :: (numeralOf k).text

def axes : List Axis := [.x, .y, .z, .e, .f]

def Position.words (p : Position) : List (List Char) := axes.map fun a => wordOf a (p.get a)

/-- The line of a position, without its newline. -/
def Position.line (p : Position) : List Char := ['G', '1'] ++ p.words.flatMap (' ' :: ·)

/-- The job file of some positions in a row. -/
def jobOf (ps : List Position) : List Char := (ps.map Position.line).flatMap (· ++ ['\n'])

/-! ## Reading it back -/

theorem thousandths_natAbs_lt (k : Int32) : (thousandths k).natAbs < 10 ^ 10 := by
  have hlo := k.le_toInt
  have hhi := k.toInt_lt
  unfold thousandths
  split <;> omega

theorem value_numeralOf (k : Int32) : (numeralOf k).value = (thousandths k : ℚ) / 1000 := by
  have hdigits : decimal (digitsOf 10 (thousandths k).natAbs) = (thousandths k).natAbs :=
    decimal_digitsOf (thousandths_natAbs_lt k)
  have habs : ((thousandths k).natAbs : ℚ) = |(thousandths k : ℚ)| := by
    rw [Nat.cast_natAbs, Int.cast_abs]
  unfold Numeral.value numeralOf
  simp only [Option.getD_some, List.take_append_drop, hdigits, List.length_drop, length_digitsOf,
    habs]
  by_cases hk : 0 ≤ k.toInt
  · have hpos : (0 : ℚ) ≤ thousandths k := by
      unfold thousandths
      rw [if_pos hk]
      exact_mod_cast hk
    rw [if_pos hk, abs_of_nonneg hpos]
    norm_num [Sign.neg]
  · have hneg : (thousandths k : ℚ) < 0 := by
      unfold thousandths
      rw [if_neg hk]
      exact_mod_cast (show k.toInt - 1 < 0 by omega)
    rw [if_neg hk, abs_of_neg hneg]
    norm_num [Sign.neg, neg_div]

/-- Read, scaled and rounded three times, a number of thousandths is still found
halfway to the next. -/
theorem scaled_near {T : Target} (hT : T.Accurate) {m : ℤ} (hlo : -2 ^ 31 - 1 ≤ m) (hhi : m < 2 ^ 31) :
    ∃ q, T.add (1 / 2) (T.mul gcodeUom (T.fl ((m : ℚ) / 1000))) = .fin q ∧
      |q - (m + 1 / 2)| < 1 / 2 := by
  have hlo' : (-2 ^ 31 - 1 : ℚ) ≤ m := by exact_mod_cast hlo
  have hhi' : (m : ℚ) < 2 ^ 31 := by exact_mod_cast hhi
  obtain ⟨v, hv, hve⟩ := hT (m / 1000) (abs_le.mpr ⟨by linarith, by linarith⟩)
  obtain ⟨hv₁, hv₂⟩ := abs_le.mp hve
  obtain ⟨u, hu, hue⟩ := hT (v * 1000) (abs_le.mpr ⟨by linarith, by linarith⟩)
  obtain ⟨hu₁, hu₂⟩ := abs_le.mp hue
  obtain ⟨q, hq, hqe⟩ := hT (u + 1 / 2) (abs_le.mpr ⟨by linarith, by linarith⟩)
  obtain ⟨hq₁, hq₂⟩ := abs_le.mp hqe
  refine ⟨q, ?_, abs_lt.mpr ⟨by linarith, by linarith⟩⟩
  have hmul : T.mul gcodeUom (.fin v) = .fin u := hu
  rw [hv, hmul]
  exact hq

theorem argCmd_wordOf (T : Target) (a : Axis) (k : Int32) :
    argCmd T (wordOf a k) =
      { cmdLtr := a.letter, isFloat := true, dval := T.fl ((thousandths k : ℚ) / 1000) } := by
  have hpoint : '.' ∈ (numeralOf k).text := Numeral.mem_point.mpr rfl
  have hread : strtod T.fl ((numeralOf k).text ++ []) = T.fl (numeralOf k).value :=
    strtod_numeral T.fl rfl rfl (by decide)
  rw [List.append_nil, value_numeralOf] at hread
  rw [wordOf, argCmd_float T a.letter hpoint, hread]

/-- The word of a value is converted to it. -/
theorem gcodeUnits_wordOf {T : Target} (hT : T.Accurate) (a : Axis) (k : Int32) :
    gcodeUnits T (argCmd T (wordOf a k)) = k := by
  have hlo := k.le_toInt
  have hhi := k.toInt_lt
  obtain ⟨q, hq, hnear⟩ := scaled_near hT (m := thousandths k)
    (by unfold thousandths; split <;> omega) (by unfold thousandths; split <;> omega)
  have htrunc : trunc q = k.toInt := by
    unfold thousandths at hnear
    by_cases hpos : 0 ≤ k.toInt
    · rw [if_pos hpos] at hnear
      exact trunc_of_near_above hpos hnear
    · rw [if_neg hpos] at hnear
      apply trunc_of_near_below (by omega)
      push_cast at hnear
      rwa [show (k.toInt : ℚ) - 1 / 2 = k.toInt - 1 + 1 / 2 by ring]
  have hfit : FitsInt32 (trunc q) := by
    rw [htrunc]
    unfold FitsInt32 int32Min int32Max
    omega
  rw [argCmd_wordOf]
  show fxptDouble T _ gcodeUom = k
  rw [fxptDouble, hq, ← Int32.toInt_inj, T.toInt32_of_fits hfit, htrunc]

/-! ## Lines that ask for values -/

theorem wordOf_plain (a : Axis) (k : Int32) :
    wordOf a k ≠ [] ∧ ∀ c ∈ wordOf a k, isDelim whitespace c = false :=
  ⟨List.cons_ne_nil _ _, not_isDelim_numeral a (numeralOf k)⟩

/-- Words that ask for values of some axes. -/
def askWords (asks : List (Axis × Int32)) : List (List Char) := asks.map fun p => wordOf p.1 p.2

def askLine (asks : List (Axis × Int32)) : List Char :=
  ['G', '1'] ++ (askWords asks).flatMap (' ' :: ·)

/-- Nothing in a line is taken for its end, or dropped while reading. -/
theorem mem_askLine (asks : List (Axis × Int32)) {c : Char} (hc : c ∈ askLine asks) :
    c ≠ '\n' ∧ c ≠ '\r' ∧ c ≠ nul := by
  have hletter (a : Axis) : a.letter ≠ '\n' ∧ a.letter ≠ '\r' ∧ a.letter ≠ nul := by
    cases a <;> decide
  rcases List.mem_append.mp hc with hc | hc
  · rcases List.mem_pair.mp hc with rfl | rfl <;> decide
  · obtain ⟨w, hw, hc⟩ := List.mem_flatMap.mp hc
    obtain ⟨p, -, rfl⟩ := List.mem_map.mp hw
    rcases List.mem_cons.mp hc with rfl | hc
    · decide
    rcases List.mem_cons.mp hc with rfl | hc
    · exact hletter p.1
    rcases Numeral.mem_text hc with hc | rfl | rfl | rfl
    · refine ⟨?_, ?_, ?_⟩ <;> rintro rfl <;> exact absurd hc (by decide)
    all_goals decide

def askText (asks : List (Axis × Int32)) : TextLine where
  body := askLine asks
  newline := true
  body_newline h := (mem_askLine asks h).1 rfl
  body_nul h := (mem_askLine asks h).2.2 rfl

theorem askText_words (asks : List (Axis × Int32)) :
    (askText asks).words = ['G', '1'] :: askWords asks := by
  have hspace : isDelim whitespace ' ' := by decide
  have hplain : ∀ w ∈ askWords asks, w ≠ [] ∧ ∀ c ∈ w, isDelim whitespace c = false := by
    intro w hw
    obtain ⟨p, -, rfl⟩ := List.mem_map.mp hw
    exact wordOf_plain p.1 p.2
  have hwords := tokens_append_words hspace ['G', '1'] (askWords asks) hplain
  have hfirst : tokens whitespace ['G', '1'] = [['G', '1']] := by decide
  rw [hfirst] at hwords
  exact hwords

theorem askText_accepted {asks : List (Axis × Int32)} (h : asks.length ≤ 7) : Accepted (askText asks).text := by
  refine (askText asks).accepted_iff.mpr ⟨rfl, ?_, ?_⟩
  · rw [askText_words]
    show strtol ['1'] = 0 ∨ strtol ['1'] = 1
    decide
  · rw [askText_words]
    show _ + _ < 10
    simp only [askWords, List.length_cons, List.length_map]
    split <;> omega

/-- The last word for an axis is the one that was asked for last. -/
theorem lastWord_askText (T : Target) (asks : List (Axis × Int32)) (a : Axis) :
    lastWord a (args T (askText asks).text) =
      ((asks.filter (·.1 = a)).getLast?).map fun p => argCmd T (wordOf p.1 p.2) := by
  have hletter (p : Axis × Int32) :
      (argCmd T (wordOf p.1 p.2)).cmdLtr = a.letter ↔ p.1 = a := by
    have hcmd : (argCmd T (wordOf p.1 p.2)).cmdLtr = p.1.letter := argCmd_cmdLtr T _
    rw [hcmd]
    cases p.1 <;> cases a <;> decide
  rw [(askText asks).lastWord_text T (by simp [askText_words]), TextLine.argWords, askText_words,
    lastWord, askWords, List.tail_cons, List.map_map, List.filter_map, List.getLast?_map]
  simp only [Function.comp_def, hletter]

theorem length_wordOf (a : Axis) (k : Int32) : (wordOf a k).length ≤ 13 := by
  have hsign : (numeralOf k).sign.text.length ≤ 1 := by
    cases (numeralOf k).sign <;> decide
  simp only [wordOf, Numeral.text, List.length_cons, List.length_append]
  simp only [numeralOf, List.length_cons, List.length_take, List.length_drop, length_digitsOf] at hsign ⊢
  omega

theorem length_askText (asks : List (Axis × Int32)) :
    (askText asks).text.length ≤ 3 + 14 * asks.length := by
  have hwords : ((askWords asks).flatMap (' ' :: ·)).length ≤ 14 * asks.length := by
    induction asks with
    | nil => decide
    | cons p asks ih =>
      have hword := length_wordOf p.1 p.2
      simp only [askWords, List.map_cons, List.flatMap_cons, List.length_append, List.length_cons]
        at ih ⊢
      omega
  show (askLine asks ++ ['\n']).length ≤ _
  simp only [askLine, List.length_append, List.length_cons, List.length_nil]
  omega

theorem fileLines_asks (ls : List (List (Axis × Int32))) :
    fileLines ((ls.map askLine).flatMap (· ++ ['\n'])) = ls.map (askText · |>.text) := by
  have hkept : kept (· = '\r') ((ls.map askLine).flatMap (· ++ ['\n'])) =
      (ls.map askLine).flatMap (· ++ ['\n']) := by
    rw [List.filter_eq_self]
    intro c hc
    obtain ⟨line, hline, hc⟩ := List.mem_flatMap.mp hc
    obtain ⟨asks, -, rfl⟩ := List.mem_map.mp hline
    rcases List.mem_append.mp hc with hc | hc
    · simpa using (mem_askLine asks hc).2.1
    · rw [List.mem_singleton.mp hc]
      decide
  have hplain : ∀ l ∈ ls.map askLine, '\n' ∉ l := by
    intro l hl hc
    obtain ⟨asks, -, rfl⟩ := List.mem_map.mp hl
    exact (mem_askLine asks hc).1 rfl
  rw [fileLines, hkept, lines_flatMap _ hplain, List.map_map]
  rfl

/-- `f_gets` hands out lines for five axes as they were written. -/
theorem fileReads_asks (ls : List (List (Axis × Int32))) (h : ∀ asks ∈ ls, asks.length ≤ 5) :
    fileReads ((ls.map askLine).flatMap (· ++ ['\n'])) = ls.map (askText · |>.text) := by
  have hfit : ∀ line ∈ fileLines ((ls.map askLine).flatMap (· ++ ['\n'])),
      line.length ≤ lineSize - 1 := by
    intro line hline
    rw [fileLines_asks] at hline
    obtain ⟨asks, hasks, rfl⟩ := List.mem_map.mp hline
    have hlen := length_askText asks
    have hfive := h asks hasks
    show _ ≤ 81
    omega
  rw [← fileLines_asks]
  exact (reads_eq_lines_iff (by decide) _).mpr hfit

/-! ## The line of a position -/

/-- A position asks for a value of every axis. -/
def Position.asks (p : Position) : List (Axis × Int32) := axes.map fun a => (a, p.get a)

def Position.textLine (p : Position) : TextLine where
  body := p.line
  newline := true
  body_newline h := (mem_askLine p.asks h).1 rfl
  body_nul h := (mem_askLine p.asks h).2.2 rfl

theorem Position.textLine_eq (p : Position) : p.textLine = askText p.asks := rfl

theorem Position.length_asks (p : Position) : p.asks.length = 5 := rfl

theorem Position.accepted (p : Position) : Accepted p.textLine.text := by
  rw [p.textLine_eq]
  exact askText_accepted (by rw [p.length_asks]; decide)

theorem Position.lastWord_text (T : Target) (p : Position) (a : Axis) :
    lastWord a (args T p.textLine.text) = some (argCmd T (wordOf a (p.get a))) := by
  rw [p.textLine_eq, lastWord_askText]
  cases a <;> rfl

/-- A line leaves its position, whatever was there before, and emits it. -/
theorem Position.processLine_text {T : Target} (hT : T.Accurate) (regs : Regs) (p : Position)
    (a : Axis) :
    (processLine T regs p.textLine.text).param.get a = p.get a ∧
      (processLine T regs p.textLine.text).regs.get a = (p.get a).toUInt32 := by
  have hget := Modal.processLine_get T regs p.accepted a
  rw [p.lastWord_text T a, Option.map_some, Option.getD_some, gcodeUnits_wordOf hT a,
    inherit, if_neg (p.sayable a)] at hget
  exact Prod.mk.inj hget

/-! ## The job file -/

theorem fileReads_jobOf (ps : List Position) :
    fileReads (jobOf ps) = ps.map (·.textLine.text) := by
  have hreads := fileReads_asks (ps.map Position.asks) (List.forall_mem_map.mpr fun p _ => by
    rw [p.length_asks])
  rw [List.map_map, List.map_map] at hreads
  exact hreads

/-- The move of a position. -/
def Position.param (p : Position) : Param :=
  { x := p.get .x, y := p.get .y, z := p.get .z, e := p.get .e, f := p.get .f }

theorem moveMsgs_congr {p q : Param} (h : ∀ a, p.get a = q.get a) : moveMsgs p = moveMsgs q := by
  have hx := h .x
  have hy := h .y
  have hz := h .z
  have he := h .e
  have hf := h .f
  simp only [Param.get] at hx hy hz he hf
  simp only [moveMsgs, hx, hy, hz, he, hf]

theorem record_congr (p q : Param) (h : p.get = q.get) : record p.x p.y = record q.x q.y := by
  have hx := congrFun h .x
  have hy := congrFun h .y
  simp only [Param.get] at hx hy
  rw [hx, hy]

/-- The lines of some positions emit these positions. -/
theorem emitted_positions {T : Target} (hT : T.Accurate) (regs : Regs) (ps : List Position) :
    (emitted T regs (ps.map (·.textLine.text))).map Param.get = ps.map Position.get := by
  induction ps generalizing regs with
  | nil => rfl
  | cons p ps ih =>
    have hget : (processLine T regs p.textLine.text).param.get = p.get :=
      funext fun a => (p.processLine_text hT regs a).1
    simp only [List.map_cons, emitted, hget, ih]

/-- What depends on the axes alone is the same for moves with the same axes. -/
theorem map_congr_get {β : Type} {f : Param → β} (hf : ∀ p q, p.get = q.get → f p = f q)
    {es : List Param} {ps : List Position} (h : es.map Param.get = ps.map Position.get) :
    es.map f = ps.map fun p => f p.param := by
  induction es generalizing ps with
  | nil =>
    cases ps with
    | nil => rfl
    | cons p ps => cases h
  | cons e es ih =>
    cases ps with
    | nil => cases h
    | cons p ps =>
      obtain ⟨hhead, htail⟩ := List.cons.inj h
      have hget : e.get = p.param.get := by
        rw [hhead]
        funext a
        cases a <;> rfl
      rw [List.map_cons, List.map_cons, hf e p.param hget, ih htail]

variable {T : Target} {fuel : ℕ} {regs : Regs} {t : Trace} {r : Except Stop Regs}

/-- **Toolpath.** On every accurate target any positions can be sent: a
`gcodetest` on their job file returns, prints exactly these moves, logs their x
and y, and leaves the last of them in the registers, whatever was there before. -/
theorem toolpath (hT : T.Accurate) (ps : List Position) (h : Runs (cmdGcodetest T fuel regs) t r)
    (hfile : OnFile (jobOf ps) t) (hfuel : (jobOf ps).length < fuel) :
    printedMoves t = ps.flatMap (fun p => moveMsgs p.param) ∧
      logged t = ps.map (fun p => record (p.get .x) (p.get .y)) ∧
      ∃ regs', r = .ok regs' ∧
        ∀ p ∈ ps.getLast?, ∀ a, (regs'.get a).toInt32 = p.get a := by
  obtain ⟨hr, hworks⟩ := gcodetest_worksOff h hfile hfuel
  rw [fileReads_jobOf] at hr hworks
  have hemit := emitted_positions hT regs ps
  refine ⟨?_, ?_, _, hr, ?_⟩
  · rw [hworks.printed, List.flatMap, List.flatMap,
      map_congr_get (fun _ _ h => moveMsgs_congr (congrFun h)) hemit]
  · rw [hworks.logged, map_congr_get record_congr hemit]
    rfl
  · intro p hp a
    obtain ⟨ps, rfl⟩ := List.getLast?_eq_some_iff.mp hp
    rw [List.map_append, List.map_singleton, processLines, List.foldl_append, List.foldl_cons,
      List.foldl_nil, (p.processLine_text hT _ a).2]
    exact Int32.toInt32_toUInt32 _

/-- A millimetre and a half on every axis, and back over zero. -/
@[irreducible] def thereAndBack : List Position := [⟨fun _ => 1500, by simp⟩, ⟨fun _ => -2, by simp⟩]

theorem toolpath_thereAndBack :
    printedMoves (jobRun .exact boot (jobOf thereAndBack)).1 =
        thereAndBack.flatMap (fun p => moveMsgs p.param) ∧
      logged (jobRun .exact boot (jobOf thereAndBack)).1 =
        thereAndBack.map (fun p => record (p.get .x) (p.get .y)) ∧
      ∃ regs', (jobRun .exact boot (jobOf thereAndBack)).2.1 = .ok regs' ∧
        ∀ p ∈ thereAndBack.getLast?, ∀ a, (regs'.get a).toInt32 = p.get a :=
  have hrun := jobRun_runs .exact boot (jobOf thereAndBack)
  toolpath Target.exact_accurate thereAndBack hrun.1 hrun.2
    (Nat.lt_add_one (jobOf thereAndBack).length)

/-! ## The registers that lines can leave -/

theorem lineSets_ne (T : Target) (a : Axis) (line : List Char) :
    Modal.lineSets T a line ≠ some (-1) := by
  unfold Modal.lineSets
  split
  · simp [Option.filter_eq_some_iff]
  · simp

/-- A register is never left with the value for an absent word. -/
theorem processLines_ne (T : Target) (a : Axis) (lines : List (List Char)) {regs : Regs}
    (h : (regs.get a).toInt32 ≠ -1) : ((processLines T regs lines).get a).toInt32 ≠ -1 := by
  induction lines generalizing regs with
  | nil => exact h
  | cons line lines ih =>
    apply ih
    rw [Modal.processLine_overwrites, Modal.overwrite]
    cases hset : Modal.lineSets T a line with
    | none => exact h
    | some v =>
      rintro rfl
      exact lineSets_ne T a line hset

/-- **Reachable registers.** On every accurate target some lines take the
registers from boot to given values exactly when none of these is the one that
stands for an absent word. -/
theorem reachable_iff (hT : T.Accurate) (regs : Regs) :
    (∃ lines, processLines T boot lines = regs) ↔ ∀ a, regs.get a ≠ 0xFFFFFFFF := by
  constructor
  · rintro ⟨lines, rfl⟩ a he
    have hboot : (boot.get a).toInt32 ≠ -1 := by cases a <;> decide
    apply processLines_ne T a lines hboot
    rw [he]
    rfl
  · intro hne
    have hsay : ∀ a, (regs.get a).toInt32 ≠ -1 := by
      intro a he
      apply hne a
      rw [← UInt32.toUInt32_toInt32 (regs.get a), he]
      rfl
    refine ⟨[(Position.mk (fun a => (regs.get a).toInt32) hsay).textLine.text], ?_⟩
    apply Regs.ext_get
    intro a
    exact (Position.processLine_text hT boot _ a).2.trans (UInt32.toUInt32_toInt32 _)

theorem reachable_iff_exact :
    (∃ lines, processLines .exact boot lines = { x := 1500, e := 0xFFFFFFFE }) ↔
      ∀ a, Regs.get { x := 1500, e := 0xFFFFFFFE } a ≠ 0xFFFFFFFF :=
  reachable_iff Target.exact_accurate _

end GcodeFatfs.Toolpath
