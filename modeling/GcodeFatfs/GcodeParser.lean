import GcodeFatfs.Board

/-! gcode_parser.c without its file handling: `_process_line` and `_get_xyzef`,
with the fixed-point macros and the modal registers of gcode_parser.h. -/

namespace GcodeFatfs.GcodeParser
open GcodeFatfs.CArith GcodeFatfs.CString GcodeFatfs.Board

/-- `_cmd_data_t`. -/
structure CmdData where
  cmdLtr : Char := nul
  isFloat : Bool := false
  ival : Int32 := 0
  dval : Double := .fin 0
  deriving DecidableEq, Repr

/-- `_param_t`, all zero as `memset` leaves it. -/
structure Param where
  blkIndex : Int32 := 0
  extId : Int32 := 0
  relPos : Bool := false
  fan : Bool := false
  x : Int32 := 0
  y : Int32 := 0
  z : Int32 := 0
  e : Int32 := 0
  f : Int32 := 0
  currTemp : Int32 := 0
  targetTemp : Int32 := 0
  fromPtr : ℕ := 0
  deriving DecidableEq, Repr

/-- `_curr_feedrate`, `_curr_x`, `_curr_y`, `_curr_z` and `_curr_e`. -/
structure Regs where
  feedrate : UInt32 := 0
  x : UInt32 := 0
  y : UInt32 := 0
  z : UInt32 := 0
  e : UInt32 := 0
  deriving DecidableEq, Repr

def boot : Regs := {}

inductive GcodeError where
  | ok | error
  deriving DecidableEq, Repr

inductive Axis where
  | x | y | z | e | f
  deriving DecidableEq, Repr

def Axis.letter : Axis → Char
  | .x => 'X' | .y => 'Y' | .z => 'Z' | .e => 'E' | .f => 'F'

def Param.get (p : Param) : Axis → Int32
  | .x => p.x | .y => p.y | .z => p.z | .e => p.e | .f => p.f

def Regs.get (r : Regs) : Axis → UInt32
  | .x => r.x | .y => r.y | .z => r.z | .e => r.e | .f => r.feedrate

theorem Regs.ext_get {r r' : Regs} (h : ∀ a, r.get a = r'.get a) : r = r' := by
  cases r
  cases r'
  simp only [Regs.mk.injEq]
  exact ⟨h .f, h .x, h .y, h .z, h .e⟩

def whitespace : List Char := [' ', '\t']
def maxArgs : ℕ := 10
def gcodeUom : ℕ := 1000

/-! ## Fixed point -/

/-- `FXPT(dx, p)` for a `double`. -/
def fxptDouble (T : Target) (dx : Double) (p : ℕ) : Int32 := T.toInt32 (T.add (1 / 2) (T.mul p dx))

/-- `FXPT(dx, p)` for a `long`: the product is a `long`, the sum a `double`. -/
def fxptLong (T : Target) (dx : Int32) (p : ℕ) : Int32 :=
  T.toInt32 (T.add (1 / 2) (.fin (T.mulLong dx (Int32.ofNat p)).toInt))

/-- `FXPT` of the value of a word, in whichever field it is. -/
def fxpt (T : Target) (c : CmdData) (p : ℕ) : Int32 :=
  if c.isFloat then fxptDouble T c.dval p else fxptLong T c.ival p

/-- `GCODE_UNITS` of the value of a word. -/
def gcodeUnits (T : Target) (c : CmdData) : Int32 := fxpt T c gcodeUom

/-! ## `_get_xyzef` -/

/-- `if(!param->rel_pos) param->x = 0; param->x += k;` -/
def place (relPos : Bool) (old k : Int32) : Int32 := (if relPos then old else 0) + k

/-- The body of the loop of `_get_xyzef`. -/
def xyzefStep (T : Target) (cmdData : List CmdData) (param : Param) (i : ℕ) : Param :=
  let c := cmdData.getD i {}
  match c.cmdLtr with
  | 'X' => { param with x := place param.relPos param.x (gcodeUnits T c) }
  | 'Y' => { param with y := place param.relPos param.y (gcodeUnits T c) }
  | 'Z' => { param with z := place param.relPos param.z (gcodeUnits T c) }
  | 'E' => { param with e := place param.relPos param.e (gcodeUnits T c) }
  | 'F' => { param with f := gcodeUnits T c }
  -- the value is read from entry 1, whichever entry the 'S' is
  | 'S' =>
    let c₁ := cmdData.getD 1 {}
    let temp := if c.isFloat then fxptDouble T c₁.dval 1 else fxptLong T c₁.ival 1
    { param with targetTemp := temp }
  | _ => param

def getXyzef (T : Target) (argc : ℕ) (cmdData : List CmdData) (param : Param) :
    GcodeError × Param :=
  (.ok, (List.range' 1 (argc - 1)).foldl (xyzefStep T cmdData) param)

/-! ## `_process_line` -/

/-- The first word: only its letter and its integer are taken. -/
def firstCmd (token : List Char) : CmdData :=
  { cmdLtr := first token, ival := strtol token.tail }

/-- Every later word: `strtod` when a point follows the letter, else `strtol`. -/
def argCmd (T : Target) (token : List Char) : CmdData :=
  if '.' ∈ token.tail then
    { cmdLtr := first token, isFloat := true, dval := strtod T.fl token.tail }
  else { cmdLtr := first token, ival := strtol token.tail }

/-- The `while` loop over the later words, as the stores to `cmd_data` it makes.
`room` is `_MAX_ARGS - argc`, so the loop's guard fails at 0. -/
def tokenLoop (T : Target) : (room argc : ℕ) → (rest : List Char) → List (ℕ × CmdData)
  | 0, _, _ => []
  | room + 1, argc, rest =>
    match strtokR whitespace rest with
    | none => []
    | some (token, rest) => (argc, argCmd T token) :: tokenLoop T room (argc + 1) rest

/-- The stores to `cmd_data` made for the string `s`. There is a first token,
since `s` starts with a letter. -/
def stores (T : Target) (s : List Char) : List (ℕ × CmdData) :=
  match strtokR whitespace s with
  | none => []
  | some (token, rest) => (0, firstCmd token) :: tokenLoop T (maxArgs - 1) 1 rest

/-- `cmd_data`: zeroed, then written by the stores. -/
def fill (ss : List (ℕ × CmdData)) : List CmdData :=
  ss.foldl (fun a s => a.set s.1 s.2) (List.replicate maxArgs {})

/-- One inherit/update pair: -1 stands for a word that is not there. -/
def inherit (v : Int32) (curr : UInt32) : Int32 × UInt32 :=
  if v = -1 then (curr.toInt32, curr) else (v, v.toUInt32)

/-- The `param` a move starts from. -/
def unset : Param := { x := -1, y := -1, z := -1, e := -1, f := -1 }

/-- `case 0: case 1:` of the switch, after `_get_xyzef` has filled `param`. -/
def inheritAll (regs : Regs) (param : Param) : Regs × Param :=
  let (f, feedrate) := inherit param.f regs.feedrate
  let (x, cx) := inherit param.x regs.x
  let (y, cy) := inherit param.y regs.y
  let (z, cz) := inherit param.z regs.z
  let (e, ce) := inherit param.e regs.e
  (⟨feedrate, cx, cy, cz, ce⟩, { param with f := f, x := x, y := y, z := z, e := e })

/-- The two nested switches. G28, G29, G90, G91, G92, every other G word and
every M word have empty bodies. -/
def dispatch (T : Target) (regs : Regs) (argc : ℕ) (cmdData : List CmdData) : Regs × Param :=
  let c := cmdData.getD 0 {}
  if c.cmdLtr = 'G' then
    if c.ival = 0 ∨ c.ival = 1 then inheritAll regs (getXyzef T argc cmdData unset).2
    else (regs, {})
  else (regs, {})

/-- What `_process_line` returns, writes and prints. -/
structure LineResult where
  ret : GcodeError := .ok
  regs : Regs
  param : Param := {}
  msgs : List Msg := []
  deriving DecidableEq, Repr

def processLine (T : Target) (regs : Regs) (line : List Char) : LineResult :=
  let s := cstr line
  if first s = 'G' ∨ first s = 'M' then
    let argc := (stores T s).length
    if argc ≥ maxArgs then
      -- strtok_r has cut the buffer behind its first token by now
      let cut := s.takeWhile (!isDelim whitespace ·)
      { regs, msgs := [⟨"MAX ARGS reached, dropping cmd: %s\r\n", [.str cut]⟩] }
    else
      let (regs, param) := dispatch T regs argc (fill (stores T s))
      { regs, param }
  else { regs, msgs := [⟨"UNSUPPORTED cmd: %d\r\n", [.addr "line"]⟩] }

/-- The registers after a sequence of lines. -/
def processLines (T : Target) (regs : Regs) (lines : List (List Char)) : Regs :=
  lines.foldl (fun r l => (processLine T r l).regs) regs

/-! ## What `_get_xyzef` leaves on each axis -/

def Axis.isRel : Axis → Bool
  | .f => false
  | _ => true

/-- The last word of a list that carries the letter of an axis. -/
def lastWord (a : Axis) (words : List CmdData) : Option CmdData :=
  (words.filter (·.cmdLtr = a.letter)).getLast?

theorem lastWord_cons (a : Axis) (w : CmdData) (ws : List CmdData) :
    lastWord a (w :: ws) =
      if w.cmdLtr = a.letter then some ((lastWord a ws).getD w) else lastWord a ws := by
  unfold lastWord
  by_cases h : w.cmdLtr = a.letter
  · rw [List.filter_cons_of_pos (by simpa using h), List.getLast?_cons, if_pos h]
  · rw [List.filter_cons_of_neg (by simpa using h), if_neg h]

theorem xyzefStep_relPos (T : Target) (cmdData : List CmdData) (param : Param) (i : ℕ) :
    (xyzefStep T cmdData param i).relPos = param.relPos := by
  unfold xyzefStep
  simp only
  split <;> rfl

/-- One turn of the loop changes an axis only for a word with its letter. -/
theorem xyzefStep_get (T : Target) (cmdData : List CmdData) (param : Param) (i : ℕ) (a : Axis) :
    (xyzefStep T cmdData param i).get a =
      if (cmdData.getD i {}).cmdLtr = a.letter then
        place (a.isRel && param.relPos) (param.get a) (gcodeUnits T (cmdData.getD i {}))
      else param.get a := by
  unfold xyzefStep
  generalize cmdData.getD i {} = c
  simp only
  split <;> rename_i hc <;> cases a <;>
    simp_all [Axis.letter, Axis.isRel, Param.get, place]

/-- The conversions of the words of an axis, in order. -/
def axisUnits (T : Target) (a : Axis) (words : List CmdData) : List Int32 :=
  (words.filter (·.cmdLtr = a.letter)).map (gcodeUnits T)

/-- The loop places the words of an axis one after another, in the mode it is
started in, whatever stands between them. -/
theorem foldl_xyzefStep_place (T : Target) (cmdData : List CmdData) (is : List ℕ) (param : Param)
    (a : Axis) :
    (is.foldl (xyzefStep T cmdData) param).get a =
      (axisUnits T a (is.map (cmdData.getD · {}))).foldl (place (a.isRel && param.relPos))
        (param.get a) := by
  unfold axisUnits
  induction is generalizing param with
  | nil => rfl
  | cons i is ih =>
    rw [List.foldl_cons, ih, xyzefStep_relPos, xyzefStep_get, List.map_cons]
    by_cases hc : (cmdData.getD i {}).cmdLtr = a.letter
    · rw [if_pos hc, List.filter_cons_of_pos (by simpa using hc), List.map_cons, List.foldl_cons]
    · rw [if_neg hc, List.filter_cons_of_neg (by simpa using hc)]

/-- In absolute mode the last value stays. -/
theorem foldl_place_abs (ks : List Int32) (old : Int32) :
    ks.foldl (place false) old = ks.getLast?.getD old := by
  induction ks generalizing old with
  | nil => rfl
  | cons k ks ih =>
    have hplace : place false old k = k := by simp [place]
    rw [List.foldl_cons, ih, hplace, List.getLast?_cons, Option.getD_some]

theorem axisUnits_getLast (T : Target) (a : Axis) (words : List CmdData) :
    (axisUnits T a words).getLast? = (lastWord a words).map (gcodeUnits T) :=
  List.getLast?_map

/-- In absolute mode an axis ends at its last word, or where it was. -/
theorem foldl_xyzefStep_get (T : Target) (cmdData : List CmdData) (is : List ℕ) (param : Param)
    (hp : param.relPos = false) (a : Axis) :
    (is.foldl (xyzefStep T cmdData) param).get a =
      ((lastWord a (is.map (cmdData.getD · {}))).map (gcodeUnits T)).getD (param.get a) := by
  rw [foldl_xyzefStep_place, hp, Bool.and_false, foldl_place_abs, axisUnits_getLast]

/-! ## What the tokenising loop stores -/

/-- The words of a line behind its first. -/
def args (T : Target) (line : List Char) : List CmdData :=
  (tokens whitespace (cstr line)).tail.map (argCmd T)

/-- The loop stores the next words, as many as there is room for, in a row. -/
theorem tokenLoop_eq (T : Target) (room argc : ℕ) (rest : List Char) :
    tokenLoop T room argc rest =
      ((((tokens whitespace rest).take room).map (argCmd T)).zipIdx argc).map Prod.swap := by
  induction room generalizing argc rest with
  | zero => simp [tokenLoop]
  | succ room ih =>
    unfold tokenLoop
    cases h : strtokR whitespace rest with
    | none => simp [strtokR_none h]
    | some p =>
      obtain ⟨token, rest'⟩ := p
      simp only [ih, strtokR_some h, List.take_succ_cons, List.map_cons, List.zipIdx_cons,
        Prod.swap_prod_mk]

/-- Stores in a row fill the zeroed array from the place they start at. -/
theorem foldl_set_zipIdx (done cs : List CmdData) (room : ℕ) (h : cs.length ≤ room) :
    ((cs.zipIdx done.length).map Prod.swap).foldl (fun a s => a.set s.1 s.2)
        (done ++ List.replicate room ({} : CmdData)) =
      done ++ cs ++ List.replicate (room - cs.length) ({} : CmdData) := by
  induction cs generalizing done room with
  | nil => simp
  | cons c cs ih =>
    obtain ⟨room, rfl⟩ : ∃ r, room = r + 1 := ⟨room - 1, by simp at h; omega⟩
    have hset : (done ++ List.replicate (room + 1) ({} : CmdData)).set done.length c =
        (done ++ [c]) ++ List.replicate room ({} : CmdData) := by
      rw [List.replicate_succ, List.set_append_right _ _ (Nat.le_refl _)]
      simp
    have hlen : done.length + 1 = (done ++ [c]).length := by simp
    simp only [List.zipIdx_cons, List.map_cons, Prod.swap_prod_mk, List.foldl_cons]
    rw [hset, hlen, ih (done ++ [c]) room (by simpa using h)]
    simp [Nat.add_sub_add_right]

/-- The stores of a string with a first token: the first word, then up to nine. -/
theorem stores_eq (T : Target) (s token : List Char) (ts : List (List Char))
    (h : tokens whitespace s = token :: ts) :
    stores T s =
      ((firstCmd token :: (ts.take (maxArgs - 1)).map (argCmd T)).zipIdx 0).map Prod.swap := by
  unfold stores
  cases hs : strtokR whitespace s with
  | none => simp [strtokR_none hs] at h
  | some p =>
    obtain ⟨token', rest⟩ := p
    obtain ⟨rfl, rfl⟩ := List.cons.inj ((strtokR_some hs).symm.trans h)
    simp only [tokenLoop_eq, List.zipIdx_cons, List.map_cons, Prod.swap_prod_mk]

theorem stores_length (T : Target) (s token : List Char) (ts : List (List Char))
    (h : tokens whitespace s = token :: ts) :
    (stores T s).length = min (ts.length + 1) maxArgs := by
  simp only [stores_eq T s token ts h, List.length_map, List.length_zipIdx, List.length_cons,
    List.length_take, maxArgs]
  omega

theorem fill_stores (T : Target) (s token : List Char) (ts : List (List Char))
    (h : tokens whitespace s = token :: ts) :
    fill (stores T s) =
      firstCmd token :: (ts.take (maxArgs - 1)).map (argCmd T) ++
        List.replicate (maxArgs - (stores T s).length) ({} : CmdData) := by
  have hle : (firstCmd token :: (ts.take (maxArgs - 1)).map (argCmd T)).length ≤ maxArgs := by
    simp [maxArgs]
  rw [fill, stores_length T s token ts h, stores_eq T s token ts h]
  have := foldl_set_zipIdx [] _ maxArgs hle
  simp only [List.length_nil, List.nil_append] at this
  rw [this]
  simp only [List.length_cons, List.length_map, List.length_take]
  congr 2
  omega

/-! ## What `_process_line` does with a line -/

/-- A line that moves: a 'G', then a 0 or a 1, and fewer than ten words. -/
def Accepted (line : List Char) : Prop :=
  first (cstr line) = 'G' ∧
  (strtol ((tokens whitespace (cstr line)).headD []).tail = 0 ∨
    strtol ((tokens whitespace (cstr line)).headD []).tail = 1) ∧
  (tokens whitespace (cstr line)).length < maxArgs

instance (line : List Char) : Decidable (Accepted line) :=
  inferInstanceAs (Decidable (_ ∧ _ ∧ _))

/-- `param` as `_get_xyzef` leaves it for a line. -/
def lineMove (T : Target) (line : List Char) : Param :=
  (getXyzef T (stores T (cstr line)).length (fill (stores T (cstr line))) unset).2

theorem tokens_of_letter {s : List Char} {c : Char} (hc : c = 'G' ∨ c = 'M') (h : first s = c) :
    ∃ token ts, tokens whitespace s = token :: ts ∧ first token = c := by
  have hnul : first s ≠ nul := by
    rcases hc with rfl | rfl <;> rw [h] <;> decide
  have hd : isDelim whitespace (first s) = false := by
    rcases hc with rfl | rfl <;> rw [h] <;> decide
  exact h ▸ tokens_of_first hnul hd

theorem map_range'_getD (c : CmdData) (cs zs : List CmdData) :
    (List.range' 1 cs.length).map ((c :: cs ++ zs).getD · {}) = cs := by
  apply List.ext_getElem
  · simp
  · intro i h₁ h₂
    have hi : i < cs.length := h₂
    simp [Nat.add_comm 1 i, List.getElem?_append_left hi, List.getElem?_eq_getElem hi]

/-- On an accepted line `cmd_data` holds the words behind the first one from
entry 1 on, and zeros behind them. -/
theorem cmdData_eq (T : Target) {line : List Char} (h : Accepted line) :
    ∃ c n, fill (stores T (cstr line)) = c :: args T line ++ List.replicate (n + 1) ({} : CmdData) ∧
      (stores T (cstr line)).length - 1 = (args T line).length := by
  obtain ⟨hG, -, hlen⟩ := h
  obtain ⟨token, ts, ht, -⟩ := tokens_of_letter (.inl rfl) hG
  rw [ht, List.length_cons] at hlen
  have hargs : args T line = ts.map (argCmd T) := by rw [args, ht, List.tail_cons]
  have htake : ts.take (maxArgs - 1) = ts := List.take_of_length_le (by omega)
  have hlength := stores_length T _ token ts ht
  have hroom : maxArgs - (stores T (cstr line)).length = maxArgs - 2 - ts.length + 1 := by
    rw [hlength]
    unfold maxArgs at hlen ⊢
    omega
  refine ⟨firstCmd token, maxArgs - 2 - ts.length, ?_, ?_⟩
  · rw [fill_stores T _ token ts ht, htake, ← hargs, hroom]
  · rw [hlength, hargs, List.length_map]
    omega

theorem entry_one (T : Target) {line : List Char} (h : Accepted line) :
    (fill (stores T (cstr line))).getD 1 {} = (args T line).headD {} := by
  obtain ⟨c, n, hfill, -⟩ := cmdData_eq T h
  rw [hfill]
  cases args T line <;> rfl

theorem map_entries (T : Target) {line : List Char} (h : Accepted line) :
    (List.range' 1 ((stores T (cstr line)).length - 1)).map
      ((fill (stores T (cstr line))).getD · {}) = args T line := by
  obtain ⟨c, n, hfill, hargc⟩ := cmdData_eq T h
  rw [hargc, hfill, map_range'_getD]

/-- The loop of `_get_xyzef` goes over the words behind the first one. -/
theorem lineMove_get (T : Target) {line : List Char} (h : Accepted line) (a : Axis) :
    (lineMove T line).get a = ((lastWord a (args T line)).map (gcodeUnits T)).getD (-1) := by
  have hunset : unset.get a = -1 := by cases a <;> rfl
  unfold lineMove getXyzef
  rw [foldl_xyzefStep_get T _ _ _ rfl, map_entries T h, hunset]

/-- An accepted line: each axis is inherited or updated, and nothing is printed. -/
theorem processLine_accepted (T : Target) (regs : Regs) {line : List Char} (h : Accepted line) :
    processLine T regs line =
      { regs := (inheritAll regs (lineMove T line)).1,
        param := (inheritAll regs (lineMove T line)).2 } := by
  obtain ⟨hG, hcode, hlen⟩ := h
  obtain ⟨token, ts, ht, hfirst⟩ := tokens_of_letter (.inl rfl) hG
  rw [ht, List.headD_cons] at hcode
  rw [ht, List.length_cons] at hlen
  have hargc : ¬ (stores T (cstr line)).length ≥ maxArgs := by
    rw [stores_length T _ token ts ht]
    omega
  have hcmd : (fill (stores T (cstr line))).getD 0 {} = firstCmd token := by
    rw [fill_stores T _ token ts ht]
    rfl
  unfold processLine
  simp only [hG, true_or, ↓reduceIte, hargc, dispatch, hcmd]
  rw [if_pos (by exact hfirst), if_pos (by exact hcode)]
  rfl

/-- Any other line leaves the registers alone and `param` zero. -/
theorem processLine_rejected (T : Target) (regs : Regs) {line : List Char} (h : ¬ Accepted line) :
    (processLine T regs line).regs = regs ∧ (processLine T regs line).param = {} := by
  unfold processLine
  simp only
  split
  · rename_i hGM
    split
    · exact ⟨rfl, rfl⟩
    · rename_i hargc
      obtain ⟨token, ts, ht, hfirst⟩ : ∃ token ts, tokens whitespace (cstr line) = token :: ts ∧
          first token = first (cstr line) := tokens_of_letter hGM rfl
      have hcmd : (fill (stores T (cstr line))).getD 0 {} = firstCmd token := by
        rw [fill_stores T _ token ts ht]
        rfl
      have hlen : ts.length + 1 < maxArgs := by
        rw [stores_length T _ token ts ht] at hargc
        omega
      unfold dispatch
      simp only [hcmd]
      split
      · rename_i hG
        rw [if_neg]
        · exact ⟨rfl, rfl⟩
        · intro hcode
          refine h ⟨hfirst ▸ hG, ?_, ?_⟩
          · rw [ht]
            exact hcode
          · rw [ht]
            exact hlen
      · exact ⟨rfl, rfl⟩
  · exact ⟨rfl, rfl⟩

theorem processLine_msgs {T : Target} {regs : Regs} {line : List Char} {m : Msg}
    (h : m ∈ (processLine T regs line).msgs) :
    m.fmt = "MAX ARGS reached, dropping cmd: %s\r\n" ∨ m.fmt = "UNSUPPORTED cmd: %d\r\n" := by
  unfold processLine at h
  simp only at h
  split at h
  · split at h
    · obtain rfl := List.mem_singleton.mp h
      exact .inl rfl
    · cases h
  · obtain rfl := List.mem_singleton.mp h
    exact .inr rfl

theorem inheritAll_get (regs : Regs) (param : Param) (a : Axis) :
    ((inheritAll regs param).2.get a, (inheritAll regs param).1.get a) =
      inherit (param.get a) (regs.get a) := by
  cases a <;> rfl

end GcodeFatfs.GcodeParser
