import GcodeFatfs.GcodeParser

/-! The postcondition of `_get_xyzef` by itself: for any `param` it is given, in
either positioning mode, and any words. `_process_line` only calls it in absolute
mode. -/

namespace GcodeFatfs.Positioning
open GcodeFatfs.CArith GcodeFatfs.GcodeParser

/-! ## The words of the loop -/

/-- Entries 1 to `argc - 1` of `cmd_data`. -/
def entries (argc : ℕ) (cmdData : List CmdData) : List CmdData := (cmdData.take argc).tail

/-- `param` as `_get_xyzef` leaves it. -/
def moved (T : Target) (argc : ℕ) (cmdData : List CmdData) (param : Param) : Param :=
  (getXyzef T argc cmdData param).2

theorem map_getD_entries {argc : ℕ} {cmdData : List CmdData} (hargc : argc ≤ cmdData.length) :
    (List.range' 1 (argc - 1)).map (cmdData.getD · {}) = entries argc cmdData := by
  unfold entries
  apply List.ext_getElem
  · simp [Nat.min_eq_left hargc]
  · intro i h₁ h₂
    have hi : 1 + i < cmdData.length := by
      simp only [List.length_map, List.length_range'] at h₁
      omega
    simp [Nat.add_comm i 1, List.getElem?_eq_getElem hi]

/-! ## What a turn of the loop leaves alone -/

/-- Only the fields of a move differ: the axes, the feed rate, the temperature. -/
def MoveOnly (param param' : Param) : Prop :=
  param' = { param with
    x := param'.x, y := param'.y, z := param'.z, e := param'.e, f := param'.f,
    targetTemp := param'.targetTemp }

theorem MoveOnly.trans {param param' param'' : Param} (h : MoveOnly param param')
    (h' : MoveOnly param' param'') : MoveOnly param param'' := by
  cases param
  cases param'
  cases param''
  simp_all [MoveOnly]

theorem xyzefStep_moveOnly (T : Target) (cmdData : List CmdData) (param : Param) (i : ℕ) :
    MoveOnly param (xyzefStep T cmdData param i) := by
  unfold xyzefStep
  simp only
  split <;> rfl

theorem foldl_xyzefStep_moveOnly (T : Target) (cmdData : List CmdData) (is : List ℕ)
    (param : Param) : MoveOnly param (is.foldl (xyzefStep T cmdData) param) := by
  induction is generalizing param with
  | nil => rfl
  | cons i is ih => exact (xyzefStep_moveOnly T cmdData param i).trans (ih _)

/-! ## The temperature -/

/-- What `FXPT` makes of the word `c₁` for an 'S' of the form of `c`. -/
def heat (T : Target) (c₁ c : CmdData) : Int32 :=
  if c.isFloat then fxptDouble T c₁.dval 1 else fxptLong T c₁.ival 1

theorem xyzefStep_targetTemp (T : Target) (cmdData : List CmdData) (param : Param) (i : ℕ) :
    (xyzefStep T cmdData param i).targetTemp =
      if (cmdData.getD i {}).cmdLtr = 'S' then heat T (cmdData.getD 1 {}) (cmdData.getD i {})
      else param.targetTemp := by
  unfold xyzefStep heat
  generalize cmdData.getD i {} = c
  simp only
  split <;> rename_i hc <;> simp_all

/-- The last 'S' says which field of entry 1 is the temperature. -/
theorem foldl_xyzefStep_targetTemp (T : Target) (cmdData : List CmdData) (is : List ℕ)
    (param : Param) :
    (is.foldl (xyzefStep T cmdData) param).targetTemp =
      ((((is.map (cmdData.getD · {})).filter (·.cmdLtr = 'S')).getLast?).map
        (heat T (cmdData.getD 1 {}))).getD param.targetTemp := by
  induction is generalizing param with
  | nil => rfl
  | cons i is ih =>
    rw [List.foldl_cons, ih, xyzefStep_targetTemp, List.map_cons]
    by_cases hc : (cmdData.getD i {}).cmdLtr = 'S'
    · rw [if_pos hc, List.filter_cons_of_pos (by simpa using hc), List.getLast?_cons]
      cases ((is.map (cmdData.getD · {})).filter (·.cmdLtr = 'S')).getLast? <;> rfl
    · rw [if_neg hc, List.filter_cons_of_neg (by simpa using hc)]

/-! ## The postcondition -/

theorem moved_get (T : Target) (param : Param) (cmdData : List CmdData) (argc : ℕ)
    (hargc : argc ≤ cmdData.length) (a : Axis) :
    (moved T argc cmdData param).get a =
      (axisUnits T a (entries argc cmdData)).foldl (place (a.isRel && param.relPos))
        (param.get a) := by
  unfold moved getXyzef
  rw [foldl_xyzefStep_place, map_getD_entries hargc]

theorem moved_targetTemp (T : Target) (param : Param) (cmdData : List CmdData) (argc : ℕ)
    (hargc : argc ≤ cmdData.length) :
    (moved T argc cmdData param).targetTemp =
      ((((entries argc cmdData).filter (·.cmdLtr = 'S')).getLast?).map
        (heat T (cmdData.getD 1 {}))).getD param.targetTemp := by
  unfold moved getXyzef
  rw [foldl_xyzefStep_targetTemp, map_getD_entries hargc]

theorem isRel_iff (a : Axis) : a.isRel = true ↔ a ≠ .f := by
  cases a <;> decide

/-- **Positioning.** In absolute mode an axis ends at the conversion of its last
word, in relative mode at its start and the sum of the conversions of all its
words, if no addition overflows. The feed rate is absolute in either mode. An axis
without a word stays, and so does every field that is no part of a move. -/
theorem getXyzef_post (T : Target) (param : Param) (cmdData : List CmdData) (argc : ℕ)
    (hargc : argc ≤ cmdData.length) :
    (param.relPos = false → ∀ a, a ≠ .f →
      (moved T argc cmdData param).get a =
        ((lastWord a (entries argc cmdData)).map (gcodeUnits T)).getD (param.get a)) ∧
    (param.relPos = true → ∀ a, a ≠ .f →
      SumsFit (param.get a).toInt ((axisUnits T a (entries argc cmdData)).map Int32.toInt) →
        ((moved T argc cmdData param).get a).toInt =
          (param.get a).toInt + ((axisUnits T a (entries argc cmdData)).map Int32.toInt).sum) ∧
    (moved T argc cmdData param).f =
      ((lastWord .f (entries argc cmdData)).map (gcodeUnits T)).getD param.f ∧
    MoveOnly param (moved T argc cmdData param) := by
  refine ⟨?_, ?_, ?_, foldl_xyzefStep_moveOnly T cmdData _ param⟩
  · intro hrel a _
    rw [moved_get T param cmdData argc hargc, hrel, Bool.and_false, foldl_place_abs,
      axisUnits_getLast]
  · intro hrel a ha hfit
    have hplace : place true = (· + ·) := rfl
    rw [moved_get T param cmdData argc hargc, hrel, (isRel_iff a).mpr ha, Bool.and_true, hplace]
    exact toInt_foldl_add hfit
  · have hf := moved_get T param cmdData argc hargc .f
    rw [show Axis.f.isRel = false from rfl, Bool.false_and, foldl_place_abs,
      axisUnits_getLast] at hf
    exact hf

/-- G1 X1 Y2.5 S X0.5 -/
def twoSteps : List CmdData :=
  [{ cmdLtr := 'G', ival := 1 }, { cmdLtr := 'X', ival := 1 },
    { cmdLtr := 'Y', isFloat := true, dval := .fin (5 / 2) }, { cmdLtr := 'S' },
    { cmdLtr := 'X', isFloat := true, dval := .fin (1 / 2) }]

theorem twoSteps_units : axisUnits .exact .x (entries 5 twoSteps) = [1000, 500] := by
  decide +kernel

/-- From 7 mm the two words go to 0.5 mm, or by 1.5 mm. -/
theorem getXyzef_post_twoSteps :
    (moved .exact 5 twoSteps { x := 7000 }).get .x = 500 ∧
      ((moved .exact 5 twoSteps { x := 7000, relPos := true }).get .x).toInt = 7000 + 1500 := by
  have hlast := axisUnits_getLast .exact .x (entries 5 twoSteps)
  rw [twoSteps_units] at hlast
  have habs := (getXyzef_post .exact { x := 7000 } twoSteps 5 (by decide)).1 rfl .x (by decide)
  have hrel := (getXyzef_post .exact { x := 7000, relPos := true } twoSteps 5 (by decide)).2.1
    rfl .x (by decide)
  rw [twoSteps_units] at hrel
  rw [← hlast] at habs
  exact ⟨habs, hrel ⟨by decide, by decide, trivial⟩⟩

end GcodeFatfs.Positioning
