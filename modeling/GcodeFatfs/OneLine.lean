import GcodeFatfs.Toolpath
import GcodeFatfs.JobAlgebra

/-! Any history in one line. What some lines set last is all that is left of them,
and a single short line can ask for just that. -/

namespace GcodeFatfs.OneLine
open GcodeFatfs.CArith GcodeFatfs.CString GcodeFatfs.GcodeParser GcodeFatfs.Modal
open GcodeFatfs.Words GcodeFatfs.JobRun GcodeFatfs.JobAlgebra GcodeFatfs.Toolpath

variable {T : Target}

/-- A line sets each axis to what it asks for last. -/
theorem lineSets_askText (hT : T.Accurate) {asks : List (Axis × Int32)} (hlen : asks.length ≤ 7)
    (hsay : ∀ p ∈ asks, p.2 ≠ -1) (a : Axis) :
    lineSets T a (askText asks).text = ((asks.filter (·.1 = a)).getLast?).map Prod.snd := by
  rw [lineSets, if_pos (askText_accepted hlen), lastWord_askText, Option.map_map]
  cases hlast : (asks.filter (·.1 = a)).getLast? with
  | none => rfl
  | some p =>
    have hp : p ∈ asks := (List.mem_filter.mp (List.mem_of_getLast? hlast)).1
    simp only [Option.map_some, Function.comp_apply, gcodeUnits_wordOf hT]
    exact Option.filter_some_pos (by simpa using hsay p hp)

/-- The values of some axes, as far as they have one. -/
def asksOf (f : Axis → Option Int32) (as : List Axis) : List (Axis × Int32) :=
  as.filterMap fun a => (f a).map fun k => (a, k)

theorem length_asksOf (f : Axis → Option Int32) (as : List Axis) :
    (asksOf f as).length ≤ as.length :=
  List.length_filterMap_le _ _

theorem mem_asksOf {f : Axis → Option Int32} {as : List Axis} {p : Axis × Int32}
    (h : p ∈ asksOf f as) : f p.1 = some p.2 := by
  obtain ⟨a, -, ha⟩ := List.mem_filterMap.mp h
  obtain ⟨k, hk, rfl⟩ := Option.map_eq_some_iff.mp ha
  exact hk

theorem filter_asksOf (f : Axis → Option Int32) {as : List Axis} (h : as.Nodup) (a : Axis) :
    (asksOf f as).filter (·.1 = a) = if a ∈ as then ((f a).map fun k => (a, k)).toList else [] := by
  induction as with
  | nil => rfl
  | cons b as ih =>
    obtain ⟨hb, hrest⟩ := List.nodup_cons.mp h
    have ih := ih hrest
    unfold asksOf at ih ⊢
    by_cases hba : b = a
    · subst hba
      rw [if_neg hb] at ih
      cases hf : f b <;> simp [hf, ih]
    · cases hf : f b <;> simp [hf, ih, hba, Ne.symm hba]

theorem lastSet_ne (T : Target) (a : Axis) (ls : List (List Char)) : lastSet T a ls ≠ some (-1) := by
  intro h
  obtain ⟨line, -, hline⟩ := List.mem_filterMap.mp (List.mem_of_getLast? h)
  exact lineSets_ne T a line hline

/-- **One line.** On every accurate target any lines may be replaced by a single
one, which fits the line buffer. -/
theorem one_line (hT : T.Accurate) (ls : List (List Char)) :
    ∃ line, fileReads line = [line] ∧ Accepted line ∧ Equivalent T ls [line] := by
  let asks := asksOf (fun a => lastSet T a ls) axes
  have hlen : asks.length ≤ 5 := length_asksOf _ axes
  have hsay : ∀ p ∈ asks, p.2 ≠ -1 := by
    intro p hp he
    exact lastSet_ne T p.1 ls ((mem_asksOf hp).trans (congrArg some he))
  refine ⟨(askText asks).text, ?_, askText_accepted (by omega), equivalent_of_lastSet fun a => ?_⟩
  · have hreads := fileReads_asks [asks] (List.forall_mem_singleton.mpr hlen)
    rw [List.map_singleton, List.flatMap_singleton, List.map_singleton] at hreads
    exact hreads
  · have hmem : a ∈ axes := by cases a <;> decide
    have hone : lastSet T a [(askText asks).text] = lineSets T a (askText asks).text := by
      rw [lastSet]
      cases h : lineSets T a (askText asks).text <;> simp [h]
    rw [hone, lineSets_askText hT (by omega) hsay, filter_asksOf _ (by decide), if_pos hmem]
    cases lastSet T a ls <;> rfl

/-- Two moves in one. -/
theorem one_line_xJob_yJob :
    ∃ line, fileReads line = [line] ∧ Accepted line ∧
      Equivalent .exact ["G1 X1\n".toList, "G1 Y2\n".toList] [line] :=
  one_line Target.exact_accurate _

end GcodeFatfs.OneLine
