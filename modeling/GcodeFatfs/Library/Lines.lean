import Mathlib.Data.List.Basic

/-! Lines of a text and a reader that takes them through a buffer of bounded
size. The symbols that `skip` marks are dropped while reading. -/

namespace GcodeFatfs.Lines

section Lines
variable {α : Type} [DecidableEq α] (nl : α) (skip : α → Bool)

/-- The pieces of a text, each up to and including its `nl`. -/
def lines : List α → List (List α)
  | [] => []
  | c :: cs =>
    if c = nl then [c] :: lines cs
    else match lines cs with
      | [] => [[c]]
      | l :: ls => (c :: l) :: ls

/-- One read: up to and including the next `nl`, at most `room` symbols; and the
text that is left. -/
def readLine : (room : ℕ) → List α → List α × List α
  | 0, cs => ([], cs)
  | _ + 1, [] => ([], [])
  | room + 1, c :: cs =>
    if skip c then readLine (room + 1) cs
    else if c = nl then ([c], cs)
    else ((c :: (readLine room cs).1), (readLine room cs).2)

theorem readLine_length_le (room : ℕ) (cs : List α) :
    (readLine nl skip room cs).1.length + (readLine nl skip room cs).2.length ≤ cs.length := by
  induction cs generalizing room with
  | nil => cases room <;> simp [readLine]
  | cons c cs ih =>
    cases room with
    | zero => simp [readLine]
    | succ room =>
      unfold readLine
      split
      · have := ih (room + 1)
        simp only [List.length_cons]
        omega
      split
      · simp only [List.length_cons, List.length_nil]
        omega
      · have := ih room
        simp only [List.length_cons]
        omega

theorem readLine_shorter {room : ℕ} {cs : List α} (h : (readLine nl skip room cs).1 ≠ []) :
    (readLine nl skip room cs).2.length < cs.length := by
  have hle := readLine_length_le nl skip room cs
  have hpos := List.length_pos_iff.mpr h
  omega

/-- Reading until nothing comes. -/
def reads (room : ℕ) (cs : List α) : List (List α) :=
  if _h : (readLine nl skip room cs).1 = [] then []
  else (readLine nl skip room cs).1 :: reads room (readLine nl skip room cs).2
termination_by cs.length
decreasing_by exact readLine_shorter nl skip _h

theorem reads_nil {room : ℕ} {cs : List α} (h : (readLine nl skip room cs).1 = []) :
    reads nl skip room cs = [] := by
  rw [reads, dif_pos h]

theorem reads_cons {room : ℕ} {cs : List α} (h : (readLine nl skip room cs).1 ≠ []) :
    reads nl skip room cs =
      (readLine nl skip room cs).1 :: reads nl skip room (readLine nl skip room cs).2 := by
  rw [reads, dif_neg h]

/-- The text without the symbols that are dropped. -/
abbrev kept (cs : List α) : List α := cs.filter (!skip ·)

variable {nl skip}

theorem lines_eq_nil {cs : List α} : lines nl cs = [] ↔ cs = [] := by
  cases cs with
  | nil => simp [lines]
  | cons c cs =>
    unfold lines
    split
    · simp
    · split <;> simp

theorem lines_ne_nil {cs l : List α} (h : l ∈ lines nl cs) : l ≠ [] := by
  induction cs generalizing l with
  | nil => simp [lines] at h
  | cons c cs ih =>
    unfold lines at h
    split at h
    · rcases List.mem_cons.mp h with rfl | h
      · simp
      · exact ih h
    · split at h
      · obtain rfl := List.mem_singleton.mp h
        simp
      · rename_i l' ls heq
        rcases List.mem_cons.mp h with rfl | h
        · simp
        · exact ih (heq ▸ List.mem_cons_of_mem l' h)

theorem readLine_kept_nil (room : ℕ) (cs : List α) (h : kept skip cs = []) :
    (readLine nl skip room cs).1 = [] ∧ kept skip (readLine nl skip room cs).2 = [] := by
  induction cs generalizing room with
  | nil => cases room <;> simp [readLine]
  | cons c cs ih =>
    cases room with
    | zero => exact ⟨rfl, h⟩
    | succ room =>
      have hskip : skip c = true := by
        by_contra hc
        simp [hc] at h
      rw [readLine, if_pos hskip]
      exact ih (room + 1) (by simpa [hskip] using h)

/-- One read takes the first line, or as much of it as there is room for. -/
theorem readLine_lines (room : ℕ) (cs l : List α) (ls : List (List α))
    (h : lines nl (kept skip cs) = l :: ls) :
    (readLine nl skip room cs).1 = l.take room ∧
      lines nl (kept skip (readLine nl skip room cs).2) =
        if l.length ≤ room then ls else l.drop room :: ls := by
  induction cs generalizing room l ls with
  | nil => simp [lines] at h
  | cons c cs ih =>
    cases room with
    | zero =>
      have hl : l ≠ [] := lines_ne_nil (h ▸ List.mem_cons_self)
      simpa [readLine, hl] using h
    | succ room =>
      by_cases hskip : skip c = true
      · rw [readLine, if_pos hskip]
        exact ih (room + 1) l ls (by simpa [hskip] using h)
      · have hkept : kept skip (c :: cs) = c :: kept skip cs := by simp [hskip]
        rw [hkept] at h
        unfold lines at h
        by_cases hnl : c = nl
        · rw [if_pos hnl] at h
          obtain ⟨rfl, rfl⟩ := List.cons.inj h
          rw [readLine, if_neg hskip, if_pos hnl]
          simp
        · rw [if_neg hnl] at h
          rw [readLine, if_neg hskip, if_neg hnl]
          split at h
          · -- the last line, without an `nl`
            rename_i hnone
            obtain ⟨rfl, rfl⟩ := List.cons.inj h
            have hrest : (readLine nl skip room cs).1 = [] ∧
                kept skip (readLine nl skip room cs).2 = [] :=
              readLine_kept_nil room cs (lines_eq_nil.mp hnone)
            simp [hrest, lines]
          · rename_i l' ls' hcs
            obtain ⟨rfl, rfl⟩ := List.cons.inj h
            obtain ⟨htake, hdrop⟩ := ih room l' ls' hcs
            simp [htake, hdrop]

/-- The reads are the lines exactly when every line fits. -/
theorem reads_eq_lines_iff {room : ℕ} (hroom : 0 < room) (cs : List α) :
    reads nl skip room cs = lines nl (kept skip cs) ↔
      ∀ l ∈ lines nl (kept skip cs), l.length ≤ room := by
  induction cs using reads.induct nl skip room with
  | case1 cs h =>
    rw [reads_nil nl skip h]
    cases hl : lines nl (kept skip cs) with
    | nil => simp
    | cons l ls =>
      obtain ⟨htake, -⟩ := readLine_lines room cs l ls hl
      have hne : l ≠ [] := lines_ne_nil (hl ▸ List.mem_cons_self)
      rw [h] at htake
      simp [hne, Nat.pos_iff_ne_zero.mp hroom] at htake
  | case2 cs h ih =>
    rw [reads_cons nl skip h]
    cases hl : lines nl (kept skip cs) with
    | nil => exact absurd (readLine_kept_nil room cs (lines_eq_nil.mp hl)).1 h
    | cons l ls =>
      obtain ⟨htake, hrest⟩ := readLine_lines room cs l ls hl
      by_cases hle : l.length ≤ room
      · rw [if_pos hle] at hrest
        rw [hrest] at ih
        rw [htake, List.take_of_length_le hle]
        simp [ih, hle]
      · -- a line that does not fit is cut at its first read
        have hcut : l.take room ≠ l := by
          intro he
          have hlen := congrArg List.length he
          rw [List.length_take] at hlen
          omega
        simp [htake, hcut, hle]

/-! ## A text behind another -/

/-- A text that an `nl` closes, or none. -/
def Closed (nl : α) (cs : List α) : Prop := ∀ c ∈ cs.getLast?, c = nl

instance (cs : List α) : Decidable (Closed nl cs) := inferInstanceAs (Decidable (∀ c ∈ _, _))

omit [DecidableEq α] in
theorem closed_of_cons {c : α} {cs : List α} (h : Closed nl (c :: cs)) : Closed nl cs := by
  intro d hd
  cases cs with
  | nil => cases hd
  | cons e cs => exact h d (by simpa using hd)

/-- A read inside a closed text finds nothing else there with a text behind it. -/
theorem readLine_append (hskip : skip nl = false) (room : ℕ) {cs : List α} (hcs : cs ≠ [])
    (hclosed : Closed nl cs) (cs' : List α) :
    readLine nl skip room (cs ++ cs') =
        ((readLine nl skip room cs).1, (readLine nl skip room cs).2 ++ cs') ∧
      (room ≠ 0 → (readLine nl skip room cs).1 ≠ []) ∧ Closed nl (readLine nl skip room cs).2 := by
  induction cs generalizing room with
  | nil => exact absurd rfl hcs
  | cons c cs ih =>
    have hrest := closed_of_cons hclosed
    cases room with
    | zero => exact ⟨by simp [readLine], by simp, hclosed⟩
    | succ room =>
      by_cases hnl : c = nl
      · subst hnl
        simp [readLine, hskip, hrest]
      · have hne : cs ≠ [] := by
          rintro rfl
          exact hnl (hclosed c rfl)
        by_cases hc : skip c = true
        · obtain ⟨hread, hsome, hend⟩ := ih (room + 1) hne hrest
          simp only [List.cons_append, readLine, if_pos hc]
          exact ⟨hread, hsome, hend⟩
        · obtain ⟨hread, -, hend⟩ := ih room hne hrest
          simp only [List.cons_append, readLine, if_neg hc, if_neg hnl, hread]
          exact ⟨trivial, by simp, hend⟩

/-- A closed text is read up before the one behind it. -/
theorem reads_append (hskip : skip nl = false) {room : ℕ} (hroom : room ≠ 0) {cs : List α}
    (hclosed : Closed nl cs) (cs' : List α) :
    reads nl skip room (cs ++ cs') = reads nl skip room cs ++ reads nl skip room cs' := by
  induction cs using reads.induct nl skip room with
  | case1 cs h =>
    by_cases hcs : cs = []
    · subst hcs
      rw [reads_nil nl skip h]
      rfl
    · exact absurd h ((readLine_append hskip room hcs hclosed []).2.1 hroom)
  | case2 cs h ih =>
    have hcs : cs ≠ [] := by
      rintro rfl
      cases room <;> simp [readLine] at h
    obtain ⟨hread, -, hend⟩ := readLine_append hskip room hcs hclosed cs'
    have hboth : (readLine nl skip room (cs ++ cs')).1 ≠ [] := by
      rw [hread]
      exact h
    rw [reads_cons nl skip hboth, reads_cons nl skip h, hread, ih hend]
    rfl

/-- The first line of a text that starts with one. -/
theorem lines_append {l : List α} (h : nl ∉ l) (rest : List α) :
    lines nl (l ++ nl :: rest) = (l ++ [nl]) :: lines nl rest := by
  induction l with
  | nil => simp [lines]
  | cons c l ih =>
    obtain ⟨hc, hl⟩ : ¬ nl = c ∧ nl ∉ l := by simpa using h
    rw [List.cons_append, lines, if_neg (Ne.symm hc), ih hl]
    rfl

/-- Lines written one after another. -/
theorem lines_flatMap (ls : List (List α)) (h : ∀ l ∈ ls, nl ∉ l) :
    lines nl (ls.flatMap (· ++ [nl])) = ls.map (· ++ [nl]) := by
  induction ls with
  | nil => rfl
  | cons l ls ih =>
    obtain ⟨hl, hls⟩ := List.forall_mem_cons.mp h
    rw [List.flatMap_cons, List.append_assoc, List.singleton_append, lines_append hl, ih hls]
    rfl

end Lines

/-! ## Pieces of one length -/

section Chunks
variable {α : Type} {size : ℕ} {cs : List α}

/-- The pieces of a text read `size` symbols at a time, up to the first that is
shorter. -/
def chunks (size : ℕ) (cs : List α) : List (List α) :=
  if _h : 0 < size ∧ size ≤ cs.length then cs.take size :: chunks size (cs.drop size) else [cs]
termination_by cs.length
decreasing_by
  rw [List.length_drop]
  omega

theorem chunks_short (h : cs.length < size) : chunks size cs = [cs] := by
  rw [chunks, dif_neg (by omega)]

theorem chunks_long (hpos : 0 < size) (h : size ≤ cs.length) :
    chunks size cs = cs.take size :: chunks size (cs.drop size) := by
  rw [chunks, dif_pos ⟨hpos, h⟩]

end Chunks

end GcodeFatfs.Lines
