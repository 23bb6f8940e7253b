import Mathlib.Data.List.Induction

/-! Step machines whose steps are labelled, and what holds along their runs. -/

namespace GcodeFatfs.Machine

variable {σ ι : Type} (step : σ → ι → Option σ)

/-- The state after the labels of a list, if each can be taken in turn. -/
def run (s : σ) (ls : List ι) : Option σ := ls.foldlM step s

variable {step}

@[simp] theorem run_nil (s : σ) : run step s [] = some s := rfl

theorem run_append (s : σ) (ls ls' : List ι) :
    run step s (ls ++ ls') = (run step s ls).bind (run step · ls') := by
  simp [run, List.foldlM_append]

theorem run_concat {s s' : σ} {ls : List ι} {l : ι} :
    run step s (ls ++ [l]) = some s' ↔ ∃ m, run step s ls = some m ∧ step m l = some s' := by
  rw [run_append]
  simp [run, Option.bind_eq_some_iff]

/-- A run passes through a state at each of its prefixes. -/
theorem run_prefix {s s' : σ} {p ls : List ι} (h : run step s ls = some s') (hp : p <+: ls) :
    ∃ m, run step s p = some m := by
  obtain ⟨q, rfl⟩ := hp
  rw [run_append] at h
  obtain ⟨m, hm, -⟩ := Option.bind_eq_some_iff.mp h
  exact ⟨m, hm⟩

/-- What holds of the start and is kept by each step, together with the labels
taken so far, holds along every run. -/
theorem run_invariant {J : List ι → σ → Prop} {s₀ : σ} (h₀ : J [] s₀)
    (hstep : ∀ ls s l s', J ls s → step s l = some s' → J (ls ++ [l]) s') {ls : List ι} {s : σ}
    (h : run step s₀ ls = some s) : J ls s := by
  induction ls using List.reverseRecOn generalizing s with
  | nil =>
    obtain rfl := Option.some.inj h
    exact h₀
  | append_singleton ls l ih =>
    obtain ⟨m, hm, hl⟩ := run_concat.mp h
    exact hstep ls m l s (ih hm) hl

/-- Steps that never raise `rank`, and lower it when they are marked: a run takes
no more marked ones than the rank it starts from. -/
theorem run_countP_le {P : σ → Prop} {ok : ι → Prop} {marked : ι → Bool} {rank : σ → ℕ}
    (hstep : ∀ s l s', P s → ok l → step s l = some s' →
      P s' ∧ rank s' + (if marked l then 1 else 0) ≤ rank s) {s s' : σ} {ls : List ι} (hs : P s)
    (hok : ∀ l ∈ ls, ok l) (h : run step s ls = some s') : ls.countP marked + rank s' ≤ rank s := by
  induction ls generalizing s with
  | nil =>
    obtain rfl := Option.some.inj h
    simp
  | cons l ls ih =>
    obtain ⟨m, hm, hrest⟩ := Option.bind_eq_some_iff.mp h
    obtain ⟨hl, hls⟩ := List.forall_mem_cons.mp hok
    obtain ⟨hPm, hrank⟩ := hstep s l m hs hl hm
    have hle := ih hPm hls hrest
    rw [List.countP_cons]
    omega

end GcodeFatfs.Machine
