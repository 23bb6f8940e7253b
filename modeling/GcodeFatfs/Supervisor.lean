import GcodeFatfs.Library.Machine

/-! main.c: the supervision of the shell. `main` creates a shell before its loop
and others inside it, while the USB state changes and shells terminate at any
time. -/

namespace GcodeFatfs.Supervisor
open GcodeFatfs.Machine

/-- A shell thread, from `shellCreate` to `chThdRelease`. -/
inductive Shell where
  | live | terminated | released
  deriving DecidableEq, Repr

/-- Where `main` is: at the first `shellCreate`, at the tests of its loop, or at
what they lead to. -/
inductive Pc where
  | create | top | spawn | release | sleep
  deriving DecidableEq, Repr

/-- A shell is named by its place in `shells`, in the order of creation. -/
structure State where
  pc : Pc := .create
  usbActive : Bool := false
  shelltp : Option ℕ := none
  shells : List Shell := []
  deriving DecidableEq, Repr

/-- The steps of `main`, with the answers of `shellCreate` (NULL when the heap is
used up), and the steps of others. -/
inductive Label where
  | create (created : Bool)
  | test
  | spawn (created : Bool)
  | release
  | sleep
  | usb (active : Bool)
  | terminate (shell : ℕ)
  deriving DecidableEq, Repr

/-- `shellCreate`. -/
def State.shellCreate (s : State) (created : Bool) : State :=
  if created then { s with shells := s.shells ++ [.live] } else s

/-- `shelltp` is a local of `main`, so its tests and stores go with the step next
to them. -/
def step (s : State) : Label → Option State
  -- the pointer to the first shell is not kept
  | .create created =>
    if s.pc = .create then some { s.shellCreate created with pc := .top } else none
  | .test =>
    if s.pc = .top then
      match s.shelltp with
      | none => some { s with pc := if s.usbActive then .spawn else .sleep }
      | some tp =>
        some { s with pc := if s.shells[tp]? = some .terminated then .release else .sleep }
    else none
  | .spawn created =>
    if s.pc = .spawn then
      let shelltp := if created then some s.shells.length else none
      some { s.shellCreate created with shelltp := shelltp, pc := .sleep }
    else none
  | .release =>
    match s.shelltp with
    | some tp =>
      if s.pc = .release then
        some { s with shells := s.shells.set tp .released, shelltp := none, pc := .sleep }
      else none
    | none => none
  | .sleep => if s.pc = .sleep then some { s with pc := .top } else none
  | .usb active => some { s with usbActive := active }
  | .terminate shell =>
    if s.shells[shell]? = some .live then
      some { s with shells := s.shells.set shell .terminated }
    else none

/-- The shells created and not yet released. -/
def State.unreleased (s : State) : ℕ := s.shells.countP (· ≠ .released)

/-- What the steps taken so far say about a state: the unreleased shells are the
first one, which is never released, and the one `shelltp` points to. -/
structure History (ls : List Label) (s : State) : Prop where
  created_once : ∀ b b', .create b ∈ ls → .create b' ∈ ls → b = b'
  at_create : s.pc = .create ↔ ∀ b, .create b ∉ ls
  untracked : s.pc = .create ∨ s.pc = .spawn → s.shelltp = none
  tracked : ∀ tp, s.shelltp = some tp →
    .spawn true ∈ ls ∧ ∃ shell, s.shells[tp]? = some shell ∧ shell ≠ .released
  count : s.unreleased =
    (if .create true ∈ ls then 1 else 0) + (if s.shelltp.isSome then 1 else 0)

theorem history_start : History [] {} := by
  constructor <;> simp [State.unreleased]

variable {ls : List Label} {s s' : State}

/-- Steps that create no first shell and leave the shells and `shelltp` alone. -/
theorem history_quiet {l : Label} (h : History ls s) (hl : ∀ b, l ≠ .create b)
    (hshells : s'.shells = s.shells) (htp : s'.shelltp = s.shelltp)
    (hpc : s'.pc = .create ↔ s.pc = .create) (hspawn : s'.pc = .spawn → s.shelltp = none) :
    History (ls ++ [l]) s' := by
  have hl' : ∀ b, Label.create b ≠ l := fun b he => hl b he.symm
  constructor
  · simpa [hl'] using h.created_once
  · simpa [hl', hpc] using h.at_create
  · rw [htp]
    rintro (hc | hs)
    · exact h.untracked (.inl (hpc.mp hc))
    · exact hspawn hs
  · rw [hshells, htp]
    intro tp ht
    obtain ⟨hmem, hex⟩ := h.tracked tp ht
    exact ⟨List.mem_append_left _ hmem, hex⟩
  · rw [State.unreleased, hshells, htp]
    simpa [hl', State.unreleased] using h.count

/-- The tests of the loop only choose where `main` goes on. -/
theorem history_test {pc : Pc} (h : History ls s) (hpc : s.pc = .top) (hcreate : pc ≠ .create)
    (hspawn : pc = .spawn → s.shelltp = none) : History (ls ++ [.test]) { s with pc := pc } :=
  history_quiet h (by simp) rfl rfl (by simp [hpc, hcreate]) hspawn

theorem history_create {created : Bool} (h : History ls s) (hpc : s.pc = .create) :
    History (ls ++ [.create created]) { s.shellCreate created with pc := .top } := by
  have hnone := h.at_create.mp hpc
  have htp := h.untracked (.inl hpc)
  have htp' : (s.shellCreate created).shelltp = none := by
    unfold State.shellCreate
    split <;> exact htp
  have hcount := h.count
  constructor
  · simp [hnone]
  · exact iff_of_false (by simp) fun hall => hall created (by simp)
  · simp
  · simp [htp']
  · simp only [hnone, if_false, htp, Option.isSome_none, Bool.false_eq_true] at hcount
    cases created <;>
      simp [State.unreleased, State.shellCreate, hnone, htp] at hcount ⊢ <;> exact hcount

theorem history_spawn (h : History ls s) (hpc : s.pc = .spawn) :
    History (ls ++ [.spawn true])
      { s with shells := s.shells ++ [.live], shelltp := some s.shells.length, pc := .sleep } := by
  have htp := h.untracked (.inr hpc)
  have hcount := h.count
  constructor
  · simpa using h.created_once
  · simpa [hpc] using h.at_create
  · simp
  · simp
  · simp_all [State.unreleased]

theorem history_release {tp : ℕ} (h : History ls s) (hpc : s.pc = .release)
    (htp : s.shelltp = some tp) :
    History (ls ++ [.release])
      { s with shells := s.shells.set tp .released, shelltp := none, pc := .sleep } := by
  obtain ⟨-, shell, hshell, hne⟩ := h.tracked tp htp
  obtain ⟨hlt, hget⟩ := List.getElem?_eq_some_iff.mp hshell
  have hcount := h.count
  constructor
  · simpa using h.created_once
  · simpa [hpc] using h.at_create
  · simp
  · simp
  · have hset := List.countP_set (p := (· ≠ Shell.released)) (a := .released) hlt
    simp_all [State.unreleased]

theorem history_terminate {shell : ℕ} (h : History ls s)
    (hlive : s.shells[shell]? = some .live) :
    History (ls ++ [.terminate shell]) { s with shells := s.shells.set shell .terminated } := by
  obtain ⟨hlt, hget⟩ := List.getElem?_eq_some_iff.mp hlive
  have hcount := h.count
  constructor
  · simpa using h.created_once
  · simpa using h.at_create
  · exact h.untracked
  · intro tp htp
    obtain ⟨hmem, shell', hshell', hne⟩ := h.tracked tp htp
    refine ⟨List.mem_append_left _ hmem, ?_⟩
    by_cases htp' : shell = tp
    · subst htp'
      exact ⟨.terminated, by simp [hlt], by simp⟩
    · exact ⟨shell', by simpa [htp'] using hshell', hne⟩
  · have hpos : 0 < s.shells.countP (· ≠ Shell.released) :=
      List.countP_pos_iff.mpr ⟨.live, hget ▸ List.getElem_mem hlt, by simp⟩
    have hset := List.countP_set (p := (· ≠ Shell.released)) (a := .terminated) hlt
    simp_all [State.unreleased]
    omega

theorem history_step (ls : List Label) (s : State) (l : Label) (s' : State) (h : History ls s)
    (hstep : step s l = some s') : History (ls ++ [l]) s' := by
  cases l with
  | create created =>
    simp only [step] at hstep
    split at hstep
    · obtain rfl := Option.some.inj hstep
      exact history_create h ‹_›
    · cases hstep
  | test =>
    simp only [step] at hstep
    split at hstep
    · rename_i hpc
      split at hstep
      · rename_i htp
        obtain rfl := Option.some.inj hstep
        exact history_test h hpc (by split <;> simp) fun _ => htp
      · obtain rfl := Option.some.inj hstep
        exact history_test h hpc (by split <;> simp) (by split <;> simp)
    · cases hstep
  | spawn created =>
    simp only [step] at hstep
    split at hstep
    · rename_i hpc
      obtain rfl := Option.some.inj hstep
      cases created with
      | true => exact history_spawn h hpc
      | false =>
        exact history_quiet h (by simp) rfl (h.untracked (.inr hpc)).symm (by simp [hpc])
          (by simp)
    · cases hstep
  | release =>
    simp only [step] at hstep
    split at hstep
    · rename_i tp htp
      split at hstep
      · obtain rfl := Option.some.inj hstep
        exact history_release h ‹_› htp
      · cases hstep
    · cases hstep
  | sleep =>
    simp only [step] at hstep
    split at hstep
    · rename_i hpc
      obtain rfl := Option.some.inj hstep
      exact history_quiet h (by simp) rfl rfl (by simp [hpc]) (by simp)
    · cases hstep
  | usb active =>
    obtain rfl := Option.some.inj hstep
    exact history_quiet h (by simp) rfl rfl Iff.rfl fun hspawn => h.untracked (.inr hspawn)
  | terminate shell =>
    simp only [step] at hstep
    split at hstep
    · obtain rfl := Option.some.inj hstep
      exact history_terminate h ‹_›
    · cases hstep

theorem run_history (h : run step {} ls = some s) : History ls s :=
  run_invariant history_start history_step h

/-- Two is the most there ever is. -/
theorem unreleased_le_two (h : run step {} ls = some s) : s.unreleased ≤ 2 := by
  rw [(run_history h).count]
  split <;> split <;> omega

/-- Behind the first shell a spawn makes two. -/
theorem two_at_spawn (h : run step {} ls = some s) (hcreate : .create true ∈ ls)
    (hspawn : .spawn true ∈ ls) :
    ∃ p s', p <+: ls ∧ run step {} p = some s' ∧ s'.unreleased = 2 := by
  obtain ⟨p, q, rfl⟩ := List.append_of_mem hspawn
  have hp : p ++ [.spawn true] <+: p ++ .spawn true :: q := ⟨q, by simp⟩
  obtain ⟨s', hs'⟩ := run_prefix h hp
  obtain ⟨m, hm, hlast⟩ := run_concat.mp hs'
  have hpc : m.pc = .spawn := by
    by_contra hne
    simp [step, hne] at hlast
  have htp : s'.shelltp.isSome = true := by
    simp only [step, hpc, if_true, Option.some.injEq] at hlast
    rw [← hlast]
    rfl
  -- the first shell is there by the time of the spawn
  obtain ⟨b, hb⟩ : ∃ b, .create b ∈ p := by
    by_contra hnone
    have hstart := (run_history hm).at_create.mpr fun b hb => hnone ⟨b, hb⟩
    rw [hpc] at hstart
    cases hstart
  obtain rfl : b = true := (run_history h).created_once b true (List.mem_append_left _ hb) hcreate
  refine ⟨_, s', hp, hs', ?_⟩
  rw [(run_history hs').count, if_pos (List.mem_append_left _ hb), if_pos htp]

/-- Every state that a run goes through has at most one unreleased shell. -/
def AtMostOne (ls : List Label) : Prop :=
  ∀ p s, p <+: ls → run step {} p = some s → s.unreleased ≤ 1

/-- **One shell.** In every state of a run at most one shell is unreleased
exactly when the first `shellCreate` fails or none in the loop succeeds. -/
theorem atMostOne_iff (h : run step {} ls = some s) :
    AtMostOne ls ↔ .create true ∉ ls ∨ .spawn true ∉ ls := by
  constructor
  · intro hone
    by_contra hboth
    obtain ⟨hcreate, hspawn⟩ := not_or.mp hboth
    rw [not_not] at hcreate hspawn
    obtain ⟨p, s', hp, hs', htwo⟩ := two_at_spawn h hcreate hspawn
    have := hone p s' hp hs'
    omega
  · intro hor p s' hp hs'
    have hhist := run_history hs'
    rw [hhist.count]
    rcases hor with hcreate | hspawn
    · rw [if_neg fun hmem => hcreate (hp.subset hmem)]
      split <;> omega
    · have htp : s'.shelltp = none := by
        cases hs : s'.shelltp with
        | none => rfl
        | some tp => exact absurd (hp.subset (hhist.tracked tp hs).1) hspawn
      simp only [htp, Option.isSome_none, Bool.false_eq_true, if_false]
      split <;> omega

/-- The USB comes up behind the first `shellCreate`. -/
def twoShells : List Label := [.create true, .usb true, .test, .spawn true]

theorem atMostOne_iff_twoShells :
    AtMostOne twoShells ↔ .create true ∉ twoShells ∨ .spawn true ∉ twoShells :=
  atMostOne_iff (s := ⟨.sleep, true, some 1, [.live, .live]⟩) (by decide)

/-- Both shells are live and read commands. -/
theorem twoShells_live :
    run step {} twoShells = some ⟨.sleep, true, some 1, [.live, .live]⟩ ∧
      ¬ AtMostOne twoShells := by
  refine ⟨by decide, ?_⟩
  intro hone
  exact absurd (hone twoShells _ (List.prefix_refl _) rfl) (by decide)

end GcodeFatfs.Supervisor
