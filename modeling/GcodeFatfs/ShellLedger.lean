import GcodeFatfs.Supervisor

/-! main.c: what becomes of the shells over whole runs. The loop of `main` frees
each shell it spawned once and only when it has terminated, never the one from
before the loop, and it always comes to spawn the next. -/

namespace GcodeFatfs.Supervisor
open GcodeFatfs.Machine

/-! ## The steps one by one -/

/-- What each step needs and does. -/
inductive Step : State → Label → State → Prop where
  | create {s : State} (created : Bool) (hpc : s.pc = .create) :
      Step s (.create created) { s.shellCreate created with pc := .top }
  | testNone {s : State} (hpc : s.pc = .top) (htp : s.shelltp = none) :
      Step s .test { s with pc := if s.usbActive then .spawn else .sleep }
  | testSome {s : State} {tp : ℕ} (hpc : s.pc = .top) (htp : s.shelltp = some tp) :
      Step s .test { s with pc := if s.shells[tp]? = some .terminated then .release else .sleep }
  | spawned {s : State} (hpc : s.pc = .spawn) :
      Step s (.spawn true)
        { s with shells := s.shells ++ [.live], shelltp := some s.shells.length, pc := .sleep }
  | spawnFailed {s : State} (hpc : s.pc = .spawn) :
      Step s (.spawn false) { s with shelltp := none, pc := .sleep }
  | release {s : State} {tp : ℕ} (hpc : s.pc = .release) (htp : s.shelltp = some tp) :
      Step s .release { s with shells := s.shells.set tp .released, shelltp := none, pc := .sleep }
  | sleep {s : State} (hpc : s.pc = .sleep) : Step s .sleep { s with pc := .top }
  | usb {s : State} (active : Bool) : Step s (.usb active) { s with usbActive := active }
  | terminate {s : State} {shell : ℕ} (hlive : s.shells[shell]? = some .live) :
      Step s (.terminate shell) { s with shells := s.shells.set shell .terminated }

variable {ls : List Label} {s s' : State} {l : Label}

theorem step_cases (h : step s l = some s') : Step s l s' := by
  cases l with
  | create created =>
    simp only [step, Option.ite_none_right_eq_some, Option.some.injEq] at h
    obtain ⟨hpc, rfl⟩ := h
    exact .create created hpc
  | test =>
    simp only [step, Option.ite_none_right_eq_some] at h
    obtain ⟨hpc, h⟩ := h
    split at h
    · rename_i htp
      obtain rfl := Option.some.inj h
      exact .testNone hpc htp
    · rename_i tp htp
      obtain rfl := Option.some.inj h
      exact .testSome hpc htp
  | spawn created =>
    simp only [step, Option.ite_none_right_eq_some, Option.some.injEq] at h
    obtain ⟨hpc, rfl⟩ := h
    cases created with
    | true => exact .spawned hpc
    | false => exact .spawnFailed hpc
  | release =>
    cases htp : s.shelltp with
    | none => simp [step, htp] at h
    | some tp =>
      simp only [step, htp, Option.ite_none_right_eq_some, Option.some.injEq] at h
      obtain ⟨hpc, rfl⟩ := h
      exact .release hpc htp
  | sleep =>
    simp only [step, Option.ite_none_right_eq_some, Option.some.injEq] at h
    obtain ⟨hpc, rfl⟩ := h
    exact .sleep hpc
  | usb active =>
    obtain rfl := Option.some.inj h
    exact .usb active
  | terminate shell =>
    simp only [step, Option.ite_none_right_eq_some, Option.some.injEq] at h
    obtain ⟨hlive, rfl⟩ := h
    exact .terminate hlive

/-! ## The ledger -/

/-- Where every shell is, after the steps `ls`. The first one is not tracked and
not released; of the others the newest may be tracked, and all else is released. -/
structure Ledger (ls : List Label) (s : State) : Prop where
  created : s.shells.length = ls.count (.create true) + ls.count (.spawn true)
  released : ∀ k shell, s.shells[k]? = some shell →
    (shell = .released ↔ ls.count (.create true) ≤ k ∧ s.shelltp ≠ some k)
  releases : s.shells.count .released = ls.count .release
  newest : ∀ tp, s.shelltp = some tp → tp + 1 = s.shells.length ∧ ls.count (.create true) ≤ tp
  starting : s.pc = .create → s.shells = [] ∧ s.shelltp = none ∧ ls.count (.create true) = 0
  spawning : s.pc = .spawn → s.shelltp = none
  releasing : s.pc = .release → ∃ tp, s.shelltp = some tp ∧ s.shells[tp]? = some .terminated

theorem ledger_start : Ledger [] {} := by
  constructor <;> simp

/-- Steps of no account: no shell is created, spawned or released. -/
theorem ledger_quiet (h : Ledger ls s) (hl : (∀ b, l ≠ .create b) ∧ l ≠ .spawn true ∧ l ≠ .release)
    (hshells : s'.shells = s.shells) (htp : s'.shelltp = s.shelltp)
    (hstart : s'.pc = .create → s.pc = .create) (hspawn : s'.pc = .spawn → s.shelltp = none)
    (hrelease : s'.pc = .release → ∃ tp, s.shelltp = some tp ∧ s.shells[tp]? = some .terminated) :
    Ledger (ls ++ [l]) s' := by
  obtain ⟨hcreate, hspawned, hreleased⟩ := hl
  have hcount {l' : Label} (hne : l ≠ l') : (ls ++ [l]).count l' = ls.count l' := by
    simp [hne]
  constructor
  · rw [hshells, hcount (hcreate true), hcount hspawned, h.created]
  · rw [hshells, htp, hcount (hcreate true)]
    exact h.released
  · rw [hshells, hcount hreleased, h.releases]
  · rw [hshells, htp, hcount (hcreate true)]
    exact h.newest
  · rw [hshells, htp, hcount (hcreate true)]
    exact fun hpc => h.starting (hstart hpc)
  · rw [htp]
    exact hspawn
  · rw [hshells, htp]
    exact hrelease

theorem ledger_create {created : Bool} (h : Ledger ls s) (hpc : s.pc = .create) :
    Ledger (ls ++ [.create created]) { s.shellCreate created with pc := .top } := by
  obtain ⟨hshells, htp, hcount⟩ := h.starting hpc
  have hspawned : ls.count (.spawn true) = 0 := by
    have hmade := h.created
    rw [hshells, List.length_nil] at hmade
    omega
  have hreleased : ls.count .release = 0 := by
    rw [← h.releases, hshells]
    rfl
  cases created with
  | true =>
    have hfirst (k : ℕ) (shell : Shell) (hk : [Shell.live][k]? = some shell) :
        shell = .released ↔ 1 ≤ k := by
      cases k with
      | zero =>
        obtain rfl := Option.some.inj hk
        simp
      | succ k => cases hk
    constructor
    case released => simpa [State.shellCreate, hshells, htp, hcount] using hfirst
    all_goals simp [State.shellCreate, hshells, htp, hcount, hspawned, hreleased]
  | false => constructor <;> simp [State.shellCreate, hshells, htp, hcount, hspawned, hreleased]

theorem ledger_spawned (h : Ledger ls s) (hpc : s.pc = .spawn) :
    Ledger (ls ++ [.spawn true])
      { s with shells := s.shells ++ [.live], shelltp := some s.shells.length, pc := .sleep } := by
  have htp := h.spawning hpc
  have hmade := h.created
  constructor
  · simp [hmade, Nat.add_assoc]
  · intro k shell hk
    rcases Nat.lt_trichotomy k s.shells.length with hlt | rfl | hgt
    · rw [List.getElem?_append_left hlt] at hk
      have := h.released k shell hk
      have hne : s.shells.length ≠ k := by omega
      simpa [htp, hne] using this
    · rw [List.getElem?_concat_length] at hk
      obtain rfl := Option.some.inj hk
      simp
    · simp [List.getElem?_eq_none (show (s.shells ++ [Shell.live]).length ≤ k by simp; omega)] at hk
  · simpa using h.releases
  · rintro tp ⟨⟩
    have hfirst : ls.count (.create true) ≤ s.shells.length := by omega
    simpa using hfirst
  · simp
  · simp
  · simp

theorem ledger_release {tp : ℕ} (h : Ledger ls s) (hpc : s.pc = .release)
    (htp : s.shelltp = some tp) :
    Ledger (ls ++ [.release])
      { s with shells := s.shells.set tp .released, shelltp := none, pc := .sleep } := by
  obtain ⟨tp', htp', hterm⟩ := h.releasing hpc
  obtain rfl : tp = tp' := Option.some.inj (htp.symm.trans htp')
  obtain ⟨hlt, hget⟩ := List.getElem?_eq_some_iff.mp hterm
  have hfirst := (h.newest tp htp).2
  constructor
  · simpa using h.created
  · intro k shell hk
    by_cases hkt : tp = k
    · subst hkt
      rw [List.getElem?_set_self hlt] at hk
      obtain rfl := Option.some.inj hk
      simp [hfirst]
    · simp only [List.getElem?_set, if_neg hkt] at hk
      simpa [htp, hkt] using h.released k shell hk
  · have hset := List.count_set (a := Shell.released) (b := .released) hlt
    have hrel := h.releases
    simp_all
  · simp
  · simp
  · simp
  · simp

theorem ledger_terminate {shell : ℕ} (h : Ledger ls s) (hlive : s.shells[shell]? = some .live) :
    Ledger (ls ++ [.terminate shell]) { s with shells := s.shells.set shell .terminated } := by
  obtain ⟨hlt, hget⟩ := List.getElem?_eq_some_iff.mp hlive
  constructor
  · simpa using h.created
  · intro k sh hk
    by_cases hkt : shell = k
    · subst hkt
      rw [List.getElem?_set_self hlt] at hk
      obtain rfl := Option.some.inj hk
      simpa using h.released shell .live hlive
    · simp only [List.getElem?_set, if_neg hkt] at hk
      simpa using h.released k sh hk
  · have hset := List.count_set (a := Shell.terminated) (b := .released) hlt
    have hrel := h.releases
    simp_all
  · simpa using h.newest
  · intro hpc
    rw [(h.starting hpc).1] at hlt
    simp at hlt
  · exact h.spawning
  · intro hpc
    obtain ⟨tp, htp, hterm⟩ := h.releasing hpc
    refine ⟨tp, htp, ?_⟩
    have hne : shell ≠ tp := by
      rintro rfl
      rw [hlive] at hterm
      cases hterm
    simpa [List.getElem?_set, hne] using hterm

theorem ledger_step (ls : List Label) (s : State) (l : Label) (s' : State) (h : Ledger ls s)
    (hstep : step s l = some s') : Ledger (ls ++ [l]) s' := by
  cases step_cases hstep with
  | create created hpc => exact ledger_create h hpc
  | testNone hpc htp =>
    exact ledger_quiet h (by simp) rfl rfl (by split <;> simp) (fun _ => htp) (by split <;> simp)
  | testSome hpc htp =>
    refine ledger_quiet h (by simp) rfl rfl (by split <;> simp) (by split <;> simp) fun hr => ?_
    exact ⟨_, htp, by simpa using hr⟩
  | spawned hpc => exact ledger_spawned h hpc
  | spawnFailed hpc =>
    exact ledger_quiet h (by simp) rfl (h.spawning hpc).symm (by simp) (by simp) (by simp)
  | release hpc htp => exact ledger_release h hpc htp
  | sleep hpc => exact ledger_quiet h (by simp) rfl rfl (by simp) (by simp) (by simp)
  | usb active => exact ledger_quiet h (by simp) rfl rfl id h.spawning h.releasing
  | terminate hlive => exact ledger_terminate h hlive

theorem run_ledger (h : run step {} ls = some s) : Ledger ls s :=
  run_invariant ledger_start ledger_step h

/-- **Releases.** In every state a run reaches, the released shells are all that
the loop has spawned except the one it tracks, each released by a step of its
own; the shell from before the loop is never among them. A release finds the
tracked shell terminated and not yet released. -/
theorem releases_exact (h : run step {} ls = some s) :
    (∀ k shell, s.shells[k]? = some shell →
      (shell = .released ↔ ls.count (.create true) ≤ k ∧ s.shelltp ≠ some k)) ∧
    s.shells.count .released = ls.count .release ∧
    ∀ p m, p ++ [.release] <+: ls → run step {} p = some m →
      ∃ tp, m.shelltp = some tp ∧ m.shells[tp]? = some .terminated := by
  refine ⟨(run_ledger h).released, (run_ledger h).releases, ?_⟩
  intro p m hp hm
  obtain ⟨m', hm'⟩ := run_prefix h hp
  obtain ⟨m'', hm'', hrelease⟩ := run_concat.mp hm'
  obtain rfl : m = m'' := Option.some.inj (hm.symm.trans hm'')
  cases step_cases hrelease with
  | release hpc htp => exact (run_ledger hm).releasing hpc

/-- A spawned shell terminates and is released, behind the first one. -/
def oneRelease : List Label := twoShells ++ [.terminate 1, .sleep, .test, .release]

theorem releases_exact_oneRelease :
    (∀ k shell, [Shell.live, .released][k]? = some shell →
      (shell = .released ↔ oneRelease.count (.create true) ≤ k ∧ (none : Option ℕ) ≠ some k)) ∧
    [Shell.live, .released].count .released = oneRelease.count .release ∧
    ∀ p m, p ++ [.release] <+: oneRelease → run step {} p = some m →
      ∃ tp, m.shelltp = some tp ∧ m.shells[tp]? = some .terminated :=
  releases_exact (s := ⟨.sleep, true, none, [.live, .released]⟩) (by decide)

/-! ## The next shell -/

/-- The steps of `main` itself. -/
def Label.isMain : Label → Bool
  | .usb _ | .terminate _ => false
  | _ => true

/-- The USB is up and no tracked shell is live. -/
def Due (s : State) : Prop :=
  s.usbActive = true ∧ ∀ tp, s.shelltp = some tp → s.shells[tp]? = some .terminated

/-- A step that is no spawn, and with which the USB does not go down. Everything
else may happen, a first `shellCreate` that fails too. -/
def Waits (l : Label) : Prop := l ≠ .usb false ∧ ∀ created, l ≠ .spawn created

/-- The steps of `main` up to the next spawn. -/
def stepsLeft (s : State) : ℕ :=
  match s.pc with
  | .spawn => 0
  | .release => 3
  | .top => if s.shelltp = none then 1 else 4
  | .create | .sleep => if s.shelltp = none then 2 else 5

/-- Those of them that are sleeps. -/
def sleepsLeft (s : State) : ℕ :=
  match s.pc with
  | .spawn => 0
  | .release => 1
  | .create | .top => if s.shelltp = none then 0 else 1
  | .sleep => if s.shelltp = none then 1 else 2

/-- A step that waits keeps the next shell due. -/
theorem due_step (hdue : Due s) (hl : Waits l) (h : step s l = some s') : Due s' := by
  obtain ⟨husb, hterm⟩ := hdue
  cases step_cases h with
  | create created hpc =>
    cases created with
    | false => exact ⟨husb, hterm⟩
    | true =>
      refine ⟨husb, fun tp htp => ?_⟩
      obtain ⟨hlt, -⟩ := List.getElem?_eq_some_iff.mp (hterm tp htp)
      exact (List.getElem?_append_left hlt).trans (hterm tp htp)
  | testNone hpc htp => exact ⟨husb, hterm⟩
  | testSome hpc htp => exact ⟨husb, hterm⟩
  | spawned hpc => exact absurd rfl (hl.2 true)
  | spawnFailed hpc => exact absurd rfl (hl.2 false)
  | release hpc htp => exact ⟨husb, by simp⟩
  | sleep hpc => exact ⟨husb, hterm⟩
  | usb active =>
    cases active with
    | true => exact ⟨rfl, hterm⟩
    | false => exact absurd rfl hl.1
  | @terminate shell hlive =>
    refine ⟨husb, fun tp htp => ?_⟩
    have hne : shell ≠ tp := by
      rintro rfl
      rw [hterm shell htp] at hlive
      cases hlive
    simpa [List.getElem?_set, hne] using hterm tp htp

/-- A step of `main` that waits comes nearer to the spawn, a step of others not
less near. -/
theorem stepsLeft_step (hdue : Due s) (hl : Waits l) (h : step s l = some s') :
    stepsLeft s' + (if l.isMain then 1 else 0) ≤ stepsLeft s := by
  cases step_cases h with
  | create created hpc =>
    cases created <;> simp [stepsLeft, hpc, State.shellCreate, Label.isMain] <;> split <;> simp
  | testNone hpc htp => simp [stepsLeft, hpc, htp, hdue.1, Label.isMain]
  | testSome hpc htp => simp [stepsLeft, hpc, htp, hdue.2 _ htp, Label.isMain]
  | spawned hpc => exact absurd rfl (hl.2 true)
  | spawnFailed hpc => exact absurd rfl (hl.2 false)
  | release hpc htp => simp [stepsLeft, hpc, Label.isMain]
  | sleep hpc =>
    simp only [stepsLeft, hpc, Label.isMain, if_true]
    split <;> simp
  | usb active => exact Nat.le_refl _
  | terminate hlive => exact Nat.le_refl _

theorem sleepsLeft_step (hdue : Due s) (hl : Waits l) (h : step s l = some s') :
    sleepsLeft s' + (if l == .sleep then 1 else 0) ≤ sleepsLeft s := by
  cases step_cases h with
  | create created hpc => cases created <;> simp [sleepsLeft, hpc, State.shellCreate]
  | testNone hpc htp => simp [sleepsLeft, hpc, htp, hdue.1]
  | testSome hpc htp => simp [sleepsLeft, hpc, htp, hdue.2 _ htp]
  | spawned hpc => exact absurd rfl (hl.2 true)
  | spawnFailed hpc => exact absurd rfl (hl.2 false)
  | release hpc htp => simp [sleepsLeft, hpc]
  | sleep hpc =>
    simp only [sleepsLeft, hpc, beq_self_eq_true, if_true]
    split <;> simp
  | usb active => exact Nat.le_refl _
  | terminate hlive => exact Nat.le_refl _

/-- `main` is never stuck. -/
theorem main_can_step (h : run step {} ls = some s) : ∃ l, l.isMain = true ∧ (step s l).isSome := by
  cases hpc : s.pc with
  | create => exact ⟨.create true, rfl, by simp [step, hpc]⟩
  | top =>
    refine ⟨.test, rfl, ?_⟩
    cases htp : s.shelltp <;> simp [step, hpc, htp]
  | spawn => exact ⟨.spawn true, rfl, by simp [step, hpc]⟩
  | release =>
    obtain ⟨tp, htp, -⟩ := (run_ledger h).releasing hpc
    exact ⟨.release, rfl, by simp [step, hpc, htp]⟩
  | sleep => exact ⟨.sleep, rfl, by simp [step, hpc]⟩

/-- **Respawn.** From any state that is reached with the USB up and no live
tracked shell, whatever else happens while the USB stays up: `main` is never
stuck, and it comes to a spawn after at most five steps of its own, two of them
sleeps. -/
theorem respawn {ls' : List Label} (hreach : run step {} ls = some s) (hdue : Due s)
    (h : run step s ls' = some s') (hwaits : ∀ l ∈ ls', Waits l) :
    (∃ l, l.isMain = true ∧ (step s' l).isSome) ∧ ls'.countP Label.isMain ≤ 5 ∧
      ls'.count .sleep ≤ 2 := by
  have hall : run step {} (ls ++ ls') = some s' := by
    rw [run_append, hreach]
    exact h
  have hsteps : ls'.countP Label.isMain + stepsLeft s' ≤ stepsLeft s :=
    run_countP_le (fun _ _ _ hd hl hs => ⟨due_step hd hl hs, stepsLeft_step hd hl hs⟩) hdue hwaits h
  have hsleeps : ls'.count .sleep + sleepsLeft s' ≤ sleepsLeft s :=
    run_countP_le (fun _ _ _ hd hl hs => ⟨due_step hd hl hs, sleepsLeft_step hd hl hs⟩) hdue hwaits h
  have hfive : stepsLeft s ≤ 5 := by
    unfold stepsLeft
    split <;> (try split) <;> omega
  have htwo : sleepsLeft s ≤ 2 := by
    unfold sleepsLeft
    split <;> (try split) <;> omega
  exact ⟨main_can_step hall, by omega, by omega⟩

/-- The spawned shell terminates, and the loop comes to the test that finds none. -/
def waiting : List Label := [.sleep, .test, .release, .sleep, .test]

theorem respawn_waiting :
    (∃ l, Label.isMain l = true ∧ (step ⟨.spawn, true, none, [.live, .released]⟩ l).isSome) ∧
      waiting.countP Label.isMain ≤ 5 ∧ waiting.count .sleep ≤ 2 :=
  have hreach : run step {} (twoShells ++ [.terminate 1]) =
      some ⟨.sleep, true, some 1, [.live, .terminated]⟩ := by decide
  respawn hreach ⟨rfl, by rintro tp ⟨⟩; rfl⟩ (by decide) (by simp [waiting, Waits])

end GcodeFatfs.Supervisor
