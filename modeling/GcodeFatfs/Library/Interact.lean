import Mathlib.Data.List.Basic

/-! Programs that act on an environment through operations. `Runs` relates a
program to every sequence of operations and answers it can go through, whatever
the environment answers; `exec` runs it against one environment. Rules for
both, for sessions of several programs in a row, and for environments that are
known by a protocol or by the steps that they can take. -/

namespace GcodeFatfs.Interact

/-- A program over the operations `Op`, where `o` is answered by a `Res o`. It
returns an `α` or stops with an `ε`. -/
inductive Prog (Op : Type) (Res : Op → Type) (ε α : Type) : Type where
  | ret (a : α)
  | fail (e : ε)
  | call (o : Op) (k : Res o → Prog Op Res ε α)

/-- An operation together with its answer. -/
structure Event (Op : Type) (Res : Op → Type) where
  op : Op
  res : Res op

abbrev Trace (Op : Type) (Res : Op → Type) := List (Event Op Res)

variable {Op : Type} {Res : Op → Type} {ε α β σ ι : Type}

def Prog.bind : Prog Op Res ε α → (α → Prog Op Res ε β) → Prog Op Res ε β
  | .ret a, f => f a
  | .fail e, _ => .fail e
  | .call o k, f => .call o fun x => (k x).bind f

instance : Monad (Prog Op Res ε) where
  pure := .ret
  bind := .bind

@[simp] theorem ret_bind (a : α) (f : α → Prog Op Res ε β) : (Prog.ret a >>= f) = f a := rfl
@[simp] theorem fail_bind (e : ε) (f : α → Prog Op Res ε β) :
    ((Prog.fail e : Prog Op Res ε α) >>= f) = .fail e := rfl
@[simp] theorem call_bind (o : Op) (k : Res o → Prog Op Res ε α) (f : α → Prog Op Res ε β) :
    (Prog.call o k >>= f) = .call o fun x => k x >>= f := rfl
@[simp] theorem pure_eq_ret (a : α) : (pure a : Prog Op Res ε α) = .ret a := rfl

theorem prog_bind_assoc {γ : Type} (p : Prog Op Res ε α) (f : α → Prog Op Res ε β)
    (g : β → Prog Op Res ε γ) : (p >>= f) >>= g = p >>= fun a => f a >>= g := by
  induction p with
  | ret a => rfl
  | fail e => rfl
  | call o k ih => exact congrArg (Prog.call o) (funext ih)

/-! ## Runs under any answers -/

/-- `Runs p t r`: the operations and answers of `t` take `p` to its end `r`. -/
inductive Runs : Prog Op Res ε α → Trace Op Res → Except ε α → Prop where
  | ret (a : α) : Runs (.ret a) [] (.ok a)
  | fail (e : ε) : Runs (.fail e) [] (.error e)
  | call {o : Op} {k : Res o → Prog Op Res ε α} {t : Trace Op Res} {r : Except ε α}
      (x : Res o) (h : Runs (k x) t r) : Runs (.call o k) (⟨o, x⟩ :: t) r

@[simp] theorem runs_ret {a : α} {t : Trace Op Res} {r : Except ε α} :
    Runs (.ret a) t r ↔ t = [] ∧ r = .ok a := by
  constructor
  · rintro ⟨⟩
    exact ⟨rfl, rfl⟩
  · rintro ⟨rfl, rfl⟩
    exact .ret a

@[simp] theorem runs_fail {e : ε} {t : Trace Op Res} {r : Except ε α} :
    Runs (.fail e : Prog Op Res ε α) t r ↔ t = [] ∧ r = .error e := by
  constructor
  · rintro ⟨⟩
    exact ⟨rfl, rfl⟩
  · rintro ⟨rfl, rfl⟩
    exact .fail e

@[simp] theorem runs_call {o : Op} {k : Res o → Prog Op Res ε α} {t : Trace Op Res}
    {r : Except ε α} :
    Runs (.call o k) t r ↔ ∃ x t', t = ⟨o, x⟩ :: t' ∧ Runs (k x) t' r := by
  constructor
  · rintro ⟨⟩
    exact ⟨_, _, rfl, by assumption⟩
  · rintro ⟨x, t', rfl, h⟩
    exact .call x h

/-- A run of `p >>= f` stops inside `p`, or finishes `p` and goes on as `f`. -/
theorem runs_bind_any {p : Prog Op Res ε α} {f : α → Prog Op Res ε β} {t : Trace Op Res}
    {r : Except ε β} :
    Runs (p >>= f) t r ↔
      (∃ e, Runs p t (.error e) ∧ r = .error e) ∨
      ∃ t₁ a t₂, Runs p t₁ (.ok a) ∧ Runs (f a) t₂ r ∧ t = t₁ ++ t₂ := by
  induction p generalizing t with
  | ret a =>
    constructor
    · intro h
      exact .inr ⟨[], a, t, .ret a, h, rfl⟩
    · rintro (⟨e, h, -⟩ | ⟨t₁, a', t₂, h₁, h₂, rfl⟩)
      · cases h
      · cases h₁
        exact h₂
  | fail e =>
    constructor
    · intro h
      obtain ⟨rfl, rfl⟩ := runs_fail.mp h
      exact .inl ⟨e, .fail e, rfl⟩
    · rintro (⟨e', h, rfl⟩ | ⟨t₁, a, t₂, h₁, -, -⟩)
      · cases h
        exact .fail e
      · cases h₁
  | call o k ih =>
    rw [call_bind, runs_call]
    constructor
    · rintro ⟨x, t', rfl, h⟩
      rcases (ih x).mp h with ⟨e, he, rfl⟩ | ⟨t₁, a, t₂, h₁, h₂, rfl⟩
      · exact .inl ⟨e, .call x he, rfl⟩
      · exact .inr ⟨_, a, t₂, .call x h₁, h₂, rfl⟩
    · rintro (⟨e, h, rfl⟩ | ⟨t₁, a, t₂, h₁, h₂, rfl⟩)
      · obtain ⟨x, t', rfl, h'⟩ := runs_call.mp h
        exact ⟨x, t', rfl, (ih x).mpr (.inl ⟨e, h', rfl⟩)⟩
      · obtain ⟨x, t', rfl, h⟩ := runs_call.mp h₁
        exact ⟨x, t' ++ t₂, rfl, (ih x).mpr (.inr ⟨t', a, t₂, h, h₂, rfl⟩)⟩

/-- A finished run of `p >>= f` is a finished run of `p` followed by one of `f`. -/
theorem runs_bind {p : Prog Op Res ε α} {f : α → Prog Op Res ε β} {t : Trace Op Res} {b : β} :
    Runs (p >>= f) t (.ok b) ↔
      ∃ t₁ a t₂, Runs p t₁ (.ok a) ∧ Runs (f a) t₂ (.ok b) ∧ t = t₁ ++ t₂ := by
  simp [runs_bind_any]

/-! ## Programs kept to some operations -/

/-- `p` only ever performs operations that satisfy `P`. -/
def Prog.Only (P : Op → Prop) : Prog Op Res ε α → Prop
  | .ret _ => True
  | .fail _ => True
  | .call o k => P o ∧ ∀ x, (k x).Only P

@[simp] theorem only_ret {P : Op → Prop} {a : α} :
    (.ret a : Prog Op Res ε α).Only P ↔ True := Iff.rfl
@[simp] theorem only_fail {P : Op → Prop} {e : ε} :
    (.fail e : Prog Op Res ε α).Only P ↔ True := Iff.rfl
@[simp] theorem only_call {P : Op → Prop} {o : Op} {k : Res o → Prog Op Res ε α} :
    (Prog.call o k).Only P ↔ P o ∧ ∀ x, (k x).Only P := Iff.rfl

@[simp] theorem only_ite {P : Op → Prop} {c : Prop} [Decidable c] {p q : Prog Op Res ε α} :
    (if c then p else q).Only P ↔ if c then p.Only P else q.Only P := by
  split <;> rfl

theorem only_bind {P : Op → Prop} {p : Prog Op Res ε α} {f : α → Prog Op Res ε β}
    (hp : p.Only P) (hf : ∀ a, (f a).Only P) : (p >>= f).Only P := by
  induction p with
  | ret a => exact hf a
  | fail e => trivial
  | call o k ih => exact ⟨hp.1, fun x => ih x (hp.2 x)⟩

theorem runs_only {P : Op → Prop} {p : Prog Op Res ε α} {t : Trace Op Res} {r : Except ε α}
    (h : Runs p t r) (hp : p.Only P) : ∀ e ∈ t, P e.op := by
  induction h with
  | ret a => simp
  | fail e => simp
  | call x _ ih =>
    intro e he
    rcases List.mem_cons.mp he with rfl | he
    · exact hp.1
    · exact ih (hp.2 _) e he

/-! ## Running against one environment -/

/-- An environment with states `σ`: how it answers an operation and moves on. -/
abbrev Env (Op : Type) (Res : Op → Type) (σ : Type) := σ → (o : Op) → Res o × σ

/-- The operations with their answers, the end, and the state left. -/
def exec (env : Env Op Res σ) : Prog Op Res ε α → σ → Trace Op Res × Except ε α × σ
  | .ret a, s => ([], .ok a, s)
  | .fail e, s => ([], .error e, s)
  | .call o k, s =>
    let (x, s) := env s o
    let (t, r, s) := exec env (k x) s
    (⟨o, x⟩ :: t, r, s)

@[simp] theorem exec_ret (env : Env Op Res σ) (a : α) (s : σ) :
    exec env (.ret a : Prog Op Res ε α) s = ([], .ok a, s) := rfl

@[simp] theorem exec_call (env : Env Op Res σ) (o : Op) (k : Res o → Prog Op Res ε α) (s : σ) :
    exec env (.call o k) s =
      (⟨o, (env s o).1⟩ :: (exec env (k (env s o).1) (env s o).2).1,
        (exec env (k (env s o).1) (env s o).2).2) := rfl

theorem exec_call_of {env : Env Op Res σ} {o : Op} {x : Res o} {s s' : σ} (h : env s o = (x, s'))
    (k : Res o → Prog Op Res ε α) :
    exec env (.call o k) s = (⟨o, x⟩ :: (exec env (k x) s').1, (exec env (k x) s').2) := by
  rw [exec_call, h]

theorem exec_runs (env : Env Op Res σ) (p : Prog Op Res ε α) (s : σ) :
    Runs p (exec env p s).1 (exec env p s).2.1 := by
  induction p generalizing s with
  | ret a => exact .ret a
  | fail e => exact .fail e
  | call o k ih => exact .call _ (ih _ _)

/-- What every answer of an environment satisfies holds all along a run. -/
theorem exec_forall {env : Env Op Res σ} {P : Event Op Res → Prop}
    (h : ∀ s o, P ⟨o, (env s o).1⟩) (p : Prog Op Res ε α) (s : σ) : ∀ e ∈ (exec env p s).1, P e := by
  induction p generalizing s with
  | ret a => simp
  | fail e => simp [exec]
  | call o k ih =>
    rw [exec_call]
    exact List.forall_mem_cons.mpr ⟨h s o, ih _ _⟩

theorem exec_bind {env : Env Op Res σ} {p : Prog Op Res ε α} {f : α → Prog Op Res ε β} {s s' : σ}
    {t : Trace Op Res} {a : α} (h : exec env p s = (t, .ok a, s')) :
    exec env (p >>= f) s =
      (t ++ (exec env (f a) s').1, (exec env (f a) s').2.1, (exec env (f a) s').2.2) := by
  induction p generalizing s t with
  | ret a' => cases h; rfl
  | fail e => cases h
  | call o k ih =>
    simp only [exec, Prod.mk.injEq] at h
    obtain ⟨rfl, hr, hs⟩ := h
    simp only [call_bind, exec, List.cons_append]
    rw [ih _ (Prod.ext rfl (Prod.ext hr hs))]

/-- A program that stops does not go on. -/
theorem exec_bind_error {env : Env Op Res σ} {p : Prog Op Res ε α} {f : α → Prog Op Res ε β}
    {s s' : σ} {t : Trace Op Res} {e : ε} (h : exec env p s = (t, .error e, s')) :
    exec env (p >>= f) s = (t, .error e, s') := by
  induction p generalizing s t with
  | ret a => cases h
  | fail e' => cases h; rfl
  | call o k ih =>
    simp only [exec, Prod.mk.injEq] at h
    obtain ⟨rfl, hr, hs⟩ := h
    simp only [call_bind, exec]
    rw [ih _ (Prod.ext rfl (Prod.ext hr hs))]

/-! ## Sessions -/

/-- The programs `f i` for the `i` of a list, one after another, each started
from what the one before it returned; with the trace of each. -/
inductive RunsSeq (f : ι → σ → Prog Op Res ε σ) : σ → List ι → List (Trace Op Res) → σ → Prop where
  | nil (s : σ) : RunsSeq f s [] [] s
  | cons {i : ι} {is : List ι} {s s' s'' : σ} {t : Trace Op Res} {ts : List (Trace Op Res)}
      (h : Runs (f i s) t (.ok s')) (hs : RunsSeq f s' is ts s'') :
      RunsSeq f s (i :: is) (t :: ts) s''

/-- Events an observer does not react to leave it where it is. -/
theorem foldl_fixed {μ : Type} {next : μ → Event Op Res → μ} {m : μ} {t : Trace Op Res}
    (h : ∀ e ∈ t, next m e = m) : t.foldl next m = m := by
  induction t with
  | nil => rfl
  | cons e t ih =>
    rw [List.foldl_cons, h e (by simp)]
    exact ih fun e' he' => h e' (by simp [he'])

/-- What an observer with transition `next` has seen after each trace. -/
def checkpoints {μ : Type} (next : μ → Event Op Res → μ) (m : μ) : List (Trace Op Res) → List μ
  | [] => []
  | t :: ts => t.foldl next m :: checkpoints next (t.foldl next m) ts

/-! ## Protocols -/

section Protocols
variable {μ : Type} {next : μ → Event Op Res → μ} {ok : μ → Event Op Res → Prop}

/-- Every event of a trace is allowed in the state its observer is in by then. -/
def Follows (next : μ → Event Op Res → μ) (ok : μ → Event Op Res → Prop) :
    μ → Trace Op Res → Prop
  | _, [] => True
  | m, e :: t => ok m e ∧ Follows next ok (next m e) t

@[simp] theorem follows_nil {m : μ} : Follows next ok m [] ↔ True := Iff.rfl
@[simp] theorem follows_cons {m : μ} {e : Event Op Res} {t : Trace Op Res} :
    Follows next ok m (e :: t) ↔ ok m e ∧ Follows next ok (next m e) t := Iff.rfl

@[simp] theorem follows_append {m : μ} {t t' : Trace Op Res} :
    Follows next ok m (t ++ t') ↔ Follows next ok m t ∧ Follows next ok (t.foldl next m) t' := by
  induction t generalizing m with
  | nil => simp
  | cons e t ih => simp [ih, and_assoc]

/-- Allowed events that leave the observer where it is can go on for ever. -/
theorem follows_fixed {m : μ} {t : Trace Op Res} (h : ∀ e ∈ t, ok m e ∧ next m e = m) :
    Follows next ok m t := by
  induction t with
  | nil => trivial
  | cons e t ih =>
    obtain ⟨hok, hm⟩ := h e (by simp)
    exact ⟨hok, hm.symm ▸ ih fun e' he' => h e' (by simp [he'])⟩

/-- A protocol that takes no notice of the observer. -/
@[simp] theorem follows_const {P : Event Op Res → Prop} {m : μ} {t : Trace Op Res} :
    Follows next (fun _ e => P e) m t ↔ ∀ e ∈ t, P e := by
  induction t generalizing m with
  | nil => simp
  | cons e t ih => simp [ih]

/-- An environment that keeps to a protocol, with the observer for its state. -/
theorem exec_follows {env : Env Op Res μ}
    (h : ∀ m o, ok m ⟨o, (env m o).1⟩ ∧ next m ⟨o, (env m o).1⟩ = (env m o).2)
    (p : Prog Op Res ε α) (m : μ) : Follows next ok m (exec env p m).1 := by
  induction p generalizing m with
  | ret a => trivial
  | fail e => trivial
  | call o k ih =>
    obtain ⟨hok, hnext⟩ := h m o
    exact ⟨hok, hnext ▸ ih _ _⟩

/-! A program obeys a protocol when its operations are allowed whatever was
answered before; the rules take it apart like the program. -/

/-- Every event that `p` can come to from `m` on is allowed. -/
def Prog.Obeys (next : μ → Event Op Res → μ) (ok : μ → Event Op Res → Prop) :
    μ → Prog Op Res ε α → Prop
  | _, .ret _ => True
  | _, .fail _ => True
  | m, .call o k => ∀ x, ok m ⟨o, x⟩ ∧ (k x).Obeys next ok (next m ⟨o, x⟩)

@[simp] theorem obeys_ret {m : μ} {a : α} :
    (.ret a : Prog Op Res ε α).Obeys next ok m ↔ True := Iff.rfl
@[simp] theorem obeys_fail {m : μ} {e : ε} :
    (.fail e : Prog Op Res ε α).Obeys next ok m ↔ True := Iff.rfl
@[simp] theorem obeys_call {m : μ} {o : Op} {k : Res o → Prog Op Res ε α} :
    (Prog.call o k).Obeys next ok m ↔
      ∀ x, ok m ⟨o, x⟩ ∧ (k x).Obeys next ok (next m ⟨o, x⟩) := Iff.rfl

@[simp] theorem obeys_ite {m : μ} {c : Prop} [Decidable c] {p q : Prog Op Res ε α} :
    (if c then p else q).Obeys next ok m ↔
      if c then p.Obeys next ok m else q.Obeys next ok m := by
  split <;> rfl

theorem obeys_bind {m : μ} {p : Prog Op Res ε α} {f : α → Prog Op Res ε β}
    (hp : p.Obeys next ok m) (hf : ∀ a m, (f a).Obeys next ok m) :
    (p >>= f).Obeys next ok m := by
  induction p generalizing m with
  | ret a => exact hf a m
  | fail e => trivial
  | call o k ih => exact fun x => ⟨(hp x).1, ih x (hp x).2⟩

/-- Operations that are allowed at any time. -/
theorem obeys_of_only {P : Op → Prop} (hok : ∀ m e, P e.op → ok m e) {p : Prog Op Res ε α}
    (hp : p.Only P) (m : μ) : p.Obeys next ok m := by
  induction p generalizing m with
  | ret a => trivial
  | fail e => trivial
  | call o k ih => exact fun x => ⟨hok m ⟨o, x⟩ hp.1, ih x (hp.2 x) _⟩

/-- Every run of a program that obeys follows the protocol. -/
theorem runs_follows {p : Prog Op Res ε α} {t : Trace Op Res} {r : Except ε α} {m : μ}
    (h : Runs p t r) (hp : p.Obeys next ok m) : Follows next ok m t := by
  induction h generalizing m with
  | ret a => trivial
  | fail e => trivial
  | call x _ ih => exact ⟨(hp x).1, ih (hp x).2⟩

end Protocols

/-! ## Transition systems

An environment may also be known only up to the steps that it can take. -/

section Transitions
variable {μ ν : Type} {step : μ → Event Op Res → μ → Prop}

/-- The events of a trace can take an environment from one state to another. -/
inductive Takes (step : μ → Event Op Res → μ → Prop) : μ → Trace Op Res → μ → Prop where
  | nil (m : μ) : Takes step m [] m
  | cons {m m' m'' : μ} {e : Event Op Res} {t : Trace Op Res}
      (h : step m e m') (ht : Takes step m' t m'') : Takes step m (e :: t) m''

@[simp] theorem takes_nil {m m' : μ} : Takes step m [] m' ↔ m' = m := by
  constructor
  · rintro ⟨⟩
    rfl
  · rintro rfl
    exact .nil m'

@[simp] theorem takes_cons {m m'' : μ} {e : Event Op Res} {t : Trace Op Res} :
    Takes step m (e :: t) m'' ↔ ∃ m', step m e m' ∧ Takes step m' t m'' := by
  constructor
  · rintro ⟨⟩
    exact ⟨_, by assumption, by assumption⟩
  · rintro ⟨m', h, ht⟩
    exact .cons h ht

@[simp] theorem takes_append {m m'' : μ} {t t' : Trace Op Res} :
    Takes step m (t ++ t') m'' ↔ ∃ m', Takes step m t m' ∧ Takes step m' t' m'' := by
  induction t generalizing m with
  | nil => simp
  | cons e t ih =>
    simp only [List.cons_append, takes_cons, ih]
    constructor
    · rintro ⟨m₁, h, m₂, ht, ht'⟩
      exact ⟨m₂, ⟨m₁, h, ht⟩, ht'⟩
    · rintro ⟨m₂, ⟨m₁, h, ht⟩, ht'⟩
      exact ⟨m₁, h, m₂, ht, ht'⟩

/-- An observer that is in step with the states of an environment, and finds each
event allowed, stays in step and finds the trace to follow its protocol. -/
theorem takes_follows (Rel : μ → ν → Prop) (next : ν → Event Op Res → ν)
    (ok : ν → Event Op Res → Prop) {P : Event Op Res → Prop}
    (hstep : ∀ {m n e m'}, Rel m n → P e → step m e m' → ok n e ∧ Rel m' (next n e))
    {m m' : μ} {n : ν} {t : Trace Op Res} (h : Takes step m t m') (ht : ∀ e ∈ t, P e)
    (hrel : Rel m n) : Follows next ok n t ∧ Rel m' (t.foldl next n) := by
  induction h generalizing n with
  | nil m => exact ⟨trivial, hrel⟩
  | cons he _ ih =>
    obtain ⟨hhead, htail⟩ := List.forall_mem_cons.mp ht
    obtain ⟨hok, hnext⟩ := hstep hrel hhead he
    obtain ⟨hfollow, hend⟩ := ih htail hnext
    exact ⟨⟨hok, hfollow⟩, hend⟩

/-- What every step keeps holds in the end. -/
theorem takes_keeps (Inv : μ → Prop) {P : Event Op Res → Prop}
    (hstep : ∀ {m e m'}, Inv m → P e → step m e m' → Inv m') {m m' : μ} {t : Trace Op Res}
    (h : Takes step m t m') (ht : ∀ e ∈ t, P e) (hm : Inv m) : Inv m' := by
  induction h with
  | nil m => exact hm
  | cons he _ ih =>
    obtain ⟨hhead, htail⟩ := List.forall_mem_cons.mp ht
    exact ih htail (hstep hm hhead he)

/-- The step of an environment on an event that holds its own answer. -/
def Answers {μ : Type} (env : Env Op Res μ) (m : μ) (e : Event Op Res) (m' : μ) : Prop :=
  env m e.op = (e.res, m')

/-- A run against an environment whose answers are steps. -/
theorem exec_takes {env : Env Op Res μ} (h : ∀ m o, step m ⟨o, (env m o).1⟩ (env m o).2)
    (p : Prog Op Res ε α) (m : μ) : Takes step m (exec env p m).1 (exec env p m).2.2 := by
  induction p generalizing m with
  | ret a => exact .nil m
  | fail e => exact .nil m
  | call o k ih => exact .cons (h m o) (ih _ _)

theorem exec_answers (env : Env Op Res μ) (p : Prog Op Res ε α) (m : μ) :
    Takes (Answers env) m (exec env p m).1 (exec env p m).2.2 :=
  exec_takes (fun _ _ => rfl) p m

end Transitions

end GcodeFatfs.Interact
