import GcodeFatfs.Library.Interact

/-! Programs side by side. Beside its own operations each may act on an object
that all of them share. A program alone with the object can be run with the
object for its state; in an interleaving the object answers as if it were asked
in one row, in the order in which it was asked. -/

namespace GcodeFatfs.Interleave
open GcodeFatfs.Interact

variable {Op Act Out σ ι ε α β γ : Type} {Res : Op → Type}

/-- The answers to operations and to actions. -/
abbrev Answer (Res : Op → Type) (Out : Type) : Op ⊕ Act → Type := Sum.elim Res fun _ => Out

abbrev SharedProg (Op Act : Type) (Res : Op → Type) (Out ε α : Type) :=
  Prog (Op ⊕ Act) (Answer Res Out) ε α

abbrev SharedEvent (Op Act : Type) (Res : Op → Type) (Out : Type) :=
  Event (Op ⊕ Act) (Answer Res Out)

abbrev SharedTrace (Op Act : Type) (Res : Op → Type) (Out : Type) :=
  List (SharedEvent Op Act Res Out)

/-! ## Programs that do not act -/

/-- A program without actions among programs that have some. -/
def lift (Act Out : Type) : Prog Op Res ε α → SharedProg Op Act Res Out ε α
  | .ret a => .ret a
  | .fail e => .fail e
  | .call o k => .call (.inl o) fun x => lift Act Out (k x)

def liftTrace (Act Out : Type) (t : Trace Op Res) : SharedTrace Op Act Res Out :=
  t.map fun e => ⟨.inl e.op, e.res⟩

theorem runs_lift {p : Prog Op Res ε α} {t : SharedTrace Op Act Res Out} {r : Except ε α} :
    Runs (lift Act Out p) t r ↔ ∃ t₀, Runs p t₀ r ∧ t = liftTrace Act Out t₀ := by
  induction p generalizing t with
  | ret a =>
    constructor
    · intro h
      obtain ⟨rfl, rfl⟩ := runs_ret.mp h
      exact ⟨[], .ret a, rfl⟩
    · rintro ⟨t₀, h, rfl⟩
      obtain ⟨rfl, rfl⟩ := runs_ret.mp h
      exact .ret a
  | fail e =>
    constructor
    · intro h
      obtain ⟨rfl, rfl⟩ := runs_fail.mp h
      exact ⟨[], .fail e, rfl⟩
    · rintro ⟨t₀, h, rfl⟩
      obtain ⟨rfl, rfl⟩ := runs_fail.mp h
      exact .fail e
  | call o k ih =>
    constructor
    · intro h
      obtain ⟨x, t', rfl, h'⟩ := runs_call.mp h
      obtain ⟨t₀, h₀, rfl⟩ := (ih x).mp h'
      exact ⟨⟨o, x⟩ :: t₀, runs_call.mpr ⟨x, t₀, rfl, h₀⟩, rfl⟩
    · rintro ⟨t₀, h, rfl⟩
      obtain ⟨x, t', rfl, h'⟩ := runs_call.mp h
      exact runs_call.mpr ⟨x, _, rfl, (ih x).mpr ⟨t', h', rfl⟩⟩

/-- A finished run that starts with a program without actions. -/
theorem runs_lift_bind {p : Prog Op Res ε α} {f : α → SharedProg Op Act Res Out ε β}
    {t : SharedTrace Op Act Res Out} {b : β} :
    Runs (lift Act Out p >>= f) t (.ok b) ↔
      ∃ t₁ a t₂, Runs p t₁ (.ok a) ∧ Runs (f a) t₂ (.ok b) ∧ t = liftTrace Act Out t₁ ++ t₂ := by
  rw [runs_bind]
  constructor
  · rintro ⟨t₁, a, t₂, h₁, h₂, rfl⟩
    obtain ⟨t₀, h₀, rfl⟩ := runs_lift.mp h₁
    exact ⟨t₀, a, t₂, h₀, h₂, rfl⟩
  · rintro ⟨t₁, a, t₂, h₁, h₂, rfl⟩
    exact ⟨_, a, t₂, runs_lift.mpr ⟨t₁, h₁, rfl⟩, h₂, rfl⟩

/-- A run that starts with one operation. -/
theorem runs_lift_call {o : Op} {f : Res o → SharedProg Op Act Res Out ε β}
    {t : SharedTrace Op Act Res Out} {r : Except ε β} :
    Runs (lift Act Out (.call o .ret) >>= f) t r ↔
      ∃ x t', t = liftTrace Act Out [⟨o, x⟩] ++ t' ∧ Runs (f x) t' r :=
  runs_call

/-! ## A program alone with the object -/

section Object
variable (apply : σ → Act → Out × σ)

/-- A program that has the object to itself, with its actions announced. -/
def thread (announce : Act → Op) : σ → SharedProg Op Act Res Out ε α → Prog Op Res ε (α × σ)
  | s, .ret a => .ret (a, s)
  | _, .fail e => .fail e
  | s, .call (.inl o) k => .call o fun x => thread announce s (k x)
  | s, .call (.inr a) k =>
    .call (announce a) fun _ => thread announce (apply s a).2 (k (apply s a).1)

theorem thread_bind (announce : Act → Op) (p : SharedProg Op Act Res Out ε α)
    (f : α → SharedProg Op Act Res Out ε β) (s : σ) :
    thread apply announce s (p >>= f) =
      thread apply announce s p >>= fun q => thread apply announce q.2 (f q.1) := by
  induction p generalizing s with
  | ret a => rfl
  | fail e => rfl
  | call o k ih =>
    cases o with
    | inl o => exact congrArg (Prog.call o) (funext fun x => ih x s)
    | inr a => exact congrArg (Prog.call (announce a)) (funext fun _ => ih _ _)

theorem thread_lift (announce : Act → Op) (p : Prog Op Res ε α) (s : σ) :
    thread apply announce s (lift Act Out p) = p >>= fun a => .ret (a, s) := by
  induction p with
  | ret a => rfl
  | fail e => rfl
  | call o k ih => exact congrArg (Prog.call o) (funext ih)

/-! ## The object between several -/

/-- What the object answers when it is asked in one row. -/
def serve : σ → List (ι × Act) → List (ι × Out)
  | _, [] => []
  | s, (i, a) :: row => (i, (apply s a).1) :: serve (apply s a).2 row

/-- The object behind some actions. -/
def after (s : σ) (as : List Act) : σ := as.foldl (fun s a => (apply s a).2) s

theorem serve_append (s : σ) (r r' : List (ι × Act)) :
    serve apply s (r ++ r') =
      serve apply s r ++ serve apply (after apply s (r.map Prod.snd)) r' := by
  induction r generalizing s with
  | nil => rfl
  | cons p r ih => exact congrArg _ (ih _)

/-- The actions of a trace are answered by the object, which ends in `s'`. -/
def Served : σ → SharedTrace Op Act Res Out → σ → Prop
  | s, [], s' => s' = s
  | s, ⟨.inl _, _⟩ :: t, s' => Served s t s'
  | s, ⟨.inr a, x⟩ :: t, s' => x = (apply s a).1 ∧ Served (apply s a).2 t s'

end Object

/-- The actions of a trace with their answers. -/
def exchanges : SharedTrace Op Act Res Out → List (Act × Out)
  | [] => []
  | ⟨.inl _, _⟩ :: t => exchanges t
  | ⟨.inr a, x⟩ :: t => (a, x) :: exchanges t

theorem exchanges_append (t t' : SharedTrace Op Act Res Out) :
    exchanges (t ++ t') = exchanges t ++ exchanges t' := by
  induction t with
  | nil => rfl
  | cons e t ih =>
    obtain ⟨o | a, x⟩ := e
    · exact ih
    · exact congrArg _ ih

theorem exchanges_liftTrace (t : Trace Op Res) : exchanges (liftTrace Act Out t) = [] := by
  induction t with
  | nil => rfl
  | cons e t ih => exact ih

/-- The operations of a trace, without its actions. -/
def operations : SharedTrace Op Act Res Out → Trace Op Res
  | [] => []
  | ⟨.inl o, x⟩ :: t => ⟨o, x⟩ :: operations t
  | ⟨.inr _, _⟩ :: t => operations t

theorem operations_append (t t' : SharedTrace Op Act Res Out) :
    operations (t ++ t') = operations t ++ operations t' := by
  induction t with
  | nil => rfl
  | cons e t ih =>
    obtain ⟨o | a, x⟩ := e
    · exact congrArg _ ih
    · exact ih

theorem operations_liftTrace (t : Trace Op Res) : operations (liftTrace Act Out t) = t := by
  induction t with
  | nil => rfl
  | cons e t ih => exact congrArg _ ih

/-- The part of one program in an interleaving. -/
def own [DecidableEq ι] (i : ι) (m : List (ι × α)) : List α :=
  (m.filter (·.1 = i)).map Prod.snd

section Own
variable [DecidableEq ι] {i : ι}

@[simp] theorem own_cons (p : ι × α) (m : List (ι × α)) :
    own i (p :: m) = if p.1 = i then p.2 :: own i m else own i m := by
  by_cases h : p.1 = i <;> simp [own, h]

theorem own_append (m m' : List (ι × α)) : own i (m ++ m') = own i m ++ own i m' := by
  simp [own]

theorem own_map (f : α → β) (m : List (ι × α)) :
    own i (m.map fun p => (p.1, f p.2)) = (own i m).map f := by
  induction m with
  | nil => rfl
  | cons p m ih =>
    rw [List.map_cons, own_cons, own_cons, ih]
    split <;> rfl

/-- What is one program's own, or another's. -/
theorem own_tagged (j : ι) (as : List α) :
    own i (as.map fun a => (j, a)) = if j = i then as else [] := by
  induction as with
  | nil => exact (ite_self _).symm
  | cons a as ih =>
    rw [List.map_cons, own_cons, ih]
    split <;> rfl

/-- Several programs that do the same, one after the other. -/
theorem own_each {is : List ι} (h : is.Nodup) (as : List α) :
    own i (is.flatMap fun j => as.map fun a => (j, a)) = if i ∈ is then as else [] := by
  induction is with
  | nil => rfl
  | cons j is ih =>
    obtain ⟨hj, hrest⟩ := List.nodup_cons.mp h
    rw [List.flatMap_cons, own_append, own_tagged, ih hrest]
    by_cases hji : j = i
    · subst hji
      simp [hj]
    · simp [hji, Ne.symm hji]

end Own

/-- The exchanges of an interleaving, each with its program. -/
def taggedExchanges : List (ι × SharedEvent Op Act Res Out) → List (ι × Act × Out)
  | [] => []
  | (_, ⟨.inl _, _⟩) :: m => taggedExchanges m
  | (i, ⟨.inr a, x⟩) :: m => (i, a, x) :: taggedExchanges m

theorem taggedExchanges_append (m m' : List (ι × SharedEvent Op Act Res Out)) :
    taggedExchanges (m ++ m') = taggedExchanges m ++ taggedExchanges m' := by
  induction m with
  | nil => rfl
  | cons p m ih =>
    obtain ⟨i, ⟨o | a, x⟩⟩ := p
    · exact ih
    · exact congrArg _ ih

theorem taggedExchanges_tagged (i : ι) (t : SharedTrace Op Act Res Out) :
    taggedExchanges (t.map fun e => (i, e)) = (exchanges t).map fun e => (i, e) := by
  induction t with
  | nil => rfl
  | cons e t ih =>
    obtain ⟨o | a, x⟩ := e
    · exact ih
    · exact congrArg _ ih

/-- The actions of an interleaving in one row. -/
def row (m : List (ι × SharedEvent Op Act Res Out)) : List (ι × Act) :=
  (taggedExchanges m).map fun p => (p.1, p.2.1)

variable {apply : σ → Act → Out × σ} {s s' : σ} {m : List (ι × SharedEvent Op Act Res Out)}

theorem exchanges_own [DecidableEq ι] (i : ι) (m : List (ι × SharedEvent Op Act Res Out)) :
    exchanges (own i m) = own i (taggedExchanges m) := by
  induction m with
  | nil => rfl
  | cons p m ih =>
    obtain ⟨j, ⟨o | a, x⟩⟩ := p
    · rw [own_cons, taggedExchanges]
      split
      · exact ih
      · exact ih
    · rw [own_cons, taggedExchanges, own_cons]
      split
      · exact congrArg _ ih
      · exact ih

theorem row_append (m m' : List (ι × SharedEvent Op Act Res Out)) :
    row (m ++ m') = row m ++ row m' := by
  rw [row, taggedExchanges_append, List.map_append]
  rfl

theorem row_tagged (i : ι) (t : SharedTrace Op Act Res Out) :
    row (t.map fun e => (i, e)) = (exchanges t).map fun e => (i, e.1) := by
  rw [row, taggedExchanges_tagged, List.map_map]
  rfl

theorem served_append {t t' : SharedTrace Op Act Res Out} :
    Served apply s (t ++ t') s' ↔ ∃ s₁, Served apply s t s₁ ∧ Served apply s₁ t' s' := by
  induction t generalizing s with
  | nil => exact ⟨fun h => ⟨s, rfl, h⟩, fun ⟨_, h, h'⟩ => h ▸ h'⟩
  | cons e t ih =>
    obtain ⟨o | a, x⟩ := e
    · exact ih
    · constructor
      · rintro ⟨hx, h⟩
        obtain ⟨s₁, h₁, h₂⟩ := ih.mp h
        exact ⟨s₁, ⟨hx, h₁⟩, h₂⟩
      · rintro ⟨s₁, ⟨hx, h₁⟩, h₂⟩
        exact ⟨hx, ih.mpr ⟨s₁, h₁, h₂⟩⟩

/-- Where nothing is asked the object stays as it is. -/
theorem served_quiet {t : SharedTrace Op Act Res Out} (h : exchanges t = []) :
    Served apply s t s := by
  induction t with
  | nil => rfl
  | cons e t ih =>
    obtain ⟨o | a, x⟩ := e
    · exact ih h
    · cases h

theorem exchanges_untag (m : List (ι × SharedEvent Op Act Res Out)) :
    exchanges (m.map Prod.snd) = (taggedExchanges m).map Prod.snd := by
  induction m with
  | nil => rfl
  | cons p m ih =>
    obtain ⟨i, ⟨o | a, x⟩⟩ := p
    · exact ih
    · exact congrArg _ ih

theorem taggedExchanges_each {t : SharedTrace Op Act Res Out} (h : exchanges t = [])
    (is : List ι) : taggedExchanges (is.flatMap fun i => t.map fun e => (i, e)) = [] := by
  induction is with
  | nil => rfl
  | cons i is ih =>
    rw [List.flatMap_cons, taggedExchanges_append, taggedExchanges_tagged, h, ih]
    rfl

/-- **One row.** In any interleaving the object answers as if asked in one row, in
the order in which it was asked, and ends where that leaves it. -/
theorem served_in_one_row (h : Served apply s (m.map Prod.snd) s') :
    (taggedExchanges m).map (fun p => (p.1, p.2.2)) = serve apply s (row m) ∧
      s' = after apply s ((row m).map Prod.snd) := by
  unfold row
  induction m generalizing s with
  | nil => exact ⟨rfl, h⟩
  | cons p m ih =>
    obtain ⟨j, ⟨o | a, x⟩⟩ := p
    · exact ih h
    · obtain ⟨rfl, hrest⟩ := h
      obtain ⟨houts, hend⟩ := ih hrest
      simp only [taggedExchanges, List.map_cons, serve, after, List.foldl_cons]
      exact ⟨congrArg _ houts, hend⟩

/-- Each answer is the object's, in some state of it. -/
theorem served_answers (h : Served apply s (m.map Prod.snd) s') :
    ∀ p ∈ taggedExchanges m, ∃ s, p.2.2 = (apply s p.2.1).1 := by
  induction m generalizing s with
  | nil => simp [taggedExchanges]
  | cons p m ih =>
    obtain ⟨j, ⟨o | a, x⟩⟩ := p
    · exact ih h
    · obtain ⟨rfl, hrest⟩ := h
      exact List.forall_mem_cons.mpr ⟨⟨s, rfl⟩, ih hrest⟩

/-- One program's exchanges in an interleaving. -/
theorem own_exchanges [DecidableEq ι] (h : Served apply s (m.map Prod.snd) s') (i : ι) :
    (exchanges (own i m)).map Prod.fst = own i (row m) ∧
      (exchanges (own i m)).map Prod.snd = own i (serve apply s (row m)) ∧
      ∀ e ∈ exchanges (own i m), ∃ s, e.2 = (apply s e.1).1 := by
  rw [← (served_in_one_row h).1, exchanges_own, row, own_map Prod.fst, own_map Prod.snd]
  refine ⟨rfl, rfl, fun e he => ?_⟩
  obtain ⟨p, hp, rfl⟩ := List.mem_map.mp he
  exact served_answers h p (List.mem_filter.mp hp).1

end GcodeFatfs.Interleave
