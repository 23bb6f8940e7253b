import Mathlib.Data.List.Basic
import Mathlib.Logic.Function.Basic

/-! Directory trees: entries with a key, where a directory has entries of its
own. Lookup along a path of keys, and the pre-order of all entries, from which
the tree is found again when each comes with its depth. -/

namespace GcodeFatfs.DirTree

/-- The entries of a directory, in order. -/
inductive Entries (α : Type) where
  | nil
  | file (a : α) (rest : Entries α)
  | dir (a : α) (kids rest : Entries α)
  deriving DecidableEq, Repr

variable {α κ : Type} [DecidableEq κ] (key : α → κ)

/-- The keys of a directory, without those of its directories. -/
def Entries.keys : Entries α → List κ
  | .nil => []
  | .file a rest => key a :: rest.keys
  | .dir a _ rest => key a :: rest.keys

/-- No directory holds a key twice. -/
def Entries.Distinct : Entries α → Prop
  | .nil => True
  | .file a rest => key a ∉ rest.keys key ∧ rest.Distinct
  | .dir a kids rest => key a ∉ rest.keys key ∧ kids.Distinct ∧ rest.Distinct

/-- The directory under a key. -/
def Entries.lookup (k : κ) : Entries α → Option (Entries α)
  | .nil => none
  | .file a rest => if key a = k then none else rest.lookup k
  | .dir a kids rest => if key a = k then some kids else rest.lookup k

/-- The directory at the end of a path of keys. -/
def Entries.resolve (t : Entries α) (ks : List κ) : Option (Entries α) :=
  ks.foldlM (fun t k => t.lookup key k) t

/-- `t` is the end of `all`: what it holds is found in `all`. -/
def Entries.EndOf (all t : Entries α) : Prop := ∀ k ∈ t.keys key, all.lookup key k = t.lookup key k

/-- All entries, a directory before what is in it: the path of the directory
each is in, the entry, and whether it is a directory. -/
def Entries.preorder : List κ → Entries α → List (List κ × α × Bool)
  | _, .nil => []
  | ks, .file a rest => (ks, a, false) :: rest.preorder ks
  | ks, .dir a kids rest => (ks, a, true) :: kids.preorder (ks ++ [key a]) ++ rest.preorder ks

variable {key}

theorem resolve_concat (t : Entries α) (ks : List κ) (k : κ) :
    t.resolve key (ks ++ [k]) = (t.resolve key ks).bind (·.lookup key k) := by
  simp [Entries.resolve]

theorem endOf_self (t : Entries α) : t.EndOf key t := fun _ _ => rfl

/-- Without its first entry an end is still one, when keys are distinct. -/
theorem endOf_rest {all t rest : Entries α} {a : α} (h : all.EndOf key t)
    (hkeys : t.keys key = key a :: rest.keys key) (hnew : key a ∉ rest.keys key)
    (hlook : ∀ k, key a ≠ k → t.lookup key k = rest.lookup key k) : all.EndOf key rest := by
  intro k hk
  rw [h k (hkeys ▸ List.mem_cons_of_mem _ hk), hlook]
  rintro rfl
  exact hnew hk

theorem endOf_file {all rest : Entries α} {a : α} (h : all.EndOf key (.file a rest))
    (hd : (Entries.file a rest).Distinct key) : all.EndOf key rest :=
  endOf_rest h rfl hd.1 fun _ hne => if_neg hne

theorem endOf_dir {all kids rest : Entries α} {a : α} (h : all.EndOf key (.dir a kids rest))
    (hd : (Entries.dir a kids rest).Distinct key) : all.EndOf key rest :=
  endOf_rest h rfl hd.1 fun _ hne => if_neg hne

theorem endOf_dir_lookup {all kids rest : Entries α} {a : α} (h : all.EndOf key (.dir a kids rest)) :
    all.lookup key (key a) = some kids := by
  rw [h (key a) List.mem_cons_self, Entries.lookup, if_pos rfl]

/-! ## A tree from its pre-order -/

section Depths
variable {β : Type}

def Entries.map (f : α → β) : Entries α → Entries β
  | .nil => .nil
  | .file a rest => .file (f a) (rest.map f)
  | .dir a kids rest => .dir (f a) (kids.map f) (rest.map f)

/-- The pre-order of all entries, each with its depth. -/
def Entries.depths : ℕ → Entries α → List (ℕ × α × Bool)
  | _, .nil => []
  | d, .file a rest => (d, a, false) :: rest.depths d
  | d, .dir a kids rest => (d, a, true) :: kids.depths (d + 1) ++ rest.depths d

/-- An entry in front of the entries that stand behind it, by depth: a directory
takes those one deeper for its own. -/
def place : ℕ × α × Bool → (ℕ → Entries α) → ℕ → Entries α
  | (d, a, false), levels => Function.update levels d (.file a (levels d))
  | (d, a, true), levels =>
    Function.update (Function.update levels (d + 1) .nil) d (.dir a (levels (d + 1)) (levels d))

/-- The tree of a pre-order with depths, put together from behind. -/
def ofDepths (es : List (ℕ × α × Bool)) : Entries α := es.foldr place (fun _ => .nil) 0

theorem foldr_place (t : Entries α) {d : ℕ} {levels : ℕ → Entries α}
    (h : ∀ k, d ≤ k → levels k = .nil) :
    (t.depths d).foldr place levels = Function.update levels d t := by
  induction t generalizing d levels with
  | nil => exact (Function.update_eq_self_iff.mpr (h d (Nat.le_refl d)).symm).symm
  | file a rest ih =>
    rw [Entries.depths, List.foldr_cons, ih h, place]
    simp
  | dir a kids rest ihk ihr =>
    have hdeeper : ∀ k, d + 1 ≤ k → Function.update levels d rest k = .nil := by
      intro k hk
      rw [Function.update_of_ne (by omega)]
      exact h k (by omega)
    have hrestore : Function.update (Function.update levels d rest) (d + 1) .nil =
        Function.update levels d rest :=
      Function.update_eq_self_iff.mpr (hdeeper (d + 1) (Nat.le_refl _)).symm
    rw [Entries.depths, List.cons_append, List.foldr_cons, List.foldr_append, ihr h, ihk hdeeper,
      place, Function.update_idem, hrestore, Function.update_idem]
    simp

/-- The pre-order with depths tells the tree. -/
theorem ofDepths_depths (t : Entries α) : ofDepths (t.depths 0) = t := by
  rw [ofDepths, foldr_place t fun _ _ => rfl]
  exact Function.update_self _ _ _

end Depths

end GcodeFatfs.DirTree
