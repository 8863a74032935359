import Mathlib.Order.BoundedOrder.Lattice

/-!
# Formulas over a lattice of truth values

Conjunctions, disjunctions and negations of atoms, with any number of conjuncts, whose truth values
form a bounded lattice with an order-reversing involution (`Negation`). On the two-element chain
this is classical logic, on the chain of three elements strong Kleene logic: a conjunction is the
least of its conjuncts and a disjunction the greatest of its disjuncts.

A conjunction depends on the set of its conjuncts only (`meetOf_congr`), and the laws of De Morgan
hold for every negation (`Negation.neg_meetOf`, `Negation.neg_joinOf`).
-/

namespace InfraBox

/-! ## Meets and joins of lists -/

section
variable {L : Type} [Lattice L] [BoundedOrder L] {vs vs' : List L} {c : L}

/-- The meet of a list of values. -/
def meetOf (vs : List L) : L := vs.foldr (· ⊓ ·) ⊤

/-- The join of a list of values. -/
def joinOf (vs : List L) : L := vs.foldr (· ⊔ ·) ⊥

@[simp] theorem meetOf_nil : meetOf ([] : List L) = ⊤ := rfl
@[simp] theorem meetOf_cons (v : L) (vs : List L) : meetOf (v :: vs) = v ⊓ meetOf vs := rfl
@[simp] theorem joinOf_nil : joinOf ([] : List L) = ⊥ := rfl
@[simp] theorem joinOf_cons (v : L) (vs : List L) : joinOf (v :: vs) = v ⊔ joinOf vs := rfl

theorem le_meetOf : c ≤ meetOf vs ↔ ∀ v ∈ vs, c ≤ v := by
  induction vs with
  | nil => simp
  | cons v vs ih => rw [meetOf_cons, le_inf_iff, ih, List.forall_mem_cons]

theorem joinOf_le : joinOf vs ≤ c ↔ ∀ v ∈ vs, v ≤ c := by
  induction vs with
  | nil => simp
  | cons v vs ih => rw [joinOf_cons, sup_le_iff, ih, List.forall_mem_cons]

/-- The meet depends on which values occur, not on their order or number. -/
theorem meetOf_congr (h : ∀ v, v ∈ vs ↔ v ∈ vs') : meetOf vs = meetOf vs' := by
  refine le_antisymm (le_meetOf.2 fun v hv => ?_) (le_meetOf.2 fun v hv => ?_)
  · exact le_meetOf.1 (le_refl _) v ((h v).2 hv)
  · exact le_meetOf.1 (le_refl _) v ((h v).1 hv)

theorem joinOf_congr (h : ∀ v, v ∈ vs ↔ v ∈ vs') : joinOf vs = joinOf vs' := by
  refine le_antisymm (joinOf_le.2 fun v hv => ?_) (joinOf_le.2 fun v hv => ?_)
  · exact joinOf_le.1 (le_refl _) v ((h v).1 hv)
  · exact joinOf_le.1 (le_refl _) v ((h v).2 hv)

end

/-! ## Negation -/

/-- An order-reversing involution. -/
structure Negation (L : Type) [LE L] where
  neg : L → L
  neg_neg : ∀ v, neg (neg v) = v
  anti : ∀ {v w}, v ≤ w → neg w ≤ neg v

namespace Negation

section
variable {L : Type} [Preorder L] (n : Negation L)

theorem le_neg {v w : L} : v ≤ n.neg w ↔ w ≤ n.neg v := by
  constructor
  · intro h
    simpa only [n.neg_neg] using n.anti h
  · intro h
    simpa only [n.neg_neg] using n.anti h

theorem neg_le {v w : L} : n.neg v ≤ w ↔ n.neg w ≤ v := by
  constructor
  · intro h
    simpa only [n.neg_neg] using n.anti h
  · intro h
    simpa only [n.neg_neg] using n.anti h

end

variable {L : Type} [Lattice L] [BoundedOrder L] (n : Negation L)

/-- The negation of a conjunction is the disjunction of the negations. -/
theorem neg_meetOf (vs : List L) : n.neg (meetOf vs) = joinOf (vs.map n.neg) := by
  refine eq_of_forall_ge_iff fun c => ?_
  rw [n.neg_le, le_meetOf, joinOf_le, List.forall_mem_map]
  exact forall₂_congr fun v _ => n.neg_le

/-- The negation of a disjunction is the conjunction of the negations. -/
theorem neg_joinOf (vs : List L) : n.neg (joinOf vs) = meetOf (vs.map n.neg) := by
  refine eq_of_forall_le_iff fun c => ?_
  rw [n.le_neg, joinOf_le, le_meetOf, List.forall_mem_map]
  exact forall₂_congr fun v _ => n.le_neg

end Negation

/-! ## Formulas -/

/-- A formula over atoms. -/
inductive Formula (α : Type) where
  | atom (a : α)
  | all (fs : List (Formula α))
  | any (fs : List (Formula α))
  | not (f : Formula α)

namespace Formula
variable {α L : Type} [Lattice L] [BoundedOrder L] (n : Negation L) (v : α → L)

mutual

/-- The truth value of a formula, from those of its atoms. -/
def eval : Formula α → L
  | .atom a => v a
  | .all fs => meetOf (evalList fs)
  | .any fs => joinOf (evalList fs)
  | .not f => n.neg (eval f)

/-- The truth values of a list of formulas. -/
def evalList : List (Formula α) → List L
  | [] => []
  | f :: fs => eval f :: evalList fs

end

theorem evalList_eq (fs : List (Formula α)) : evalList n v fs = fs.map (eval n v) := by
  induction fs with
  | nil => rfl
  | cons f fs ih => rw [evalList, ih, List.map_cons]

end Formula

end InfraBox
