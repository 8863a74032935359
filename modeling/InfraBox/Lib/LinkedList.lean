import Mathlib.Data.List.Pairwise

/-!
# Linked lists

`container/list`: a list whose elements have an identity of their own, so that a program can keep a
reference to an element and remove it later, wherever it stands by then. The identities of a list
are distinct and smaller than the next one to be given out; both facts are fields of `LinkedList`.
-/

namespace InfraBox

/-- An element of a linked list: what a reference to it identifies, and its value. -/
structure Element (α : Type) where
  id : Nat
  value : α
deriving DecidableEq

/-- A linked list, from front to back. -/
structure LinkedList (α : Type) where
  elements : List (Element α)
  next : Nat
  allocated : ∀ e ∈ elements, e.id < next
  distinct : elements.Pairwise fun a b => a.id ≠ b.id

namespace LinkedList

variable {α : Type}

/-- The zero value of `list.List`. -/
def empty : LinkedList α := ⟨[], 0, by simp, .nil⟩

/-- `List.Front`. -/
def front (l : LinkedList α) : Option (Element α) := l.elements.head?

/-- `List.PushBack`: the new element and the list with it. -/
def pushBack (l : LinkedList α) (a : α) : Element α × LinkedList α :=
  (⟨l.next, a⟩,
    { elements := l.elements ++ [⟨l.next, a⟩]
      next := l.next + 1
      allocated := fun e he => by
        rcases List.mem_append.1 he with he | he
        · exact Nat.lt_succ_of_lt (l.allocated e he)
        · rw [List.mem_singleton.1 he]; exact Nat.lt_succ_self _
      distinct := List.pairwise_append.2 ⟨l.distinct, List.pairwise_singleton _ _,
        fun e he b hb => by
          rw [List.mem_singleton.1 hb]; exact Nat.ne_of_lt (l.allocated e he)⟩ })

/-- `List.Remove`: an element that is not in the list any more is left alone. -/
def remove (l : LinkedList α) (e : Element α) : LinkedList α where
  elements := l.elements.filter fun a => a.id ≠ e.id
  next := l.next
  allocated := fun a ha => l.allocated a (List.mem_filter.1 ha).1
  distinct := l.distinct.filter _

/-- An element of the list is determined by its identity. -/
theorem eq_of_id {l : LinkedList α} {a b : Element α} (ha : a ∈ l.elements) (hb : b ∈ l.elements)
    (h : a.id = b.id) : a = b := by
  have : Std.Symm fun a b : Element α => a.id ≠ b.id := ⟨fun _ _ => Ne.symm⟩
  by_contra hne
  exact l.distinct.forall ha hb hne h

theorem nodup (l : LinkedList α) : l.elements.Nodup :=
  l.distinct.imp fun h heq => h (congrArg Element.id heq)

/-- Removing an element of the list removes just that one. -/
theorem mem_remove {l : LinkedList α} {a e : Element α} (he : e ∈ l.elements) :
    a ∈ (l.remove e).elements ↔ a ∈ l.elements ∧ a ≠ e := by
  simp only [remove, List.mem_filter, decide_eq_true_eq]
  exact and_congr_right fun ha =>
    ⟨fun hne heq => hne (congrArg Element.id heq), fun hne hid => hne (eq_of_id ha he hid)⟩

/-- Removing the front leaves the rest. -/
theorem elements_remove_front {l : LinkedList α} {e : Element α} {rest : List (Element α)}
    (h : l.elements = e :: rest) : (l.remove e).elements = rest := by
  have hne : ∀ a ∈ rest, a.id ≠ e.id := fun a ha =>
    Ne.symm ((List.pairwise_cons.1 (h ▸ l.distinct)).1 a ha)
  simp only [remove, h]
  rw [List.filter_cons_of_neg (by simp), List.filter_eq_self]
  exact fun a ha => decide_eq_true (hne a ha)

theorem front_eq_some {l : LinkedList α} {e : Element α} :
    l.front = some e ↔ ∃ rest, l.elements = e :: rest := by
  unfold front
  cases l.elements with
  | nil => simp
  | cons a as => simp

theorem length_remove_lt {l : LinkedList α} {e : Element α} (h : l.front = some e) :
    (l.remove e).elements.length < l.elements.length := by
  obtain ⟨rest, hrest⟩ := front_eq_some.1 h
  rw [elements_remove_front hrest, hrest]
  exact Nat.lt_succ_self _

end LinkedList

end InfraBox
