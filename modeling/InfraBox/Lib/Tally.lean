import InfraBox.Lib.FinMap

/-!
# Counters by key

A map of counters that is kept beside a collection: a member's counter goes up when it is added, and
down when it is removed, and an entry that reaches zero is deleted. `Tallies` says that the map
holds the number of members by key and no zero; both updates preserve it.
-/

namespace InfraBox

variable {K α : Type} [LinearOrder K]

namespace FinMap

/-- `m[k]`, which is zero for a missing key. -/
def count (m : FinMap K Int) (k : K) : Int := (m.get k).getD 0

/-- `m[k]++`. -/
def increment (m : FinMap K Int) (k : K) : FinMap K Int := m.set k (m.count k + 1)

/-- `m[k]--`, and `delete(m, k)` where that leaves zero. -/
def decrement (m : FinMap K Int) (k : K) : FinMap K Int :=
  let m := m.set k (m.count k - 1)
  if m.count k = 0 then m.erase k else m

/-- A count of zero is dropped. -/
theorem get_decrement (m : FinMap K Int) (k k' : K) :
    (m.decrement k).get k' = if k' = k then if m.count k - 1 = 0 then none else some (m.count k - 1)
      else m.get k' := by
  have hcount : (m.set k (m.count k - 1)).count k = m.count k - 1 := by simp [count]
  unfold decrement
  dsimp only
  rw [hcount]
  split_ifs <;> simp [*]

end FinMap

/-- The number of members with a key. -/
def countBy (key : α → K) (members : List α) (k : K) : Nat := members.countP (key · = k)

@[simp] theorem countBy_nil (key : α → K) (k : K) : countBy key [] k = 0 := rfl

theorem countBy_cons (key : α → K) (a : α) (members : List α) (k : K) :
    countBy key (a :: members) k = countBy key members k + if key a = k then 1 else 0 := by
  simp [countBy, List.countP_cons]

theorem countBy_perm (key : α → K) {members members' : List α} (h : members.Perm members') (k : K) :
    countBy key members k = countBy key members' k := h.countP_eq _

/-- The counters hold the number of members by key, and no zero. -/
def Tallies (key : α → K) (members : List α) (m : FinMap K Int) : Prop :=
  ∀ k, m.get k = if countBy key members k = 0 then none else some (countBy key members k : Int)

section
variable {key : α → K} {members : List α} {m : FinMap K Int}

theorem Tallies.count_eq (h : Tallies key members m) (k : K) :
    m.count k = countBy key members k := by
  rw [FinMap.count, h k]
  split_ifs with hzero
  · simp [hzero]
  · rfl

/-- An entry is the number of members with its key, which is not zero. -/
theorem Tallies.get_eq_some (h : Tallies key members m) {k : K} {n : Int} :
    m.get k = some n ↔ n = countBy key members k ∧ n ≠ 0 := by
  rw [h k]
  split_ifs with hzero
  · simp [hzero]
  · simp only [Option.some.injEq]
    omega

/-- One more member. -/
theorem Tallies.increment (h : Tallies key members m) (a : α) :
    Tallies key (a :: members) (m.increment (key a)) := by
  intro k
  rw [FinMap.increment, FinMap.get_set, h.count_eq, countBy_cons]
  by_cases hk : k = key a
  · subst hk
    simp
  · have hne : key a ≠ k := fun heq => hk heq.symm
    rw [if_neg hk, h k, if_neg hne, Nat.add_zero]

/-- One member less. -/
theorem Tallies.decrement [DecidableEq α] (h : Tallies key members m) {a : α} (ha : a ∈ members) :
    Tallies key (members.erase a) (m.decrement (key a)) := by
  intro k
  have hcount : countBy key members k =
      countBy key (members.erase a) k + if key a = k then 1 else 0 := by
    rw [countBy_perm key (List.perm_cons_erase ha), countBy_cons]
  rw [FinMap.get_decrement, h.count_eq]
  by_cases hk : k = key a
  · subst hk
    rw [if_pos rfl, hcount, if_pos rfl]
    simp
  · have hne : key a ≠ k := fun heq => hk heq.symm
    rw [if_neg hne, Nat.add_zero] at hcount
    rw [if_neg hk, h k, hcount]

end

end InfraBox
