import Mathlib.Data.List.Nodup

/-!
# Loops that refuse a key they have seen

A check for duplicates walks over a list with the keys of the elements before, and refuses an
element whose key is among them. What such a loop establishes of the elements that are left is
`Unseen key seen l`; one round of it is `unseen_cons`, in both directions, so that the loop is
followed by induction on the list.
-/

namespace InfraBox

section
variable {α β : Type} {key : α → β} {seen : List β} {x : α} {l : List α}

/-- The keys of the elements are not among those seen before, and no two of them are equal. -/
structure Unseen (key : α → β) (seen : List β) (l : List α) : Prop where
  fresh : ∀ x ∈ l, key x ∉ seen
  nodup : (l.map key).Nodup

theorem Unseen.nil : Unseen key seen [] := ⟨by simp, .nil⟩

/-- An element is new, and the later ones are new after it. -/
theorem unseen_cons : Unseen key seen (x :: l) ↔ key x ∉ seen ∧ Unseen key (key x :: seen) l := by
  constructor
  · rintro ⟨hfresh, hnodup⟩
    obtain ⟨hx, hl⟩ := List.forall_mem_cons.1 hfresh
    obtain ⟨hhead, htail⟩ := List.nodup_cons.1 hnodup
    refine ⟨hx, fun y hy hmem => ?_, htail⟩
    rcases List.mem_cons.1 hmem with heq | hmem
    · exact hhead (heq ▸ List.mem_map_of_mem hy)
    · exact hl y hy hmem
  · rintro ⟨hx, hfresh, hnodup⟩
    refine ⟨List.forall_mem_cons.2 ⟨hx, fun y hy hmem => hfresh y hy (.tail _ hmem)⟩, ?_⟩
    refine List.nodup_cons.2 ⟨fun hmem => ?_, hnodup⟩
    obtain ⟨y, hy, heq⟩ := List.mem_map.1 hmem
    exact hfresh y hy (heq ▸ .head _)

/-- At the start of the loop nothing is seen. -/
theorem unseen_start : Unseen key [] l ↔ (l.map key).Nodup :=
  ⟨Unseen.nodup, fun h => ⟨fun _ _ => List.not_mem_nil, h⟩⟩

end

end InfraBox
