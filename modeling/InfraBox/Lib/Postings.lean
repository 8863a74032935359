import Mathlib.Data.List.Nodup

/-!
# Inverted indexes

Items have lists of keys; the postings of a key are the values of the items that have it. When items
have distinct values, the value of an item is among the postings of a key exactly if the item has
the key, and then once (`count_postings`): the two directions of the relation are the same.
-/

namespace InfraBox

theorem count_of_mem_iff {α : Type} [BEq α] [LawfulBEq α] {a : α} {l : List α} {P : Prop}
    [Decidable P] (hnodup : l.Nodup) (hmem : a ∈ l ↔ P) : l.count a = if P then 1 else 0 := by
  rw [hnodup.count]
  exact if_congr hmem rfl rfl

section
variable {U K V : Type} [DecidableEq K] {keys : U → List K} {value : U → V} {items : List U} {u : U}

/-- The values of the items that have the key, in the order of the items. -/
def postings (keys : U → List K) (value : U → V) (items : List U) (k : K) : List V :=
  (items.filter fun u => k ∈ keys u).map value

@[simp] theorem postings_nil (k : K) : postings keys value [] k = [] := rfl

theorem postings_cons (u : U) (items : List U) (k : K) :
    postings keys value (u :: items) k =
      (if k ∈ keys u then [value u] else []) ++ postings keys value items k := by
  simp only [postings, List.filter_cons, decide_eq_true_eq]
  split_ifs <;> rfl

theorem mem_postings (hnodup : (items.map value).Nodup) (hu : u ∈ items) {k : K} :
    value u ∈ postings keys value items k ↔ k ∈ keys u := by
  simp only [postings, List.mem_map, List.mem_filter, decide_eq_true_eq]
  constructor
  · rintro ⟨v, ⟨hv, hk⟩, heq⟩
    obtain rfl := List.inj_on_of_nodup_map hnodup hv hu heq
    exact hk
  · exact fun hk => ⟨u, ⟨hu, hk⟩, rfl⟩

/-- The value of an item is posted once under each of its keys, and nowhere else. -/
theorem count_postings [BEq V] [LawfulBEq V] (hnodup : (items.map value).Nodup) (hu : u ∈ items)
    (k : K) : (postings keys value items k).count (value u) = if k ∈ keys u then 1 else 0 := by
  have hsub : (postings keys value items k).Nodup :=
    hnodup.sublist (List.filter_sublist.map value)
  exact count_of_mem_iff hsub (mem_postings hnodup hu)

end

end InfraBox
