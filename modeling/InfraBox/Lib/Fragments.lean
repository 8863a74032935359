import Mathlib.Data.List.Infix

/-!
# Fragments in order

When a list can be cut into given fragments with arbitrary gaps between them. To find out it is
enough to take each fragment at its first occurrence (`FirstCut.ends_iff`): what is left after the
first occurrence contains what is left after any other, and a gap can only get longer.
-/

namespace InfraBox

section
variable {α : Type}

/-- The list is a gap, the first fragment, a gap, the second fragment and so on, and a last gap. -/
inductive Spread : List (List α) → List α → Prop
  | nil (gap : List α) : Spread [] gap
  | cons (gap : List α) {fragment rest : List α} {fragments : List (List α)} :
      Spread fragments rest → Spread (fragment :: fragments) (gap ++ fragment ++ rest)

/-- The list consists of an initial fragment, fragments with gaps around them, and a final one. -/
def Decomposes (initial : Option (List α)) (middles : List (List α)) (final : Option (List α))
    (s : List α) : Prop :=
  ∃ mid, s = initial.getD [] ++ mid ++ final.getD [] ∧ Spread middles mid

variable {fragment final s rest : List α} {fragments : List (List α)}

/-- The first gap can be longer. -/
theorem Spread.prepend (h : Spread fragments s) (gap : List α) : Spread fragments (gap ++ s) := by
  cases h with
  | nil => exact .nil _
  | @cons gap' fragment rest _ hrest =>
    rw [List.append_assoc, ← List.append_assoc, ← List.append_assoc]
    exact .cons (gap ++ gap') hrest

/-- The list ends in the final fragment, with the other ones before it. -/
def Ends (fragments : List (List α)) (final s : List α) : Prop :=
  ∃ mid, s = mid ++ final ∧ Spread fragments mid

theorem ends_nil : Ends [] final s ↔ final <:+ s :=
  ⟨fun ⟨mid, hs, _⟩ => ⟨mid, hs.symm⟩, fun ⟨mid, hs⟩ => ⟨mid, hs.symm, .nil _⟩⟩

/-- What is left of the list after the first occurrence of a fragment. -/
structure FirstCut (fragment s rest : List α) : Prop where
  occurs : ∃ before, s = before ++ fragment ++ rest
  first : ∀ before' rest', s = before' ++ fragment ++ rest' → rest' <:+ rest

/-- The first occurrence of the next fragment does as well as any other one. -/
theorem FirstCut.ends_iff (h : FirstCut fragment s rest) :
    Ends (fragment :: fragments) final s ↔ Ends fragments final rest := by
  constructor
  · rintro ⟨mid, rfl, hspread⟩
    cases hspread with
    | @cons gap _ r _ hrest =>
      obtain ⟨longer, hlonger⟩ := h.first gap (r ++ final) (by simp only [List.append_assoc])
      refine ⟨longer ++ r, ?_, hrest.prepend longer⟩
      rw [← hlonger, List.append_assoc]
  · rintro ⟨mid, rfl, hspread⟩
    obtain ⟨before, rfl⟩ := h.occurs
    exact ⟨before ++ fragment ++ mid, by simp only [List.append_assoc], .cons before hspread⟩

/-- A fragment that does not occur has no place. -/
theorem not_ends_of_absent (h : ¬ fragment <:+: s) : ¬ Ends (fragment :: fragments) final s := by
  rintro ⟨mid, rfl, hspread⟩
  cases hspread with
  | @cons gap _ r _ _ => exact h ⟨gap, r ++ final, by simp only [List.append_assoc]⟩

/-- An initial fragment is taken off the front. -/
theorem decomposes_initial {initial : List α} {middles : List (List α)} {final : Option (List α)} :
    Decomposes (some initial) middles final s ↔
      initial <+: s ∧ Ends middles (final.getD []) (s.drop initial.length) := by
  constructor
  · rintro ⟨mid, rfl, hspread⟩
    refine ⟨⟨mid ++ final.getD [], by simp⟩, mid, by simp, hspread⟩
  · rintro ⟨⟨t, rfl⟩, mid, hmid, hspread⟩
    rw [List.drop_left] at hmid
    exact ⟨mid, by simp [hmid], hspread⟩

theorem decomposes_none {middles : List (List α)} {final : Option (List α)} :
    Decomposes none middles final s ↔ Ends middles (final.getD []) s := Iff.rfl

end

end InfraBox
