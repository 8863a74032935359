import Mathlib.Data.List.Infix

/-!
# Closest enclosers

Names are lists of labels, the leftmost first, so the parent of a name is its tail and its ancestors
are its suffixes. The closest encloser of a name (RFC 4592, section 3.3.1) is its longest existing
proper ancestor inside the zone. It is unique, and the search that removes one label after another
until a name exists finds it (`IsClosestEncloser.step`).
-/

namespace InfraBox

variable {α : Type} {E : List α → Prop} {apex n ce : List α}

/-- `ce` is the longest proper ancestor of `n`, at or below `apex`, that exists. -/
structure IsClosestEncloser (E : List α → Prop) (apex n ce : List α) : Prop where
  ancestor : ce <:+ n
  proper : ce ≠ n
  inZone : apex <:+ ce
  exist : E ce
  longest : ∀ m, m <:+ n → m ≠ n → apex <:+ m → E m → m <:+ ce

/-- A name has at most one closest encloser. -/
theorem IsClosestEncloser.unique {ce' : List α} (h : IsClosestEncloser E apex n ce)
    (h' : IsClosestEncloser E apex n ce') : ce = ce' := by
  have h₁ : ce <:+ ce' := h'.longest ce h.ancestor h.proper h.inZone h.exist
  have h₂ : ce' <:+ ce := h.longest ce' h'.ancestor h'.proper h'.inZone h'.exist
  exact h₁.eq_of_length (le_antisymm h₁.length_le h₂.length_le)

/-- A proper suffix of a nonempty list is a suffix of its tail. -/
theorem suffix_tail {l : α} {m : List α} (h : m <:+ l :: n) (hne : m ≠ l :: n) : m <:+ n :=
  (List.suffix_cons_iff.1 h).resolve_left hne

/-- An existing parent is the closest encloser. -/
theorem IsClosestEncloser.parent {l : α} (hE : E n) (hz : apex <:+ n) :
    IsClosestEncloser E apex (l :: n) n where
  ancestor := List.suffix_cons l n
  proper h := by simpa using congrArg List.length h
  inZone := hz
  exist := hE
  longest _ hm hne _ _ := suffix_tail hm hne

/-- If the parent does not exist, its closest encloser is the name's. -/
theorem IsClosestEncloser.of_parent {l : α} (hE : ¬ E n) (h : IsClosestEncloser E apex n ce) :
    IsClosestEncloser E apex (l :: n) ce where
  ancestor := h.ancestor.trans (List.suffix_cons l n)
  proper heq := by
    have := h.ancestor.length_le
    rw [heq, List.length_cons] at this
    omega
  inZone := h.inZone
  exist := h.exist
  longest m hm hne hz hEm := by
    have hmn := suffix_tail hm hne
    refine h.longest m hmn ?_ hz hEm
    rintro rfl
    exact hE hEm

/-- Below an existing apex every name has a closest encloser. -/
theorem exists_isClosestEncloser (hE : E apex) :
    ∀ {n : List α}, apex <:+ n → n ≠ apex → ∃ ce, IsClosestEncloser E apex n ce
  | [], hz, hne => absurd (List.suffix_nil.1 hz).symm hne
  | l :: n, hz, hne => by
    have hn : apex <:+ n := suffix_tail hz hne.symm
    by_cases hEn : E n
    · exact ⟨n, .parent hEn hn⟩
    · obtain ⟨ce, hce⟩ := exists_isClosestEncloser hE hn fun h => hEn (h ▸ hE)
      exact ⟨ce, hce.of_parent hEn⟩

/-- One step of the search: the parent is the closest encloser, or does not exist and has the same
closest encloser. -/
theorem IsClosestEncloser.step {l : α} (h : IsClosestEncloser E apex (l :: n) ce) :
    (E n ∧ ce = n) ∨ (¬ E n ∧ IsClosestEncloser E apex n ce) := by
  have hce : ce <:+ n := suffix_tail h.ancestor h.proper
  have hz : apex <:+ n := h.inZone.trans hce
  by_cases hEn : E n
  · exact .inl ⟨hEn, h.unique (.parent hEn hz)⟩
  · refine .inr ⟨hEn, hce, fun heq => hEn (heq ▸ h.exist), h.inZone, h.exist,
      fun m hm _ hzm hEm => ?_⟩
    refine h.longest m (hm.trans (List.suffix_cons l n)) (fun heq => ?_) hzm hEm
    have := hm.length_le
    rw [heq, List.length_cons] at this
    omega

end InfraBox
