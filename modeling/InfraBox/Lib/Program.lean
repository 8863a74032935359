import Mathlib.Init

/-!
# Programs on a state that may fault

A fault is what a checked access outside of its data would be. `Frame.Runs` says that a program ends
without a fault from every state with an invariant, keeps the invariant, and leaves a state that is
related to the first; relations that are reflexive and transitive compose, so that a program runs
if its parts do.
-/

namespace InfraBox

/-- A program on a state; `none` is a fault. -/
abbrev Program (σ α : Type) : Type := StateT σ Option α

/-- What every part of a program keeps of the state, and how it may change it. -/
structure Frame (σ : Type) where
  inv : σ → Prop
  rel : σ → σ → Prop
  refl : ∀ s, rel s s
  trans : ∀ {s t u}, rel s t → rel t u → rel s u

namespace Frame

variable {σ α β : Type} {F : Frame σ}

/-- From a state with the invariant the program ends, in a related one with the invariant. -/
def Runs (F : Frame σ) (m : Program σ α) : Prop :=
  ∀ s, F.inv s → ∃ a s', m s = some (a, s') ∧ F.inv s' ∧ F.rel s s'

theorem bind_apply {m : Program σ α} {f : α → Program σ β} {s t : σ} {a : α}
    (h : m s = some (a, t)) : (m >>= f) s = f a t := by
  change (m s).bind (fun p => f p.1 p.2) = f a t
  rw [h]
  rfl

theorem Runs.bind {m : Program σ α} {f : α → Program σ β} (hm : F.Runs m)
    (hf : ∀ a, F.Runs (f a)) : F.Runs (m >>= f) := by
  intro s hs
  obtain ⟨a, t, hmt, ht, hst⟩ := hm s hs
  obtain ⟨b, u, hfu, hu, htu⟩ := hf a t ht
  exact ⟨b, u, (bind_apply hmt).trans hfu, hu, F.trans hst htu⟩

end Frame

end InfraBox
