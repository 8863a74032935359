import Mathlib.Data.List.Induction

/-!
# Runs of a transition system

A run is a sequence of labelled transitions, kept with the states they lead between, so that a
property of whole runs can speak about what happened earlier and about the states it happened in.
The rules are the inductions every safety argument here uses: an invariant of each step holds at
each point of a run (`Run.invariant`), a fact about a run and its history is established one step
at a time (`Run.induction`), and a fact that holds at one point still holds at a later one unless a
step in between is of a kind that may end it (`Run.holds_or_stopped`). A system whose steps are runs
of another one has no other runs than those (`Run.simulate`).
-/

namespace InfraBox

/-- One transition of a run. -/
structure Transition (σ ε : Type) where
  pre : σ
  label : ε
  post : σ

/-- The transitions of a run, in order. -/
abbrev Trace (σ ε : Type) := List (Transition σ ε)

/-- `Run step s tr s'`: the transitions `tr` lead from `s` to `s'`. -/
inductive Run {σ ε : Type} (step : σ → ε → σ → Prop) : σ → Trace σ ε → σ → Prop
  | nil (s : σ) : Run step s [] s
  | cons {s s₁ s' : σ} {e : ε} {tr : Trace σ ε} :
      step s e s₁ → Run step s₁ tr s' → Run step s (⟨s, e, s₁⟩ :: tr) s'

namespace Run

variable {σ ε : Type} {step : σ → ε → σ → Prop} {s s₁ s' : σ} {tr tr' : Trace σ ε}
  {t : Transition σ ε}

/-- A run splits at every point. -/
theorem append_inv (h : Run step s (tr ++ tr') s') :
    ∃ s₁, Run step s tr s₁ ∧ Run step s₁ tr' s' := by
  induction tr generalizing s with
  | nil => exact ⟨s, .nil s, h⟩
  | cons t tr ih =>
    cases h with
    | cons hs h =>
      obtain ⟨s₂, h₁, h₂⟩ := ih h
      exact ⟨s₂, .cons hs h₁, h₂⟩

/-- Consecutive runs compose. -/
theorem append (h : Run step s tr s₁) (h' : Run step s₁ tr' s') : Run step s (tr ++ tr') s' := by
  induction h with
  | nil => exact h'
  | cons hs _ ih => exact .cons hs (ih h')

/-- A run that ends with a transition is a run followed by that step. -/
theorem snoc_inv (h : Run step s (tr ++ [t]) s') :
    Run step s tr t.pre ∧ step t.pre t.label t.post ∧ s' = t.post := by
  obtain ⟨s₁, h₁, h₂⟩ := h.append_inv
  cases h₂ with
  | cons hs h₂ =>
    cases h₂ with
    | nil => exact ⟨h₁, hs, rfl⟩

/-- Around each of its transitions a run is a run, the step, and a run. -/
theorem mid_inv (h : Run step s (tr ++ t :: tr') s') :
    Run step s tr t.pre ∧ step t.pre t.label t.post ∧ Run step t.post tr' s' := by
  obtain ⟨s₁, h₁, h₂⟩ := h.append_inv
  cases h₂ with
  | cons hs h₂ => exact ⟨h₁, hs, h₂⟩

/-- A run around one of its transitions. -/
theorem mem_inv (h : Run step s tr s') (ht : t ∈ tr) :
    ∃ before after, tr = before ++ t :: after ∧ Run step s before t.pre ∧
      step t.pre t.label t.post ∧ Run step t.post after s' := by
  obtain ⟨before, after, rfl⟩ := List.append_of_mem ht
  exact ⟨before, after, rfl, h.mid_inv⟩

/-- A run around two of its transitions. -/
theorem two_inv {before between after : Trace σ ε} {x y : Transition σ ε}
    (h : Run step s (before ++ x :: between ++ y :: after) s') :
    Run step s before x.pre ∧ step x.pre x.label x.post ∧ Run step x.post between y.pre ∧
      step y.pre y.label y.post ∧ Run step y.post after s' := by
  obtain ⟨hfirst, hy, hafter⟩ := h.mid_inv
  obtain ⟨hbefore, hx, hbetween⟩ := hfirst.mid_inv
  exact ⟨hbefore, hx, hbetween, hy, hafter⟩

/-- An invariant of every step holds at the end of every run. -/
theorem invariant {I : σ → Prop} (h : Run step s tr s') (h₀ : I s)
    (hstep : ∀ s e s', I s → step s e s' → I s') : I s' := by
  induction h with
  | nil => exact h₀
  | cons hs _ ih => exact ih (hstep _ _ _ h₀ hs)

/-- An invariant of the steps of a run holds at its end. -/
theorem invariant_mem {I : σ → Prop} (h : Run step s tr s') (h₀ : I s)
    (hstep : ∀ t ∈ tr, step t.pre t.label t.post → I t.pre → I t.post) : I s' := by
  induction h with
  | nil => exact h₀
  | @cons s s₁ s' e tr hs _ ih =>
    exact ih (hstep ⟨s, e, s₁⟩ (.head _) hs h₀) fun t ht => hstep t (.tail _ ht)

/-- A property of a run together with its history, established one step at a time. -/
theorem induction {P : Trace σ ε → σ → Prop} (h : Run step s tr s') (h₀ : P [] s)
    (hstep : ∀ tr s₁ e s₂, Run step s tr s₁ → P tr s₁ → step s₁ e s₂ → P (tr ++ [⟨s₁, e, s₂⟩]) s₂) :
    P tr s' := by
  induction tr using List.reverseRecOn generalizing s' with
  | nil => cases h; exact h₀
  | append_singleton tr t ih =>
    obtain ⟨h₁, hs, rfl⟩ := h.snoc_inv
    exact hstep tr t.pre t.label t.post h₁ (ih h₁) hs

/-- What holds at the start of a run holds at its end, unless one of its steps is of a kind that
may end it. -/
theorem holds_or_stopped {P : σ → Prop} {Stop : Transition σ ε → Prop} (h : Run step s tr s')
    (h₀ : P s)
    (hstep : ∀ t ∈ tr, step t.pre t.label t.post → P t.pre → P t.post ∨ Stop t) :
    P s' ∨ ∃ t ∈ tr, Stop t := by
  induction h with
  | nil => exact .inl h₀
  | @cons s s₁ s' e tr hs _ ih =>
    rcases hstep ⟨s, e, s₁⟩ (.head _) hs h₀ with hp | hstop
    · rcases ih hp fun t ht => hstep t (.tail _ ht) with h | ⟨t, ht, hst⟩
      · exact .inl h
      · exact .inr ⟨t, .tail _ ht, hst⟩
    · exact .inr ⟨_, .head _, hstop⟩

/-- A run of one system is a run of another, when each of its steps is one. -/
theorem simulate {σ' ε' : Type} {step' : σ' → ε' → σ' → Prop} {g : σ → σ'}
    {f : Transition σ ε → Trace σ' ε'} (h : Run step s tr s')
    (hstep : ∀ t, step t.pre t.label t.post → Run step' (g t.pre) (f t) (g t.post)) :
    Run step' (g s) (tr.flatMap f) (g s') := by
  induction h with
  | nil s => exact .nil (g s)
  | @cons s s₁ s' e tr hs _ ih => exact (hstep ⟨s, e, s₁⟩ hs).append ih

end Run

end InfraBox
