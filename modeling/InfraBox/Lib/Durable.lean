import InfraBox.Lib.Run

/-!
# What a run retains across crashes

A process notes entries in memory; a flush writes what the memory holds to stable storage, and a
crash loses the memory. An entry of a run is volatile from the step that notes it to the next crash
(`Volatile`), and durable from the first flush in that time on (`Durable`). `Run.retains` is the
rule for such a process: if single steps note, keep and flush entries, then at the end of every run
its memory has the volatile entries and its storage has the durable ones.
-/

namespace InfraBox

section
variable {σ ε κ : Type} (notes : Transition σ ε → κ → Prop)
  (crashes flushes : Transition σ ε → Prop)

/-- The run noted the entry and has not crashed since. -/
def Volatile (tr : Trace σ ε) (k : κ) : Prop :=
  ∃ before t after, tr = before ++ t :: after ∧ notes t k ∧ ∀ u ∈ after, ¬ crashes u

/-- The run flushed the entry when it was volatile. -/
def Durable (tr : Trace σ ε) (k : κ) : Prop :=
  ∃ before t after, tr = before ++ t :: after ∧ flushes t ∧ Volatile notes crashes (before ++ [t]) k

variable {notes crashes flushes} {tr : Trace σ ε} {t : Transition σ ε} {k : κ}

/-- A volatile entry was noted in the last step, or before and the last step was no crash. -/
theorem Volatile.of_snoc (h : Volatile notes crashes (tr ++ [t]) k) :
    notes t k ∨ (¬ crashes t ∧ Volatile notes crashes tr k) := by
  obtain ⟨before, u, after, heq, hu, hafter⟩ := h
  rcases List.eq_nil_or_concat after with rfl | ⟨after, w, rfl⟩
  · obtain ⟨rfl, rfl⟩ := List.append_singleton_inj.1 heq
    exact .inl hu
  · rw [List.concat_eq_append, ← List.cons_append, ← List.append_assoc] at heq
    obtain ⟨rfl, rfl⟩ := List.append_singleton_inj.1 heq
    rw [List.concat_eq_append] at hafter
    exact .inr ⟨hafter t (by simp), before, u, after, rfl, hu, fun w hw => hafter w (by simp [hw])⟩

/-- A durable entry was durable before the last step, or is flushed in it. -/
theorem Durable.of_snoc (h : Durable notes crashes flushes (tr ++ [t]) k) :
    Durable notes crashes flushes tr k ∨ (flushes t ∧ Volatile notes crashes (tr ++ [t]) k) := by
  obtain ⟨before, u, after, heq, hu, hvol⟩ := h
  rcases List.eq_nil_or_concat after with rfl | ⟨after, w, rfl⟩
  · obtain ⟨rfl, rfl⟩ := List.append_singleton_inj.1 heq
    exact .inr ⟨hu, hvol⟩
  · rw [List.concat_eq_append, ← List.cons_append, ← List.append_assoc] at heq
    obtain ⟨rfl, rfl⟩ := List.append_singleton_inj.1 heq
    exact .inl ⟨before, u, after, rfl, hu, hvol⟩

variable {step : σ → ε → σ → Prop} {s s' : σ}

/-- The memory has the volatile entries of a run and the storage has its durable ones, if every step
of a run from `s` puts what it notes in memory, keeps what is in memory unless it is a crash, keeps
what is in storage, and puts what is in memory in storage if it is a flush. -/
theorem Run.retains (h : Run step s tr s') (memory storage : σ → Prop)
    (hnote : ∀ {tr s₁ e s₂}, Run step s tr s₁ → step s₁ e s₂ → notes ⟨s₁, e, s₂⟩ k → memory s₂)
    (hkeep : ∀ {tr s₁ e s₂}, Run step s tr s₁ → step s₁ e s₂ → ¬ crashes ⟨s₁, e, s₂⟩ → memory s₁ →
      memory s₂)
    (hstored : ∀ {tr s₁ e s₂}, Run step s tr s₁ → step s₁ e s₂ → storage s₁ → storage s₂)
    (hflush : ∀ {tr s₁ e s₂}, Run step s tr s₁ → step s₁ e s₂ → flushes ⟨s₁, e, s₂⟩ → memory s₂ →
      storage s₂) :
    (Volatile notes crashes tr k → memory s') ∧
      (Durable notes crashes flushes tr k → storage s') := by
  refine h.induction (P := fun tr s' => (Volatile notes crashes tr k → memory s') ∧
    (Durable notes crashes flushes tr k → storage s')) ⟨?_, ?_⟩ fun tr s₁ e s₂ hrun ih hs => ?_
  · rintro ⟨before, t, after, heq, -⟩
    simp at heq
  · rintro ⟨before, t, after, heq, -⟩
    simp at heq
  have hvol : Volatile notes crashes (tr ++ [⟨s₁, e, s₂⟩]) k → memory s₂ := by
    intro hv
    rcases hv.of_snoc with hnoted | ⟨hlive, hv⟩
    · exact hnote hrun hs hnoted
    · exact hkeep hrun hs hlive (ih.1 hv)
  refine ⟨hvol, fun hd => ?_⟩
  rcases hd.of_snoc with hd | ⟨hflushed, hv⟩
  · exact hstored hrun hs (ih.2 hd)
  · exact hflush hrun hs hflushed (hvol hv)

end

end InfraBox
