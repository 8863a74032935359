import Mathlib.Data.List.Basic

/-!
# Rolling windows

A limit on the events of a rolling window is enforced with a list of event times from which old
times are dropped now and then. `Tracks w clock log kept` says that the times `kept` at `clock` are
all times of the whole `log` that a window of width `w` ending now or later can hold. So an event
that is recorded only while fewer than `max` kept times are recent keeps every window of the log,
wherever it ends, within `max` events (`Bounded.snoc`).

When the limit is reached and the log is in order, the first of the recent events decides for how
long (`Chronological.recent_eq`, `length_recent_lt`).
-/

namespace InfraBox

variable {w clock clock' now time : Int} {max : Nat} {log kept : List Int}

/-- The number of events of the log in the window of width `w` that ends at `t`. -/
def windowCount (w : Int) (log : List Int) (t : Int) : Nat :=
  log.countP fun x => t - w < x ∧ x ≤ t

/-- No window holds more than `max` events. -/
def Bounded (w : Int) (max : Nat) (log : List Int) : Prop := ∀ t, windowCount w log t ≤ max

/-- What is kept of the log at a time. -/
def Tracks (w clock : Int) (log kept : List Int) : Prop :=
  ∃ cutoff ≤ clock - w, kept = log.filter fun x => cutoff < x

theorem bounded_nil : Bounded w max [] := fun _ => Nat.zero_le _

theorem tracks_nil : Tracks w clock [] [] := ⟨clock - w, Int.le_refl _, rfl⟩

theorem Tracks.mono (h : Tracks w clock log kept) (hle : clock ≤ clock') :
    Tracks w clock' log kept := by
  obtain ⟨cutoff, hcut, heq⟩ := h
  exact ⟨cutoff, by omega, heq⟩

/-- Nothing recent has been dropped. -/
theorem Tracks.recent (h : Tracks w clock log kept) (hle : clock ≤ now) :
    kept.filter (fun x => now - w < x) = log.filter fun x => now - w < x := by
  obtain ⟨cutoff, hcut, rfl⟩ := h
  rw [List.filter_filter]
  refine List.filter_congr fun x _ => ?_
  simp only [Bool.and_eq_decide, decide_eq_true_eq, decide_eq_decide, and_iff_left_iff_imp]
  omega

/-- What is not recent may be dropped. -/
theorem Tracks.drop (h : Tracks w clock log kept) (hle : now ≤ clock) :
    Tracks w clock log (kept.filter fun x => now - w < x) := by
  obtain ⟨cutoff, hcut, rfl⟩ := h
  refine ⟨Max.max cutoff (now - w), by omega, ?_⟩
  rw [List.filter_filter]
  refine List.filter_congr fun x _ => ?_
  simp only [Bool.and_eq_decide, decide_eq_true_eq, decide_eq_decide]
  omega

/-- A new event is kept. -/
theorem Tracks.snoc (h : Tracks w clock log kept) (hw : 0 < w) (hle : clock ≤ time) :
    Tracks w clock (log ++ [time]) (kept ++ [time]) := by
  obtain ⟨cutoff, hcut, rfl⟩ := h
  refine ⟨cutoff, hcut, ?_⟩
  rw [List.filter_append, List.filter_cons_of_pos (by simp; omega), List.filter_nil]

/-- An event may follow when fewer than `max` events are recent. -/
theorem Bounded.snoc (h : Bounded w max log)
    (hcount : (log.filter fun x => now - w < x).length < max) (hle : now ≤ time) :
    Bounded w max (log ++ [time]) := by
  intro t
  rw [windowCount, List.countP_append, List.countP_singleton]
  split
  · next hin =>
    have hsub : windowCount w log t ≤ log.countP fun x => decide (now - w < x) := by
      refine List.countP_mono_left fun x _ hx => ?_
      simp only [decide_eq_true_eq] at hin hx ⊢
      omega
    rw [← List.countP_eq_length_filter] at hcount
    unfold windowCount at hsub
    omega
  · exact h t

/-! ## The first recent event -/

/-- A log in the order of time, up to `clock`. -/
structure Chronological (clock : Int) (log : List Int) : Prop where
  sorted : log.Pairwise (· ≤ ·)
  past : ∀ x ∈ log, x ≤ clock

theorem chronological_nil : Chronological clock [] := ⟨.nil, by simp⟩

theorem Chronological.mono (h : Chronological clock log) (hle : clock ≤ clock') :
    Chronological clock' log :=
  ⟨h.sorted, fun x hx => Int.le_trans (h.past x hx) hle⟩

/-- An event at the present time is the last. -/
theorem Chronological.snoc (h : Chronological clock log) (hle : clock ≤ time) :
    Chronological time (log ++ [time]) := by
  refine ⟨List.pairwise_append.2 ⟨h.sorted, List.pairwise_singleton _ _, ?_⟩, ?_⟩
  · intro x hx y hy
    rw [List.mem_singleton.1 hy]
    exact Int.le_trans (h.past x hx) hle
  · intro x hx
    rcases List.mem_append.1 hx with hx | hx
    · exact Int.le_trans (h.past x hx) hle
    · exact Int.le_of_eq (List.mem_singleton.1 hx)

/-- The recent events at the end of a log are those of one window. -/
theorem Bounded.length_recent_le (h : Bounded w max log) (hc : Chronological clock log)
    (hle : clock ≤ now) : (log.filter fun x => now - w < x).length ≤ max := by
  rw [← List.countP_eq_length_filter]
  refine Nat.le_trans (List.countP_mono_left fun x hx hin => ?_) (h now)
  have hpast := hc.past x hx
  simp only [decide_eq_true_eq] at hin ⊢
  omega

/-- The recent events of a later time are some of the recent ones. -/
theorem recent_of_later {later : Int} (hle : now ≤ later) :
    (log.filter fun x => later - w < x) =
      (log.filter fun x => now - w < x).filter fun x => later - w < x := by
  rw [List.filter_filter]
  refine List.filter_congr fun x _ => ?_
  simp only [Bool.and_eq_decide, decide_eq_true_eq, decide_eq_decide]
  omega

/-- Once the first recent event has left the window there are fewer. -/
theorem length_recent_lt {first later : Int} {rest : List Int}
    (hrecent : (log.filter fun x => now - w < x) = first :: rest) (hle : now ≤ later)
    (hleft : first + w ≤ later) :
    (log.filter fun x => later - w < x).length < (log.filter fun x => now - w < x).length := by
  rw [recent_of_later hle, hrecent, List.filter_cons_of_neg (by simp; omega), List.length_cons]
  exact Nat.lt_succ_of_le (List.length_filter_le _ _)

/-- Until then all of them are recent. -/
theorem Chronological.recent_eq (h : Chronological clock log) {first later : Int} {rest : List Int}
    (hrecent : (log.filter fun x => now - w < x) = first :: rest) (hle : now ≤ later)
    (hin : later < first + w) :
    (log.filter fun x => later - w < x) = log.filter fun x => now - w < x := by
  have hsorted : (first :: rest).Pairwise (· ≤ ·) := hrecent ▸ h.sorted.filter _
  rw [recent_of_later hle, hrecent, List.filter_eq_self]
  intro x hx
  have hfirst : first ≤ x := by
    rcases List.mem_cons.1 hx with rfl | hx
    · exact Int.le_refl _
    · exact (List.pairwise_cons.1 hsorted).1 x hx
  rw [decide_eq_true_eq]
  omega

end InfraBox
