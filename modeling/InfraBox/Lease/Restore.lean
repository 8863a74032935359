import InfraBox.Lease.Invariant
import Mathlib.Data.List.Pairwise

/-!
# Restoring a saved state

`restore` accepts a decoded snapshot exactly when `Settings.Restorable` holds of it, and the state
it builds is read off the snapshot entry by entry (`Settings.IsRestored`). Both only depend on the
entries that are live at the time of the restart, which gives the two facts durability rests on: a
well-formed state can be restored from its own snapshot at any later time
(`State.Wf.restore_saved`), and a snapshot that was accepted once is accepted at any later time,
with the same entries except for those that have expired (`Settings.restore_later`).
-/

namespace InfraBox.Leasing

/-! ## The lease loop -/

/-- Two saved leases that `restore` accepts side by side. -/
structure Lease.Distinct (a b : Lease) : Prop where
  client : a.clientID ≠ b.clientID
  ip : a.ip ≠ b.ip
  name : b.hostname ≠ [] → a.hostname ≠ b.hostname

theorem Lease.Distinct.symm {a b : Lease} (h : a.Distinct b) : b.Distinct a where
  client := h.client.symm
  ip := h.ip.symm
  name hne heq := h.name (heq ▸ hne) heq.symm

instance : Std.Symm Lease.Distinct := ⟨fun _ _ => Lease.Distinct.symm⟩

/-- The saved leases that are live at the time of the restart. -/
def liveLeases (now : Int) (saved : List Lease) : List Lease :=
  saved.filter fun l => now < l.expiresAt

/-- The accumulators after the live leases `seen`. -/
structure Restored.Of (cfg : Settings) (seen : List Lease) (r : Restored) : Prop where
  leases : ∀ c l, r.leases.get c = some l ↔
    ∃ l₀ ∈ seen, l₀.clientID = c ∧ cfg.dropReserved l₀ = l
  addresses : ∀ ip, ip ∈ r.addresses ↔ ∃ l₀ ∈ seen, l₀.ip = ip
  names : ∀ n, n ∈ r.names ↔ ∃ l₀ ∈ seen, l₀.hostname = n ∧ n ≠ []

theorem Restored.Of.nil (cfg : Settings) : Restored.Of cfg [] ⟨.empty, [], []⟩ := by
  refine ⟨?_, ?_, ?_⟩ <;> simp

/-- The accumulators after one more live lease. -/
def Restored.push (cfg : Settings) (r : Restored) (l : Lease) : Restored where
  leases := r.leases.set l.clientID (cfg.dropReserved l)
  addresses := l.ip :: r.addresses
  names := if l.hostname ≠ [] then l.hostname :: r.names else r.names

section
variable {cfg : Settings} {seen : List Lease} {r : Restored}

/-- The three duplicate checks of the loop pass exactly when the lease is distinct from those
before it. -/
theorem Restored.Of.fresh_iff (h : r.Of cfg seen) (l : Lease) :
    (∀ l₀ ∈ seen, l₀.Distinct l) ↔ ¬ (r.leases.get l.clientID).isSome ∧ l.ip ∉ r.addresses ∧
      ¬ (l.hostname ≠ [] ∧ l.hostname ∈ r.names) := by
  have hclient : (r.leases.get l.clientID).isSome = true ↔
      ∃ l₀ ∈ seen, l₀.clientID = l.clientID := by
    rw [Option.isSome_iff_exists]
    refine ⟨fun ⟨v, hv⟩ => ?_, fun ⟨l₀, hm, hc⟩ => ⟨_, (h.leases _ _).2 ⟨l₀, hm, hc, rfl⟩⟩⟩
    obtain ⟨l₀, hm, hc, -⟩ := (h.leases _ _).1 hv
    exact ⟨l₀, hm, hc⟩
  rw [hclient, h.addresses, h.names]
  refine ⟨fun hd => ⟨?_, ?_, ?_⟩, fun ⟨hc, hip, hn⟩ l₀ hm => ⟨?_, ?_, ?_⟩⟩
  · exact fun ⟨l₀, hm, hc⟩ => (hd l₀ hm).client hc
  · exact fun ⟨l₀, hm, hip⟩ => (hd l₀ hm).ip hip
  · exact fun ⟨hne, l₀, hm, hn, _⟩ => (hd l₀ hm).name hne hn
  · exact fun heq => hc ⟨l₀, hm, heq⟩
  · exact fun heq => hip ⟨l₀, hm, heq⟩
  · exact fun hne heq => hn ⟨hne, l₀, hm, heq, hne⟩

/-- One more lease, distinct from those before. -/
theorem Restored.Of.push (h : r.Of cfg seen) {l : Lease} (hl : ∀ l₀ ∈ seen, l₀.Distinct l) :
    (r.push cfg l).Of cfg (seen ++ [l]) := by
  refine ⟨fun c v => ?_, fun ip => ?_, fun n => ?_⟩
  · simp only [Restored.push, FinMap.get_set_eq_some, h.leases, List.mem_append, List.mem_singleton]
    constructor
    · rintro (⟨rfl, rfl⟩ | ⟨-, l₀, hm, hc, hv⟩)
      · exact ⟨l, .inr rfl, rfl, rfl⟩
      · exact ⟨l₀, .inl hm, hc, hv⟩
    · rintro ⟨l₀, hm | rfl, hc, hv⟩
      · exact .inr ⟨fun heq => (hl l₀ hm).client (hc.trans heq), l₀, hm, hc, hv⟩
      · exact .inl ⟨hc.symm, hv⟩
  · simp only [Restored.push, List.mem_cons, h.addresses, List.mem_append]
    constructor
    · rintro (rfl | ⟨l₀, hm, hip⟩)
      · exact ⟨l, .inr (.inl rfl), rfl⟩
      · exact ⟨l₀, .inl hm, hip⟩
    · rintro ⟨l₀, hm | rfl | hm, hip⟩
      · exact .inr ⟨l₀, hm, hip⟩
      · exact .inl hip.symm
      · cases hm
  · have hpush : n ∈ (r.push cfg l).names ↔ (n = l.hostname ∧ n ≠ []) ∨ n ∈ r.names := by
      simp only [Restored.push]
      split
      · next hne =>
        rw [List.mem_cons]
        exact or_congr_left ⟨fun heq => ⟨heq, heq ▸ hne⟩, And.left⟩
      · next hne =>
        refine ⟨.inr, fun hn => hn.resolve_left ?_⟩
        rintro ⟨heq, hn⟩
        exact hn (heq.trans (not_not.1 hne))
    rw [hpush, h.names]
    simp only [List.mem_append, List.mem_singleton]
    constructor
    · rintro (⟨rfl, hne⟩ | ⟨l₀, hm, hn, hne⟩)
      · exact ⟨l, .inr rfl, rfl, hne⟩
      · exact ⟨l₀, .inl hm, hn, hne⟩
    · rintro ⟨l₀, hm | rfl, hn, hne⟩
      · exact .inr ⟨l₀, hm, hn, hne⟩
      · exact .inl ⟨hn.symm, hne⟩

/-- The lease loop, one live lease at a time. -/
theorem Settings.restoreLeases_cons {now : Int} {l : Lease} {ls : List Lease} (h : r.Of cfg seen)
    (hok : cfg.savedLeaseError l = none) (hlive : now < l.expiresAt)
    (hl : ∀ l₀ ∈ seen, l₀.Distinct l) :
    cfg.restoreLeases now (l :: ls) r = cfg.restoreLeases now ls (r.push cfg l) := by
  obtain ⟨hc, hip, hn⟩ := (h.fresh_iff l).1 hl
  rw [Settings.restoreLeases]
  simp only [hok]
  rw [if_neg (not_not.2 hlive), if_neg hc, if_neg hip, if_neg (by simpa using hn)]
  rfl

/-- The lease loop accepts well-formed leases whose live ones are distinct. -/
theorem Settings.restoreLeases_complete {now : Int} {saved : List Lease} (h : r.Of cfg seen)
    (hok : ∀ l ∈ saved, cfg.savedLeaseError l = none)
    (hd : (seen ++ liveLeases now saved).Pairwise Lease.Distinct) :
    ∃ r', cfg.restoreLeases now saved r = .ok r' := by
  induction saved generalizing seen r with
  | nil => exact ⟨r, rfl⟩
  | cons l ls ih =>
    have hok' : ∀ l ∈ ls, cfg.savedLeaseError l = none := fun l hl => hok l (.tail _ hl)
    rcases lt_or_ge now l.expiresAt with hlive | hdead
    · rw [liveLeases, List.filter_cons_of_pos (by simpa using hlive), List.append_cons] at hd
      have hl : ∀ l₀ ∈ seen, l₀.Distinct l := fun l₀ hm =>
        (List.pairwise_append.1 hd).1 |> List.pairwise_append.1 |>.2.2 l₀ hm l (.head _)
      rw [Settings.restoreLeases_cons h (hok l (.head _)) hlive hl]
      exact ih (h.push hl) hok' hd
    · rw [liveLeases, List.filter_cons_of_neg (by simpa using hdead)] at hd
      rw [Settings.restoreLeases, hok l (.head _)]
      simp only [if_pos (not_lt.2 hdead)]
      exact ih h hok' hd

/-- The lease loop accepts nothing else, and collects the live leases. -/
theorem Settings.restoreLeases_sound {now : Int} {saved : List Lease} {r' : Restored}
    (h : r.Of cfg seen) (hseen : seen.Pairwise Lease.Distinct)
    (hr : cfg.restoreLeases now saved r = .ok r') :
    (∀ l ∈ saved, cfg.savedLeaseError l = none) ∧
      (seen ++ liveLeases now saved).Pairwise Lease.Distinct ∧
      r'.Of cfg (seen ++ liveLeases now saved) := by
  induction saved generalizing seen r with
  | nil =>
    cases hr
    simpa [liveLeases] using ⟨hseen, h⟩
  | cons l ls ih =>
    rw [Settings.restoreLeases] at hr
    split at hr
    · cases hr
    next hok =>
    rw [List.forall_mem_cons, liveLeases]
    split at hr
    · next hdead =>
      rw [List.filter_cons_of_neg (by simpa using hdead)]
      obtain ⟨h₁, h₂, h₃⟩ := ih h hseen hr
      exact ⟨⟨hok, h₁⟩, h₂, h₃⟩
    next hlive =>
    rw [List.filter_cons_of_pos (by simpa using hlive), List.append_cons]
    split at hr
    · cases hr
    next hc =>
    split at hr
    · cases hr
    next hip =>
    split at hr
    · cases hr
    next hn =>
    have hl : ∀ l₀ ∈ seen, l₀.Distinct l := (h.fresh_iff l).2 ⟨hc, hip, by simpa using hn⟩
    have hseen' : (seen ++ [l]).Pairwise Lease.Distinct :=
      List.pairwise_append.2 ⟨hseen, List.pairwise_singleton _ _, fun l₀ hm l' hl' => by
        rw [List.mem_singleton.1 hl']; exact hl l₀ hm⟩
    obtain ⟨h₁, h₂, h₃⟩ := ih (h.push hl) hseen' hr
    exact ⟨⟨hok, h₁⟩, h₂, h₃⟩

end

/-! ## The quarantine loop -/

/-- The saved quarantines that are live at the time of the restart. -/
def liveDeclined (now : Int) (saved : List DeclinedAddress) : List DeclinedAddress :=
  saved.filter fun d => now < d.expiresAt

/-- The check `restore` makes on every saved quarantine. -/
def Settings.DeclinedOk (cfg : Settings) (d : DeclinedAddress) : Prop :=
  cfg.inPool d.ip = true ∧ d.expiresAt ≠ 0

section
variable {cfg : Settings} {now : Int}

/-- The quarantine loop accepts well-formed entries whose live ones name distinct addresses that
are not taken. -/
theorem Settings.restoreDeclined_complete {saved : List DeclinedAddress} {m : FinMap Addr Int}
    {taken : List Addr} (hok : ∀ d ∈ saved, cfg.DeclinedOk d)
    (hd : (liveDeclined now saved).Pairwise fun a b => a.ip ≠ b.ip)
    (hfree : ∀ d ∈ liveDeclined now saved, d.ip ∉ taken) :
    ∃ m', cfg.restoreDeclined now saved m taken = .ok m' := by
  induction saved generalizing m taken with
  | nil => exact ⟨m, rfl⟩
  | cons d ds ih =>
    obtain ⟨⟨hpool, hexp⟩, hok'⟩ := List.forall_mem_cons.1 hok
    rw [Settings.restoreDeclined, if_neg (by simp [hpool, hexp])]
    rcases lt_or_ge now d.expiresAt with hlive | hdead
    · rw [liveDeclined, List.filter_cons_of_pos (by simpa using hlive)] at hd hfree
      obtain ⟨hd₁, hd₂⟩ := List.pairwise_cons.1 hd
      obtain ⟨hf₁, hf₂⟩ := List.forall_mem_cons.1 hfree
      rw [if_neg (not_not.2 hlive), if_neg hf₁]
      refine ih hok' hd₂ fun d' hd' hmem => ?_
      rcases List.mem_cons.1 hmem with heq | hmem
      · exact hd₁ d' hd' heq.symm
      · exact hf₂ d' hd' hmem
    · rw [liveDeclined, List.filter_cons_of_neg (by simpa using hdead)] at hd hfree
      rw [if_pos (not_lt.2 hdead)]
      exact ih hok' hd hfree

/-- The quarantine loop accepts nothing else, and collects the live entries. -/
theorem Settings.restoreDeclined_sound {saved : List DeclinedAddress} {m m' : FinMap Addr Int}
    {taken : List Addr} (hm : ∀ ip, (m.get ip).isSome → ip ∈ taken)
    (hr : cfg.restoreDeclined now saved m taken = .ok m') :
    (∀ d ∈ saved, cfg.DeclinedOk d) ∧
      (liveDeclined now saved).Pairwise (fun a b => a.ip ≠ b.ip) ∧
      (∀ d ∈ liveDeclined now saved, d.ip ∉ taken) ∧
      ∀ ip t, m'.get ip = some t ↔ m.get ip = some t ∨ ⟨ip, t⟩ ∈ liveDeclined now saved := by
  induction saved generalizing m taken with
  | nil =>
    cases hr
    simp [liveDeclined]
  | cons d ds ih =>
    rw [Settings.restoreDeclined] at hr
    split at hr
    · cases hr
    next hok =>
    have hok : cfg.DeclinedOk d := by simpa [Settings.DeclinedOk] using hok
    rw [List.forall_mem_cons, liveDeclined]
    split at hr
    · next hdead =>
      rw [List.filter_cons_of_neg (by simpa using hdead)]
      obtain ⟨h₁, h₂⟩ := ih hm hr
      exact ⟨⟨hok, h₁⟩, h₂⟩
    next hlive =>
    split at hr
    · cases hr
    next hfree =>
    rw [List.filter_cons_of_pos (by simpa using hlive)]
    have hm' : ∀ ip, ((m.set d.ip d.expiresAt).get ip).isSome → ip ∈ d.ip :: taken := by
      intro ip hs
      rw [FinMap.get_set] at hs
      split at hs
      · next heq => exact heq ▸ .head _
      · exact .tail _ (hm ip hs)
    obtain ⟨h₁, h₂, h₃, h₄⟩ := ih hm' hr
    refine ⟨⟨hok, h₁⟩, List.pairwise_cons.2 ⟨fun d' hd' heq => ?_, h₂⟩, ?_, fun ip t => ?_⟩
    · exact h₃ d' hd' (heq ▸ .head _)
    · exact List.forall_mem_cons.2 ⟨hfree, fun d' hd' hmem => h₃ d' hd' (.tail _ hmem)⟩
    · rw [h₄, FinMap.get_set_eq_some, List.mem_cons]
      refine ⟨?_, ?_⟩
      · rintro ((⟨rfl, rfl⟩ | ⟨-, h⟩) | h)
        · exact .inr (.inl rfl)
        · exact .inl h
        · exact .inr (.inr h)
      · rintro (h | rfl | h)
        · refine .inl (.inr ⟨fun heq => hfree ?_, h⟩)
          exact heq ▸ hm ip (by rw [h]; rfl)
        · exact .inl (.inl ⟨rfl, rfl⟩)
        · exact .inr h

end

/-! ## Acceptance and result of `restore` -/

/-- The snapshots `restore` accepts at `now`. -/
structure Settings.Restorable (cfg : Settings) (now : Int) (saved : PersistedState) : Prop where
  version : saved.version = 1
  leases : ∀ l ∈ saved.leases, cfg.savedLeaseError l = none
  distinct : (liveLeases now saved.leases).Pairwise Lease.Distinct
  declined : ∀ d ∈ saved.declined, cfg.DeclinedOk d
  declined_distinct : (liveDeclined now saved.declined).Pairwise fun a b => a.ip ≠ b.ip
  declined_free : ∀ d ∈ liveDeclined now saved.declined, ∀ l ∈ liveLeases now saved.leases,
    l.ip ≠ d.ip

/-- The state `restore` builds from an accepted snapshot. -/
structure Settings.IsRestored (cfg : Settings) (now : Int) (saved : PersistedState) (s : State) :
    Prop where
  leases : ∀ c l, s.leases.get c = some l ↔
    ∃ l₀ ∈ liveLeases now saved.leases, l₀.clientID = c ∧ cfg.dropReserved l₀ = l
  offers : s.offers = .empty
  declined : ∀ ip t, s.declined.get ip = some t ↔ ⟨ip, t⟩ ∈ liveDeclined now saved.declined

/-- The restored state is determined by the snapshot. -/
theorem Settings.IsRestored.unique {cfg : Settings} {now : Int} {saved : PersistedState}
    {s s' : State} (h : cfg.IsRestored now saved s) (h' : cfg.IsRestored now saved s') :
    s = s' := by
  have hl : s.leases = s'.leases := FinMap.ext_get fun c =>
    Option.ext fun l => (h.leases c l).trans (h'.leases c l).symm
  have hd : s.declined = s'.declined := FinMap.ext_get fun ip =>
    Option.ext fun t => (h.declined ip t).trans (h'.declined ip t).symm
  have ho : s.offers = s'.offers := h.offers.trans h'.offers.symm
  cases s; cases s'; simp_all

section
variable {cfg : Settings} {now now' : Int} {saved : PersistedState} {s : State}

/-- What `restore` returns for a decoded snapshot. -/
theorem Settings.restore_sound (hfile : cfg.file ≠ [])
    (h : cfg.restore now (.decoded saved) = .ok s) :
    cfg.Restorable now saved ∧ cfg.IsRestored now saved s := by
  rw [Settings.restore, if_neg hfile] at h
  split at h
  · cases h
  next hv =>
  split at h
  · cases h
  next r hr =>
  split at h
  · cases h
  next dec hdec =>
  cases h
  obtain ⟨h₁, h₂, h₃⟩ := Settings.restoreLeases_sound (.nil cfg) .nil hr
  obtain ⟨h₄, h₅, h₆, h₇⟩ := Settings.restoreDeclined_sound (by simp) hdec
  refine ⟨⟨not_not.1 hv, h₁, h₂, h₄, h₅, fun d hd l hl heq => h₆ d hd ?_⟩, h₃.leases, rfl, ?_⟩
  · exact (h₃.addresses _).2 ⟨l, hl, heq⟩
  · simpa using h₇

/-- `restore` accepts a restorable snapshot. -/
theorem Settings.restore_complete (hfile : cfg.file ≠ []) (h : cfg.Restorable now saved) :
    ∃ s, cfg.restore now (.decoded saved) = .ok s := by
  obtain ⟨r, hr⟩ := Settings.restoreLeases_complete (.nil cfg) h.leases h.distinct
  obtain ⟨-, -, hof⟩ := Settings.restoreLeases_sound (.nil cfg) .nil hr
  have hfree : ∀ d ∈ liveDeclined now saved.declined, d.ip ∉ r.addresses := fun d hd hmem => by
    obtain ⟨l, hl, heq⟩ := (hof.addresses _).1 hmem
    exact h.declined_free d hd l hl heq
  obtain ⟨dec, hdec⟩ := Settings.restoreDeclined_complete (m := .empty) h.declined
    h.declined_distinct hfree
  refine ⟨⟨r.leases, .empty, dec⟩, ?_⟩
  rw [Settings.restore, if_neg hfile]
  simp only [h.version, ne_eq, not_true_eq_false, if_false, hr, hdec]

/-- `restore` returns the state read off a restorable snapshot. -/
theorem Settings.restore_eq (hfile : cfg.file ≠ []) (h : cfg.Restorable now saved)
    (hs : cfg.IsRestored now saved s) : cfg.restore now (.decoded saved) = .ok s := by
  obtain ⟨s', hs'⟩ := Settings.restore_complete hfile h
  rw [hs', hs.unique (Settings.restore_sound hfile hs').2]

/-! ## Restarting later -/

/-- What a restart keeps of a state: its leases and quarantines. -/
def State.durable (s : State) : State := { s with offers := .empty }

theorem liveLeases_sublist (h : now ≤ now') (saved : List Lease) :
    (liveLeases now' saved).Sublist (liveLeases now saved) := by
  refine List.monotone_filter_right saved fun l hl => ?_
  simp only [decide_eq_true_eq] at hl ⊢
  omega

theorem liveDeclined_sublist (h : now ≤ now') (saved : List DeclinedAddress) :
    (liveDeclined now' saved).Sublist (liveDeclined now saved) := by
  refine List.monotone_filter_right saved fun d hd => ?_
  simp only [decide_eq_true_eq] at hd ⊢
  omega

/-- A snapshot stays restorable as its entries expire. -/
theorem Settings.Restorable.later (h : cfg.Restorable now saved) (hle : now ≤ now') :
    cfg.Restorable now' saved where
  version := h.version
  leases := h.leases
  distinct := h.distinct.sublist (liveLeases_sublist hle _)
  declined := h.declined
  declined_distinct := h.declined_distinct.sublist (liveDeclined_sublist hle _)
  declined_free d hd l hl := h.declined_free d ((liveDeclined_sublist hle _).subset hd) l
    ((liveLeases_sublist hle _).subset hl)

theorem Settings.dropReserved_expiresAt (cfg : Settings) (l : Lease) :
    (cfg.dropReserved l).expiresAt = l.expiresAt := by
  unfold Settings.dropReserved
  split <;> rfl

/-- The state restored later is the state restored first without the entries that have expired. -/
theorem Settings.IsRestored.later (h : cfg.IsRestored now saved s) (hle : now ≤ now') :
    cfg.IsRestored now' saved (s.expire now').durable where
  leases c l := by
    simp only [State.durable, State.expire_leases, h.leases, liveLeases, List.mem_filter,
      decide_eq_true_eq]
    constructor
    · rintro ⟨⟨l₀, ⟨hm, -⟩, hc, rfl⟩, hlive⟩
      rw [cfg.dropReserved_expiresAt] at hlive
      exact ⟨l₀, ⟨hm, hlive⟩, hc, rfl⟩
    · rintro ⟨l₀, ⟨hm, hlive⟩, hc, rfl⟩
      exact ⟨⟨l₀, ⟨hm, by omega⟩, hc, rfl⟩, by rwa [cfg.dropReserved_expiresAt]⟩
  offers := rfl
  declined ip t := by
    simp only [State.durable, State.expire_declined, h.declined, liveDeclined, List.mem_filter,
      decide_eq_true_eq, live_and_live hle]

/-- A file that was restored once can be restored at any later time, with the same entries except
for those that have expired. -/
theorem Settings.restore_later {disk : LeaseFile} (h : cfg.restore now disk = .ok s)
    (hle : now ≤ now') : cfg.restore now' disk = .ok (s.expire now').durable := by
  have hnew : (newState.expire now').durable = newState := by
    simp only [State.durable, State.expire, newState, State.mk.injEq, true_and]
    exact ⟨FinMap.ext_get fun _ => rfl, FinMap.ext_get fun _ => rfl⟩
  rcases eq_or_ne cfg.file [] with hf | hf
  · simp only [Settings.restore, if_pos hf, Except.ok.injEq] at h ⊢
    rw [← h, hnew]
  · cases disk with
    | absent =>
      simp only [Settings.restore, if_neg hf, Except.ok.injEq] at h ⊢
      rw [← h, hnew]
    | unreadable | undecodable | trailingData => simp [Settings.restore, hf] at h
    | decoded saved =>
      obtain ⟨hr, hs⟩ := Settings.restore_sound hf h
      exact Settings.restore_eq hf (hr.later hle) (hs.later hle)

/-! ## The snapshot of a well-formed state -/

/-- A well-formed lease passes the checks on saved leases. -/
theorem Settings.LeaseOk.savedLeaseError {c : GoString} {l : Lease} (h : cfg.LeaseOk c l) :
    cfg.savedLeaseError l = none := by
  have hc : validClientID l.clientID = true := h.clientID ▸ h.client_valid
  have hn : ¬ (l.hostname ≠ [] ∧ (normalizeHostname l.hostname cfg.domain ≠ l.hostname ∨
      l.hostname = serviceName "ns" cfg.domain)) := by
    rintro ⟨hne, hbad | hns⟩
    · exact hbad ((h.name.resolve_left hne).normalize cfg.domain_valid)
    · exact h.name_free (hns ▸ cfg.reserved_ns)
  rw [Settings.savedLeaseError, if_neg (by simp [hc, h.pool, h.expires]),
    if_neg (by simpa using hn)]

theorem Settings.LeaseOk.dropReserved {c : GoString} {l : Lease} (h : cfg.LeaseOk c l) :
    cfg.dropReserved l = l := if_neg h.name_free

theorem State.mem_saved_leases {l : Lease} :
    l ∈ s.saved.leases ↔ ∃ c, s.leases.get c = some l := by
  simp [State.saved]

theorem State.mem_saved_declined {d : DeclinedAddress} :
    d ∈ s.saved.declined ↔ s.declined.get d.ip = some d.expiresAt := by
  rw [State.saved, List.mem_insertionSort, List.mem_map]
  refine ⟨fun ⟨e, he, hd⟩ => hd ▸ FinMap.mem_entries.1 he, fun h => ?_⟩
  exact ⟨(d.ip, d.expiresAt), FinMap.mem_entries.2 h, rfl⟩

/-- The leases of a well-formed state are distinct. -/
theorem State.Wf.saved_distinct (h : s.Wf cfg) : s.saved.leases.Pairwise Lease.Distinct := by
  refine (List.perm_insertionSort _ _).symm.pairwise ?_ Lease.Distinct.symm
  rw [List.pairwise_map]
  refine s.leases.nodup_entries.pairwise_of_forall_ne fun ⟨c, l⟩ hm ⟨c', l'⟩ hm' hne => ?_
  have hl := FinMap.mem_entries.1 hm
  have hl' := FinMap.mem_entries.1 hm'
  have hc : c ≠ c' := by
    rintro rfl
    rw [hl, Option.some.injEq] at hl'
    exact hne (hl' ▸ rfl)
  refine ⟨?_, fun hip => hc ?_, fun hn hname => hc ?_⟩
  · rw [(h.lease hl).clientID, (h.lease hl').clientID]
    exact hc
  · exact h.exclusive (.inl ⟨l, hl, rfl⟩) (.inl ⟨l', hl', hip.symm⟩)
  · exact h.names hl hl' (hname ▸ hn) hname

/-- A snapshot lists each address once. -/
theorem State.saved_declined_distinct (s : State) :
    s.saved.declined.Pairwise fun a b => a.ip ≠ b.ip := by
  refine (List.perm_insertionSort _ _).symm.pairwise ?_ Ne.symm
  rw [List.pairwise_map]
  refine s.declined.nodup_entries.pairwise_of_forall_ne fun ⟨ip, t⟩ hm ⟨ip', t'⟩ hm' hne heq => ?_
  have ht := FinMap.mem_entries.1 hm
  have ht' := FinMap.mem_entries.1 hm'
  simp only at heq
  subst heq
  rw [ht, Option.some.injEq] at ht'
  exact hne (ht' ▸ rfl)

/-- The snapshot of a well-formed state is restored, at any time, to its live leases and
quarantines. -/
theorem State.Wf.restore_saved (h : s.Wf cfg) (hfile : cfg.file ≠ []) (now : Int) :
    cfg.restore now (.decoded s.saved) = .ok (s.expire now).durable := by
  refine Settings.restore_eq hfile ⟨rfl, fun l hl => ?_, ?_, fun d hd => ?_, ?_, ?_⟩ ⟨?_, rfl, ?_⟩
  · obtain ⟨c, hl⟩ := State.mem_saved_leases.1 hl
    exact (h.lease hl).savedLeaseError
  · exact h.saved_distinct.filter _
  · exact h.declined (State.mem_saved_declined.1 hd)
  · exact s.saved_declined_distinct.filter _
  · intro d hd l hl hip
    obtain ⟨c, hl⟩ := State.mem_saved_leases.1 (List.mem_of_mem_filter hl)
    exact h.quarantine (State.mem_saved_declined.1 (List.mem_of_mem_filter hd)) (.inl ⟨l, hl, hip⟩)
  · intro c l
    simp only [State.durable, State.expire_leases, liveLeases, List.mem_filter,
      State.mem_saved_leases, decide_eq_true_eq]
    constructor
    · rintro ⟨hl, hlive⟩
      exact ⟨l, ⟨⟨c, hl⟩, hlive⟩, (h.lease hl).clientID, (h.lease hl).dropReserved⟩
    · rintro ⟨l₀, ⟨⟨c₀, hl⟩, hlive⟩, hc, hd⟩
      rw [(h.lease hl).dropReserved] at hd
      rw [(h.lease hl).clientID] at hc
      exact hd ▸ hc ▸ ⟨hl, hlive⟩
  · intro ip t
    simp only [State.durable, State.expire_declined, liveDeclined, List.mem_filter,
      State.mem_saved_declined, decide_eq_true_eq]

/-! ## The restored state is well formed -/

/-- A saved lease that passes the checks is well formed once a reserved name is dropped. -/
theorem Settings.leaseOk_of_saved {l : Lease} (h : cfg.savedLeaseError l = none) :
    cfg.LeaseOk l.clientID (cfg.dropReserved l) := by
  rw [Settings.savedLeaseError] at h
  split at h
  · cases h
  next hok =>
  split at h
  · cases h
  next hn =>
  simp only [Bool.or_eq_true, not_or, Bool.not_eq_true, Bool.not_eq_false', decide_eq_true_eq]
    at hok
  simp only [Bool.and_eq_true, decide_eq_true_eq, Bool.or_eq_true, not_and, not_or, not_not] at hn
  have hname : cfg.NameOk l.hostname := by
    rcases eq_or_ne l.hostname [] with he | hne
    · exact .inl he
    · exact (hn hne).1 ▸ cfg.nameOk_normalize _
  unfold Settings.dropReserved
  split
  · exact ⟨rfl, hok.1.1, hok.1.2, hok.2, .inl rfl, fun hm => cfg.reserved_hostnames _ hm rfl⟩
  · next hres => exact ⟨rfl, hok.1.1, hok.1.2, hok.2, hname, hres⟩

theorem Settings.dropReserved_hostname {l : Lease} (h : (cfg.dropReserved l).hostname ≠ []) :
    (cfg.dropReserved l).hostname = l.hostname := by
  unfold Settings.dropReserved at h ⊢
  split
  · next hr => rw [if_pos hr] at h; exact absurd rfl h
  · rfl

/-- The restored state satisfies the invariant. -/
theorem Settings.IsRestored.wf (h : cfg.IsRestored now saved s) (hr : cfg.Restorable now saved) :
    s.Wf cfg := by
  have hmem : ∀ {c l}, s.leases.get c = some l → ∃ l₀ ∈ liveLeases now saved.leases,
      l₀.clientID = c ∧ cfg.dropReserved l₀ = l := fun hl => (h.leases _ _).1 hl
  have hholds : ∀ {c ip}, s.Holds c ip → ∃ l₀ ∈ liveLeases now saved.leases,
      l₀.clientID = c ∧ l₀.ip = ip := by
    rintro c ip (⟨l, hl, rfl⟩ | ⟨o, ho, -⟩)
    · obtain ⟨l₀, hm, hc, rfl⟩ := hmem hl
      refine ⟨l₀, hm, hc, ?_⟩
      unfold Settings.dropReserved
      split <;> rfl
    · rw [h.offers] at ho; cases ho
  -- two live saved leases that agree on an address or on a name are the same entry
  have hsame : ∀ {a b}, a ∈ liveLeases now saved.leases → b ∈ liveLeases now saved.leases →
      ¬ a.Distinct b → a = b := fun ha hb hd => by
    by_contra hne
    exact hd (hr.distinct.forall ha hb hne)
  refine ⟨fun hl => ?_, fun ho => ?_, fun hd => ?_, fun h₁ h₂ => ?_, fun _ ho => ?_,
    fun hd hh => ?_, fun h₁ h₂ hne heq => ?_⟩
  · obtain ⟨l₀, hm, rfl, rfl⟩ := hmem hl
    exact Settings.leaseOk_of_saved (hr.leases l₀ (List.mem_of_mem_filter hm))
  · rw [h.offers] at ho; cases ho
  · exact hr.declined _ (List.mem_of_mem_filter ((h.declined _ _).1 hd))
  · obtain ⟨a, ha, rfl, hip⟩ := hholds h₁
    obtain ⟨b, hb, rfl, hip'⟩ := hholds h₂
    rw [hsame ha hb fun hd => hd.ip (hip.trans hip'.symm)]
  · rw [h.offers] at ho; cases ho
  · obtain ⟨l, hl, -, hip⟩ := hholds hh
    exact hr.declined_free _ ((h.declined _ _).1 hd) l hl hip
  · obtain ⟨a, ha, rfl, rfl⟩ := hmem h₁
    obtain ⟨b, hb, rfl, rfl⟩ := hmem h₂
    have hname : a.hostname = b.hostname := by
      rw [← Settings.dropReserved_hostname hne, heq, Settings.dropReserved_hostname (heq ▸ hne)]
    refine congrArg Lease.clientID (hsame ha hb fun hd => hd.name ?_ hname)
    rwa [← hname, ← Settings.dropReserved_hostname hne]

/-- A restored state satisfies the invariant. -/
theorem Settings.restore_wf {disk : LeaseFile} (h : cfg.restore now disk = .ok s) : s.Wf cfg := by
  rcases eq_or_ne cfg.file [] with hf | hf
  · simp only [Settings.restore, if_pos hf, Except.ok.injEq] at h
    exact h ▸ newState_wf cfg
  · cases disk with
    | absent =>
      simp only [Settings.restore, if_neg hf, Except.ok.injEq] at h
      exact h ▸ newState_wf cfg
    | unreadable | undecodable | trailingData => simp [Settings.restore, hf] at h
    | decoded saved =>
      obtain ⟨hr, hs⟩ := Settings.restore_sound hf h
      exact hs.wf hr

end

end InfraBox.Leasing
