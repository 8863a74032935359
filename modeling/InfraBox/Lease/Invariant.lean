import InfraBox.Lease.Manager

/-!
# The invariant of the lease tables

The three maps of a manager's state are tied together (`State.Wf`): an address is held, by a lease
or by an offer, by one client at most, a quarantined address is held by nobody, a client's lease
and offer agree on the address, and no two leases share a name. What an operation does to the maps
is said once, in the inversion lemmas of its module section (`offer_cases`, `commit_cases`,
`release_cases`, `decline_cases`); each change then preserves the invariant by a lemma of its own.
-/

namespace InfraBox.Leasing

variable {ip : Addr} {c : GoString} {s : State} {cfg : Settings}

/-! ## Holding an address -/

/-- The client has a lease or an offer of the address. -/
def State.Holds (s : State) (c : GoString) (ip : Addr) : Prop :=
  (∃ l, s.leases.get c = some l ∧ l.ip = ip) ∨ ∃ o, s.offers.get c = some o ∧ o.ip = ip

/-- A free address is held by no other client and is not quarantined. -/
theorem State.occupied_eq_false :
    s.occupied c ip = false ↔ (∀ c', s.Holds c' ip → c' = c) ∧ s.declined.get ip = none := by
  simp only [State.occupied, Bool.or_eq_false_iff, FinMap.any_eq_false, Bool.and_eq_false_iff,
    decide_eq_false_iff_not, not_not, Option.isSome_eq_false_iff, Option.isNone_iff_eq_none,
    State.Holds]
  refine and_congr_left' ⟨?_, fun h => ⟨fun c' l hl => ?_, fun c' o ho => ?_⟩⟩
  · rintro ⟨hl, ho⟩ c' (⟨l, hg, rfl⟩ | ⟨o, hg, rfl⟩)
    · exact (hl c' l hg).resolve_right fun h => h rfl
    · exact (ho c' o hg).resolve_right fun h => h rfl
  · exact or_iff_not_imp_right.2 fun hip => h c' (.inl ⟨l, hl, not_not.1 hip⟩)
  · exact or_iff_not_imp_right.2 fun hip => h c' (.inr ⟨o, ho, not_not.1 hip⟩)

theorem State.owns_iff :
    s.owns c ip = true ↔ s.Holds c ip := by
  simp [State.owns, State.Holds, Option.any_eq_true]

/-- The smaller state has no entry the larger one lacks. -/
structure State.Sub (s' s : State) : Prop where
  leases : ∀ {c l}, s'.leases.get c = some l → s.leases.get c = some l
  offers : ∀ {c o}, s'.offers.get c = some o → s.offers.get c = some o
  declined : ∀ {ip t}, s'.declined.get ip = some t → s.declined.get ip = some t

theorem State.Sub.holds {s' s : State} (h : s'.Sub s) :
    s'.Holds c ip → s.Holds c ip
  | .inl ⟨l, hl, hip⟩ => .inl ⟨l, h.leases hl, hip⟩
  | .inr ⟨o, ho, hip⟩ => .inr ⟨o, h.offers ho, hip⟩

@[simp] theorem State.expire_leases {now : Int} {l : Lease} :
    (s.expire now).leases.get c = some l ↔ s.leases.get c = some l ∧ now < l.expiresAt := by
  simp [State.expire]

@[simp] theorem State.expire_offers {now : Int} {o : Lease} :
    (s.expire now).offers.get c = some o ↔ s.offers.get c = some o ∧ now < o.expiresAt := by
  simp [State.expire]

@[simp] theorem State.expire_declined {now : Int} {t : Int} :
    (s.expire now).declined.get ip = some t ↔ s.declined.get ip = some t ∧ now < t := by
  simp [State.expire]

/-- What is live later is live before. -/
theorem live_and_live {p : Prop} {now now' t : Int} (h : now ≤ now') :
    (p ∧ now < t) ∧ now' < t ↔ p ∧ now' < t := by
  constructor
  · rintro ⟨⟨hp, -⟩, ht⟩
    exact ⟨hp, ht⟩
  · rintro ⟨hp, ht⟩
    exact ⟨⟨hp, by omega⟩, ht⟩

theorem State.expire_sub (s : State) (now : Int) : (s.expire now).Sub s where
  leases h := (State.expire_leases.1 h).1
  offers h := (State.expire_offers.1 h).1
  declined h := (State.expire_declined.1 h).1

/-- What `remove` leaves of a table. -/
theorem get_eraseAddress {table : FinMap GoString Lease} {c c' : GoString} {l : Lease} :
    (if (table.get c).any (fun x => x.ip = ip) then table.erase c else table).get c' = some l ↔
      table.get c' = some l ∧ ¬ (c' = c ∧ l.ip = ip) := by
  simp only [Option.any_eq_true, decide_eq_true_eq]
  split
  · next h =>
    obtain ⟨l₀, hl₀, hip⟩ := h
    rw [FinMap.get_erase_eq_some, and_comm, and_congr_right_iff]
    refine fun hl => not_congr ⟨?_, And.left⟩
    rintro rfl
    rw [hl₀, Option.some.injEq] at hl
    exact ⟨rfl, hl ▸ hip⟩
  · next h =>
    refine ⟨fun hl => ⟨hl, ?_⟩, And.left⟩
    rintro ⟨rfl, rfl⟩
    exact h ⟨l, hl, rfl⟩

theorem State.remove_leases {c c' : GoString} {l : Lease} : (s.remove c ip).leases.get c' = some l ↔
    s.leases.get c' = some l ∧ ¬ (c' = c ∧ l.ip = ip) := get_eraseAddress

theorem State.remove_offers {c c' : GoString} {o : Lease} : (s.remove c ip).offers.get c' = some o ↔
    s.offers.get c' = some o ∧ ¬ (c' = c ∧ o.ip = ip) := get_eraseAddress

theorem State.remove_sub (s : State) (c : GoString) (ip : Addr) : (s.remove c ip).Sub s where
  leases h := (State.remove_leases.1 h).1
  offers h := (State.remove_offers.1 h).1
  declined h := h

theorem State.not_holds_remove :
    ¬ (s.remove c ip).Holds c ip := by
  rintro (⟨l, hl, hip⟩ | ⟨o, ho, hip⟩)
  · exact (State.remove_leases.1 hl).2 ⟨rfl, hip⟩
  · exact (State.remove_offers.1 ho).2 ⟨rfl, hip⟩

/-! ## The invariant -/

/-- A name a lease or an offer may carry: none, or a host name under the domain. -/
def Settings.NameOk (cfg : Settings) (n : GoString) : Prop := n = [] ∨ HostnameUnder cfg.domain n

theorem Settings.nameOk_normalize (cfg : Settings) (h : GoString) :
    cfg.NameOk (normalizeHostname h cfg.domain) :=
  normalizeHostname_cases cfg.domain_valid h

/-- What holds of one committed lease by itself. -/
structure Settings.LeaseOk (cfg : Settings) (c : GoString) (l : Lease) : Prop where
  clientID : l.clientID = c
  client_valid : validClientID c = true
  pool : cfg.inPool l.ip = true
  expires : l.expiresAt ≠ 0
  name : cfg.NameOk l.hostname
  name_free : l.hostname ∉ cfg.reservedNames

/-- The invariant of a manager's state. -/
structure State.Wf (cfg : Settings) (s : State) : Prop where
  lease : ∀ {c l}, s.leases.get c = some l → cfg.LeaseOk c l
  offer : ∀ {c o}, s.offers.get c = some o → cfg.inPool o.ip = true ∧ cfg.NameOk o.hostname
  declined : ∀ {ip t}, s.declined.get ip = some t → cfg.inPool ip = true ∧ t ≠ 0
  /-- An address is held by one client at most. -/
  exclusive : ∀ {c c' ip}, s.Holds c ip → s.Holds c' ip → c = c'
  /-- A client's offer is for the address it leases. -/
  agree : ∀ {c l o}, s.leases.get c = some l → s.offers.get c = some o → o.ip = l.ip
  /-- A quarantined address is held by nobody. -/
  quarantine : ∀ {ip t c}, s.declined.get ip = some t → ¬ s.Holds c ip
  /-- Named leases have distinct names. -/
  names : ∀ {c c' l l'}, s.leases.get c = some l → s.leases.get c' = some l' → l.hostname ≠ [] →
    l.hostname = l'.hostname → c = c'

/-- Dropping entries keeps the invariant. -/
theorem State.Wf.of_sub {s s' : State} (h : s.Wf cfg) (hs : s'.Sub s) :
    s'.Wf cfg where
  lease hl := h.lease (hs.leases hl)
  offer ho := h.offer (hs.offers ho)
  declined hd := h.declined (hs.declined hd)
  exclusive h₁ h₂ := h.exclusive (hs.holds h₁) (hs.holds h₂)
  agree hl ho := h.agree (hs.leases hl) (hs.offers ho)
  quarantine hd hh := h.quarantine (hs.declined hd) (hs.holds hh)
  names hl hl' := h.names (hs.leases hl) (hs.leases hl')

/-- An address a client holds is free for it. -/
theorem State.Wf.occupied_of_holds (h : s.Wf cfg)
    (hh : s.Holds c ip) : s.occupied c ip = false := by
  refine State.occupied_eq_false.2 ⟨fun c' hc' => h.exclusive hc' hh, ?_⟩
  exact Option.eq_none_iff_forall_ne_some.2 fun t ht => h.quarantine ht hh

theorem State.Wf.expire (h : s.Wf cfg) (now : Int) :
    (s.expire now).Wf cfg := h.of_sub (s.expire_sub now)

/-- A new state has no entries. -/
theorem newState_wf (cfg : Settings) : newState.Wf cfg where
  lease h := by cases h
  offer h := by cases h
  declined h := by cases h
  exclusive h := by rcases h with ⟨_, h, _⟩ | ⟨_, h, _⟩ <;> cases h
  agree h := by cases h
  quarantine h := by cases h
  names h := by cases h

/-- Adding one client as the holder of an address that is free for it keeps every address with one
client. -/
theorem State.Wf.exclusive_add {s s' : State} (h : s.Wf cfg)
    (hfree : s.occupied c ip = false)
    (hadd : ∀ {c' ip'}, s'.Holds c' ip' → s.Holds c' ip' ∨ (c' = c ∧ ip' = ip))
    {c₁ c₂ : GoString} {ip' : Addr} (h₁ : s'.Holds c₁ ip') (h₂ : s'.Holds c₂ ip') : c₁ = c₂ := by
  obtain ⟨hexcl, -⟩ := State.occupied_eq_false.1 hfree
  rcases hadd h₁ with hs₁ | ⟨rfl, rfl⟩ <;> rcases hadd h₂ with hs₂ | ⟨rfl, hip⟩
  · exact h.exclusive hs₁ hs₂
  · exact hexcl _ (hip ▸ hs₁)
  · exact (hexcl _ hs₂).symm
  · rfl

/-- It also keeps the quarantined addresses without a holder. -/
theorem State.Wf.quarantine_add {s s' : State} (h : s.Wf cfg)
    (hfree : s.occupied c ip = false)
    (hadd : ∀ {c' ip'}, s'.Holds c' ip' → s.Holds c' ip' ∨ (c' = c ∧ ip' = ip))
    {c' : GoString} {ip' : Addr} {t : Int} (hd : s.declined.get ip' = some t) :
    ¬ s'.Holds c' ip' := by
  intro hh
  rcases hadd hh with hh | ⟨rfl, rfl⟩
  · exact h.quarantine hd hh
  · rw [(State.occupied_eq_false.1 hfree).2] at hd
    cases hd

/-- Recording an offer of an address no one else holds, and that the client leases if it leases
any, preserves the invariant. -/
theorem State.Wf.set_offer (h : s.Wf cfg) {o : Lease}
    (hpool : cfg.inPool o.ip = true) (hname : cfg.NameOk o.hostname)
    (hfree : s.occupied c o.ip = false) (hown : ∀ l, s.leases.get c = some l → o.ip = l.ip) :
    State.Wf cfg { s with offers := s.offers.set c o } := by
  -- the new table adds the client as a holder of the offered address, and nothing else
  have hholds : ∀ {c' ip}, State.Holds { s with offers := s.offers.set c o } c' ip →
      s.Holds c' ip ∨ (c' = c ∧ ip = o.ip) := by
    rintro c' ip (⟨l, hl, hip⟩ | ⟨o', ho', hip⟩)
    · exact .inl (.inl ⟨l, hl, hip⟩)
    · rcases FinMap.get_set_eq_some.1 ho' with ⟨rfl, rfl⟩ | ⟨-, ho'⟩
      · exact .inr ⟨rfl, hip.symm⟩
      · exact .inl (.inr ⟨o', ho', hip⟩)
  refine ⟨h.lease, fun ho' => ?_, h.declined, h.exclusive_add hfree hholds, fun hl ho' => ?_,
    h.quarantine_add hfree hholds, h.names⟩
  · rcases FinMap.get_set_eq_some.1 ho' with ⟨rfl, rfl⟩ | ⟨-, ho'⟩
    · exact ⟨hpool, hname⟩
    · exact h.offer ho'
  · rcases FinMap.get_set_eq_some.1 ho' with ⟨rfl, rfl⟩ | ⟨-, ho'⟩
    · exact hown _ hl
    · exact h.agree hl ho'

/-- Replacing a client's offer by a lease of a free address preserves the invariant. -/
theorem State.Wf.set_lease (h : s.Wf cfg) {l : Lease}
    (hl : cfg.LeaseOk c l) (hfree : s.occupied c l.ip = false)
    (hname : ∀ c' l', s.leases.get c' = some l' → c' ≠ c → l.hostname ≠ [] →
      l'.hostname ≠ l.hostname) :
    State.Wf cfg { s with leases := s.leases.set c l, offers := s.offers.erase c } := by
  -- the client holds the new address only, every other client what it held before
  have hholds : ∀ {c' ip},
      State.Holds { s with leases := s.leases.set c l, offers := s.offers.erase c } c' ip →
      s.Holds c' ip ∨ (c' = c ∧ ip = l.ip) := by
    rintro c' ip (⟨l', hl', hip⟩ | ⟨o', ho', hip⟩)
    · rcases FinMap.get_set_eq_some.1 hl' with ⟨rfl, rfl⟩ | ⟨-, hl'⟩
      · exact .inr ⟨rfl, hip.symm⟩
      · exact .inl (.inl ⟨l', hl', hip⟩)
    · exact .inl (.inr ⟨o', (FinMap.get_erase_eq_some.1 ho').2, hip⟩)
  refine ⟨fun hl' => ?_, fun ho' => h.offer (FinMap.get_erase_eq_some.1 ho').2, h.declined,
    h.exclusive_add hfree hholds, fun hl' ho' => ?_, h.quarantine_add hfree hholds,
    fun hl₁ hl₂ hne heq => ?_⟩
  · rcases FinMap.get_set_eq_some.1 hl' with ⟨rfl, rfl⟩ | ⟨-, hl'⟩
    · exact hl
    · exact h.lease hl'
  · obtain ⟨hc, ho'⟩ := FinMap.get_erase_eq_some.1 ho'
    rcases FinMap.get_set_eq_some.1 hl' with ⟨rfl, rfl⟩ | ⟨-, hl'⟩
    · exact absurd rfl hc
    · exact h.agree hl' ho'
  · rcases FinMap.get_set_eq_some.1 hl₁ with ⟨rfl, rfl⟩ | ⟨hc₁, hs₁⟩ <;>
      rcases FinMap.get_set_eq_some.1 hl₂ with ⟨rfl, rfl⟩ | ⟨hc₂, hs₂⟩
    · rfl
    · exact absurd heq.symm (hname _ _ hs₂ hc₂ hne)
    · exact absurd heq (hname _ _ hs₁ hc₁ (heq ▸ hne))
    · exact h.names hs₁ hs₂ hne heq

/-- Quarantining an address that only the client held, and has lost, preserves the invariant. -/
theorem State.Wf.quarantine_removed (h : s.Wf cfg)
    {t : Int} (hh : s.Holds c ip) (ht : t ≠ 0) :
    State.Wf cfg { s.remove c ip with declined := (s.remove c ip).declined.set ip t } := by
  have hr : (s.remove c ip).Wf cfg := h.of_sub (s.remove_sub c ip)
  have hpool : cfg.inPool ip = true := by
    rcases hh with ⟨l, hl, rfl⟩ | ⟨o, ho, rfl⟩
    · exact (h.lease hl).pool
    · exact (h.offer ho).1
  refine ⟨hr.lease, hr.offer, fun hd => ?_, hr.exclusive, hr.agree, fun hd hh' => ?_, hr.names⟩
  · rcases FinMap.get_set_eq_some.1 hd with ⟨rfl, rfl⟩ | ⟨-, hd⟩
    · exact ⟨hpool, ht⟩
    · exact h.declined hd
  · rcases FinMap.get_set_eq_some.1 hd with ⟨rfl, rfl⟩ | ⟨-, hd⟩
    · obtain rfl := h.exclusive hh ((s.remove_sub c _).holds hh')
      exact State.not_holds_remove hh'
    · exact hr.quarantine hd hh'

end InfraBox.Leasing
