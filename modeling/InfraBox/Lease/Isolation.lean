import InfraBox.Lease.Runs

/-!
# Isolation of clients

A call for one client leaves the leases and offers of all others alone, except that expired entries
are dropped. So what a client has been promised stays with it until it gives it up: an address it
leases can be committed again until the lease ends, and an address it was offered can be committed
while the offer lasts, whatever other clients do (`client_isolation`).

A commit replaces the offer, so the promise of the offer ends with the lease, which may be the
shorter one (`offer_not_kept`).
-/

namespace InfraBox.Leasing

variable {c : GoString} {label : Label} {l : Lease}

/-! ## One call -/

/-- The client a call is made for. -/
def Op.client : Op → Option GoString
  | .offer c _ _ _ => some c
  | .commit c _ _ _ => some c
  | .release c _ => some c
  | .decline c _ => some c
  | .lookupName _ => none
  | .hasName _ => none
  | .lookupIP _ => none

/-- A call leaves the entries of other clients alone. -/
theorem Effect.other {sys sys' : System} {now : Int} {op : Op} {reply : Reply}
    (h : Effect sys now op reply sys') (hc : op.client ≠ some c) :
    sys'.manager.state.leases.get c = (sys.manager.state.expire now).leases.get c ∧
      sys'.manager.state.offers.get c = (sys.manager.state.expire now).offers.get c := by
  have hne : ∀ {c'}, some c' ≠ some c → c ≠ c' := fun h heq => h (congrArg some heq.symm)
  have hremove : ∀ {c' ip}, c ≠ c' →
      ((sys.manager.state.expire now).remove c' ip).leases.get c =
        (sys.manager.state.expire now).leases.get c ∧
      ((sys.manager.state.expire now).remove c' ip).offers.get c =
        (sys.manager.state.expire now).offers.get c := fun hcc =>
    ⟨Option.ext fun l => State.remove_leases.trans (and_iff_left fun h => hcc h.1),
      Option.ext fun o => State.remove_offers.trans (and_iff_left fun h => hcc h.1)⟩
  cases h with
  | expired _ => exact ⟨rfl, rfl⟩
  | offered => exact ⟨rfl, FinMap.get_set_ne _ _ (hne hc)⟩
  | committed =>
    refine ⟨FinMap.get_set_ne _ _ (hne hc), ?_⟩
    exact (FinMap.get_erase _ _ _).trans (if_neg (hne hc))
  | released _ | declined _ => exact hremove (hne hc)

/-- A commit of an address the client holds is granted, unless it cannot be saved. -/
theorem System.commit_held {sys : System} {now : Int} {ip : Addr}
    (hw : sys.manager.state.Wf sys.manager.cfg) (hc : validClientID c = true)
    (hh : (sys.manager.state.expire now).Holds c ip.unmap) (written : Bool)
    (hostname fallback : GoString) :
    (∃ l, (sys.commitWithFallback now written c ip hostname fallback).1 = .ok l) ∨
      ((sys.commitWithFallback now written c ip hostname fallback).1 = .error .persist ∧
        written = false ∧ sys.manager.cfg.file ≠ []) := by
  have hwf := hw.expire now
  have hpool : sys.manager.cfg.inPool ip.unmap = true := by
    rcases hh with ⟨l, hl, heq⟩ | ⟨o, ho, heq⟩
    · exact heq ▸ (hwf.lease hl).pool
    · exact heq ▸ (hwf.offer ho).1
  have hfree : (sys.expire now).manager.state.occupied c ip.unmap = false :=
    hwf.occupied_of_holds hh
  have hpool' : (sys.expire now).manager.cfg.inPool ip.unmap = true := hpool
  simp only [System.commitWithFallback, hc, hpool', hfree, Bool.not_true, Bool.or_false,
    Bool.false_eq_true, if_false]
  by_cases hfile : (sys.expire now).manager.cfg.file = []
  · exact .inl ⟨_, by rw [System.publish, if_pos hfile]⟩
  · cases written with
    | true => exact .inl ⟨_, by rw [System.publish, if_neg hfile, if_pos rfl]⟩
    | false =>
      exact .inr ⟨by rw [System.publish, if_neg hfile, if_neg Bool.false_ne_true], rfl, hfile⟩

/-! ## Reservations -/

/-- The address is reserved for the client until `u`, by an offer or by a lease. -/
structure Process.Reserves (config : Config) (c : GoString) (ip : Addr) (u : Int) (p : Process) :
    Prop where
  inv : p.Inv config
  offered : u ≤ p.clock + p.sys.manager.cfg.offerDuration
  held : p.clock < u →
    (∃ l, p.sys.manager.state.leases.get c = some l ∧ l.ip = ip ∧ u ≤ l.expiresAt) ∨
    (∃ o, p.sys.manager.state.offers.get c = some o ∧ o.ip = ip ∧ u ≤ o.expiresAt)

section
variable {config : Config} {p p' : Process} {c : GoString} {ip : Addr} {label : Label}

/-- A reservation that has not ended survives the expiry of entries. -/
theorem Process.Reserves.expire {u now : Int} (h : p.Reserves config c ip u) (hle : p.clock ≤ now)
    (hlt : now < u) :
    (∃ l, (p.sys.manager.state.expire now).leases.get c = some l ∧ l.ip = ip ∧
      u ≤ l.expiresAt) ∨
    (∃ o, (p.sys.manager.state.expire now).offers.get c = some o ∧ o.ip = ip ∧
      u ≤ o.expiresAt) := by
  rcases h.held (by omega) with ⟨l, hl, hip, hexp⟩ | ⟨o, ho, hip, hexp⟩
  · exact .inl ⟨l, State.expire_leases.2 ⟨hl, by omega⟩, hip, hexp⟩
  · exact .inr ⟨o, State.expire_offers.2 ⟨ho, by omega⟩, hip, hexp⟩

theorem Process.Reserves.holds {u now : Int} (h : p.Reserves config c ip u) (hle : p.clock ≤ now)
    (hlt : now < u) : (p.sys.manager.state.expire now).Holds c ip := by
  rcases h.expire hle hlt with ⟨l, hl, hip, -⟩ | ⟨o, ho, hip, -⟩
  · exact .inl ⟨l, hl, hip⟩
  · exact .inr ⟨o, ho, hip⟩

/-- A reservation survives the removal of another address or for another client. -/
theorem State.remove_reserved {s : State} {c c' : GoString} {ip a : Addr} {u : Int}
    (h : (∃ l, s.leases.get c = some l ∧ l.ip = ip ∧ u ≤ l.expiresAt) ∨
      (∃ o, s.offers.get c = some o ∧ o.ip = ip ∧ u ≤ o.expiresAt))
    (hne : ¬(c = c' ∧ ip = a)) :
    (∃ l, (s.remove c' a).leases.get c = some l ∧ l.ip = ip ∧ u ≤ l.expiresAt) ∨
      (∃ o, (s.remove c' a).offers.get c = some o ∧ o.ip = ip ∧ u ≤ o.expiresAt) := by
  rcases h with ⟨l, hl, rfl, hexp⟩ | ⟨o, ho, rfl, hexp⟩
  · exact .inl ⟨l, State.remove_leases.2 ⟨hl, hne⟩, rfl, hexp⟩
  · exact .inr ⟨o, State.remove_offers.2 ⟨ho, hne⟩, rfl, hexp⟩

/-- A call leaves the client its reservation, unless it is the client's own giving up or its own
commit to a lease that is shorter than an offer. -/
theorem Process.Reserves.step {u : Int} (h : p.Reserves config c ip u)
    (hs : Step config p label p') (hrestart : ∀ now, label ≠ .restart now)
    (hlong : p.sys.manager.cfg.offerDuration ≤ p.sys.manager.cfg.leaseDuration ∨
      ∀ now l, ¬ label.Commits now c l) :
    p'.Reserves config c ip u ∨ GivesUp c ip label := by
  have hinv := h.inv.step hs
  have hcfg := h.inv.cfg_eq hinv
  have hoff := h.offered
  cases hs with
  | restart => exact absurd rfl (hrestart _)
  | @call now written op reply sys hle hexec =>
    have hoff' : u ≤ now + sys.manager.cfg.offerDuration := by
      have : sys.manager.cfg = p.sys.manager.cfg := hcfg
      rw [this]; omega
    rcases lt_or_ge now u with hlt | hge
    swap
    · exact .inl ⟨hinv, hoff', fun hlt => absurd hlt (not_lt.2 hge)⟩
    have hheld := h.expire hle hlt
    have heffect := System.exec_effect hexec
    by_cases hc : op.client = some c
    swap
    · -- another client's call, or a lookup
      obtain ⟨hl, ho⟩ := heffect.other hc
      refine .inl ⟨hinv, hoff', fun _ => ?_⟩
      simp only [hl, ho]
      exact hheld
    cases heffect with
    | expired => exact .inl ⟨hinv, hoff', fun _ => hheld⟩
    | @offered c' _ _ _ o hip _ _ _ hexp =>
      obtain rfl : c' = c := Option.some.inj hc
      have ho : o.ip = ip := hip.trans (Manager.offerAddress_of_holds
        (m := p.sys.manager.expire now) (h.inv.wf.expire now) (h.holds hle hlt) _)
      exact .inl ⟨hinv, hoff', fun _ => .inr ⟨o, FinMap.get_set_self .., ho, hexp ▸ hoff'⟩⟩
    | @committed c' _ _ a l _ _ _ hl =>
      obtain rfl : c' = c := Option.some.inj hc
      rcases eq_or_ne l.ip ip with hip | hip
      · rcases hlong with hlong | hnone
        · refine .inl ⟨hinv, hoff', fun _ => .inl ⟨l, FinMap.get_set_self .., hip, ?_⟩⟩
          have hexp : l.expiresAt = now + p.sys.manager.cfg.leaseDuration := by rw [hl]; rfl
          omega
        · exact absurd ⟨_, _, _, _, rfl⟩ (hnone now l)
      · exact .inr (.moved hip)
    | @released c' a =>
      obtain rfl : c' = c := Option.some.inj hc
      rcases eq_or_ne a.unmap ip with ha | ha
      · exact .inr (.released ha)
      · exact .inl ⟨hinv, hoff', fun _ => State.remove_reserved hheld fun h => ha h.2.symm⟩
    | @declined c' a =>
      obtain rfl : c' = c := Option.some.inj hc
      rcases eq_or_ne a.unmap ip with ha | ha
      · exact .inr (.declined ha)
      · exact .inl ⟨hinv, hoff', fun _ => State.remove_reserved hheld fun h => ha h.2.symm⟩

end

/-- Only a call of the client gives an address of it up. -/
theorem GivesUp.client {ip : Addr} {now : Int} {written : Bool} {op : Op}
    {reply : Reply} (h : GivesUp c ip (.call now written op reply)) : op.client = some c := by
  cases h with
  | released | declined | moved => rfl

/-- The label is a successful offer of the address to the client. -/
def Label.Offers (label : Label) (now : Int) (c : GoString) (ip : Addr) : Prop :=
  ∃ written requested hostname fallback o, o.ip = ip ∧
    label = .call now written (.offer c requested hostname fallback) (.lease (.ok o))

/-- The label is a request of the client for a lease of the address. -/
def Label.Requests (label : Label) (now : Int) (c : GoString) (ip : Addr) (written : Bool)
    (reply : Reply) : Prop :=
  ∃ a hostname fallback, a.unmap = ip ∧
    label = .call now written (.commit c a hostname fallback) reply

/-- The request succeeds, or fails because the file cannot be written. -/
def Reply.Granted (reply : Reply) (file : GoString) (written : Bool) : Prop :=
  (∃ l, reply = .lease (.ok l)) ∨ (reply = .lease (.error .persist) ∧ written = false ∧ file ≠ [])

section
variable {config : Config} {p p' : Process} {c : GoString} {ip : Addr} {now : Int} {written : Bool}
  {reply : Reply}

/-- A successful offer reserves the address. -/
theorem Step.offered_inv (hs : Step config p label p')
    (hl : label.Offers now c ip) :
    validClientID c = true ∧ p'.clock = now ∧ ∃ o, p'.sys.manager.state.offers.get c = some o ∧
      o.ip = ip ∧ o.expiresAt = now + p.sys.manager.cfg.offerDuration := by
  obtain ⟨w, requested, hostname, fallback, o, hip, rfl⟩ := hl
  cases hs with
  | call hle hexec =>
    cases System.exec_effect hexec with
    | expired h => cases h
    | offered _ _ _ hc hexp => exact ⟨hc, rfl, o, FinMap.get_set_self .., hip, hexp⟩

/-- Only a client with a valid identifier is committed. -/
theorem Step.committed_client (hs : Step config p label p')
    (hl : label.Commits now c l) : validClientID c = true := by
  obtain ⟨w, a, hostname, fallback, rfl⟩ := hl
  cases hs with
  | call hle hexec =>
    cases System.exec_effect hexec with
    | expired h => cases h
    | committed hc => exact hc

theorem Label.Commits.expiresAt (hl : label.Commits now c l)
    (hs : Step config p label p') : l.expiresAt = now + p.sys.manager.cfg.leaseDuration := by
  obtain ⟨w, a, hostname, fallback, rfl⟩ := hl
  exact hs.committed_inv.2.1

/-- A commit that succeeds is one of the address that was asked for. -/
theorem Step.committed_address {a : Addr} {hostname fallback : GoString}
    (hs : Step config p (.call now written (.commit c a hostname fallback) (.lease (.ok l))) p') :
    l.ip = a.unmap := by
  cases hs with
  | call hle hexec =>
    cases System.exec_effect hexec with
    | expired h => cases h
    | committed _ _ _ hl => rw [hl]; rfl

/-- A request for an address the client holds is granted. -/
theorem Step.granted (h : p.Inv config) (hs : Step config p label p')
    (hl : label.Requests now c ip written reply) (hc : validClientID c = true)
    (hh : (p.sys.manager.state.expire now).Holds c ip) :
    reply.Granted p.sys.manager.cfg.file written := by
  obtain ⟨a, hostname, fallback, rfl, rfl⟩ := hl
  cases hs with
  | call hle hexec =>
    obtain ⟨rfl, -⟩ := Prod.mk.injEq .. ▸ hexec
    rcases System.commit_held h.wf hc hh written hostname fallback with
      ⟨l, hok⟩ | ⟨herr, hw⟩
    · exact .inl ⟨l, congrArg Reply.lease hok⟩
    · exact .inr ⟨congrArg Reply.lease herr, hw⟩

theorem Label.Requests.clock_le (hl : label.Requests now c ip written reply)
    (hs : Step config p label p') : p.clock ≤ now := by
  obtain ⟨a, hostname, fallback, -, rfl⟩ := hl
  cases hs with
  | call hle hexec => exact hle

end

section
variable {config : Config} {p₀ p : Process} {before between after : Trace Process Label}
  {x y : Transition Process Label} {n₁ n₂ : Int} {c : GoString} {written : Bool} {reply : Reply}

/-- While an offer lasts, a request for its address is granted. -/
theorem Process.Inv.offer_kept (h₀ : p₀.Inv config)
    (hrun : Run (Step config) p₀ (before ++ x :: between ++ y :: after) p) {ip : Addr}
    (hx : x.label.Offers n₁ c ip) (hy : y.label.Requests n₂ c ip written reply)
    (hlt : n₂ < n₁ + p₀.sys.manager.cfg.offerDuration)
    (hkept : ∀ t ∈ between, ¬ GivesUp c ip t.label ∧ ∀ now, t.label ≠ .restart now)
    (hlong : p₀.sys.manager.cfg.offerDuration ≤ p₀.sys.manager.cfg.leaseDuration ∨
      ∀ t ∈ between, ∀ now l, ¬ t.label.Commits now c l) :
    reply.Granted p₀.sys.manager.cfg.file written := by
  obtain ⟨hpre, hstep₁, hmid, hstep₂, -⟩ := hrun.two_inv
  have hxpre := h₀.run hpre
  have hinv : x.post.Inv config := hxpre.step hstep₁
  have hcfg := h₀.cfg_eq hinv
  obtain ⟨hc, hclock, o, ho, hip, hexp⟩ := hstep₁.offered_inv hx
  rw [h₀.cfg_eq hxpre] at hexp
  have hres : x.post.Reserves config c ip (n₁ + p₀.sys.manager.cfg.offerDuration) := by
    refine ⟨hinv, ?_, fun _ => .inr ⟨o, ho, hip, hexp.ge⟩⟩
    rw [hcfg, hclock]
  have hstay : y.pre.Reserves config c ip (n₁ + p₀.sys.manager.cfg.offerDuration) := by
    rcases hmid.holds_or_stopped hres fun t ht hs hr => by
      refine hr.step hs (hkept t ht).2 ?_
      rw [h₀.cfg_eq hr.inv]
      exact hlong.imp_right fun hnone => hnone t ht
      with hk | ⟨t, ht, hgive⟩
    · exact hk
    · exact absurd hgive (hkept t ht).1
  rw [← h₀.cfg_eq hstay.inv]
  exact hstep₂.granted hstay.inv hy hc (hstay.holds (hy.clock_le hstep₂) hlt)

/-- While a lease lasts, a request for its address is granted. -/
theorem Process.Inv.lease_kept (h₀ : p₀.Inv config)
    (hrun : Run (Step config) p₀ (before ++ x :: between ++ y :: after) p)
    (hx : x.label.Commits n₁ c l) (hy : y.label.Requests n₂ c l.ip written reply)
    (hlt : n₂ < l.expiresAt) (hkept : ∀ t ∈ between, ¬ GivesUp c l.ip t.label) :
    reply.Granted p₀.sys.manager.cfg.file written := by
  obtain ⟨hpre, hstep₁, hmid, hstep₂, -⟩ := hrun.two_inv
  have hc := hstep₁.committed_client hx
  have hkeeps := hstep₁.keeps (h₀.run hpre) hx
  rcases hmid.holds_or_stopped hkeeps fun t _ hs hk => hk.step hs with hk | ⟨t, ht, hgive⟩
  · have hle := hy.clock_le hstep₂
    obtain ⟨l', hl', hip, hexp'⟩ := hk.leased (by omega)
    rw [← h₀.cfg_eq hk.inv]
    exact hstep₂.granted hk.inv hy hc
      (.inl ⟨l', State.expire_leases.2 ⟨hl', by omega⟩, hip⟩)
  · exact absurd hgive (hkept t ht)

/-- While a lease lasts, its address is neither committed nor offered to another client, unless the
client has given it up. -/
theorem Process.Inv.unpromised (h₀ : p₀.Inv config)
    (hrun : Run (Step config) p₀ (before ++ x :: between ++ y :: after) p)
    {c' : GoString} (hx : x.label.Commits n₁ c l)
    (hy : (∃ l', l'.ip = l.ip ∧ y.label.Commits n₂ c' l') ∨ y.label.Offers n₂ c' l.ip)
    (hne : c ≠ c') (hlt : n₂ < l.expiresAt) : ∃ t ∈ between, GivesUp c l.ip t.label := by
  obtain ⟨hpre, hstep₁, hmid, hstep₂, -⟩ := hrun.two_inv
  have hkeeps := hstep₁.keeps (h₀.run hpre) hx
  rcases hmid.holds_or_stopped hkeeps fun t _ hs hk => hk.step hs with hk | hstop
  swap
  · exact hstop
  -- otherwise both clients hold the address after the second call
  have hpost : y.post.clock = n₂ ∧ y.post.sys.manager.state.Holds c' l.ip ∧
      ¬ GivesUp c l.ip y.label := by
    rcases hy with ⟨l', hip, w', a', hostname', fallback', hy⟩ | hy
    · rw [hy] at hstep₂ ⊢
      obtain ⟨-, -, -, -, hclock', -, hl'⟩ := hstep₂.committed_inv
      exact ⟨hclock', .inl ⟨l', hl', hip⟩, fun hg => hne (Option.some.inj hg.client).symm⟩
    · obtain ⟨-, hclock', o, ho, hip, -⟩ := hstep₂.offered_inv hy
      obtain ⟨w', requested, hostname', fallback', o', -, hy⟩ := hy
      rw [hy]
      exact ⟨hclock', .inr ⟨o, ho, hip⟩, fun hg => hne (Option.some.inj hg.client).symm⟩
  obtain ⟨hclock', hheld, hkept⟩ := hpost
  have hk' := (hk.step hstep₂).resolve_right hkept
  obtain ⟨l₁, hl₁, hip₁, -⟩ := hk'.leased (by omega)
  exact absurd (hk'.inv.wf.exclusive (.inl ⟨l₁, hl₁, hip₁⟩) hheld) hne

end

/-! ## Leases that last -/

/-- The client whose lease a call may change. -/
def Op.alters : Op → Option GoString
  | .commit c _ _ _ => some c
  | .release c _ => some c
  | .decline c _ => some c
  | _ => none

theorem Op.client_of_alters {op : Op} (h : op.alters = some c) :
    op.client = some c := by
  cases op <;> first | exact h | cases h

/-- The client has the lease until it ends. -/
structure Process.Has (config : Config) (c : GoString) (l : Lease) (p : Process) : Prop where
  inv : p.Inv config
  leased : p.clock < l.expiresAt → p.sys.manager.state.leases.get c = some l

/-- A lease stays as it is until it ends, or the client itself makes a call that may change it. -/
theorem Process.Has.step {config : Config} {p p' : Process}
    (h : p.Has config c l) (hs : Step config p label p') :
    p'.Has config c l ∨
      ∃ now written op reply, label = .call now written op reply ∧ op.alters = some c := by
  have hinv := h.inv.step hs
  cases hs with
  | @restart now m hle hf hm =>
    refine .inl ⟨hinv, fun hlt => ?_⟩
    have hlt : now < l.expiresAt := hlt
    simp only [h.inv.restart_state hle hf hm, State.durable, State.expire_leases]
    exact ⟨h.leased (by omega), hlt⟩
  | @call now written op reply sys hle hexec =>
    by_cases hop : op.alters = some c
    · exact .inr ⟨_, _, _, _, rfl, hop⟩
    refine .inl ⟨hinv, fun hlt => ?_⟩
    have hlt : now < l.expiresAt := hlt
    have hl : (p.sys.manager.state.expire now).leases.get c = some l :=
      State.expire_leases.2 ⟨h.leased (by omega), hlt⟩
    have hne : ∀ {c'}, some c' ≠ some c → c ≠ c' := fun h heq => h (congrArg some heq.symm)
    cases System.exec_effect hexec with
    | expired | offered => exact hl
    | committed => exact (FinMap.get_set_ne _ _ (hne hop)).trans hl
    | released | declined => exact State.remove_leases.2 ⟨hl, fun h => hne hop h.1⟩

/-- In every run, a call leaves the leases and offers of all clients but its own alone, apart from
expiry. So a request for an address that the client was offered or leases is granted in time unless
the file cannot be written, whatever others did in between; provided the client has not given it up
and, for an offer, that there was no restart and it was not exchanged for a shorter lease. -/
theorem client_isolation {config : Config} {disk : LeaseFile} {start : Int} {m : Manager}
    {p : Process} {tr : Trace Process Label} (hstart : 0 < start)
    (hm : newManager config start disk = .ok m)
    (hrun : Run (Step config) ⟨⟨m, disk⟩, start⟩ tr p) :
    (∀ t ∈ tr, ∀ now written op reply c, t.label = .call now written op reply →
      op.client ≠ some c →
      t.post.sys.manager.state.leases.get c =
        (t.pre.sys.manager.state.expire now).leases.get c ∧
      t.post.sys.manager.state.offers.get c =
        (t.pre.sys.manager.state.expire now).offers.get c) ∧
    (∀ before x between y after n₁ c ip n₂ written reply,
      tr = before ++ x :: between ++ y :: after →
      x.label.Offers n₁ c ip → y.label.Requests n₂ c ip written reply →
      n₂ < n₁ + m.cfg.offerDuration →
      (∀ t ∈ between, ¬ GivesUp c ip t.label ∧ ∀ now, t.label ≠ .restart now) →
      (m.cfg.offerDuration ≤ m.cfg.leaseDuration ∨
        ∀ t ∈ between, ∀ now l, ¬ t.label.Commits now c l) →
      reply.Granted m.cfg.file written) ∧
    (∀ before x between y after n₁ c l n₂ written reply,
      tr = before ++ x :: between ++ y :: after →
      x.label.Commits n₁ c l → y.label.Requests n₂ c l.ip written reply →
      n₂ < l.expiresAt → (∀ t ∈ between, ¬ GivesUp c l.ip t.label) →
      reply.Granted m.cfg.file written) := by
  have h₀ : Process.Inv config ⟨⟨m, disk⟩, start⟩ := .start hstart hm
  refine ⟨?_, ?_, ?_⟩
  · intro t ht now written op reply c hlabel hc
    obtain ⟨before, after, rfl, -, hstep, -⟩ := hrun.mem_inv ht
    obtain ⟨pre, label, post⟩ := t
    obtain rfl : label = _ := hlabel
    cases hstep with
    | call hle hexec => exact (System.exec_effect hexec).other hc
  · rintro before x between y after n₁ c ip n₂ written reply rfl hx hy hlt hkept hlong
    exact h₀.offer_kept hrun hx hy hlt hkept hlong
  · rintro before x between y after n₁ c l n₂ written reply rfl hx hy hlt hkept
    exact h₀.lease_kept hrun hx hy hlt hkept

/-- An offer kept for its client while another one asks for the address. -/
theorem client_isolation_offer :
    let ip := Addr.v4 0x0a00000a
    let p₁ := sampleStart.after 2 true (.offer (str "a") ip [] [])
    let p₂ := p₁.after 3 true (.commit (str "b") ip [] [])
    (p₂.sys.exec 4 false (.commit (str "a") ip [] [])).1.Granted sampleSettings.file false := by
  intro ip p₁ p₂
  have hrun : Run (Step sampleConfig) sampleStart _ _ :=
    .cons (.after _ 2 true (.offer (str "a") ip [] []) (by decide)) <|
    .cons (.after _ 3 true (.commit (str "b") ip [] []) (by decide)) <|
    .cons (.after _ 4 false (.commit (str "a") ip [] []) (by decide)) (.nil _)
  have hother {reply : Reply} :
      ¬ GivesUp (str "a") ip (.call 3 true (.commit (str "b") ip [] []) reply) := fun h =>
    absurd h.client (by decide)
  exact (client_isolation (by decide) (newManager_sample 1) hrun).2.1 [] _ [_] _ [] 2 (str "a") ip 4
    false _ rfl ⟨true, ip, [], [], _, rfl, rfl⟩ ⟨ip, [], [], rfl, rfl⟩ (by decide)
    (List.forall_mem_singleton.2 ⟨hother, fun _ => Label.noConfusion⟩) (.inl (by decide))

/-! ## Leases shorter than offers -/

/-- The sample network with leases of one second. -/
def briefConfig : Config := { sampleConfig with leaseDuration := second }

def briefSettings : Settings := { sampleSettings with
  leaseDuration := second
  leaseDuration_pos := by decide }

/-- The process it starts. -/
def briefStart : Process := ⟨⟨⟨briefSettings, newState⟩, .absent⟩, 1⟩

/-- Client `a` is offered an address, commits it and asks for it again within the time of the offer,
and is told that it is unavailable: the commit has replaced the offer by a lease that has expired,
and another client has taken the address since. -/
theorem offer_not_kept :
    let ip := Addr.v4 0x0a00000a
    newManager briefConfig 1 .absent = .ok briefStart.sys.manager ∧
    ∃ x y z w p, Run (Step briefConfig) briefStart [x, y, z, w] p ∧
      x.label.Offers 2 (str "a") ip ∧
      (∃ l, y.label.Requests 3 (str "a") ip true (.lease (.ok l)) ∧ l.ip = ip) ∧
      (∃ l, z.label.Requests (2 * second) (str "b") ip true (.lease (.ok l))) ∧
      w.label.Requests (2 * second + 1) (str "a") ip true (.lease (.error .unavailable)) ∧
      2 * second + 1 < 2 + briefSettings.offerDuration := by
  intro ip
  have hrun : Run (Step briefConfig) briefStart _ _ :=
    .cons (.after _ 2 true (.offer (str "a") ip [] []) (by decide)) <|
    .cons (.after _ 3 true (.commit (str "a") ip [] []) (by decide)) <|
    .cons (.after _ (2 * second) true (.commit (str "b") ip [] []) (by decide)) <|
    .cons (.after _ (2 * second + 1) true (.commit (str "a") ip [] []) (by decide)) (.nil _)
  let p₁ := briefStart.after 2 true (.offer (str "a") ip [] [])
  let p₂ := p₁.after 3 true (.commit (str "a") ip [] [])
  let p₃ := p₂.after (2 * second) true (.commit (str "b") ip [] [])
  have hoffered : (briefStart.sys.exec 2 true (.offer (str "a") ip [] [])).1 =
      .lease (.ok ⟨str "a", ip, [], 2 + briefSettings.offerDuration⟩) := by
    decide +kernel
  have hcommitted : (p₁.sys.exec 3 true (.commit (str "a") ip [] [])).1 =
      .lease (.ok ⟨str "a", ip, [], 3 + second⟩) := by
    decide +kernel
  have htaken : (p₂.sys.exec (2 * second) true (.commit (str "b") ip [] [])).1 =
      .lease (.ok ⟨str "b", ip, [], 3 * second⟩) := by
    decide +kernel
  have hrefused : (p₃.sys.exec (2 * second + 1) true (.commit (str "a") ip [] [])).1 =
      .lease (.error .unavailable) := by
    decide +kernel
  exact ⟨rfl, _, _, _, _, _, hrun,
    ⟨true, ip, [], [], _, rfl, congrArg (Label.call 2 true _) hoffered⟩,
    ⟨_, ⟨ip, [], [], rfl, congrArg (Label.call 3 true _) hcommitted⟩, rfl⟩,
    ⟨_, ip, [], [], rfl, congrArg (Label.call (2 * second) true _) htaken⟩,
    ⟨ip, [], [], rfl, congrArg (Label.call (2 * second + 1) true _) hrefused⟩, by decide⟩

end InfraBox.Leasing
