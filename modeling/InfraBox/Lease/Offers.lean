import InfraBox.Lease.Isolation

/-!
# Offers are complete

`OfferWithFallback` fails only when it has to: a client without a lease or an offer of its own gets
an address as long as the pool has one that nobody else holds and that is not quarantined
(`offer_complete`). Which one is `Chooses`. The loop over the pool stops at the end of the pool,
also where that is the last IPv4 address and has no successor: `PoolScan` is the loop as it runs.
-/

namespace InfraBox.Leasing

/-- The loop of `OfferWithFallback` leaves this address when it starts with this candidate. -/
inductive PoolScan (free : Addr → Bool) (poolEnd : Addr) : Addr → Addr → Prop
  | stop {candidate : Addr} : ¬ (candidate.isValid = true ∧ candidate ≤ poolEnd) →
      PoolScan free poolEnd candidate .invalid
  | found {candidate : Addr} : candidate.isValid = true → candidate ≤ poolEnd →
      free candidate = true → PoolScan free poolEnd candidate candidate
  | step {candidate ip : Addr} : candidate.isValid = true → candidate ≤ poolEnd →
      free candidate = false → PoolScan free poolEnd candidate.next ip →
      PoolScan free poolEnd candidate ip

/-- The loop returns what the model's function computes. -/
theorem firstFree_scan {free : Addr → Bool} {b : BitVec 32} (n : Nat) (a : BitVec 32)
    (h : a.toNat + n = b.toNat + 1) :
    PoolScan free (.v4 b) (.v4 a) (firstFree free (.v4 b) n (.v4 a)) := by
  induction n generalizing a with
  | zero =>
    refine .stop fun hin => ?_
    have := Addr.v4_le_v4.1 hin.2
    omega
  | succ n ih =>
    have hle : a.toNat ≤ b.toNat := by omega
    rw [firstFree_succ hle]
    cases hfree : free (.v4 a) with
    | true => exact .found rfl (Addr.v4_le_v4.2 hle) hfree
    | false =>
      refine .step rfl (Addr.v4_le_v4.2 hle) hfree ?_
      rcases next_v4 a with ⟨hnext, hmax⟩ | ⟨a', hnext, ha'⟩
      · -- the last address has no successor, and no turn is left
        have hb := b.isLt
        obtain rfl : n = 0 := by omega
        rw [hnext]
        exact .stop fun hin => by cases hin.1
      · rw [hnext]
        exact ih a' (by omega)

/-- The address is held by another client or quarantined. -/
def State.Blocked (s : State) (c : GoString) (ip : Addr) : Prop :=
  (∃ c', c' ≠ c ∧ s.Holds c' ip) ∨ ∃ t, s.declined.get ip = some t

theorem State.occupied_iff {s : State} {c : GoString} {ip : Addr} :
    s.occupied c ip = true ↔ s.Blocked c ip := by
  rw [← Bool.not_eq_false, State.occupied_eq_false, State.Blocked, not_and_or]
  refine or_congr ?_ ?_
  · rw [not_forall]
    exact exists_congr fun c' => by rw [Classical.not_imp, and_comm]
  · rw [← Option.isNone_iff_eq_none, Bool.not_eq_true, Option.isNone_eq_false_iff,
      Option.isSome_iff_exists]

theorem State.not_occupied_iff {s : State} {c : GoString} {ip : Addr} :
    s.occupied c ip = false ↔ ¬ s.Blocked c ip := by
  rw [← State.occupied_iff, Bool.not_eq_true]

/-- The address a client is offered: the one it leases, else the one it was offered, else the one it
requests if that is free, else the lowest free one. -/
inductive Chooses (cfg : Settings) (s : State) (c : GoString) (requested : Addr) : Addr → Prop
  | leased {l : Lease} : s.leases.get c = some l → Chooses cfg s c requested l.ip
  | offered {o : Lease} : s.leases.get c = none → s.offers.get c = some o →
      Chooses cfg s c requested o.ip
  | requested : s.leases.get c = none → s.offers.get c = none →
      cfg.inPool requested.unmap = true → ¬ s.Blocked c requested.unmap →
      Chooses cfg s c requested requested.unmap
  | lowest {ip : Addr} : s.leases.get c = none → s.offers.get c = none →
      ¬ (cfg.inPool requested.unmap = true ∧ ¬ s.Blocked c requested.unmap) →
      cfg.inPool ip = true → ¬ s.Blocked c ip →
      (∀ ip', cfg.inPool ip' = true → ip' < ip → s.Blocked c ip') →
      Chooses cfg s c requested ip

/-- Nothing is left for the client. -/
structure Exhausted (cfg : Settings) (s : State) (c : GoString) : Prop where
  lease : s.leases.get c = none
  offer : s.offers.get c = none
  blocked : ∀ ip, cfg.inPool ip = true → s.Blocked c ip

section
variable {m : Manager} {c : GoString} {requested : Addr}

/-- The manager has nothing to offer, or offers the address of the choice. -/
theorem Manager.offerAddress_chooses (h : m.state.Wf m.cfg) (c : GoString) (requested : Addr) :
    (m.offerAddress c requested = .invalid ∧ Exhausted m.cfg m.state c) ∨
    (m.cfg.inPool (m.offerAddress c requested) = true ∧
      Chooses m.cfg m.state c requested (m.offerAddress c requested)) := by
  unfold Manager.offerAddress
  cases hl : m.state.leases.get c with
  | some l => exact .inr ⟨(h.lease hl).pool, .leased hl⟩
  | none =>
  cases ho : m.state.offers.get c with
  | some o => exact .inr ⟨(h.offer ho).1, .offered hl ho⟩
  | none =>
    have hreq : (m.cfg.inPool requested.unmap && !m.state.occupied c requested.unmap) = true ↔
        m.cfg.inPool requested.unmap = true ∧ ¬ m.state.Blocked c requested.unmap := by
      rw [Bool.and_eq_true, Bool.not_eq_true', State.not_occupied_iff]
    simp only
    split
    · next htaken =>
      obtain ⟨hpool, hfree⟩ := hreq.1 htaken
      exact .inr ⟨hpool, .requested hl ho hpool hfree⟩
    · next htaken =>
      show (m.scanPool c = _ ∧ _) ∨ (_ ∧ Chooses _ _ _ _ (m.scanPool c))
      rcases m.scanPool_spec c with ⟨hr, hall⟩ | ⟨hpool, hfree, hlow⟩
      · exact .inl ⟨hr, hl, ho, fun ip hip => State.occupied_iff.1 (hall ip hip)⟩
      · exact .inr ⟨hpool, .lowest hl ho (fun h => htaken (hreq.2 h)) hpool
          (State.not_occupied_iff.1 hfree) fun ip hip hlt => State.occupied_iff.1 (hlow ip hip hlt)⟩

/-- A client that has a choice is not out of addresses. -/
theorem Chooses.not_exhausted {s : State} {cfg : Settings} {ip : Addr}
    (h : Chooses cfg s c requested ip) : ¬ Exhausted cfg s c := by
  intro he
  cases h with
  | leased hl => rw [he.lease] at hl; cases hl
  | offered _ ho => rw [he.offer] at ho; cases ho
  | requested _ _ hpool hfree | lowest _ _ _ hpool hfree => exact hfree (he.blocked _ hpool)

/-- An address of the pool is valid, and in the form in which addresses are kept. -/
theorem Settings.inPool_v4 {cfg : Settings} {ip : Addr} (h : cfg.inPool ip = true) :
    ip.isValid = true ∧ ip.unmap = ip := by
  obtain ⟨_, _, -, -, -, hpool⟩ := cfg.pool_eq
  obtain ⟨_, rfl, -, -⟩ := (hpool ip).1 h
  exact ⟨rfl, rfl⟩

/-- For a valid client an offer fails when nothing is left for it, and otherwise offers the address
of the choice. -/
theorem Manager.offer_chooses {now : Int} (h : (m.state.expire now).Wf m.cfg)
    (hc : validClientID c = true) (requested : Addr) (hostname fallback : GoString) :
    ((m.offerWithFallback now c requested hostname fallback).1 = .error .poolExhausted ∧
      Exhausted m.cfg (m.state.expire now) c) ∨
    ∃ o, (m.offerWithFallback now c requested hostname fallback).1 = .ok o ∧
      Chooses m.cfg (m.state.expire now) c requested o.ip := by
  simp only [Manager.offerWithFallback, hc, Bool.not_true, Bool.false_eq_true, if_false]
  rcases (m.expire now).offerAddress_chooses h c requested with ⟨hnone, hex⟩ | ⟨hpool, hch⟩
  · rw [hnone]
    exact .inl ⟨rfl, hex⟩
  · simp only [(Settings.inPool_v4 hpool).1, Bool.not_true, Bool.false_eq_true, if_false]
    exact .inr ⟨_, rfl, hch⟩

end

/-! ## Reservation -/

/-- Another client is neither given the address nor offered it. -/
structure System.Refuses (sys : System) (t : Int) (c : GoString) (ip : Addr) : Prop where
  blocked : (sys.manager.state.expire t).Blocked c ip
  commit : ∀ a written hostname fallback, a.unmap = ip →
    (sys.commitWithFallback t written c a hostname fallback).1 = .error .unavailable
  offer : ∀ requested hostname fallback o,
    (sys.manager.offerWithFallback t c requested hostname fallback).1 = .ok o → o.ip ≠ ip

section
variable {config : Config} {p q : Process} {c c' : GoString} {ip : Addr} {t u : Int}

/-- What a client holds is refused to all others. -/
theorem Process.Inv.refuses (h : p.Inv config) (hh : (p.sys.manager.state.expire t).Holds c ip)
    (hne : c' ≠ c) : p.sys.Refuses t c' ip := by
  have hblocked : (p.sys.manager.state.expire t).Blocked c' ip := .inl ⟨c, hne.symm, hh⟩
  refine ⟨hblocked, ?_, ?_⟩
  · rintro a written hostname fallback rfl
    have hocc : (p.sys.expire t).manager.state.occupied c' a.unmap = true :=
      State.occupied_iff.2 hblocked
    simp only [System.commitWithFallback, hocc, Bool.or_true, if_true]
  · rintro requested hostname fallback o hr rfl
    rcases Manager.offer_cases (Prod.mk.eta (p := p.sys.manager.offerWithFallback t c' requested
      hostname fallback)).symm with ⟨⟨e, he⟩, -⟩ | ⟨o', hr', -, hip, hv, -⟩
    · rw [hr] at he
      cases he
    · obtain rfl : o = o' := Except.ok.inj (hr.symm.trans hr')
      have hfree := (Manager.offerAddress_spec (m := p.sys.manager.expire t) (h.wf.expire t)
        (hip ▸ hv)).2.1
      rw [← hip] at hfree
      exact State.not_occupied_iff.1 hfree hblocked

/-- The calls of a run are all made for others than the client. -/
def WithoutClient (c : GoString) (tr : Trace Process Label) : Prop :=
  ∀ t ∈ tr, ∃ now written op reply, t.label = .call now written op reply ∧ op.client ≠ some c

/-- A reservation lasts through the calls of other clients. -/
theorem Process.Reserves.run {tr : Trace Process Label}
    (h : p.Reserves config c ip u) (hrun : Run (Step config) p tr q) (htr : WithoutClient c tr) :
    q.Reserves config c ip u := by
  rcases hrun.holds_or_stopped h fun t ht hs hr => by
    obtain ⟨now, written, op, reply, hl, hop⟩ := htr t ht
    refine hr.step hs (fun now' heq => by rw [hl] at heq; cases heq) (.inr ?_)
    rintro now' l ⟨w, a, hostname, fallback, heq⟩
    rw [hl] at heq
    cases heq
    exact hop rfl
    with hk | ⟨t, ht, hgive⟩
  · exact hk
  · obtain ⟨now, written, op, reply, hl, hop⟩ := htr t ht
    rw [hl] at hgive
    exact absurd hgive.client hop

end

/-- In every state a run reaches, for every pool, an offer to a valid client comes to a result. It
fails with `ErrPoolExhausted` exactly when the client has no live lease or offer and every address
of the pool is held by another client or quarantined; else it offers the leased address, the offered
one, the requested one if it is free, or the lowest free one, which is refused to every other client
while the offer lasts. -/
theorem offer_complete {config : Config} {disk : LeaseFile} {start : Int} {m : Manager}
    {p : Process} {tr : Trace Process Label} (hstart : 0 < start)
    (hm : newManager config start disk = .ok m)
    (hrun : Run (Step config) ⟨⟨m, disk⟩, start⟩ tr p) {c : GoString}
    (hc : validClientID c = true) (now : Int) (requested : Addr) (hostname fallback : GoString) :
    let cfg := p.sys.manager.cfg
    let live := p.sys.manager.state.expire now
    let out := p.sys.manager.offerWithFallback now c requested hostname fallback
    PoolScan (fun ip => !live.occupied c ip) cfg.poolEnd cfg.poolStart
      ((p.sys.manager.expire now).scanPool c) ∧
    (out.1 = .error .poolExhausted ↔ Exhausted cfg live c) ∧
    (out.1 ≠ .error .poolExhausted → ∃ o, out.1 = .ok o ∧ Chooses cfg live c requested o.ip ∧
      (p.clock ≤ now → ∀ tr' q, Run (Step config) ⟨{ p.sys with manager := out.2 }, now⟩ tr' q →
        WithoutClient c tr' → ∀ c' t, c' ≠ c → q.clock ≤ t → t < now + cfg.offerDuration →
        q.sys.Refuses t c' o.ip)) := by
  intro cfg live out
  have hp := (Process.Inv.start hstart hm).run hrun
  refine ⟨?_, ?_, fun hne => ?_⟩
  · obtain ⟨a, b, ha, hb, hsize, -⟩ := cfg.pool_eq
    have hscan := @firstFree_scan (fun ip => !live.occupied c ip) b cfg.poolSize a hsize
    rw [← ha, ← hb] at hscan
    exact hscan
  · rcases Manager.offer_chooses (hp.wf.expire now) hc requested hostname fallback with
      ⟨herr, hex⟩ | ⟨o, hok, hch⟩
    · exact iff_of_true herr hex
    · refine iff_of_false (fun herr => ?_) hch.not_exhausted
      cases hok.symm.trans herr
  · rcases Manager.offer_chooses (hp.wf.expire now) hc requested hostname fallback with
      ⟨herr, -⟩ | ⟨o, hok, hch⟩
    · exact absurd herr hne
    · refine ⟨o, hok, hch, fun hle tr' q hrun' htr' c' t hcc hqt hlt => ?_⟩
      -- the offer, as a step of the process
      have hstep : Step config p (.call now true (.offer c requested hostname fallback)
          (.lease (.ok o))) ⟨{ p.sys with manager := out.2 }, now⟩ := by
        refine .call hle ?_
        rw [← hok]
        rfl
      have hinv := hp.step hstep
      obtain ⟨-, -, o', ho', hip, hexp⟩ := hstep.offered_inv ⟨_, _, _, _, o, rfl, rfl⟩
      have hres : Process.Reserves config c o.ip (now + cfg.offerDuration)
          ⟨{ p.sys with manager := out.2 }, now⟩ := by
        refine ⟨hinv, ?_, fun _ => .inr ⟨o', ho', hip, hexp.ge⟩⟩
        rw [hp.cfg_eq hinv]
      have hq := hres.run hrun' htr'
      exact hq.inv.refuses (hq.holds hqt hlt) hcc

/-- A network at the top of the address space, with a single address. -/
def topConfig : Config :=
  { sampleConfig with poolStart := .v4 0xffffffff, poolEnd := .v4 0xffffffff }

def topSettings : Settings :=
  { sampleSettings with
    poolStart := .v4 0xffffffff
    poolEnd := .v4 0xffffffff
    pool_is4 := ⟨rfl, rfl⟩
    pool_ordered := le_refl _ }

/-- The last address of the address space is offered once, and the next client finds the pool
exhausted. -/
theorem offer_complete_top :
    let p := (⟨⟨⟨topSettings, newState⟩, .absent⟩, 1⟩ : Process).after 2 true
      (.offer (str "a") .invalid [] [])
    Exhausted topSettings (p.sys.manager.state.expire 3) (str "b") := by
  intro p
  have hrun : Run (Step topConfig) ⟨⟨⟨topSettings, newState⟩, .absent⟩, 1⟩ _ p :=
    .cons (.after _ 2 true (.offer (str "a") .invalid [] []) (by decide)) (.nil _)
  exact (offer_complete (by decide) rfl hrun (by decide) 3 .invalid [] []).2.1.1 rfl

end InfraBox.Leasing
