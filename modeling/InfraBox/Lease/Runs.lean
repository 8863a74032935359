import InfraBox.Lib.Run
import InfraBox.Lease.Operations
import InfraBox.Lease.Restore

/-!
# Runs of the lease manager

A run is a sequence of method calls, by any clients and in any order, each with a clock reading not
before the last one and with its own outcome of writing the file, and of restarts from the file.
`Process.Inv` ties the manager's tables to each other and to the file along every run. Two results
follow from it: an address is leased to one client at a time (`exclusive_ownership`), and at every
point of a run the file holds what a restart needs (`lease_durability`).
-/

namespace InfraBox.Leasing

variable {now : Int} {tr : Trace Process Label}

variable {written : Bool} {m : Manager} {disk : LeaseFile} {config : Config}

/-! ## Calls -/

/-- A call of one of the manager's methods. -/
inductive Op where
  | offer (clientID : GoString) (requested : Addr) (hostname fallback : GoString)
  | commit (clientID : GoString) (ip : Addr) (hostname fallback : GoString)
  | release (clientID : GoString) (ip : Addr)
  | decline (clientID : GoString) (ip : Addr)
  | lookupName (name : GoString)
  | hasName (name : GoString)
  | lookupIP (ip : Addr)

/-- What a method returns. -/
inductive Reply where
  | lease (r : Except Error Lease)
  | done (r : Except Error Unit)
  | found (r : Option Lease)
  | known (r : Bool)
  deriving DecidableEq

/-- The methods, as one function of the system. -/
def System.exec (sys : System) (now : Int) (written : Bool) : Op → Reply × System
  | .offer c requested hostname fallback =>
    let (r, m) := sys.manager.offerWithFallback now c requested hostname fallback
    (.lease r, { sys with manager := m })
  | .commit c ip hostname fallback =>
    let (r, sys) := sys.commitWithFallback now written c ip hostname fallback
    (.lease r, sys)
  | .release c ip =>
    let (r, sys) := sys.release now written c ip
    (.done r, sys)
  | .decline c ip =>
    let (r, sys) := sys.decline now written c ip
    (.done r, sys)
  | .lookupName name =>
    let (r, m) := sys.manager.lookupName now name
    (.found r, { sys with manager := m })
  | .hasName name =>
    let (r, m) := sys.manager.hasName now name
    (.known r, { sys with manager := m })
  | .lookupIP ip =>
    let (r, m) := sys.manager.lookupIP now ip
    (.found r, { sys with manager := m })

/-- A method that changes the tables reports success. -/
def Reply.succeeded : Reply → Bool
  | .lease (.ok _) => true
  | .done (.ok _) => true
  | _ => false

/-- A commit that succeeds returns a lease. -/
theorem System.exec_commit_ok {sys : System}
    {c hostname fallback : GoString} {ip : Addr}
    (h : (sys.exec now written (.commit c ip hostname fallback)).1.succeeded = true) :
    ∃ l, (sys.exec now written (.commit c ip hostname fallback)).1 = .lease (.ok l) := by
  obtain ⟨r, hr⟩ : ∃ r, (sys.exec now written (.commit c ip hostname fallback)).1 = .lease r :=
    ⟨_, rfl⟩
  rw [hr] at h ⊢
  cases r with
  | ok l => exact ⟨l, rfl⟩
  | error _ => cases h

/-- Everything a call can do. -/
inductive Effect (sys : System) (now : Int) : Op → Reply → System → Prop
  /-- A lookup or a failed call only drops expired entries. -/
  | expired {op : Op} {reply : Reply} : reply.succeeded = false →
      Effect sys now op reply (sys.expire now)
  | offered {c hostname fallback : GoString} {requested : Addr} {o : Lease} :
      o.ip = (sys.manager.expire now).offerAddress c requested → o.ip.isValid = true →
      o.hostname = (sys.manager.expire now).offerName c hostname fallback →
      validClientID c = true → o.expiresAt = now + sys.manager.cfg.offerDuration →
      Effect sys now (.offer c requested hostname fallback) (.lease (.ok o))
        { sys with manager.state := { sys.manager.state.expire now with
          offers := (sys.manager.state.expire now).offers.set c o } }
  | committed {c hostname fallback : GoString} {ip : Addr} {l : Lease} :
      validClientID c = true → sys.manager.cfg.inPool ip.unmap = true →
      (sys.manager.state.expire now).occupied c ip.unmap = false →
      l = (sys.manager.expire now).commitment now c ip.unmap hostname fallback →
      Effect sys now (.commit c ip hostname fallback) (.lease (.ok l))
        ((sys.expire now).store ((sys.manager.state.expire now).commit c l))
  | released {c : GoString} {ip : Addr} : (sys.manager.state.expire now).Holds c ip.unmap →
      Effect sys now (.release c ip) (.done (.ok ()))
        ((sys.expire now).store ((sys.manager.state.expire now).remove c ip.unmap))
  | declined {c : GoString} {ip : Addr} : (sys.manager.state.expire now).Holds c ip.unmap →
      Effect sys now (.decline c ip) (.done (.ok ()))
        ((sys.expire now).store ((sys.manager.state.expire now).decline c ip.unmap
          (now + sys.manager.cfg.declineDuration)))

/-- A call without success only drops expired entries. -/
theorem Effect.failed {sys sys' : System} {op : Op} {reply : Reply}
    (h : Effect sys now op reply sys') (hr : reply.succeeded = false) : sys' = sys.expire now := by
  cases h with
  | expired => rfl
  | offered | committed | released | declined => cases hr

theorem Manager.lookupName_snd (m : Manager) (now : Int) (name : GoString) :
    (m.lookupName now name).2 = m.expire now := by
  simp only [Manager.lookupName]
  split <;> rfl

theorem Manager.hasName_snd (m : Manager) (now : Int) (name : GoString) :
    (m.hasName now name).2 = m.expire now := by
  simp only [Manager.hasName]
  split <;> rfl

/-- A call has one of the effects. -/
theorem System.exec_effect {sys sys' : System} {op : Op}
    {reply : Reply} (h : sys.exec now written op = (reply, sys')) :
    Effect sys now op reply sys' := by
  obtain ⟨rfl, rfl⟩ := Prod.mk.injEq .. ▸ h
  cases op with
  | offer c requested hostname fallback =>
    simp only
    rcases Manager.offer_cases (Prod.mk.eta (p := sys.manager.offerWithFallback now c requested
      hostname fallback)).symm with ⟨⟨e, he⟩, hm⟩ | ⟨o, hr, hc, hip, hv, hn, hexp, hm⟩
    · rw [he, hm]
      exact .expired rfl
    · rw [hr, hm]
      exact .offered hip hv hn hc hexp
  | commit c ip hostname fallback =>
    simp only
    rcases System.commit_cases (Prod.mk.eta (p := sys.commitWithFallback now written c ip
      hostname fallback)).symm with ⟨⟨e, he⟩, hs⟩ | ⟨l, hr, hc, hpool, hfree, hl, hs⟩
    · rw [he, hs]
      exact .expired rfl
    · rw [hr, hs]
      exact .committed hc hpool hfree hl
  | release c ip =>
    simp only
    rcases System.release_cases (Prod.mk.eta (p := sys.release now written c ip)).symm with
      ⟨⟨e, he⟩, hs⟩ | ⟨hr, hh, hs⟩
    · rw [he, hs]
      exact .expired rfl
    · rw [hr, hs]
      exact .released hh
  | decline c ip =>
    simp only
    rcases System.decline_cases (Prod.mk.eta (p := sys.decline now written c ip)).symm with
      ⟨⟨e, he⟩, hs⟩ | ⟨hr, hh, hs⟩
    · rw [he, hs]
      exact .expired rfl
    · rw [hr, hs]
      exact .declined hh
  | lookupName name =>
    simp only [Manager.lookupName_snd]
    exact .expired rfl
  | hasName name =>
    simp only [Manager.hasName_snd]
    exact .expired rfl
  | lookupIP ip => exact .expired rfl

/-! ## Steps -/

/-- A manager process: the system and the last clock reading. -/
structure Process where
  sys : System
  clock : Int

/-- What happens to a process: a call, with its clock reading, whether the file could be written,
and its reply; or a restart. -/
inductive Label where
  | call (now : Int) (written : Bool) (op : Op) (reply : Reply)
  | restart (now : Int)

/-- One step of a process configured by `config`. A restart rebuilds the manager from the file. -/
inductive Step (config : Config) : Process → Label → Process → Prop
  | call {p : Process} {now : Int} {written : Bool} {op : Op} {reply : Reply} {sys : System} :
      p.clock ≤ now → p.sys.exec now written op = (reply, sys) →
      Step config p (.call now written op reply) ⟨sys, now⟩
  | restart {p : Process} {now : Int} {m : Manager} : p.clock ≤ now → config.file ≠ [] →
      newManager config now p.sys.disk = .ok m →
      Step config p (.restart now) ⟨⟨m, p.sys.disk⟩, now⟩

/-- The invariant of a process. -/
structure Process.Inv (config : Config) (p : Process) : Prop where
  clock_pos : 0 < p.clock
  configured : configure config = .ok p.sys.manager.cfg
  wf : p.sys.manager.state.Wf p.sys.manager.cfg
  /-- The file holds the leases and quarantines, and possibly expired ones besides. -/
  durable : p.sys.manager.cfg.file ≠ [] → ∀ now, p.clock ≤ now →
    p.sys.manager.cfg.restore now p.sys.disk = .ok (p.sys.manager.state.expire now).durable

/-- `newManager` configures and restores. -/
theorem newManager_ok
    (h : newManager config now disk = .ok m) :
    configure config = .ok m.cfg ∧ m.cfg.restore now disk = .ok m.state := by
  unfold newManager at h
  split at h
  · cases h
  next settings hc =>
  split at h
  · cases h
  next s hs =>
  cases h
  exact ⟨hc, hs⟩

/-- A manager that has just been built satisfies the invariant. -/
theorem Process.Inv.start
    (hnow : 0 < now) (h : newManager config now disk = .ok m) :
    Process.Inv config ⟨⟨m, disk⟩, now⟩ := by
  obtain ⟨hc, hr⟩ := newManager_ok h
  exact ⟨hnow, hc, Settings.restore_wf hr, fun _ now' hle => Settings.restore_later hr hle⟩

/-- Expiry at the later of two times. -/
theorem State.expire_expire (s : State) {now now' : Int} (h : now ≤ now') :
    (s.expire now).expire now' = s.expire now' := by
  have hl : ((s.expire now).expire now').leases = (s.expire now').leases :=
    FinMap.ext_get fun c => Option.ext fun l => by
      simp only [State.expire_leases, live_and_live h]
  have ho : ((s.expire now).expire now').offers = (s.expire now').offers :=
    FinMap.ext_get fun c => Option.ext fun o => by
      simp only [State.expire_offers, live_and_live h]
  have hd : ((s.expire now).expire now').declined = (s.expire now').declined :=
    FinMap.ext_get fun ip => Option.ext fun t => by
      simp only [State.expire_declined, live_and_live h]
  rw [State.mk.injEq]
  exact ⟨hl, ho, hd⟩

section
variable {config : Config} {p p' : Process} {now : Int}

/-- Time passing, and the expiry of entries in memory, keep the invariant. -/
theorem Process.Inv.expire (h : p.Inv config) (hle : p.clock ≤ now) :
    Process.Inv config ⟨p.sys.expire now, now⟩ where
  clock_pos := lt_of_lt_of_le h.clock_pos hle
  configured := h.configured
  wf := h.wf.expire now
  durable hf now' hle' := by
    show _ = Except.ok ((p.sys.manager.state.expire now).expire now').durable
    rw [State.expire_expire _ hle']
    exact h.durable hf now' (le_trans hle hle')

/-- Storing a well-formed state keeps the invariant. -/
theorem Process.Inv.store (h : p.Inv config) {next : State} (hw : next.Wf p.sys.manager.cfg) :
    Process.Inv config ⟨p.sys.store next, p.clock⟩ where
  clock_pos := h.clock_pos
  configured := h.configured
  wf := hw
  durable hf now' _ := by
    have hf' : p.sys.manager.cfg.file ≠ [] := hf
    simp only [System.store, if_neg hf']
    exact hw.restore_saved hf' now'

/-- Every step keeps the invariant. -/
theorem Process.Inv.step (h : p.Inv config) {label : Label} (hs : Step config p label p') :
    p'.Inv config := by
  cases hs with
  | restart hle _ hm => exact .start (lt_of_lt_of_le h.clock_pos hle) hm
  | @call now _ _ _ _ hle hexec =>
    have he := h.expire hle
    have hnow : 0 ≤ now := he.clock_pos.le
    cases System.exec_effect hexec with
    | expired => exact he
    | offered hip hv hn =>
      exact { he with wf := Manager.offered_wf (m := p.sys.manager.expire now) he.wf hip hv hn }
    | committed hc hpool hfree hl =>
      refine he.store ?_
      rw [hl]
      exact Manager.commit_wf (m := p.sys.manager.expire now) he.wf hnow hc hpool hfree _ _
    | released hh => exact he.store (he.wf.remove _ _)
    | declined hh =>
      refine he.store (State.Wf.quarantine_removed he.wf hh ?_)
      have := p.sys.manager.cfg.declineDuration_pos
      omega

theorem Process.Inv.run (h : p.Inv config)
    (hr : Run (Step config) p tr p') : p'.Inv config :=
  hr.invariant h fun _ _ _ hi hs => hi.step hs

/-- The configuration of a process never changes. -/
theorem Process.Inv.cfg_eq (h : p.Inv config) (h' : p'.Inv config) :
    p'.sys.manager.cfg = p.sys.manager.cfg :=
  Except.ok.inj (h'.configured.symm.trans h.configured)

/-- A restart at `now` finds the live leases and quarantines. -/
theorem Process.Inv.restart_state (h : p.Inv config) (hle : p.clock ≤ now)
    (hf : config.file ≠ []) (hm : newManager config now p.sys.disk = .ok m) :
    m.state = (p.sys.manager.state.expire now).durable := by
  obtain ⟨hc, hr⟩ := newManager_ok hm
  have hcfg : m.cfg = p.sys.manager.cfg := Except.ok.inj (hc.symm.trans h.configured)
  have hf' : p.sys.manager.cfg.file ≠ [] := by rwa [(configure_ok h.configured).2.2.2.1]
  rw [hcfg, h.durable hf' now hle, Except.ok.injEq] at hr
  exact hr.symm

end

/-! ## Exclusive ownership -/

/-- The client gives the address up: it releases or declines it, or is committed to another one. -/
inductive GivesUp (c : GoString) (ip : Addr) : Label → Prop
  | released {now : Int} {written : Bool} {a : Addr} : a.unmap = ip →
      GivesUp c ip (.call now written (.release c a) (.done (.ok ())))
  | declined {now : Int} {written : Bool} {a : Addr} : a.unmap = ip →
      GivesUp c ip (.call now written (.decline c a) (.done (.ok ())))
  | moved {now : Int} {written : Bool} {a : Addr} {hostname fallback : GoString} {l : Lease} :
      l.ip ≠ ip → GivesUp c ip (.call now written (.commit c a hostname fallback) (.lease (.ok l)))

/-- The client leases the address, and does so until `e` at least. -/
structure Process.Keeps (config : Config) (c : GoString) (ip : Addr) (e : Int) (p : Process) :
    Prop where
  inv : p.Inv config
  renewed : e ≤ p.clock + p.sys.manager.cfg.leaseDuration
  leased : p.clock < e →
    ∃ l, p.sys.manager.state.leases.get c = some l ∧ l.ip = ip ∧ e ≤ l.expiresAt

section
variable {config : Config} {p p' : Process} {c : GoString} {ip : Addr} {label : Label}

/-- A step leaves the client its lease, unless it is the client's own giving up. -/
theorem Process.Keeps.step {e : Int} (h : p.Keeps config c ip e) (hs : Step config p label p') :
    p'.Keeps config c ip e ∨ GivesUp c ip label := by
  have hinv := h.inv.step hs
  have hcfg := h.inv.cfg_eq hinv
  have hren := h.renewed
  cases hs with
  | @restart now m hle hf hm =>
    refine .inl ⟨hinv, ?_, fun hlt => ?_⟩
    · rw [hcfg]; simp only; omega
    · have hlt : now < e := hlt
      obtain ⟨l, hl, hip, hexp⟩ := h.leased (by omega)
      refine ⟨l, ?_, hip, hexp⟩
      simp only [h.inv.restart_state hle hf hm, State.durable, State.expire_leases]
      exact ⟨hl, by omega⟩
  | @call now written op reply sys hle hexec =>
    have hren' : e ≤ now + sys.manager.cfg.leaseDuration := by
      have : sys.manager.cfg = p.sys.manager.cfg := hcfg
      rw [this]; omega
    rcases lt_or_ge now e with hlt | hge
    swap
    · exact .inl ⟨hinv, hren', fun hlt => absurd hlt (not_lt.2 hge)⟩
    obtain ⟨l, hl, hip, hexp⟩ := h.leased (by omega)
    have hle' : (p.sys.manager.state.expire now).leases.get c = some l :=
      State.expire_leases.2 ⟨hl, by omega⟩
    cases System.exec_effect hexec with
    | expired | offered => exact .inl ⟨hinv, hren', fun _ => ⟨l, hle', hip, hexp⟩⟩
    | @committed c' _ _ _ l' _ _ _ hl' =>
      rcases eq_or_ne c' c with rfl | hc
      · rcases eq_or_ne l'.ip ip with hip' | hip'
        · refine .inl ⟨hinv, hren', fun _ => ⟨l', FinMap.get_set_self .., hip', ?_⟩⟩
          rw [hl']
          exact hren'
        · exact .inr (.moved hip')
      · refine .inl ⟨hinv, hren', fun _ => ⟨l, ?_, hip, hexp⟩⟩
        exact (FinMap.get_set_ne _ _ hc.symm).trans hle'
    | @released c' a =>
      rcases em (c = c' ∧ l.ip = a.unmap) with ⟨rfl, ha⟩ | hne
      · exact .inr (.released (ha.symm.trans hip))
      · exact .inl ⟨hinv, hren', fun _ => ⟨l, State.remove_leases.2 ⟨hle', hne⟩, hip, hexp⟩⟩
    | @declined c' a =>
      rcases em (c = c' ∧ l.ip = a.unmap) with ⟨rfl, ha⟩ | hne
      · exact .inr (.declined (ha.symm.trans hip))
      · exact .inl ⟨hinv, hren', fun _ => ⟨l, State.remove_leases.2 ⟨hle', hne⟩, hip, hexp⟩⟩

/-- The address is quarantined until `u`. -/
structure Process.Quarantines (config : Config) (ip : Addr) (u : Int) (p : Process) : Prop where
  inv : p.Inv config
  declined : p.clock < u → p.sys.manager.state.declined.get ip = some u

/-- A quarantine lasts until its end: nobody holds the address, so nobody can decline it again. -/
theorem Process.Quarantines.step {u : Int} (h : p.Quarantines config ip u)
    (hs : Step config p label p') : p'.Quarantines config ip u := by
  have hinv := h.inv.step hs
  refine ⟨hinv, fun hlt => ?_⟩
  cases hs with
  | @restart now m hle hf hm =>
    have hlt : now < u := hlt
    simp only [h.inv.restart_state hle hf hm, State.durable, State.expire_declined]
    exact ⟨h.declined (by omega), hlt⟩
  | @call now written op reply sys hle hexec =>
    have hlt : now < u := hlt
    have hd : (p.sys.manager.state.expire now).declined.get ip = some u :=
      State.expire_declined.2 ⟨h.declined (by omega), hlt⟩
    cases System.exec_effect hexec with
    | expired | offered | committed | released => exact hd
    | @declined c' a hh =>
      refine (FinMap.get_set_ne _ _ ?_).trans hd
      rintro rfl
      exact (h.inv.wf.expire now).quarantine hd hh

/-- A successful commit leases a pool address that is free for the client. -/
theorem Step.committed_inv {a : Addr} {hostname fallback : GoString}
    {l : Lease} (hs : Step config p (.call now written (.commit c a hostname fallback)
      (.lease (.ok l))) p') :
    p.clock ≤ now ∧ l.expiresAt = now + p.sys.manager.cfg.leaseDuration ∧
      p.sys.manager.cfg.inPool l.ip = true ∧
      (p.sys.manager.state.expire now).occupied c l.ip = false ∧
      p'.clock = now ∧ p'.sys.manager.cfg = p.sys.manager.cfg ∧
      p'.sys.manager.state.leases.get c = some l := by
  cases hs with
  | call hle hexec =>
    cases System.exec_effect hexec with
    | expired h => cases h
    | committed hc hpool hfree hl =>
      refine ⟨hle, ?_, ?_, ?_, rfl, rfl, FinMap.get_set_self ..⟩
      · rw [hl]; rfl
      · rw [hl]; exact hpool
      · rw [hl]; exact hfree

/-- A successful decline quarantines the address. -/
theorem Step.declined_inv {a : Addr}
    (hs : Step config p (.call now written (.decline c a) (.done (.ok ()))) p') :
    p'.clock = now ∧ p'.sys.manager.state.declined.get a.unmap =
      some (now + p.sys.manager.cfg.declineDuration) := by
  cases hs with
  | call hle hexec =>
    cases System.exec_effect hexec with
    | expired h => cases h
    | declined hh => exact ⟨rfl, FinMap.get_set_self ..⟩

end

/-- The label is a successful commit of the lease to the client. -/
def Label.Commits (label : Label) (now : Int) (c : GoString) (l : Lease) : Prop :=
  ∃ written a hostname fallback,
    label = .call now written (.commit c a hostname fallback) (.lease (.ok l))

/-- The label is a successful decline of the address. -/
def Label.Declines (label : Label) (now : Int) (ip : Addr) : Prop :=
  ∃ written c a, a.unmap = ip ∧ label = .call now written (.decline c a) (.done (.ok ()))

section
variable {config : Config} {p : Process} {tr before between after : Trace Process Label}
  {x y : Transition Process Label} {n₁ n₂ : Int}

/-- A lease is kept from its commit on. -/
theorem Step.keeps {p p' : Process} {label : Label} {c : GoString} {l : Lease}
    (hs : Step config p label p') (h : p.Inv config) (hx : label.Commits now c l) :
    p'.Keeps config c l.ip l.expiresAt := by
  have hinv := h.step hs
  obtain ⟨w, a, hostname, fallback, rfl⟩ := hx
  obtain ⟨-, hexp, -, -, hclock, hcfg, hl⟩ := hs.committed_inv
  refine ⟨hinv, ?_, fun _ => ⟨l, hl, rfl, le_refl _⟩⟩
  rw [hcfg, hclock, hexp]

/-- Between two commits of one address to different clients, the second before the first lease
ends, the first client gave the address up. -/
theorem Process.Inv.handover {p₀ : Process} (h₀ : p₀.Inv config)
    (hrun : Run (Step config) p₀ (before ++ x :: between ++ y :: after) p) {c₁ c₂ : GoString}
    {l₁ l₂ : Lease} (hx : x.label.Commits n₁ c₁ l₁) (hy : y.label.Commits n₂ c₂ l₂)
    (hip : l₁.ip = l₂.ip) (hne : c₁ ≠ c₂) (hlt : n₂ < l₁.expiresAt) :
    ∃ t ∈ between, GivesUp c₁ l₁.ip t.label := by
  obtain ⟨w₂, a₂, h₂, f₂, hy⟩ := hy
  obtain ⟨hpre, hstep₁, hmid, hstep₂, -⟩ := hrun.two_inv
  have hkeeps := hstep₁.keeps (h₀.run hpre) hx
  rw [hy] at hstep₂
  obtain ⟨hle₂, -, -, hfree₂, -⟩ := hstep₂.committed_inv
  rcases hmid.holds_or_stopped hkeeps fun t _ hs ht => ht.step hs with hk | hstop
  · -- the first client still holds the address, so it was not free for the second
    obtain ⟨l, hl, hlip, hle⟩ := hk.leased (by omega)
    have hholds : (y.pre.sys.manager.state.expire n₂).Holds c₁ l₂.ip :=
      .inl ⟨l, State.expire_leases.2 ⟨hl, by omega⟩, hlip.trans hip⟩
    exact absurd ((State.occupied_eq_false.1 hfree₂).1 c₁ hholds) hne
  · exact hstop

/-- A declined address is not committed before its quarantine ends. -/
theorem Process.Inv.quarantined {p₀ : Process} (h₀ : p₀.Inv config)
    (hrun : Run (Step config) p₀ (before ++ x :: between ++ y :: after) p) {c : GoString}
    {ip : Addr} {l : Lease} (hx : x.label.Declines n₁ ip) (hy : y.label.Commits n₂ c l)
    (hip : l.ip = ip) : n₁ + p₀.sys.manager.cfg.declineDuration ≤ n₂ := by
  obtain ⟨w₁, c₁, a₁, rfl, hx⟩ := hx
  obtain ⟨w₂, a₂, h₂, f₂, hy⟩ := hy
  obtain ⟨hpre, hstep₁, hmid, hstep₂, -⟩ := hrun.two_inv
  have hinv : x.post.Inv config := (h₀.run hpre).step hstep₁
  have hcfg := h₀.cfg_eq (h₀.run hpre)
  rw [hx] at hstep₁
  rw [hy] at hstep₂
  obtain ⟨-, hd⟩ := hstep₁.declined_inv
  obtain ⟨hle₂, -, -, hfree₂, -⟩ := hstep₂.committed_inv
  have hq : y.pre.Quarantines config a₁.unmap (n₁ + p₀.sys.manager.cfg.declineDuration) :=
    hmid.invariant ⟨hinv, fun _ => hcfg ▸ hd⟩ fun _ _ _ hq hs => hq.step hs
  by_contra hlt
  have hd' := State.expire_declined.2 ⟨hq.declined (by omega), not_le.1 hlt⟩
  rw [← hip, (State.occupied_eq_false.1 hfree₂).2] at hd'
  cases hd'

end

/-- An address has one owner at a time, in every run: if it is committed to a client and, before
that lease expires, to another one, the first client has given it up in between. Every committed
address lies in the pool and is not quarantined, by any decline earlier in the run either. -/
theorem exclusive_ownership {start : Int}
    {p : Process} (hstart : 0 < start)
    (hm : newManager config start disk = .ok m)
    (hrun : Run (Step config) ⟨⟨m, disk⟩, start⟩ tr p) :
    (∀ before x between y after n₁ c₁ l₁ n₂ c₂ l₂,
      tr = before ++ x :: between ++ y :: after →
      x.label.Commits n₁ c₁ l₁ → y.label.Commits n₂ c₂ l₂ →
      l₁.ip = l₂.ip → c₁ ≠ c₂ → n₂ < l₁.expiresAt →
      ∃ t ∈ between, GivesUp c₁ l₁.ip t.label) ∧
    (∀ t ∈ tr, ∀ now c l, t.label.Commits now c l →
      config.poolStart.unmap ≤ l.ip ∧ l.ip ≤ config.poolEnd.unmap ∧
      ∀ u, t.pre.sys.manager.state.declined.get l.ip = some u → u ≤ now) ∧
    (∀ before x between y after n₁ n₂ ip c l,
      tr = before ++ x :: between ++ y :: after →
      x.label.Declines n₁ ip → y.label.Commits n₂ c l → l.ip = ip →
      n₁ + m.cfg.declineDuration ≤ n₂) ∧
    (∀ c l, p.sys.manager.state.leases.get c = some l →
      config.poolStart.unmap ≤ l.ip ∧ l.ip ≤ config.poolEnd.unmap ∧
      p.sys.manager.state.declined.get l.ip = none) := by
  have h₀ : Process.Inv config ⟨⟨m, disk⟩, start⟩ := .start hstart hm
  -- the pool bounds of the configuration are those of the manager
  have hpool : ∀ {q : Process} {ip}, q.Inv config → q.sys.manager.cfg.inPool ip = true →
      config.poolStart.unmap ≤ ip ∧ ip ≤ config.poolEnd.unmap := fun {q ip} hq hin => by
    obtain ⟨hs, he, -⟩ := configure_ok hq.configured
    simp only [Settings.inPool, Bool.and_eq_true, decide_eq_true_eq] at hin
    exact ⟨hs ▸ hin.1.2, he ▸ hin.2⟩
  refine ⟨?_, ?_, ?_, ?_⟩
  · rintro before x between y after n₁ c₁ l₁ n₂ c₂ l₂ rfl hx hy hip hne hlt
    exact h₀.handover hrun hx hy hip hne hlt
  · rintro t ht now c l ⟨w, a, h, f, hlabel⟩
    obtain ⟨before, after, rfl, hpre, hstep, -⟩ := hrun.mem_inv ht
    rw [hlabel] at hstep
    obtain ⟨hle, -, hin, hfree, -⟩ := hstep.committed_inv
    obtain ⟨hlo, hhi⟩ := hpool (h₀.run hpre) hin
    refine ⟨hlo, hhi, fun u hu => not_lt.1 fun hlt => ?_⟩
    have hd := State.expire_declined.2 ⟨hu, hlt⟩
    rw [(State.occupied_eq_false.1 hfree).2] at hd
    cases hd
  · rintro before x between y after n₁ n₂ ip c l rfl hx hy hip
    exact h₀.quarantined hrun hx hy hip
  · intro c l hl
    have hp := h₀.run hrun
    obtain ⟨hlo, hhi⟩ := hpool hp (hp.wf.lease hl).pool
    refine ⟨hlo, hhi, Option.eq_none_iff_forall_ne_some.2 fun u hu => ?_⟩
    exact hp.wf.quarantine hu (.inl ⟨l, hl, rfl⟩)

/-- The process after a call. -/
def Process.after (p : Process) (now : Int) (written : Bool) (op : Op) : Process :=
  ⟨(p.sys.exec now written op).2, now⟩

theorem Step.after (config : Config) {p : Process} (now : Int) (written : Bool) (op : Op)
    (h : p.clock ≤ now) : Step config p (.call now written op (p.sys.exec now written op).1)
      (p.after now written op) := .call h rfl

/-- A small network with a lease file. -/
def sampleConfig : Config where
  poolStart := .v4 0x0a00000a
  poolEnd := .v4 0x0a000014
  domain := str "lan"
  leaseDuration := hour
  offerDuration := 0
  declineDuration := 0
  reservedNames := []
  file := str "leases.json"

/-- What `newManager` makes of it. -/
def sampleSettings : Settings where
  poolStart := .v4 0x0a00000a
  poolEnd := .v4 0x0a000014
  domain := str "lan"
  leaseDuration := hour
  offerDuration := minute
  declineDuration := 10 * minute
  reservedNames := [str "ns.lan.", str "gateway.lan."]
  file := str "leases.json"
  pool_is4 := ⟨rfl, rfl⟩
  pool_ordered := by decide
  domain_valid := by decide
  leaseDuration_pos := by decide
  offerDuration_pos := by decide
  declineDuration_pos := by decide
  reserved_ns := by decide
  reserved_gateway := by decide
  reserved_hostnames := by decide

theorem newManager_sample (now : Int) :
    newManager sampleConfig now .absent = .ok ⟨sampleSettings, newState⟩ := rfl

/-- The process it starts. -/
def sampleStart : Process := ⟨⟨⟨sampleSettings, newState⟩, .absent⟩, 1⟩

/-- A lease handed from one client to another within its lifetime, through a release. -/
theorem exclusive_ownership_handover :
    let ip := Addr.v4 0x0a00000a
    let p₁ := sampleStart.after 2 true (.commit (str "a") ip (str "x") [])
    let p₂ := p₁.after 3 true (.release (str "a") ip)
    ∃ t ∈ [(⟨p₁, .call 3 true (.release (str "a") ip) (.done (.ok ())), p₂⟩ :
      Transition Process Label)], GivesUp (str "a") ip t.label := by
  intro ip p₁ p₂
  have hrun : Run (Step sampleConfig) sampleStart _ _ :=
    .cons (.after _ 2 true (.commit (str "a") ip (str "x") []) (by decide)) <|
    .cons (.after _ 3 true (.release (str "a") ip) (by decide)) <|
    .cons (.after _ 4 true (.commit (str "b") ip [] []) (by decide)) (.nil _)
  exact (exclusive_ownership (by decide) (newManager_sample 1) hrun).1 [] _ [_] _ [] 2 (str "a") _ 4
    (str "b") _ rfl ⟨true, ip, str "x", [], rfl⟩ ⟨true, ip, [], [], rfl⟩ rfl (by decide) (by decide)

/-! ## Durability -/

/-- With a lease file, at every point of every run a restart at that time or later succeeds and
finds exactly the leases and quarantines in memory that have not expired; and a call that returns
an error leaves the file as it was and the tables too, except that expired entries are gone. -/
theorem lease_durability {start : Int}
    {p : Process} (hstart : 0 < start)
    (hfile : config.file ≠ []) (hm : newManager config start disk = .ok m)
    (hrun : Run (Step config) ⟨⟨m, disk⟩, start⟩ tr p) :
    (p.sys.manager.cfg = m.cfg ∧ ∀ now, p.clock ≤ now →
      m.cfg.restore now p.sys.disk = .ok (p.sys.manager.state.expire now).durable) ∧
    (∀ t ∈ tr, ∀ now written op e,
      t.label = .call now written op (.lease (.error e)) ∨
      t.label = .call now written op (.done (.error e)) →
      t.post.sys = t.pre.sys.expire now) := by
  have h₀ : Process.Inv config ⟨⟨m, disk⟩, start⟩ := .start hstart hm
  have hp := h₀.run hrun
  have hcfg : p.sys.manager.cfg = m.cfg := h₀.cfg_eq hp
  refine ⟨⟨hcfg, fun now hle => ?_⟩, fun t ht now written op e hlabel => ?_⟩
  · have hf : p.sys.manager.cfg.file ≠ [] := by rwa [(configure_ok hp.configured).2.2.2.1]
    rw [← hcfg]
    exact hp.durable hf now hle
  · obtain ⟨before, after, rfl, -, hstep, -⟩ := hrun.mem_inv ht
    obtain ⟨pre, label, post⟩ := t
    rcases hlabel with rfl | rfl
    all_goals
      cases hstep with
      | call hle hexec => exact (System.exec_effect hexec).failed rfl

/-- A commit that is saved, followed by a release that is not: the file still holds the lease. -/
theorem lease_durability_failed_write :
    let ip := Addr.v4 0x0a00000a
    let p₁ := sampleStart.after 2 true (.commit (str "a") ip (str "x") [])
    let p₂ := p₁.after 3 false (.release (str "a") ip)
    p₂.sys.manager.state.leases.size = 1 ∧
      sampleSettings.restore 3 p₂.sys.disk = .ok (p₂.sys.manager.state.expire 3).durable ∧
      p₂.sys = p₁.sys.expire 3 := by
  intro ip p₁ p₂
  have hrun : Run (Step sampleConfig) sampleStart _ _ :=
    .cons (.after _ 2 true (.commit (str "a") ip (str "x") []) (by decide)) <|
    .cons (.after _ 3 false (.release (str "a") ip) (by decide)) (.nil _)
  have h := lease_durability (by decide) (by decide) (newManager_sample 1) hrun
  exact ⟨rfl, h.1.2 3 (by decide), h.2 _ (.tail _ (.head _)) 3 false (.release (str "a") ip)
    .persist (.inr rfl)⟩

end InfraBox.Leasing
