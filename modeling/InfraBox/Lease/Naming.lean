import InfraBox.Lease.Isolation

/-!
# Names across an exchange

A client may name itself in its `DISCOVER`, in a retransmission of it or in its `REQUEST`, and may
leave the name out in any of them. The manager keeps what it was told in the offer, so the name of a
lease depends on the whole chain of offers that led to it: `chainOf` reads that chain off a run,
`chainName` says which name it stands for, and `hostname_selection` says what a commit makes of it.

An empty hostname in the manager's tables means both that no name was given and that a name was
given and refused. `ChainInv` is what tells the two apart: the name in a client's offer is always
the one of its chain.
-/

namespace InfraBox.Leasing

/-! ## The chain of offers -/

/-- The name the client's lease has; empty without a lease. -/
def State.leaseName (s : State) (c : GoString) : GoString :=
  ((s.leases.get c).map Lease.hostname).getD []

/-- A successful offer: the names it was called with, and the name of the client's live lease at
that time. -/
structure OfferCall where
  hostname : GoString
  fallback : GoString
  leaseName : GoString

/-- A successful offer to the client continues its chain if the client has a live offer, and starts
a new one if not. -/
def extendChain (c : GoString) (chain : List OfferCall) (t : Transition Process Label) :
    List OfferCall :=
  match t.label with
  | .call now _ (.offer c' _ hostname fallback) (.lease (.ok _)) =>
    if c' = c then
      let live := t.pre.sys.manager.state.expire now
      let call := ⟨hostname, fallback, live.leaseName c⟩
      if (live.offers.get c).isSome then call :: chain else [call]
    else chain
  | _ => chain

/-- The client's last chain of offers in a run, the most recent one first. -/
def chainOf (c : GoString) (tr : Trace Process Label) : List OfferCall :=
  tr.foldl (extendChain c) []

/-- The last name given in the chain. -/
def lastGiven (chain : List OfferCall) : Option GoString :=
  (chain.find? fun call => call.hostname ≠ []).map OfferCall.hostname

/-- The lease's name if it has one, else the fallback. -/
def nameOrFallback (domain leaseName fallback : GoString) : GoString :=
  if leaseName ≠ [] then leaseName else normalizeHostname fallback domain

/-- The name a chain stands for: the last one given, else the one its first offer found. -/
def chainName (domain : GoString) (chain : List OfferCall) : GoString :=
  match lastGiven chain, chain.getLast? with
  | some name, _ => normalizeHostname name domain
  | none, some first => nameOrFallback domain first.leaseName first.fallback
  | none, none => []

section
variable {domain hostname fallback leaseName : GoString} {chain : List OfferCall}

theorem lastGiven_cons_omitted :
    lastGiven (⟨[], fallback, leaseName⟩ :: chain) = lastGiven chain := by
  simp [lastGiven]

theorem chainName_given {name : GoString} (h : lastGiven chain = some name) :
    chainName domain chain = normalizeHostname name domain := by
  simp only [chainName, h]

/-- An offer that omits the name leaves that of the chain before it. -/
theorem chainName_cons_omitted (hne : chain ≠ []) :
    chainName domain (⟨[], fallback, leaseName⟩ :: chain) = chainName domain chain := by
  simp only [chainName, lastGiven_cons_omitted, List.getLast?_cons_of_ne_nil hne]

end

/-! ## Offers carry the name of their chain -/

/-- The name of an offer, by what the client has. -/
theorem Manager.offerName_omitted (m : Manager) (c fallback : GoString) :
    m.offerName c [] fallback = match m.state.offers.get c with
      | some previous => previous.hostname
      | none => nameOrFallback m.cfg.domain (m.state.leaseName c) fallback := by
  simp only [Manager.offerName, if_true]
  cases m.state.offers.get c with
  | some o => rfl
  | none =>
    cases hl : m.state.leases.get c with
    | some l | none => simp [nameOrFallback, State.leaseName, hl]

/-- The offer that is made now carries the name of the chain it extends, if the one before did. -/
theorem Manager.offerName_chain {m : Manager} {c : GoString} {chain : List OfferCall}
    (h : ∀ o, m.state.offers.get c = some o →
      chain ≠ [] ∧ o.hostname = chainName m.cfg.domain chain) (hostname fallback : GoString) :
    m.offerName c hostname fallback = chainName m.cfg.domain
      (if (m.state.offers.get c).isSome then ⟨hostname, fallback, m.state.leaseName c⟩ :: chain
        else [⟨hostname, fallback, m.state.leaseName c⟩]) := by
  rcases eq_or_ne hostname [] with rfl | hgiven
  · rw [Manager.offerName_omitted]
    cases hprev : m.state.offers.get c with
    | none => rfl
    | some previous =>
      obtain ⟨hne, heq⟩ := h previous hprev
      exact heq.trans (chainName_cons_omitted hne).symm
  · have hlast : ∀ rest, lastGiven (⟨hostname, fallback, m.state.leaseName c⟩ :: rest) =
        some hostname := fun _ => by simp [lastGiven, hgiven]
    rw [Manager.offerName, if_neg hgiven]
    split
    · rw [chainName_given (hlast chain)]
    · rw [chainName_given (hlast [])]

section
variable {config : Config} {p p' : Process} {c : GoString} {label : Label}
  {tr : Trace Process Label}

/-- A step is a successful offer to the client, or leaves it no offer it did not have and its chain
as it was. -/
theorem Step.offers_cases (h : p.Inv config) (hs : Step config p label p') (c : GoString) :
    (∃ now written requested hostname fallback o,
      label = .call now written (.offer c requested hostname fallback) (.lease (.ok o)) ∧
      o.hostname = (p.sys.manager.expire now).offerName c hostname fallback ∧
      p'.sys.manager.state.offers.get c = some o) ∨
    ((∀ o, p'.sys.manager.state.offers.get c = some o → p.sys.manager.state.offers.get c = some o) ∧
      ∀ chain, extendChain c chain ⟨p, label, p'⟩ = chain) := by
  cases hs with
  | restart hle hf hm =>
    refine .inr ⟨fun o ho => ?_, fun _ => rfl⟩
    simp only [h.restart_state hle hf hm, State.durable] at ho
    cases ho
  | @call now written op reply sys hle hexec =>
    have hlive : ∀ {o}, (p.sys.manager.state.expire now).offers.get c = some o →
        p.sys.manager.state.offers.get c = some o := fun ho => (State.expire_offers.1 ho).1
    cases System.exec_effect hexec with
    | expired hr =>
      refine .inr ⟨fun o ho => hlive ho, fun chain => ?_⟩
      unfold extendChain
      split
      · next heq => cases heq; cases hr
      · rfl
    | @offered c' hostname fallback requested o _ _ hname =>
      rcases eq_or_ne c' c with rfl | hne
      · exact .inl ⟨now, written, requested, hostname, fallback, o, rfl, hname,
          FinMap.get_set_self ..⟩
      · refine .inr ⟨fun o' ho => hlive ?_, fun _ => if_neg hne⟩
        rwa [FinMap.get_set_ne _ _ hne.symm] at ho
    | @committed c' =>
      refine .inr ⟨fun o ho => hlive ?_, fun _ => rfl⟩
      exact (FinMap.get_erase_eq_some.1 ho).2
    | released | declined =>
      exact .inr ⟨fun o ho => hlive (State.remove_offers.1 ho).1, fun _ => rfl⟩

/-- The name in the client's offer is the name of its chain. -/
structure ChainInv (config : Config) (c : GoString) (tr : Trace Process Label)
    (p : Process) : Prop where
  inv : p.Inv config
  named : ∀ o, p.sys.manager.state.offers.get c = some o →
    chainOf c tr ≠ [] ∧ o.hostname = chainName p.sys.manager.cfg.domain (chainOf c tr)

/-- A step keeps the name of the offer that of the chain. -/
theorem ChainInv.step (h : ChainInv config c tr p) (hs : Step config p label p') :
    ChainInv config c (tr ++ [⟨p, label, p'⟩]) p' := by
  have hinv := h.inv.step hs
  refine ⟨hinv, fun o ho => ?_⟩
  rw [chainOf, List.foldl_append, ← chainOf, List.foldl_cons, List.foldl_nil, h.inv.cfg_eq hinv]
  rcases hs.offers_cases h.inv c with
    ⟨now, written, requested, hostname, fallback, o', rfl, hname, ho'⟩ | ⟨hsub, hchain⟩
  · obtain rfl : o' = o := Option.some.inj (ho'.symm.trans ho)
    have hnamed : ∀ o, (p.sys.manager.expire now).state.offers.get c = some o →
        chainOf c tr ≠ [] ∧ o.hostname = chainName p.sys.manager.cfg.domain (chainOf c tr) :=
      fun o ho => h.named o (State.expire_offers.1 ho).1
    simp only [extendChain, if_true]
    refine ⟨?_, hname.trans (Manager.offerName_chain hnamed hostname fallback)⟩
    split
    · exact List.cons_ne_nil _ _
    · exact List.cons_ne_nil _ _
  · rw [hchain]
    exact h.named o (hsub o ho)

/-- In every run from a start the name of an offer is that of its chain. -/
theorem ChainInv.run {start : Int} {disk : LeaseFile} {m : Manager} (hstart : 0 < start)
    (hm : newManager config start disk = .ok m)
    (hrun : Run (Step config) ⟨⟨m, disk⟩, start⟩ tr p) (c : GoString) : ChainInv config c tr p := by
  have h₀ : Process.Inv config ⟨⟨m, disk⟩, start⟩ := .start hstart hm
  refine hrun.induction (P := fun tr p => ChainInv config c tr p) ⟨h₀, fun o ho => ?_⟩
    fun tr _ _ _ _ ih hs => ih.step hs
  -- a restored state has no offers
  have hr := (newManager_ok hm).2
  have hstate : m.state = (m.state.expire start).durable :=
    Except.ok.inj (hr.symm.trans (Settings.restore_later hr (le_refl start)))
  simp only at ho
  rw [hstate] at ho
  cases ho

end

/-! ## The name of a commit -/

/-- The name a commit asks for, by what the client has when it is called. -/
def commitCandidate (domain : GoString) (live : State) (chain : List OfferCall) (c : GoString)
    (ip : Addr) (hostname fallback : GoString) : GoString :=
  if hostname ≠ [] then normalizeHostname hostname domain
  else if (live.offers.get c).any (fun offer => offer.ip = ip) then chainName domain chain
  else nameOrFallback domain (live.leaseName c) fallback

/-- The name is not to be had: it is empty, or reserved, or the name of another client's lease. -/
def Manager.Withheld (m : Manager) (c name : GoString) : Prop :=
  name = [] ∨ name ∈ m.cfg.reservedNames ∨
    ∃ c' l, c' ≠ c ∧ m.state.leases.get c' = some l ∧ l.hostname = name

/-- A name that is withheld is not granted. -/
theorem Manager.grantedName_of_withheld {m : Manager} {c name : GoString}
    (h : m.Withheld c name) : m.grantedName c name = [] := by
  unfold Manager.grantedName
  split_ifs with hres htaken
  · rfl
  · rfl
  · rcases h with hnil | hres' | ⟨c', l, hne, hl, rfl⟩
    · exact hnil
    · exact absurd hres' hres
    · by_contra hname
      refine htaken ?_
      simp only [Bool.and_eq_true, decide_eq_true_eq, FinMap.any_eq_true]
      exact ⟨hname, c', l, hl, hne, rfl⟩

/-- Any other name is granted. -/
theorem Manager.grantedName_of_not_withheld {m : Manager} {c name : GoString}
    (h : ¬ m.Withheld c name) : m.grantedName c name = name ∧ name ≠ [] := by
  simp only [Manager.Withheld, not_or, not_exists, not_and] at h
  obtain ⟨hnil, hres, htaken⟩ := h
  refine ⟨?_, hnil⟩
  unfold Manager.grantedName
  rw [if_neg hres, if_neg]
  simp only [Bool.and_eq_true, decide_eq_true_eq, FinMap.any_eq_true, not_and, not_exists]
  exact fun _ c' l hl hne => htaken c' l hne hl

section
variable {config : Config} {c : GoString} {tr : Trace Process Label} {p p' : Process}

/-- A commit without a name of an address that has been offered asks for the offer's name. -/
theorem Manager.requestedName_offered {m : Manager} {ip : Addr} {o : Lease}
    (ho : m.state.offers.get c = some o) (hip : o.ip = ip) (fallback : GoString) :
    m.requestedName c ip [] fallback = o.hostname := by
  unfold Manager.requestedName
  simp only [if_true, ho, Option.filter_some, hip, decide_true]

/-- Without a live offer for the address it asks for the lease's name or the fallback. -/
theorem Manager.requestedName_unoffered {m : Manager} {ip : Addr}
    (ho : (m.state.offers.get c).filter (fun offered => offered.ip = ip) = none)
    (fallback : GoString) :
    m.requestedName c ip [] fallback =
      nameOrFallback m.cfg.domain (m.state.leaseName c) fallback := by
  unfold Manager.requestedName
  simp only [if_true, ho]
  cases hl : m.state.leases.get c with
  | some l | none => simp [nameOrFallback, State.leaseName, hl]

/-- The name a commit asks for is its candidate. -/
theorem ChainInv.requestedName (h : ChainInv config c tr p) (now : Int) (ip : Addr)
    (hostname fallback : GoString) :
    (p.sys.manager.expire now).requestedName c ip hostname fallback =
      commitCandidate p.sys.manager.cfg.domain (p.sys.manager.state.expire now) (chainOf c tr) c ip
        hostname fallback := by
  unfold commitCandidate
  rcases eq_or_ne hostname [] with rfl | hgiven
  swap
  · rw [Manager.requestedName, if_neg hgiven, if_pos hgiven]
    rfl
  rw [if_neg (not_not.2 rfl)]
  have hstate : (p.sys.manager.expire now).state = p.sys.manager.state.expire now := rfl
  cases ho : (p.sys.manager.state.expire now).offers.get c with
  | none =>
    rw [Manager.requestedName_unoffered (by rw [hstate, ho]; rfl)]
    rfl
  | some o =>
    rw [Option.any_some]
    rcases eq_or_ne o.ip ip with hip | hip
    · rw [if_pos (decide_eq_true hip), Manager.requestedName_offered (hstate ▸ ho) hip]
      exact (h.named o (State.expire_offers.1 ho).1).2
    · rw [if_neg (by simpa using hip), Manager.requestedName_unoffered (by
        rw [hstate, ho, Option.filter_some, if_neg (by simpa using hip)])]
      rfl

/-- The name of a successful commit. -/
theorem Step.committed_name {now : Int} {written : Bool} {a : Addr} {hostname fallback : GoString}
    {l : Lease} (hs : Step config p (.call now written (.commit c a hostname fallback)
      (.lease (.ok l))) p') :
    l.hostname = (p.sys.manager.expire now).grantedName c
      ((p.sys.manager.expire now).requestedName c a.unmap hostname fallback) := by
  cases hs with
  | call hle hexec =>
    cases System.exec_effect hexec with
    | expired h => cases h
    | committed hc hpool hfree hl => rw [hl, Manager.commitment]

end

/-- In every run, the name a successful commit asks for is the one it is called with; else that of
the chain of offers that led to the client's live offer for the address; else that of its lease or
the fallback. It is granted unless it is empty, reserved or the name of another live lease. So a
name that was given and normalizes to none is not replaced. -/
theorem hostname_selection {config : Config} {disk : LeaseFile} {start : Int} {m : Manager}
    {p : Process} {after : Trace Process Label} {t : Transition Process Label}
    (before : Trace Process Label) (hstart : 0 < start)
    (hm : newManager config start disk = .ok m)
    (hrun : Run (Step config) ⟨⟨m, disk⟩, start⟩ (before ++ t :: after) p)
    {now : Int} {written : Bool} {c hostname fallback : GoString} {ip : Addr} {l : Lease}
    (ht : t.label = .call now written (.commit c ip hostname fallback) (.lease (.ok l))) :
    let mgr := t.pre.sys.manager.expire now
    let chain := chainOf c before
    let name := commitCandidate mgr.cfg.domain mgr.state chain c ip.unmap hostname fallback
    (mgr.Withheld c name → l.hostname = []) ∧
    (¬ mgr.Withheld c name → l.hostname = name ∧ name ≠ []) ∧
    (∀ given, (hostname ≠ [] ∧ given = hostname ∨
        hostname = [] ∧ lastGiven chain = some given ∧
          ∃ o, mgr.state.offers.get c = some o ∧ o.ip = ip.unmap) →
      normalizeHostname given mgr.cfg.domain = [] → l.hostname = []) := by
  intro mgr chain name
  obtain ⟨hpre, hstep, -⟩ := hrun.mid_inv
  have hinv := ChainInv.run hstart hm hpre c
  rw [ht] at hstep
  have hl : l.hostname = mgr.grantedName c name := by
    rw [hstep.committed_name, hinv.requestedName]
    rfl
  have hwithheld : mgr.Withheld c name → l.hostname = [] := fun h =>
    hl.trans (Manager.grantedName_of_withheld h)
  refine ⟨hwithheld, fun h => ?_, fun given hgiven hnil => hwithheld (.inl ?_)⟩
  · obtain ⟨heq, hne⟩ := Manager.grantedName_of_not_withheld h
    exact ⟨hl.trans heq, hne⟩
  · show commitCandidate _ _ _ _ _ _ _ = []
    unfold commitCandidate
    rcases hgiven with ⟨hne, rfl⟩ | ⟨rfl, hlast, o, ho, hip⟩
    · rw [if_pos hne, hnil]
    · rw [if_neg (not_not.2 rfl), ho, Option.any_some, if_pos (decide_eq_true hip),
        chainName_given hlast, hnil]

/-- A client that has the lease of `x` gives an invalid name in its first `DISCOVER` and none in the
next one and in its `REQUEST`: the lease loses its name. -/
theorem hostname_selection_cleared :
    let ip := Addr.v4 0x0a00000a
    let p₁ := sampleStart.after 2 true (.commit (str "a") ip (str "x") [])
    let p₂ := p₁.after 3 true (.offer (str "a") ip (str "bad_name") (str "host-a"))
    let p₃ := p₂.after 4 true (.offer (str "a") ip [] (str "host-a"))
    p₁.sys.manager.state.leaseName (str "a") = str "x.lan." ∧
      ∃ l, (p₃.sys.exec 5 true (.commit (str "a") ip [] (str "host-a"))).1 = .lease (.ok l) ∧
        l.hostname = [] := by
  intro ip p₁ p₂ p₃
  have hrun : Run (Step sampleConfig) sampleStart _ _ :=
    .cons (.after _ 2 true (.commit (str "a") ip (str "x") []) (by decide)) <|
    .cons (.after _ 3 true (.offer (str "a") ip (str "bad_name") (str "host-a")) (by decide)) <|
    .cons (.after _ 4 true (.offer (str "a") ip [] (str "host-a")) (by decide)) <|
    .cons (.after _ 5 true (.commit (str "a") ip [] (str "host-a")) (by decide)) (.nil _)
  obtain ⟨l, hl⟩ : ∃ l, (p₃.sys.exec 5 true (.commit (str "a") ip [] (str "host-a"))).1 =
      .lease (.ok l) := System.exec_commit_ok (by decide +kernel)
  have hoffer : p₃.sys.manager.state.offers.get (str "a") =
      some ⟨str "a", ip, [], 4 + sampleSettings.offerDuration⟩ := by
    decide +kernel
  have hselected := (hostname_selection [_, _, _] (by decide) (newManager_sample 1) hrun
    (congrArg (Label.call 5 true _) hl)).2.2
  refine ⟨by decide +kernel, l, hl, ?_⟩
  exact hselected (str "bad_name") (.inr ⟨rfl, by decide +kernel, _, hoffer, rfl⟩)
    (by decide +kernel)

end InfraBox.Leasing
