import InfraBox.Acme.Invariant
import Mathlib.Logic.Relation

/-!
# The ACME server: how its snapshots change

`Mutation` lists the ways a handler, a prune or a recovery changes a snapshot, with what the handler
has checked by then. Every snapshot that is published comes from the one before it by a sequence of
mutations, so a property of all snapshots is proved once for each way, here for `State.Inv`.
-/

namespace InfraBox.Acme

variable {a : Authorization} {certificates : FinMap GoString Certificate}

variable {o : Order} {c : Certificate} {id : GoString}

/-- What a sequence of mutations is part of: a handler with its surroundings, the identifiers drawn
before and the activity map it leaves, the authorization whose challenge it serves, the validation
results it may record, whether it creates an account or an order, whether it is a recovery at a
start, and whether serial numbers are known to be new (`strict`). -/
structure Context (crypto : Crypto) where
  cfg : Config
  env : Env
  used : List GoString
  activity : FinMap GoString Int
  challenged : Option GoString
  proof : Ticket crypto → Target → Prop
  creates : Bool
  restart : Bool
  strict : Prop

/-- A new order with its authorizations. -/
structure NewOrder {crypto : Crypto} (c : Context crypto) (st : State) (o : Order)
    (auths : List Authorization) : Prop where
  id_mem : o.id ∈ c.env.ids
  id_new : st.orders.get o.id = none
  auth_mem : ∀ a ∈ auths, a.id ∈ c.env.ids ∧ a.token ∈ c.env.ids
  auth_new : ∀ a ∈ auths, st.authorizations.get a.id = none
  nodup : (auths.map Authorization.id).Nodup
  account : (st.accounts.get o.accountID).isSome
  status : o.status = .pending
  expires : 0 < o.expires
  some_name : o.identifiers ≠ []
  few_names : o.identifiers.length ≤ maxIdentifiers
  names : ∀ n ∈ o.identifiers, n.type = str "dns" ∧ c.cfg.allowedName n.value = true
  distinct : (o.identifiers.map Identifier.value).Nodup
  certificateID : o.certificateID = []
  authIDs : o.authIDs = auths.map Authorization.id
  auths : List.Forall₂ (fun (n : Identifier) (a : Authorization) => a.orderID = o.id ∧
    a.accountID = o.accountID ∧ a.name = n.value ∧ a.expires = o.expires ∧ a.status = .pending ∧
    a.challengeStatus = .pending) o.identifiers auths
  room : st.orders.size < maxRecords ∧
    st.authorizations.size + o.identifiers.length ≤ maxRecords
  few_orders : st.outstanding o.accountID < maxAccountOrders

/-- A new account. -/
structure NewAccount {crypto : Crypto} (c : Context crypto) (st : State) (id : GoString)
    (a : Account) : Prop where
  id_mem : id ∈ c.env.ids
  id_new : st.accounts.get id = none
  id_eq : a.id = id
  key : crypto.thumbprint a.key = some a.thumbprint
  unique : ∀ k b, st.accounts.get k = some b → b.thumbprint ≠ a.thumbprint
  status : a.status = .valid
  active : 0 < a.lastActive
  recentOrders : a.recentOrders = []
  room : st.accounts.size < maxAccounts

/-- An update of an active account, with its own key or one no account has. -/
structure UpdatedAccount (crypto : Crypto) (st : State) (id : GoString) (a a' : Account) :
    Prop where
  get : st.accounts.get id = some a
  active : a.status = .valid
  id_eq : a'.id = a.id
  lastActive : a'.lastActive = a.lastActive
  recentOrders : a'.recentOrders = a.recentOrders
  status : a'.status = .valid ∨ a'.status = .deactivated
  key : (a'.key = a.key ∧ a'.thumbprint = a.thumbprint) ∨
    (crypto.thumbprint a'.key = some a'.thumbprint ∧
      ∀ k b, st.accounts.get k = some b → b.thumbprint ≠ a'.thumbprint)

/-- A certificate signed for a ready order. -/
structure Issued {crypto : Crypto} (c : Context crypto) (st : State) (id : GoString) (o : Order)
    (csr certID chain : GoString) (leaf : Leaf) : Prop where
  get : st.orders.get id = some o
  ready : o.status = .ready
  request : csr ≠ []
  id_mem : certID ∈ c.env.ids
  id_new : st.certificates.get certID = none
  room : st.certificates.size < maxRecords
  signed : ∃ names, c.env.signCSR csr names = .ok chain
  parse : crypto.parseLeaf chain = some leaf
  serial : c.strict → ∀ k cert, st.certificates.get k = some cert →
    cert.serial ≠ formatInt leaf.serialNumber

/-- The recent creations of a source are fewer than its quota. -/
def State.UnderQuota (st : State) (now : Int) (source : GoString) (accountCreation : Bool) : Prop :=
  let q := ((st.leaseLimits.get source).getD default).quota accountCreation
  (recentTimes q.1 (now - q.2.2)).length < q.2.1

/-- The certificates a new revocation list is made for: the stored ones, one of which may be revoked
just now. -/
inductive Relisted (st : State) : FinMap GoString Certificate → Prop
  | same : Relisted st st.certificates
  | revoked {id : GoString} {cert : Certificate} {now reason : Int} :
      st.certificates.get id = some cert → cert.revokedAt = none →
      validRevocationReason reason = true →
      Relisted st (st.certificates.set id (cert.revoke now reason))

/-- The ways a snapshot changes. -/
inductive Mutation {crypto : Crypto} (c : Context crypto) : State → State → Prop
  | prune {st : State} {activity : FinMap GoString Int} {now : Int} :
      (∃ p i, now = c.env.clock.read p i) → Mutation c st (st.prune activity now)
  | addAccount {st : State} {id : GoString} {a : Account} : NewAccount c st id a →
      Mutation c st { st with accounts := st.accounts.set id a }
  | recordCreation {st : State} {p : Nat} {source : GoString} {accountCreation : Bool} :
      source ≠ [] →
      st.UnderQuota (c.env.clock.now p) source accountCreation →
      ((st.leaseLimits.get source).isSome ∨ st.leaseLimits.size < maxRecords) →
      c.creates = true →
      Mutation c st (st.recordCreation c.env.clock p source accountCreation)
  | noteOrder {st : State} {accountID : GoString} {now : Int} :
      accountID ∈ c.used → 0 < (c.activity.get accountID).getD 0 →
      ((st.accounts.get accountID).getD default).recentOrders.length < maxAccountOrders →
      c.creates = true →
      Mutation c st (st.noteOrder accountID now)
  | addOrder {st : State} {o : Order} {auths : List Authorization} : NewOrder c st o auths →
      Mutation c st (st.addOrder o auths)
  | updateAccount {st : State} {id : GoString} {a a' : Account} :
      UpdatedAccount crypto st id a a' → Mutation c st (st.updateAccount id a')
  | deactivateAuthorization {st : State} {id : GoString} {a : Authorization} :
      st.authorizations.get id = some a → Mutation c st (st.deactivateAuthorization id a)
  | begin {st : State} {id : GoString} {a : Authorization} : c.challenged = some id →
      st.authorizations.get id = some a → a.status = .pending →
      Mutation c st { st with
        authorizations := st.authorizations.set id { a with challengeStatus := .processing } }
  | retry {st : State} {id : GoString} : c.challenged = some id →
      Mutation c st (retryInterruptedChallenge id st)
  | failChallenge {st : State} {id : GoString} {a : Authorization} : c.challenged = some id →
      st.authorizations.get id = some a → a.status = .pending → st.Settled →
      Mutation c st (st.failChallenge id a)
  | proveChallenge {st : State} {t : Ticket crypto} {a : Authorization} {now : Int}
      {target : Target} : c.challenged = some t.authID → c.proof t target →
      st.authorizations.get t.authID = some a → a.status = .pending → st.Settled →
      Mutation c st (st.proveChallenge t.authID a now target)
  | rejectOrder {st : State} {id : GoString} {o : Order} {p : Problem} :
      st.orders.get id = some o → o.status = .ready → Mutation c st (st.rejectOrder id o p)
  | issue {st : State} {id : GoString} {o : Order} {csr certID chain : GoString} {leaf : Leaf} :
      Issued c st id o csr certID chain leaf →
      Mutation c st (st.issue id o csr certID chain leaf)
  | relist {st st' : State} {certificates : FinMap GoString Certificate} {now : Int} :
      Relisted st certificates → (∃ p i, now = c.env.clock.read p i) →
      { st with certificates }.refreshCRL crypto c.env.createCRL now = some st' →
      Mutation c st st'
  | reset {st : State} : c.restart = true → Mutation c st st.reset

/-- Sequences of mutations. -/
abbrev Mutations {crypto : Crypto} (c : Context crypto) : State → State → Prop :=
  Relation.ReflTransGen (Mutation c)

/-- A commit of a snapshot made by mutations, at a reading of the clock. -/
structure Commits {crypto : Crypto} (c : Context crypto) (st : State) (cm : Commit crypto) :
    Prop where
  retry : cm.retry = c.challenged
  now : ∃ p i, cm.now = c.env.clock.read p i
  answer : ∀ t, cm.answer = .validate t → c.challenged = some t.authID
  next : Mutations c st cm.next

/-! ## Preservation of links -/

section
variable {cfg : Config} {st st' : State} {id : GoString} {activity : FinMap GoString Int}
  {now : Int}

/-- Pruning keeps the authorizations of the orders it keeps. -/
theorem State.Linked.prune_authorization (h : st.Linked cfg) {authID : GoString}
    (ho : st.orders.get id = some o) (hlive : o.live now = true)
    (hmem : authID ∈ o.authIDs) (ha : st.authorizations.get authID = some a) :
    (st.prune activity now).authorizations.get authID = some a := by
  refine State.get_prune_authorizations.2 ⟨ha, fun k o' ho' hdead hmem' => ?_⟩
  cases (h.eq_of_mem ha ho hmem).symm.trans (h.eq_of_mem ha ho' hmem')
  rw [ho] at ho'
  cases ho'
  rw [hlive] at hdead
  cases hdead

/-- An authorization that pruning keeps has its order kept. -/
theorem State.Linked.prune_order (h : st.Linked cfg)
    (ha : (st.prune activity now).authorizations.get id = some a) :
    ∃ o, st.orders.get a.orderID = some o ∧ o.live now = true ∧ o.accountID = a.accountID ∧
      id ∈ o.authIDs := by
  obtain ⟨ha, hkept⟩ := State.get_prune_authorizations.1 ha
  obtain ⟨o, ho, hacc, hmem⟩ := (h.authorization id a ha).order
  refine ⟨o, ho, ?_, hacc, hmem⟩
  cases hlive : o.live now with
  | true => rfl
  | false => exact absurd hmem (hkept _ o ho hlive)

/-- What is dropped is not referred to by what is left. -/
theorem State.Linked.prune (h : st.Linked cfg) : (st.prune activity now).Linked cfg where
  order id o ho := by
    obtain ⟨ho, hlive⟩ := State.get_prune_orders.1 ho
    have hl := h.order id o ho
    refine ⟨hl.id_eq, hl.valid_id, hl.some_name, hl.few_names, hl.names, hl.distinct, ?_, ?_⟩
    · obtain ⟨a, ha⟩ := Option.isSome_iff_exists.1 hl.account
      rcases State.get_prune_accounts activity now ha with hp | ⟨-, -, hp⟩
      · rw [hp]; rfl
      · exact absurd rfl (hp id o ho hlive)
    · refine List.forall₂_iff_zip.2 ⟨hl.authorizations.length_eq, fun hz => ?_⟩
      obtain ⟨a, ha, hrest⟩ := (List.forall₂_iff_zip.1 hl.authorizations).2 hz
      exact ⟨a, h.prune_authorization ho hlive (List.of_mem_zip hz).2 ha, hrest⟩
  authorization id a ha := by
    obtain ⟨o, ho, hlive, hacc, hmem⟩ := h.prune_order ha
    have hl := h.authorization id a (State.get_prune_authorizations.1 ha).1
    exact ⟨hl.id_eq, hl.valid_id, hl.valid_token, hl.expires, hl.allowed, o,
      State.get_prune_orders.2 ⟨ho, hlive⟩, hacc, hmem⟩

/-- Statuses are not changed by pruning. -/
theorem State.Coherent.prune (hc : st.Coherent) (h : st.Linked cfg) :
    (st.prune activity now).Coherent where
  order id o ho := by
    obtain ⟨ho, hlive⟩ := State.get_prune_orders.1 ho
    have hco := hc.order id o ho
    refine hco.frame fun authID hmem => ?_
    obtain ⟨a, ha, -⟩ := h.orderID ho hmem
    rw [ha, h.prune_authorization ho hlive hmem ha]
  authorization id a ha := hc.authorization id a (State.get_prune_authorizations.1 ha).1

/-- The order that names a stored certificate is the valid one it belongs to. -/
theorem State.Certified.order_of_certificateID {crypto : Crypto} (hcert : st.Certified crypto)
    (hc : st.Coherent) {id k : GoString}
    (hget : st.certificates.get id = some c) (ho : st.orders.get k = some o)
    (heq : id = o.certificateID) : o.status = .valid ∧ c.orderID = k := by
  have hval : o.status = .valid := by
    refine Decidable.byContradiction fun hne => ?_
    have hnone := (hc.order k o ho).certificate hne
    exact validID_ne_nil (hcert.certificate id c hget).valid_id (heq.trans hnone)
  obtain ⟨-, c', hget', horder⟩ := hcert.order k o ho hval
  rw [← heq, hget] at hget'
  cases hget'
  exact ⟨hval, horder⟩

/-- A certificate goes with its order only. -/
theorem State.Certified.prune {crypto : Crypto} (hcert : st.Certified crypto) (hc : st.Coherent) :
    (st.prune activity now).Certified crypto where
  certificate id c hget := by
    obtain ⟨hget, hkept⟩ := State.get_prune_certificates.1 hget
    have hl := hcert.certificate id c hget
    obtain ⟨o, ho, hval, hid, hrest⟩ := hl.order
    refine ⟨hl.id_eq, hl.valid_id, hl.leaf, ⟨o, ?_, hval, hid, hrest⟩, hl.reason⟩
    refine State.get_prune_orders.2 ⟨ho, ?_⟩
    cases hlive : o.live now with
    | true => rfl
    | false => exact absurd hid.symm (hkept _ o ho hlive)
  order id o ho hval := by
    obtain ⟨ho, hlive⟩ := State.get_prune_orders.1 ho
    obtain ⟨hcsr, c, hget, horder⟩ := hcert.order id o ho hval
    refine ⟨hcsr, c, State.get_prune_certificates.2 ⟨hget, fun k o' ho' hdead heq => ?_⟩, horder⟩
    -- an order that names the certificate is the one it belongs to, and that one is kept
    obtain ⟨-, horder'⟩ := hcert.order_of_certificateID hc hget ho' heq
    cases horder.symm.trans horder'
    rw [ho] at ho'
    cases ho'
    rw [hlive] at hdead
    cases hdead

/-- Pruning makes nothing larger. -/
theorem State.Limited.prune (h : st.Limited) : (st.prune activity now).Limited where
  size := (FinMap.size_filterMap_le _ _).trans h.size
  limit source limit hget := by
    obtain ⟨old, hold, hpruned⟩ := Option.bind_eq_some_iff.1 hget
    obtain ⟨hne, hacc, hord⟩ := h.limit source old hold
    simp only [LeaseLimit.prune] at hpruned
    split at hpruned
    · cases hpruned
    cases hpruned
    exact ⟨hne, (List.length_filter_le _ _).trans hacc, (List.length_filter_le _ _).trans hord⟩

/-- Certificates keep their orders as long as the valid orders stay the same. -/
theorem State.Certified.frame {crypto : Crypto} (h : st.Certified crypto)
    (hcert : st'.certificates = st.certificates)
    (hvalid : ∀ k o, o.status = .valid → (st'.orders.get k = some o ↔ st.orders.get k = some o)) :
    st'.Certified crypto where
  certificate id c hget := by
    rw [hcert] at hget
    have hl := h.certificate id c hget
    obtain ⟨o, ho, hval, hrest⟩ := hl.order
    exact ⟨hl.id_eq, hl.valid_id, hl.leaf, ⟨o, (hvalid _ o hval).2 ho, hval, hrest⟩, hl.reason⟩
  order id o ho hval := by
    rw [hcert]
    exact h.order id o ((hvalid id o hval).1 ho) hval

/-- Pruning leaves no invalid order. -/
theorem State.settled_prune : (st.prune activity now).Settled := fun _ _ ho =>
  (Order.live_iff.1 (State.get_prune_orders.1 ho).2).1

end

/-! ## Preservation of the invariant -/

section
variable {cfg : Config} {crypto : Crypto} {st st' : State} {id : GoString}

/-- Pruning keeps the invariant. -/
theorem State.Inv.prune (h : st.Inv cfg crypto) (activity : FinMap GoString Int) (now : Int) :
    (st.prune activity now).Inv cfg crypto where
  header := h.header
  linked := h.linked.prune
  coherent := h.coherent.prune h.linked
  certified := h.certified.prune h.coherent
  limited := h.limited.prune
  listed := h.listed

/-- No other record looks into an account. -/
theorem State.Inv.setAccount (h : st.Inv cfg crypto) (a : Account) :
    { st with accounts := st.accounts.set id a }.Inv cfg crypto where
  header := h.header
  linked := h.linked.frame ⟨fun _ => rfl, fun _ => rfl, fun k hk => by
    rw [FinMap.get_set]
    split
    · rfl
    · exact hk⟩
  coherent := ⟨fun k o hk => (h.coherent.order k o hk).frame fun _ _ => rfl,
    h.coherent.authorization⟩
  certified := h.certified.frame rfl fun _ _ _ => Iff.rfl
  limited := ⟨h.limited.size, h.limited.limit⟩
  listed := h.listed

/-- Changing the statuses of an authorization and its order, not to or from a valid order. -/
theorem State.Inv.update (h : st.Inv cfg crypto) {a a' : Authorization} {o o' : Order}
    (ha : st.authorizations.get id = some a) (ho : st.orders.get a.orderID = some o)
    (hsa : a'.shape = a.shape) (hso : o'.shape = o.shape)
    (hvalid : o' = o ∨ (o.status ≠ .valid ∧ o'.status ≠ .valid)) (hca : a'.Coherent)
    (hco : o'.Coherent { st with authorizations := st.authorizations.set id a' }) :
    { st with
      authorizations := st.authorizations.set id a'
      orders := st.orders.set a.orderID o' }.Inv cfg crypto where
  header := h.header
  linked := h.linked.frame ⟨FinMap.map_get_set _ ho hso, FinMap.map_get_set _ ha hsa,
    fun _ hk => hk⟩
  coherent := h.coherent.update h.linked ha (FinMap.get_set_self _ _ _)
    (fun _ hk => FinMap.get_set_ne _ _ hk) (FinMap.get_set_self _ _ _)
    (fun _ hk => FinMap.get_set_ne _ _ hk) hca (hco.frame fun _ _ => rfl)
  certified := h.certified.frame rfl fun k b hb => by
    rw [FinMap.get_set]
    split
    · next heq =>
      rw [heq, ho, Option.some.injEq, Option.some.injEq]
      rcases hvalid with rfl | ⟨hne, hne'⟩
      · exact Iff.rfl
      · exact ⟨fun h => absurd (h ▸ hb) hne', fun h => absurd (h ▸ hb) hne⟩
    · exact Iff.rfl
  limited := ⟨h.limited.size, h.limited.limit⟩
  listed := h.listed

/-- Changing an authorization without its order, when its status stays. -/
theorem State.Inv.updateChallenge (h : st.Inv cfg crypto) {a a' : Authorization}
    (ha : st.authorizations.get id = some a) (hsa : a'.shape = a.shape)
    (hst : a'.status = a.status) (hca : a'.Coherent) :
    { st with authorizations := st.authorizations.set id a' }.Inv cfg crypto := by
  obtain ⟨o, ho, -⟩ := (h.linked.authorization id a ha).order
  have hexp : a'.expires = a.expires := congrArg (fun s => s.2.2.2.2.2) hsa
  have hview : (a'.status, a'.expires) = (a.status, a.expires) := by rw [hst, hexp]
  have hco : o.Coherent { st with authorizations := st.authorizations.set id a' } :=
    (h.coherent.order _ o ho).frame fun k _ =>
      FinMap.map_get_set (fun b : Authorization => (b.status, b.expires)) ha hview k
  have hinv := h.update ha ho hsa rfl (.inl rfl) hca hco
  rwa [FinMap.set_get_self ho] at hinv

/-- Changing the status of an order, not to or from a valid one. -/
theorem State.Inv.updateOrder (h : st.Inv cfg crypto) {o o' : Order}
    (ho : st.orders.get id = some o) (hso : o'.shape = o.shape)
    (hvalid : o.status ≠ .valid ∧ o'.status ≠ .valid) (hco : o'.Coherent st) :
    { st with orders := st.orders.set id o' }.Inv cfg crypto where
  header := h.header
  linked := h.linked.frame ⟨FinMap.map_get_set _ ho hso, fun _ => rfl, fun _ hk => hk⟩
  coherent := ⟨fun k b hk => by
    rcases FinMap.get_set_eq_some.1 hk with ⟨-, rfl⟩ | ⟨-, hk⟩
    · exact hco.frame fun _ _ => rfl
    · exact (h.coherent.order k b hk).frame fun _ _ => rfl, h.coherent.authorization⟩
  certified := h.certified.frame rfl fun k b hb => by
    rw [FinMap.get_set]
    split
    · next heq =>
      rw [heq, ho, Option.some.injEq, Option.some.injEq]
      exact ⟨fun h => absurd (h ▸ hb) hvalid.2, fun h => absurd (h ▸ hb) hvalid.1⟩
    · exact Iff.rfl
  limited := ⟨h.limited.size, h.limited.limit⟩
  listed := h.listed

/-- Its order is invalid from then on. -/
theorem State.Inv.deactivateAuthorization (h : st.Inv cfg crypto)
    (ha : st.authorizations.get id = some a) :
    (st.deactivateAuthorization id a).Inv cfg crypto := by
  obtain ⟨o, ho, -, hmem⟩ := (h.linked.authorization id a ha).order
  have hco := h.coherent.order _ o ho
  have hid : o.id = a.orderID := (h.linked.order _ o ho).id_eq
  have hca : a.deactivate.Coherent := by
    have hca := h.coherent.authorization id a ha
    refine ⟨.inr (.inr (.inr rfl)), ?_, fun hp => (by cases hp), fun hp => ?_,
      fun hp => (by cases hp)⟩
    · simp only [Authorization.deactivate]
      split
      · exact .inr (.inr (.inr rfl))
      · exact hca.challenge
    · simp only [Authorization.deactivate] at hp
      split at hp
      · cases hp
      · contradiction
  simp only [State.deactivateAuthorization, ho, Option.getD_some]
  split
  · next hst =>
    have hne : o.status ≠ .valid := by rcases hst with hst | hst <;> simp [hst]
    rw [hid]
    refine h.update ha ho rfl (by simp [Order.shape, hid]) (.inr ⟨hne, by simp⟩) hca ?_
    exact .of_invalid rfl (hco.certificate hne)
      (Order.Auths.set (hco.expires hne) (hco.expires hne id hmem a ha))
  · next hst =>
    rw [not_or] at hst
    have hco' : o.Coherent { st with authorizations := st.authorizations.set id a.deactivate } := by
      rcases hco.status with hs | hs | hs | hs
      · exact absurd hs hst.1
      · exact absurd hs hst.2
      · exact .of_valid hs (Order.Auths.set (hco.valid hs) (.inr rfl))
      · have hne : o.status ≠ .valid := by simp [hs]
        exact .of_invalid hs (hco.certificate hne)
          (Order.Auths.set (hco.expires hne) (hco.expires hne id hmem a ha))
    have hinv := h.update ha ho (show a.deactivate.shape = a.shape from rfl) rfl (.inl rfl) hca hco'
    rwa [FinMap.set_get_self ho] at hinv

/-- A retry changes the challenge only. -/
theorem State.Inv.retry (h : st.Inv cfg crypto) (id : GoString) :
    (retryInterruptedChallenge id st).Inv cfg crypto := by
  unfold retryInterruptedChallenge
  split
  · exact h
  next a ha =>
  split
  · next hst =>
    refine h.updateChallenge ha rfl rfl ?_
    exact ⟨.inl hst.1, .inl rfl, fun _ => .inl rfl, fun hp => (by cases hp),
      fun hv => (by rw [hst.1] at hv; cases hv)⟩
  · exact h

/-- A challenge is taken up. -/
theorem State.Inv.begin (h : st.Inv cfg crypto)
    (ha : st.authorizations.get id = some a) (hst : a.status = .pending) :
    { st with
      authorizations := st.authorizations.set id { a with challengeStatus := .processing } }.Inv
      cfg crypto :=
  h.updateChallenge ha rfl rfl ⟨.inl hst, .inr (.inl rfl), fun _ => .inr rfl, fun _ => hst,
    fun hv => (by rw [hst] at hv; cases hv)⟩

/-- A failed challenge ends its authorization and its order. -/
theorem State.Inv.failChallenge (h : st.Inv cfg crypto) (hset : st.Settled)
    (ha : st.authorizations.get id = some a) (hst : a.status = .pending) :
    (st.failChallenge id a).Inv cfg crypto := by
  obtain ⟨o, ho, hpend, hmem⟩ := h.coherent.order_pending h.linked hset ha hst
  have hco := h.coherent.order _ o ho
  have hid : o.id = a.orderID := (h.linked.order _ o ho).id_eq
  have hne : o.status ≠ .valid := by simp [hpend]
  simp only [State.failChallenge, ho, Option.getD_some, hid]
  refine h.update ha ho rfl (by simp [Order.shape, hid]) (.inr ⟨hne, by simp⟩) ?_ ?_
  · exact ⟨.inr (.inr (.inl rfl)), .inr (.inr (.inr rfl)), fun hp => (by cases hp),
      fun hp => (by cases hp), fun hp => (by cases hp)⟩
  · exact .of_invalid rfl (hco.certificate hne)
      (Order.Auths.set (hco.expires hne) (hco.expires hne id hmem a ha))

/-- The order is ready with its last authorization. -/
theorem State.Inv.proveChallenge (h : st.Inv cfg crypto) (hset : st.Settled)
    (ha : st.authorizations.get id = some a) (hst : a.status = .pending) (now : Int)
    (target : Target) : (st.proveChallenge id a now target).Inv cfg crypto := by
  obtain ⟨o, ho, hpend, hmem⟩ := h.coherent.order_pending h.linked hset ha hst
  have hco := h.coherent.order _ o ho
  have hne : o.status ≠ .valid := by simp [hpend]
  have hid : o.id = a.orderID := (h.linked.order _ o ho).id_eq
  have hexp : o.Auths { st with authorizations := st.authorizations.set id (a.prove now target) }
      fun b => b.expires = o.expires :=
    Order.Auths.set (hco.expires hne) (hco.expires hne id hmem a ha)
  simp only [State.proveChallenge, ho, Option.getD_some, hid]
  refine h.update ha ho rfl (by simp [Order.shape, hid])
    (.inr ⟨hne, by split <;> simp [hpend]⟩) ?_ ?_
  · exact ⟨.inr (.inl rfl), .inr (.inr (.inl rfl)), fun hp => (by cases hp),
      fun hp => (by cases hp), fun _ => ⟨rfl, rfl⟩⟩
  split
  · next hall =>
    refine ⟨.inr (.inl rfl), fun hp => (by cases hp), fun _ authID hin b hb => ?_,
      fun hv => (by cases hv), fun _ => hexp, fun _ => hco.certificate hne⟩
    have hval := List.all_eq_true.1 hall authID hin
    change (st.authorizations.set id (a.prove now target)).get authID = some b at hb
    rw [hb, Option.getD_some, decide_eq_true_eq] at hval
    exact hval
  · next hall =>
    have hauths : o.Auths
        { st with authorizations := st.authorizations.set id (a.prove now target) }
        fun b => b.status = .pending ∨ b.status = .valid :=
      Order.Auths.set (hco.pending hpend).1 (.inr rfl)
    refine ⟨.inl hpend, fun _ => ⟨hauths, ?_⟩, fun hr => (by simp [hpend] at hr),
      fun hv => (by simp [hpend] at hv), fun _ => hexp, fun _ => hco.certificate hne⟩
    -- an authorization that is not valid is pending
    simp only [Bool.not_eq_true, List.all_eq_false, decide_eq_true_eq] at hall
    obtain ⟨authID, hin, hnot⟩ := hall
    obtain ⟨b, hb⟩ : ∃ b, (st.authorizations.set id (a.prove now target)).get authID = some b := by
      obtain ⟨b, hb, -⟩ := h.linked.orderID ho hin
      rw [FinMap.get_set]
      split
      · exact ⟨_, rfl⟩
      · exact ⟨b, hb⟩
    rw [hb, Option.getD_some] at hnot
    exact ⟨authID, hin, b, hb, (hauths authID hin b hb).resolve_right hnot⟩

/-- A ready order is ended. -/
theorem State.Inv.rejectOrder (h : st.Inv cfg crypto)
    (ho : st.orders.get id = some o) (hst : o.status = .ready) (p : Problem) :
    (st.rejectOrder id o p).Inv cfg crypto := by
  have hco := h.coherent.order id o ho
  have hne : o.status ≠ .valid := by simp [hst]
  exact h.updateOrder ho rfl ⟨hne, by simp⟩
    (.of_invalid rfl (hco.certificate hne) (hco.expires hne))

/-- The order is valid with its certificate. -/
theorem State.Inv.issue {c : Context crypto} {csr certID chain : GoString}
    {leaf : Leaf} (h : st.Inv cfg crypto) (hids : ∀ id ∈ c.env.ids, validID id = true)
    (hi : Issued c st id o csr certID chain leaf) :
    (st.issue id o csr certID chain leaf).Inv cfg crypto where
  header := h.header
  linked := h.linked.frame ⟨FinMap.map_get_set _ hi.get rfl, fun _ => rfl, fun _ hk => hk⟩
  coherent := ⟨fun k b hk => by
    rcases FinMap.get_set_eq_some.1 hk with ⟨-, rfl⟩ | ⟨-, hk⟩
    · exact .of_valid rfl fun authID hmem a ha =>
        .inl ((h.coherent.order id o hi.get).ready hi.ready authID hmem a ha)
    · exact (h.coherent.order k b hk).frame fun _ _ => rfl, h.coherent.authorization⟩
  certified := by
    refine ⟨fun k cert hk => ?_, fun k b hk hval => ?_⟩
    · rcases FinMap.get_set_eq_some.1 hk with ⟨rfl, rfl⟩ | ⟨-, hk⟩
      · exact ⟨rfl, hids _ hi.id_mem, ⟨leaf, hi.parse, rfl, rfl⟩,
          ⟨_, FinMap.get_set_self _ _ _, rfl, rfl, rfl, rfl⟩, fun hr => (by cases hr)⟩
      · have hl := h.certified.certificate k cert hk
        obtain ⟨b, hb, hval, hrest⟩ := hl.order
        refine ⟨hl.id_eq, hl.valid_id, hl.leaf, ⟨b, ?_, hval, hrest⟩, hl.reason⟩
        rw [State.issue, FinMap.get_set_ne _ _ fun heq => ?_]
        · exact hb
        · rw [heq, hi.get] at hb
          cases hb
          simp [hi.ready] at hval
    · rcases FinMap.get_set_eq_some.1 hk with ⟨rfl, rfl⟩ | ⟨-, hk⟩
      · exact ⟨hi.request, _, FinMap.get_set_self _ _ _, rfl⟩
      · obtain ⟨hcsr, cert, hcert, hord⟩ := h.certified.order k b hk hval
        refine ⟨hcsr, cert, ?_, hord⟩
        rw [State.issue, FinMap.get_set_ne _ _ fun heq => ?_]
        · exact hcert
        · rw [heq, hi.id_new] at hcert
          cases hcert
  limited := ⟨h.limited.size, h.limited.limit⟩
  listed := h.listed

/-- What `refreshCRL` produces. -/
theorem State.refreshCRL_some {createCRL : List RevocationEntry → Int → Option GoString} {now : Int}
    (h : st.refreshCRL crypto createCRL now = some st') :
    ∃ entries der list, revokedEntries now st.certificates.entries = some entries ∧
      createCRL (entries.mergeSort fun a b => a.serialNumber ≤ b.serialNumber)
        (st.crlNumber + 1) = some der ∧
      crypto.parseRevocationList der = some list ∧ list.number = some (st.crlNumber + 1) ∧
      now < list.nextUpdate ∧ crypto.listSigned list = true ∧
      st' = { st with
        crl := der, crlNumber := st.crlNumber + 1, crlNextUpdate := list.nextUpdate } := by
  unfold State.refreshCRL at h
  split at h
  · cases h
  split at h
  · cases h
  next entries hentries =>
  dsimp only at h
  split at h
  · cases h
  next der hder =>
  split at h
  · cases h
  next list hlist =>
  split at h
  · cases h
  next hok =>
  split at h
  · cases h
  next hsigned =>
  cases h
  simp only [not_or, not_not, not_le] at hok
  exact ⟨entries, der, list, hentries, hder, hlist, hok.1, hok.2, by simpa using hsigned, rfl⟩

/-- A certificate that is listed again is the stored one, or it is revoked just now. -/
theorem Relisted.get (h : Relisted st certificates)
    (hc : certificates.get id = some c) :
    ∃ old, st.certificates.get id = some old ∧ (c = old ∨
      (old.revokedAt = none ∧ ∃ now reason, validRevocationReason reason = true ∧
        c = old.revoke now reason)) := by
  cases h with
  | same => exact ⟨c, hc, .inl rfl⟩
  | @revoked k cert now reason hget hnone hreason =>
    rcases FinMap.get_set_eq_some.1 hc with ⟨rfl, rfl⟩ | ⟨-, hc⟩
    · exact ⟨cert, hget, .inr ⟨hnone, now, reason, hreason, rfl⟩⟩
    · exact ⟨c, hc, .inl rfl⟩

/-- Every stored certificate is listed again. -/
theorem Relisted.of_get (h : Relisted st certificates)
    (hc : st.certificates.get id = some c) :
    ∃ c', certificates.get id = some c' ∧ (c' = c ∨
      (c.revokedAt = none ∧ ∃ now reason, validRevocationReason reason = true ∧
        c' = c.revoke now reason)) := by
  cases h with
  | same => exact ⟨c, hc, .inl rfl⟩
  | @revoked k cert now reason hget hnone hreason =>
    rw [FinMap.get_set]
    split
    · next heq =>
      rw [heq, hget] at hc
      cases hc
      exact ⟨_, rfl, .inr ⟨hnone, now, reason, hreason, rfl⟩⟩
    · exact ⟨c, hc, .inl rfl⟩

/-- A new revocation list changes no reference. -/
theorem State.Inv.relist {now : Int}
    {createCRL : List RevocationEntry → Int → Option GoString} (h : st.Inv cfg crypto)
    (hr : Relisted st certificates)
    (hs : { st with certificates }.refreshCRL crypto createCRL now = some st') :
    st'.Inv cfg crypto := by
  obtain ⟨-, der, list, -, -, hlist, hnum, -, hsigned, rfl⟩ := State.refreshCRL_some hs
  refine ⟨h.header, h.linked.frame ⟨fun _ => rfl, fun _ => rfl, fun _ hk => hk⟩,
    ⟨fun k o hk => (h.coherent.order k o hk).frame fun _ _ => rfl, h.coherent.authorization⟩,
    ⟨fun k c hk => ?_, fun k o hk hval => ?_⟩, ⟨h.limited.size, h.limited.limit⟩,
    fun _ => ⟨list, hlist, hnum, rfl, hsigned⟩⟩
  · obtain ⟨old, hold, hc⟩ := hr.get hk
    have hl := h.certified.certificate k old hold
    rcases hc with rfl | ⟨-, revokedAt, reason, hreason, rfl⟩
    · exact ⟨hl.id_eq, hl.valid_id, hl.leaf, hl.order, hl.reason⟩
    · exact ⟨hl.id_eq, hl.valid_id, hl.leaf, hl.order, fun _ => hreason⟩
  · obtain ⟨hcsr, c, hc, hord⟩ := h.certified.order k o hk hval
    obtain ⟨c', hc', heq⟩ := hr.of_get hc
    refine ⟨hcsr, c', hc', ?_⟩
    rcases heq with rfl | ⟨-, revokedAt, reason, -, rfl⟩ <;> exact hord

theorem Authorization.Coherent.reset (h : a.Coherent) : a.reset.Coherent := by
  unfold Authorization.reset
  split
  · next hp =>
    have hst := h.processing hp
    exact ⟨h.status, .inl rfl, fun _ => .inl rfl, fun hc => (by cases hc),
      fun hv => (by rw [hst] at hv; cases hv)⟩
  · exact h

theorem Authorization.reset_shape (a : Authorization) : a.reset.shape = a.shape := by
  unfold Authorization.reset
  split <;> rfl

theorem Authorization.reset_status (a : Authorization) : a.reset.status = a.status := by
  unfold Authorization.reset
  split <;> rfl

/-- A start makes the challenges in progress pending. -/
theorem State.Inv.reset (h : st.Inv cfg crypto) : st.reset.Inv cfg crypto where
  header := h.header
  linked := h.linked.frame ⟨fun _ => rfl,
    FinMap.map_get_mapVals _ fun _ a => a.reset_shape, fun _ hk => hk⟩
  coherent := by
    refine ⟨fun k o hk => (h.coherent.order k o hk).frame fun id _ => ?_, fun k a hk => ?_⟩
    · refine FinMap.map_get_mapVals (fun a : Authorization => (a.status, a.expires))
        (fun _ a => ?_) id
      have hexp : a.reset.expires = a.expires := congrArg (fun s => s.2.2.2.2.2) a.reset_shape
      rw [hexp, a.reset_status]
    · simp only [State.reset, FinMap.get_mapVals, Option.map_eq_some_iff] at hk
      obtain ⟨b, hb, rfl⟩ := hk
      exact (h.coherent.authorization k b hb).reset
  certified := h.certified.frame rfl fun _ _ _ => Iff.rfl
  limited := ⟨h.limited.size, h.limited.limit⟩
  listed := h.listed

/-- The quota has room for another time. -/
theorem State.Inv.recordCreation (h : st.Inv cfg crypto) {clock : Clock} {p : Nat}
    {source : GoString} {accountCreation : Bool} (hs : source ≠ [])
    (hq : st.UnderQuota (clock.now p) source accountCreation)
    (hroom : (st.leaseLimits.get source).isSome ∨ st.leaseLimits.size < maxRecords) :
    (st.recordCreation clock p source accountCreation).Inv cfg crypto where
  header := h.header
  linked := h.linked.frame ⟨fun _ => rfl, fun _ => rfl, fun _ hk => hk⟩
  coherent := ⟨fun k o hk => (h.coherent.order k o hk).frame fun _ _ => rfl,
    h.coherent.authorization⟩
  certified := h.certified.frame rfl fun _ _ _ => Iff.rfl
  limited := by
    refine ⟨?_, fun k limit hk => ?_⟩
    · rcases hroom with hin | hlt
      · exact (FinMap.size_set_of_mem _ hin).trans_le h.limited.size
      · exact (FinMap.size_set_le _ _ _).trans hlt
    rcases FinMap.get_set_eq_some.1 hk with ⟨rfl, rfl⟩ | ⟨-, hk⟩
    · -- the other history of the source is as before
      have hold : ((st.leaseLimits.get k).getD default).accounts.length ≤ maxLeaseAccounts ∧
          ((st.leaseLimits.get k).getD default).orders.length ≤ maxLeaseOrders := by
        cases hg : st.leaseLimits.get k with
        | none => exact ⟨Nat.zero_le _, Nat.zero_le _⟩
        | some limit => exact (h.limited.limit k limit hg).2
      cases accountCreation
      · exact ⟨hs, hold.1,
          by simpa [State.UnderQuota, LeaseLimit.quota, Nat.add_one_le_iff] using hq⟩
      · exact ⟨hs,
          by simpa [State.UnderQuota, LeaseLimit.quota, Nat.add_one_le_iff] using hq, hold.2⟩
    · exact h.limited.limit k limit hk
  listed := h.listed

/-- Orders end with their account, or keep their authorizations. -/
theorem State.Inv.coherent_deactivateAccount (h : st.Inv cfg crypto) (id : GoString) {k : GoString}
    (ho : st.orders.get k = some o) :
    (o.accountDeactivated id).Coherent (st.deactivateAccount id) := by
  have hco := h.coherent.order k o ho
  have hexp : ∀ a : Authorization, (a.accountDeactivated id).expires = a.expires := fun a => by
    unfold Authorization.accountDeactivated
    split <;> rfl
  have hinv : o.status ≠ .valid →
      o.Auths (st.deactivateAccount id) fun a => a.expires = o.expires := by
    intro hne authID hmem a' ha'
    simp only [State.deactivateAccount, FinMap.get_mapVals, Option.map_eq_some_iff] at ha'
    obtain ⟨a, ha, rfl⟩ := ha'
    exact (hexp a).trans (hco.expires hne authID hmem a ha)
  unfold Order.accountDeactivated
  split
  · next hst =>
    have hne : o.status ≠ .valid := by rcases hst.2 with hs | hs <;> simp [hs]
    exact .of_invalid rfl (hco.certificate hne) (hinv hne)
  next hst =>
  rcases Classical.em (o.status = .invalid) with hs | hs
  · have hne : o.status ≠ .valid := by simp [hs]
    exact .of_invalid hs (hco.certificate hne) (hinv hne)
  -- an order that stays belongs to another account or is valid: its authorizations stay
  refine hco.frame fun authID hmem => ?_
  obtain ⟨a, ha, -, hacc⟩ := h.linked.orderID ho hmem
  have hsame : a.accountDeactivated id = a := by
    refine if_neg fun hc => ?_
    have hid : o.accountID = id := hacc ▸ hc.1
    rcases hco.status with hp | hp | hp | hp
    · exact hst ⟨hid, .inl hp⟩
    · exact hst ⟨hid, .inr hp⟩
    · have := hco.valid hp authID hmem a ha
      simp [hc.2] at this
    · exact hs hp
  rw [State.deactivateAccount, FinMap.get_mapVals, ha, Option.map_some, hsame]

/-- The end of the orders and authorizations of a deactivated account. -/
theorem State.Inv.deactivateAccount (h : st.Inv cfg crypto) (id : GoString) :
    (st.deactivateAccount id).Inv cfg crypto where
  header := h.header
  linked := by
    refine h.linked.frame ⟨FinMap.map_get_mapVals _ fun _ o => ?_,
      FinMap.map_get_mapVals _ fun _ a => ?_, fun _ hk => hk⟩
    · unfold Order.accountDeactivated
      split <;> rfl
    · unfold Authorization.accountDeactivated
      split <;> rfl
  coherent := by
    refine ⟨fun k o' hk => ?_, fun k a' hk => ?_⟩
    · simp only [State.deactivateAccount, FinMap.get_mapVals, Option.map_eq_some_iff] at hk
      obtain ⟨o, ho, rfl⟩ := hk
      exact h.coherent_deactivateAccount id ho
    · simp only [State.deactivateAccount, FinMap.get_mapVals, Option.map_eq_some_iff] at hk
      obtain ⟨a, ha, rfl⟩ := hk
      unfold Authorization.accountDeactivated
      split
      · exact ⟨.inr (.inr (.inr rfl)), .inr (.inr (.inr rfl)), fun hp => (by cases hp),
          fun hp => (by cases hp), fun hp => (by cases hp)⟩
      · exact h.coherent.authorization k a ha
  certified := by
    refine h.certified.frame rfl fun k o hval => ?_
    simp only [State.deactivateAccount, FinMap.get_mapVals, Option.map_eq_some_iff]
    refine ⟨fun ⟨b, hb, heq⟩ => ?_, fun hk => ⟨o, hk, if_neg fun hc => ?_⟩⟩
    · unfold Order.accountDeactivated at heq
      split at heq
      · rw [← heq] at hval
        cases hval
      · rw [← heq]
        exact hb
    · rcases hc.2 with hs | hs <;> simp [hs] at hval
  limited := ⟨h.limited.size, h.limited.limit⟩
  listed := h.listed

theorem State.Inv.updateAccount (h : st.Inv cfg crypto) (id : GoString) (a : Account) :
    (st.updateAccount id a).Inv cfg crypto := by
  unfold State.updateAccount
  dsimp only
  split
  · exact (h.setAccount a).deactivateAccount id
  · exact h.setAccount a

end

/-! ## New orders -/

section
variable {crypto : Crypto} {c : Context crypto} {st : State} {o : Order}
  {auths : List Authorization}

theorem NewOrder.get_authorization (hn : NewOrder c st o auths)
    :
    (st.addOrder o auths).authorizations.get id = some a ↔
      (a ∈ auths ∧ a.id = id) ∨ (id ∉ auths.map Authorization.id ∧
        st.authorizations.get id = some a) :=
  FinMap.get_foldl_set hn.nodup

/-- The authorizations stored before are still there. -/
theorem NewOrder.get_old (hn : NewOrder c st o auths)
    (ha : st.authorizations.get id = some a) :
    (st.addOrder o auths).authorizations.get id = some a := by
  refine hn.get_authorization.2 (.inr ⟨fun hmem => ?_, ha⟩)
  obtain ⟨b, hb, rfl⟩ := List.mem_map.1 hmem
  rw [hn.auth_new b hb] at ha
  cases ha

/-- The orders stored before are still there. -/
theorem NewOrder.get_order (hn : NewOrder c st o auths) {b : Order} :
    (st.addOrder o auths).orders.get id = some b ↔
      (id = o.id ∧ o = b) ∨ st.orders.get id = some b := by
  rw [State.addOrder, FinMap.get_set_eq_some]
  refine or_congr_right ⟨fun h => h.2, fun h => ⟨fun heq => ?_, h⟩⟩
  rw [heq, hn.id_new] at h
  cases h

/-- What a new authorization looks like. -/
theorem NewOrder.auth (hn : NewOrder c st o auths) (ha : a ∈ auths) :
    ∃ n ∈ o.identifiers, a.orderID = o.id ∧ a.accountID = o.accountID ∧ a.name = n.value ∧
      a.expires = o.expires ∧ a.status = .pending ∧ a.challengeStatus = .pending :=
  exists_of_mem_right hn.auths ha

/-- A listed authorization of the new order is one of the new ones. -/
theorem NewOrder.listed (hn : NewOrder c st o auths)
    (hmem : id ∈ o.authIDs) (ha : (st.addOrder o auths).authorizations.get id = some a) :
    a ∈ auths := by
  rcases hn.get_authorization.1 ha with ⟨h, -⟩ | ⟨hnot, -⟩
  · exact h
  · exact absurd (hn.authIDs ▸ hmem) hnot

/-- The new records refer to each other. -/
theorem State.Linked.addOrder (h : st.Linked c.cfg) (hn : NewOrder c st o auths)
    (hids : ∀ id ∈ c.env.ids, validID id = true) : (st.addOrder o auths).Linked c.cfg where
  order id b hb := by
    rcases hn.get_order.1 hb with ⟨rfl, rfl⟩ | hold
    · refine ⟨rfl, hids _ hn.id_mem, hn.some_name, hn.few_names, hn.names, hn.distinct, hn.account,
        ?_⟩
      rw [hn.authIDs, List.forall₂_map_right_iff]
      refine List.forall₂_iff_zip.2 ⟨hn.auths.length_eq, fun {n a} hz => ?_⟩
      obtain ⟨h1, h2, h3, -⟩ := (List.forall₂_iff_zip.1 hn.auths).2 hz
      exact ⟨a, hn.get_authorization.2 (.inl ⟨(List.of_mem_zip hz).2, rfl⟩), h1, h2, h3⟩
    · have hl := h.order id b hold
      refine ⟨hl.id_eq, hl.valid_id, hl.some_name, hl.few_names, hl.names, hl.distinct, hl.account,
        hl.authorizations.imp fun n authID ⟨a, ha, hrest⟩ => ⟨a, hn.get_old ha, hrest⟩⟩
  authorization id a ha := by
    rcases hn.get_authorization.1 ha with ⟨hnew, rfl⟩ | ⟨-, hold⟩
    · obtain ⟨n, hmem, h1, h2, h3, h4, -⟩ := hn.auth hnew
      refine ⟨rfl, hids _ (hn.auth_mem a hnew).1, hids _ (hn.auth_mem a hnew).2, h4 ▸ hn.expires,
        h3 ▸ (hn.names n hmem).2, o, ?_, h2.symm, ?_⟩
      · rw [h1]
        exact hn.get_order.2 (.inl ⟨rfl, rfl⟩)
      · rw [hn.authIDs]
        exact List.mem_map_of_mem hnew
    · have hl := h.authorization id a hold
      obtain ⟨b, hb, hrest⟩ := hl.order
      exact ⟨hl.id_eq, hl.valid_id, hl.valid_token, hl.expires, hl.allowed, b,
        hn.get_order.2 (.inr hb), hrest⟩

/-- The new records are pending. -/
theorem State.Coherent.addOrder (hc : st.Coherent) (h : st.Linked c.cfg)
    (hn : NewOrder c st o auths) : (st.addOrder o auths).Coherent where
  order id b hb := by
    rcases hn.get_order.1 hb with ⟨rfl, rfl⟩ | hold
    · have hauths : ∀ {P : Authorization → Prop}, (∀ a ∈ auths, P a) →
          o.Auths (st.addOrder o auths) P := fun hP authID hmem a ha => hP a (hn.listed hmem ha)
      refine ⟨.inl hn.status, fun _ => ⟨hauths fun a ha => ?_, ?_⟩, fun hr => ?_, fun hv => ?_,
        fun _ => hauths fun a ha => ?_, fun _ => hn.certificateID⟩
      · obtain ⟨-, -, -, -, -, -, hst, -⟩ := hn.auth ha
        exact .inl hst
      · -- there is at least one name, so there is an authorization
        obtain ⟨n, names, hnames⟩ := List.exists_cons_of_ne_nil hn.some_name
        obtain ⟨a, rest, -, -, hauthsEq⟩ := List.forall₂_cons_left_iff.1 (hnames ▸ hn.auths)
        have ha : a ∈ auths := hauthsEq ▸ .head _
        obtain ⟨-, -, -, -, -, -, hst, -⟩ := hn.auth ha
        exact ⟨a.id, hn.authIDs ▸ List.mem_map_of_mem ha, a,
          hn.get_authorization.2 (.inl ⟨ha, rfl⟩), hst⟩
      · rw [hn.status] at hr
        cases hr
      · rw [hn.status] at hv
        cases hv
      · obtain ⟨-, -, -, -, -, hexp, -⟩ := hn.auth ha
        exact hexp
    · refine (hc.order id b hold).frame fun authID hmem => ?_
      obtain ⟨a, ha, -⟩ := h.orderID hold hmem
      rw [ha, hn.get_old ha]
  authorization id a ha := by
    rcases hn.get_authorization.1 ha with ⟨hnew, -⟩ | ⟨-, hold⟩
    · obtain ⟨-, -, -, -, -, -, hst, hch⟩ := hn.auth hnew
      exact ⟨.inl hst, .inl hch, fun _ => .inl hch, fun _ => hst,
        fun hv => (by rw [hst] at hv; cases hv)⟩
    · exact hc.authorization id a hold

/-- A new order with its authorizations. -/
theorem State.Inv.addOrder (h : st.Inv c.cfg crypto) (hn : NewOrder c st o auths)
    (hids : ∀ id ∈ c.env.ids, validID id = true) : (st.addOrder o auths).Inv c.cfg crypto where
  header := h.header
  linked := h.linked.addOrder hn hids
  coherent := h.coherent.addOrder h.linked hn
  certified := h.certified.frame rfl fun k b hval => by
    rw [hn.get_order]
    refine ⟨fun hk => hk.resolve_left fun ⟨_, heq⟩ => ?_, .inr⟩
    rw [← heq, hn.status] at hval
    cases hval
  limited := ⟨h.limited.size, h.limited.limit⟩
  listed := h.listed

/-- Every mutation keeps the invariant. -/
theorem Mutation.inv {st st' : State} (hm : Mutation c st st')
    (hids : ∀ id ∈ c.env.ids, validID id = true) (h : st.Inv c.cfg crypto) :
    st'.Inv c.cfg crypto := by
  cases hm with
  | prune _ => exact h.prune _ _
  | addAccount _ => exact h.setAccount _
  | recordCreation hs hq hroom => exact h.recordCreation hs hq hroom
  | noteOrder _ _ _ _ => exact h.setAccount _
  | addOrder hn => exact h.addOrder hn hids
  | updateAccount _ => exact h.updateAccount _ _
  | deactivateAuthorization ha => exact h.deactivateAuthorization ha
  | begin _ ha hst => exact h.begin ha hst
  | retry _ => exact h.retry _
  | failChallenge _ ha hst hset => exact h.failChallenge hset ha hst
  | proveChallenge _ _ ha hst hset => exact h.proveChallenge hset ha hst _ _
  | rejectOrder ho hst => exact h.rejectOrder ho hst _
  | issue hi => exact h.issue hids hi
  | relist hr _ hs => exact h.relist hr hs
  | reset _ => exact h.reset

theorem Mutations.inv {st st' : State} (hm : Mutations c st st')
    (hids : ∀ id ∈ c.env.ids, validID id = true) (h : st.Inv c.cfg crypto) :
    st'.Inv c.cfg crypto := by
  induction hm with
  | refl => exact h
  | tail _ hstep ih => exact hstep.inv hids ih

end

end InfraBox.Acme
