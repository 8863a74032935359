import InfraBox.Acme.Server

/-!
# The ACME server: what its snapshots satisfy

An order and its authorizations refer to each other and to an account (`State.Linked`), their
statuses fit together (`State.Coherent`), and a certificate belongs to a valid order that expires
with it (`State.Certified`). What links the records never changes once they are made, so these facts
are preserved by every update that leaves the shapes of the records alone (`State.Linked.frame`).
-/

namespace InfraBox.Acme

/-- In related lists every element of the second is related to one of the first. -/
theorem exists_of_mem_right {α β : Type} {R : α → β → Prop} {l : List α} {l' : List β} {b : β}
    (h : List.Forall₂ R l l') (hb : b ∈ l') : ∃ a ∈ l, R a b := by
  induction h with
  | nil => cases hb
  | cons hr _ ih =>
    rcases List.mem_cons.1 hb with rfl | hb
    · exact ⟨_, .head _, hr⟩
    · obtain ⟨a, ha, h⟩ := ih hb
      exact ⟨a, .tail _ ha, h⟩

/-! ## Links -/

/-- An order refers to its account and, name by name, to its authorizations. -/
structure Order.Linked (cfg : Config) (st : State) (id : GoString) (o : Order) : Prop where
  id_eq : o.id = id
  valid_id : validID id = true
  some_name : o.identifiers ≠ []
  few_names : o.identifiers.length ≤ maxIdentifiers
  names : ∀ n ∈ o.identifiers, n.type = str "dns" ∧ cfg.allowedName n.value = true
  distinct : (o.identifiers.map Identifier.value).Nodup
  account : (st.accounts.get o.accountID).isSome
  authorizations : List.Forall₂ (fun (n : Identifier) authID =>
    ∃ a, st.authorizations.get authID = some a ∧ a.orderID = id ∧ a.accountID = o.accountID ∧
      a.name = n.value) o.identifiers o.authIDs

/-- An authorization refers to its order. -/
structure Authorization.Linked (cfg : Config) (st : State) (id : GoString) (a : Authorization) :
    Prop where
  id_eq : a.id = id
  valid_id : validID id = true
  valid_token : validID a.token = true
  expires : 0 < a.expires
  allowed : cfg.allowedName a.name = true
  order : ∃ o, st.orders.get a.orderID = some o ∧ o.accountID = a.accountID ∧ id ∈ o.authIDs

/-- The records refer to each other. -/
structure State.Linked (cfg : Config) (st : State) : Prop where
  order : ∀ id o, st.orders.get id = some o → o.Linked cfg st id
  authorization : ∀ id a, st.authorizations.get id = some a → a.Linked cfg st id

/-- What never changes in an order. -/
def Order.shape (o : Order) : GoString × GoString × List Identifier × List GoString :=
  (o.id, o.accountID, o.identifiers, o.authIDs)

/-- What never changes in an authorization. -/
def Authorization.shape (a : Authorization) :
    GoString × GoString × GoString × GoString × GoString × Int :=
  (a.id, a.accountID, a.orderID, a.name, a.token, a.expires)

/-- Two states whose orders and authorizations have the same shapes. -/
structure State.SameShape (st st' : State) : Prop where
  orders : ∀ id, (st'.orders.get id).map Order.shape = (st.orders.get id).map Order.shape
  authorizations : ∀ id,
    (st'.authorizations.get id).map Authorization.shape =
      (st.authorizations.get id).map Authorization.shape
  accounts : ∀ id, (st.accounts.get id).isSome → (st'.accounts.get id).isSome

section
variable {cfg : Config} {st st' : State} {id : GoString}

theorem State.SameShape.order (h : st.SameShape st') {o' : Order}
    (ho : st'.orders.get id = some o') : ∃ o, st.orders.get id = some o ∧ o'.shape = o.shape := by
  have hs := h.orders id
  rw [ho, Option.map_some, eq_comm, Option.map_eq_some_iff] at hs
  obtain ⟨o, hget, heq⟩ := hs
  exact ⟨o, hget, heq.symm⟩

theorem State.SameShape.authorization (h : st.SameShape st') {a' : Authorization}
    (ha : st'.authorizations.get id = some a') :
    ∃ a, st.authorizations.get id = some a ∧ a'.shape = a.shape := by
  have hs := h.authorizations id
  rw [ha, Option.map_some, eq_comm, Option.map_eq_some_iff] at hs
  obtain ⟨a, hget, heq⟩ := hs
  exact ⟨a, hget, heq.symm⟩

theorem State.SameShape.symm_order (h : st.SameShape st') {o : Order}
    (ho : st.orders.get id = some o) : ∃ o', st'.orders.get id = some o' ∧ o'.shape = o.shape := by
  have hs := h.orders id
  rw [ho, Option.map_some, Option.map_eq_some_iff] at hs
  exact hs

theorem State.SameShape.symm_authorization (h : st.SameShape st') {a : Authorization}
    (ha : st.authorizations.get id = some a) :
    ∃ a', st'.authorizations.get id = some a' ∧ a'.shape = a.shape := by
  have hs := h.authorizations id
  rw [ha, Option.map_some, Option.map_eq_some_iff] at hs
  exact hs

/-- Links depend on the shapes only. -/
theorem State.Linked.frame (h : st.Linked cfg) (hs : st.SameShape st') : st'.Linked cfg where
  order id o' ho' := by
    obtain ⟨o, ho, hshape⟩ := hs.order ho'
    have hl := h.order id o ho
    simp only [Order.shape, Prod.mk.injEq] at hshape
    obtain ⟨hid, hacc, hnames, hauths⟩ := hshape
    refine ⟨hid ▸ hl.id_eq, hl.valid_id, hnames ▸ hl.some_name, hnames ▸ hl.few_names,
      hnames ▸ hl.names, hnames ▸ hl.distinct, hacc ▸ hs.accounts _ hl.account, ?_⟩
    rw [hnames, hauths, hacc]
    refine hl.authorizations.imp fun n authID hn => ?_
    obtain ⟨a, ha, h1, h2, h3⟩ := hn
    obtain ⟨a', ha', hsa⟩ := hs.symm_authorization ha
    simp only [Authorization.shape, Prod.mk.injEq] at hsa
    exact ⟨a', ha', hsa.2.2.1 ▸ h1, hsa.2.1 ▸ h2, hsa.2.2.2.1 ▸ h3⟩
  authorization id a' ha' := by
    obtain ⟨a, ha, hshape⟩ := hs.authorization ha'
    have hl := h.authorization id a ha
    simp only [Authorization.shape, Prod.mk.injEq] at hshape
    obtain ⟨hid, hacc, hord, hname, htok, hexp⟩ := hshape
    refine ⟨hid ▸ hl.id_eq, hl.valid_id, htok ▸ hl.valid_token, hexp ▸ hl.expires,
      hname ▸ hl.allowed, ?_⟩
    obtain ⟨o, ho, h1, h2⟩ := hl.order
    obtain ⟨o', ho', hso⟩ := hs.symm_order ho
    simp only [Order.shape, Prod.mk.injEq] at hso
    rw [hord]
    exact ⟨o', ho', by rw [hso.2.1, hacc, h1], hso.2.2.2 ▸ h2⟩

/-- An authorization listed by an order belongs to it. -/
theorem State.Linked.orderID (h : st.Linked cfg) {o : Order} {authID : GoString}
    (ho : st.orders.get id = some o) (hmem : authID ∈ o.authIDs) :
    ∃ a, st.authorizations.get authID = some a ∧ a.orderID = id ∧ a.accountID = o.accountID := by
  obtain ⟨n, -, a, ha, h1, h2, -⟩ := exists_of_mem_right (h.order id o ho).authorizations hmem
  exact ⟨a, ha, h1, h2⟩

/-- The order of an authorization lists it, so no other order does. -/
theorem State.Linked.eq_of_mem (h : st.Linked cfg) {o : Order} {a : Authorization}
    {authID : GoString} (ha : st.authorizations.get authID = some a)
    (ho : st.orders.get id = some o) (hmem : authID ∈ o.authIDs) : a.orderID = id := by
  obtain ⟨b, hb, hid, -⟩ := h.orderID ho hmem
  rw [ha] at hb
  cases hb
  exact hid

end

/-! ## Statuses -/

/-- The statuses of an authorization and of its challenge. -/
structure Authorization.Coherent (a : Authorization) : Prop where
  status : a.status = .pending ∨ a.status = .valid ∨ a.status = .invalid ∨ a.status = .deactivated
  challenge : a.challengeStatus = .pending ∨ a.challengeStatus = .processing ∨
    a.challengeStatus = .valid ∨ a.challengeStatus = .invalid
  pending : a.status = .pending → a.challengeStatus = .pending ∨ a.challengeStatus = .processing
  processing : a.challengeStatus = .processing → a.status = .pending
  proved : a.status = .valid → a.challengeStatus = .valid ∧ a.validated.isSome

/-- The stored authorizations of an order satisfy `P`. -/
def Order.Auths (st : State) (o : Order) (P : Authorization → Prop) : Prop :=
  ∀ authID ∈ o.authIDs, ∀ a, st.authorizations.get authID = some a → P a

/-- The status of an order and those of its authorizations. -/
structure Order.Coherent (st : State) (o : Order) : Prop where
  status : o.status = .pending ∨ o.status = .ready ∨ o.status = .valid ∨ o.status = .invalid
  pending : o.status = .pending →
    o.Auths st (fun a => a.status = .pending ∨ a.status = .valid) ∧
    ∃ authID ∈ o.authIDs, ∃ a, st.authorizations.get authID = some a ∧ a.status = .pending
  ready : o.status = .ready → o.Auths st fun a => a.status = .valid
  valid : o.status = .valid → o.Auths st fun a => a.status = .valid ∨ a.status = .deactivated
  expires : o.status ≠ .valid → o.Auths st fun a => a.expires = o.expires
  certificate : o.status ≠ .valid → o.certificateID = []

/-- The statuses fit together. -/
structure State.Coherent (st : State) : Prop where
  order : ∀ id o, st.orders.get id = some o → o.Coherent st
  authorization : ∀ id a, st.authorizations.get id = some a → a.Coherent

/-- No order is invalid: pruning removes those. -/
def State.Settled (st : State) : Prop := ∀ id o, st.orders.get id = some o → o.status ≠ .invalid

section
variable {cfg : Config} {st st' : State} {id : GoString} {o : Order}

/-- The status of an order fits if its authorizations have the same statuses as before. -/
theorem Order.Coherent.frame (h : o.Coherent st)
    (hs : ∀ id ∈ o.authIDs, (st'.authorizations.get id).map (fun a => (a.status, a.expires)) =
      (st.authorizations.get id).map fun a => (a.status, a.expires)) : o.Coherent st' := by
  have hback : ∀ {P : Status × Int → Prop}, o.Auths st (fun a => P (a.status, a.expires)) →
      o.Auths st' fun a => P (a.status, a.expires) := by
    intro P hP authID hmem a' ha'
    have heq := hs authID hmem
    rw [ha', Option.map_some, eq_comm, Option.map_eq_some_iff] at heq
    obtain ⟨a, ha, heq⟩ := heq
    exact heq ▸ hP authID hmem a ha
  refine ⟨h.status, fun hp => ⟨?_, ?_⟩, fun hr => ?_, fun hv => ?_, fun hn => ?_, h.certificate⟩
  · exact hback (P := fun v => v.1 = .pending ∨ v.1 = .valid) (h.pending hp).1
  · obtain ⟨authID, hmem, a, ha, hst⟩ := (h.pending hp).2
    have heq := hs authID hmem
    rw [ha, Option.map_some, Option.map_eq_some_iff] at heq
    obtain ⟨a', ha', heq⟩ := heq
    exact ⟨authID, hmem, a', ha', (congrArg Prod.fst heq).trans hst⟩
  · exact hback (P := fun v => v.1 = .valid) (h.ready hr)
  · exact hback (P := fun v => v.1 = .valid ∨ v.1 = .deactivated) (h.valid hv)
  · exact hback (P := fun v => v.2 = o.expires) (h.expires hn)

/-- Changing one authorization and its order keeps the statuses fitting, if these two fit. -/
theorem State.Coherent.update (hc : st.Coherent) (hl : st.Linked cfg) {a a' : Authorization}
    {o' : Order} (ha : st.authorizations.get id = some a)
    (ha' : st'.authorizations.get id = some a')
    (hauth : ∀ k, k ≠ id → st'.authorizations.get k = st.authorizations.get k)
    (ho' : st'.orders.get a.orderID = some o')
    (hord : ∀ k, k ≠ a.orderID → st'.orders.get k = st.orders.get k)
    (hca : a'.Coherent) (hco : o'.Coherent st') : st'.Coherent where
  order k o hk := by
    rcases eq_or_ne k a.orderID with rfl | hne
    · rw [ho'] at hk
      cases hk
      exact hco
    · rw [hord k hne] at hk
      refine (hc.order k o hk).frame fun authID hmem => ?_
      -- the changed authorization belongs to another order
      rw [hauth authID fun heq => hne ?_]
      exact (hl.eq_of_mem ha hk (heq ▸ hmem)).symm
  authorization k b hk := by
    rcases eq_or_ne k id with rfl | hne
    · rw [ha'] at hk
      cases hk
      exact hca
    · exact hc.authorization k b (hauth k hne ▸ hk)

/-- An invalid order without a certificate is coherent whatever its authorizations are, as long as
they expire with it. -/
theorem Order.Coherent.of_invalid (hst : o.status = .invalid) (hc : o.certificateID = [])
    (he : o.Auths st fun a => a.expires = o.expires) : o.Coherent st where
  status := .inr (.inr (.inr hst))
  pending h := by simp [hst] at h
  ready h := by simp [hst] at h
  valid h := by simp [hst] at h
  expires _ := he
  certificate _ := hc

/-- A valid order is coherent when its authorizations are valid or deactivated. -/
theorem Order.Coherent.of_valid (hst : o.status = .valid)
    (h : o.Auths st fun a => a.status = .valid ∨ a.status = .deactivated) : o.Coherent st where
  status := .inr (.inr (.inl hst))
  pending hp := by simp [hst] at hp
  ready hr := by simp [hst] at hr
  valid _ := h
  expires hn := absurd hst hn
  certificate hn := absurd hst hn

/-- What holds of the authorizations of an order still does after one is replaced by another. -/
theorem Order.Auths.set {P : Authorization → Prop} {a : Authorization} (h : o.Auths st P)
    (ha : P a) : o.Auths { st with authorizations := st.authorizations.set id a } P := by
  intro authID hmem b hb
  rcases FinMap.get_set_eq_some.1 hb with ⟨-, rfl⟩ | ⟨-, hb⟩
  · exact ha
  · exact h authID hmem b hb

/-- A pending authorization of a state without invalid orders belongs to a pending order. -/
theorem State.Coherent.order_pending (hc : st.Coherent) (hl : st.Linked cfg) (hset : st.Settled)
    {a : Authorization} (ha : st.authorizations.get id = some a) (hp : a.status = .pending) :
    ∃ o, st.orders.get a.orderID = some o ∧ o.status = .pending ∧ id ∈ o.authIDs := by
  obtain ⟨o, ho, -, hmem⟩ := (hl.authorization id a ha).order
  have hco := hc.order _ o ho
  refine ⟨o, ho, ?_, hmem⟩
  rcases hco.status with h | h | h | h
  · exact h
  · have := hco.ready h id hmem a ha
    simp [hp] at this
  · have := hco.valid h id hmem a ha
    simp [hp] at this
  · exact absurd h (hset _ o ho)

end

/-! ## Certificates -/

/-- A stored certificate, and the valid order it belongs to and expires with. -/
structure Certificate.Linked (crypto : Crypto) (st : State) (id : GoString) (c : Certificate) :
    Prop where
  id_eq : c.id = id
  valid_id : validID id = true
  leaf : ∃ leaf, crypto.parseLeaf c.pem = some leaf ∧ c.serial = formatInt leaf.serialNumber ∧
    c.notAfter = leaf.notAfter
  order : ∃ o, st.orders.get c.orderID = some o ∧ o.status = .valid ∧ o.certificateID = id ∧
    o.accountID = c.accountID ∧ o.expires = c.notAfter
  reason : c.revokedAt.isSome → validRevocationReason c.reason = true

/-- Certificates and valid orders correspond. -/
structure State.Certified (crypto : Crypto) (st : State) : Prop where
  certificate : ∀ id c, st.certificates.get id = some c → c.Linked crypto st id
  order : ∀ id o, st.orders.get id = some o → o.status = .valid →
    o.csr ≠ [] ∧ ∃ c, st.certificates.get o.certificateID = some c ∧ c.orderID = id

/-! ## Quotas and the revocation list -/

/-- The quotas are within their bounds. -/
structure State.Limited (st : State) : Prop where
  size : st.leaseLimits.size ≤ maxRecords
  limit : ∀ source limit, st.leaseLimits.get source = some limit → source ≠ [] ∧
    limit.accounts.length ≤ maxLeaseAccounts ∧ limit.orders.length ≤ maxLeaseOrders

/-- The stored list, if there is one, is signed and has the stored number and expiry. -/
def State.Listed (crypto : Crypto) (st : State) : Prop :=
  st.crl ≠ [] → ∃ list, crypto.parseRevocationList st.crl = some list ∧
    list.number = some st.crlNumber ∧ list.nextUpdate = st.crlNextUpdate ∧
    crypto.listSigned list = true

/-- The invariant of snapshots. -/
structure State.Inv (cfg : Config) (crypto : Crypto) (st : State) : Prop where
  header : st.version = 1 ∧ st.domain = cfg.domain ∧ st.rootFingerprint = cfg.rootFingerprint
  linked : st.Linked cfg
  coherent : st.Coherent
  certified : st.Certified crypto
  limited : st.Limited
  listed : st.Listed crypto

/-- The identifiers of all records are among `ids`. -/
structure State.Uses (ids : List GoString) (st : State) : Prop where
  accounts : ∀ id a, st.accounts.get id = some a → id ∈ ids
  orders : ∀ id o, st.orders.get id = some o → id ∈ ids
  authorizations : ∀ id a, st.authorizations.get id = some a → id ∈ ids
  certificates : ∀ id c, st.certificates.get id = some c → id ∈ ids

/-- Every account has been active. -/
def State.Active (st : State) : Prop := ∀ id a, st.accounts.get id = some a → 0 < a.lastActive

end InfraBox.Acme
