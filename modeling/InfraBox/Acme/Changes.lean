import InfraBox.Acme.Handlers

/-!
# The ACME server: what a mutation does to one record

For each kind of record, what a record after a mutation was before it. The facts about the history
of one authorization, order, account or certificate are proved from these, without looking at the
mutations again.
-/

namespace InfraBox.Acme

/-! ## What an operation leaves as it is -/

/-- Updating an account changes orders and authorizations besides. -/
theorem State.updateAccount_frame (st : State) (id : GoString) (a : Account) :
    ∃ orders authorizations, st.updateAccount id a =
      { st with accounts := st.accounts.set id a, orders, authorizations } := by
  unfold State.updateAccount
  dsimp only
  split <;> exact ⟨_, _, rfl⟩

/-- Deactivating an authorization changes orders and authorizations only. -/
theorem State.deactivateAuthorization_frame (st : State) (id : GoString) (a : Authorization) :
    ∃ orders authorizations, st.deactivateAuthorization id a =
      { st with orders, authorizations } := by
  unfold State.deactivateAuthorization
  dsimp only
  split <;> exact ⟨_, _, rfl⟩

/-- Retrying a challenge changes authorizations only. -/
theorem retryInterruptedChallenge_frame (id : GoString) (st : State) :
    ∃ authorizations, retryInterruptedChallenge id st = { st with authorizations } := by
  unfold retryInterruptedChallenge
  split
  · exact ⟨_, rfl⟩
  split <;> exact ⟨_, rfl⟩

section
variable {crypto : Crypto} {c : Context crypto} {st st' : State} {id : GoString}

/-! ## Authorizations -/

/-- Where an authorization after a mutation comes from. -/
inductive AuthorizationChange (c : Context crypto) (st : State) (id : GoString)
    (a' : Authorization) : Prop
  | kept : st.authorizations.get id = some a' → AuthorizationChange c st id a'
  | added : id ∈ c.env.ids → a'.status = .pending → a'.challengeStatus = .pending →
      AuthorizationChange c st id a'
  | deactivated {a : Authorization} : st.authorizations.get id = some a → a'.shape = a.shape →
      a'.status = .deactivated → a'.challengeStatus ≠ .processing → AuthorizationChange c st id a'
  | challenged {a : Authorization} : st.authorizations.get id = some a → c.challenged = some id →
      a.status = .pending → a'.shape = a.shape → a'.status = .pending ∨ a'.status = .invalid →
      AuthorizationChange c st id a'
  | proved {a : Authorization} {t : Ticket crypto} {target : Target} {now : Int} :
      st.authorizations.get id = some a → c.challenged = some id → c.proof t target →
      t.authID = id → a.status = .pending → a' = a.prove now target →
      AuthorizationChange c st id a'
  | reset {a : Authorization} : st.authorizations.get id = some a → c.restart = true →
      a' = a.reset → AuthorizationChange c st id a'

/-- How an authorization came to be what it is. -/
theorem Mutation.authorization (hm : Mutation c st st') {a' : Authorization}
    (h : st'.authorizations.get id = some a') : AuthorizationChange c st id a' := by
  cases hm with
  | prune _ => exact .kept (State.get_prune_authorizations.1 h).1
  | addAccount _ | recordCreation _ _ _ | noteOrder _ _ _ _ | rejectOrder _ _ | issue _ =>
    exact .kept h
  | addOrder hn =>
    rcases hn.get_authorization.1 h with ⟨hnew, rfl⟩ | ⟨-, hold⟩
    · obtain ⟨-, -, -, -, -, -, hst, hch⟩ := hn.auth hnew
      exact .added (hn.auth_mem a' hnew).1 hst hch
    · exact .kept hold
  | updateAccount _ =>
    unfold State.updateAccount at h
    dsimp only at h
    split at h
    · simp only [State.deactivateAccount, FinMap.get_mapVals, Option.map_eq_some_iff] at h
      obtain ⟨a, ha, rfl⟩ := h
      unfold Authorization.accountDeactivated
      split
      · exact .deactivated ha rfl rfl fun hp => (by cases hp)
      · exact .kept ha
    · exact .kept h
  | @deactivateAuthorization k a ha =>
    have hset : (st.authorizations.set k a.deactivate).get id = some a' := by
      unfold State.deactivateAuthorization at h
      dsimp only at h
      split at h <;> exact h
    rcases FinMap.get_set_eq_some.1 hset with ⟨rfl, rfl⟩ | ⟨-, hold⟩
    · refine .deactivated ha rfl rfl ?_
      unfold Authorization.deactivate
      split
      · exact fun hp => (by cases hp)
      · assumption
    · exact .kept hold
  | @begin k a hc ha hst =>
    rcases FinMap.get_set_eq_some.1 h with ⟨rfl, rfl⟩ | ⟨-, hold⟩
    · exact .challenged ha hc hst rfl (.inl hst)
    · exact .kept hold
  | @retry k hc =>
    unfold retryInterruptedChallenge at h
    split at h
    · exact .kept h
    next a ha =>
    split at h
    · next hst =>
      rcases FinMap.get_set_eq_some.1 h with ⟨rfl, rfl⟩ | ⟨-, hold⟩
      · exact .challenged ha hc hst.1 rfl (.inl hst.1)
      · exact .kept hold
    · exact .kept h
  | @failChallenge k a hc ha hst _ =>
    rcases FinMap.get_set_eq_some.1 h with ⟨rfl, rfl⟩ | ⟨-, hold⟩
    · exact .challenged ha hc hst rfl (.inr rfl)
    · exact .kept hold
  | @proveChallenge t a now target hc hp ha hst _ =>
    rcases FinMap.get_set_eq_some.1 h with ⟨rfl, rfl⟩ | ⟨-, hold⟩
    · exact .proved ha hc hp rfl hst rfl
    · exact .kept hold
  | relist _ _ hs =>
    obtain ⟨_, _, _, -, -, -, -, -, -, rfl⟩ := State.refreshCRL_some hs
    exact .kept h
  | reset hr =>
    simp only [State.reset, FinMap.get_mapVals, Option.map_eq_some_iff] at h
    obtain ⟨a, ha, rfl⟩ := h
    exact .reset ha hr rfl

/-- A valid authorization was valid before, with the same target, or it is proved now. -/
theorem Mutation.valid_source (hm : Mutation c st st') {a' : Authorization}
    (h : st'.authorizations.get id = some a') (hst : a'.status = .valid) :
    (∃ a, st.authorizations.get id = some a ∧ a.status = .valid ∧ a.target = a'.target) ∨
      ∃ t, c.proof t a'.target ∧ t.authID = id := by
  cases hm.authorization h with
  | kept hold => exact .inl ⟨a', hold, hst, rfl⟩
  | added _ hp _ => simp [hst] at hp
  | deactivated _ _ hd _ => simp [hst] at hd
  | challenged _ _ _ _ hor => simp [hst] at hor
  | @proved a t target now _ _ hproof hid _ heq =>
    subst heq
    exact .inr ⟨t, hproof, hid⟩
  | @reset a ha _ heq =>
    subst heq
    refine .inl ⟨a, ha, a.reset_status ▸ hst, ?_⟩
    unfold Authorization.reset
    split <;> rfl

/-! ## Orders -/

/-- Where an order that is not new comes from. A valid order is never changed. -/
inductive OrderKept (st : State) (id : GoString) (o' : Order) : Prop
  | same : st.orders.get id = some o' → OrderKept st id o'
  | changed {o : Order} : st.orders.get id = some o → o.status = .pending ∨ o.status = .ready →
      o'.shape = o.shape → OrderKept st id o'

/-- A mutation adds an order or keeps orders. -/
theorem Mutation.orders (hm : Mutation c st st') (hinv : st.Inv c.cfg crypto) :
    (∃ o auths, NewOrder c st o auths ∧ st'.orders = st.orders.set o.id o) ∨
      ∀ id o', st'.orders.get id = some o' → OrderKept st id o' := by
  -- the order of an authorization, when it is open, is stored again
  have hset : ∀ {orderID o o' k o₁}, st.orders.get orderID = some o →
      o.status = .pending ∨ o.status = .ready → (st.orders.set o.id o').get k = some o₁ →
      o'.shape = o.shape → OrderKept st k o₁ := by
    intro orderID o o' k o₁ ho hopen hk hshape
    rcases FinMap.get_set_eq_some.1 hk with ⟨rfl, rfl⟩ | ⟨-, hold⟩
    · exact .changed (by rw [(hinv.linked.order _ o ho).id_eq, ho]) hopen hshape
    · exact .same hold
  cases hm with
  | addOrder hn => exact .inl ⟨_, _, hn, rfl⟩
  | prune _ => exact .inr fun id o' h => .same (State.get_prune_orders.1 h).1
  | updateAccount _ =>
    refine .inr fun id o' h => ?_
    unfold State.updateAccount at h
    dsimp only at h
    split at h
    · simp only [State.deactivateAccount, FinMap.get_mapVals, Option.map_eq_some_iff] at h
      obtain ⟨o, ho, rfl⟩ := h
      unfold Order.accountDeactivated
      split
      · next hst => exact .changed ho hst.2 rfl
      · exact .same ho
    · exact .same h
  | @deactivateAuthorization k a ha =>
    refine .inr fun id o' h => ?_
    obtain ⟨o, ho, -⟩ := (hinv.linked.authorization k a ha).order
    simp only [State.deactivateAuthorization, ho, Option.getD_some] at h
    split at h
    · next hst => exact hset ho hst h rfl
    · exact .same h
  | @retry k _ =>
    obtain ⟨auths, heq⟩ := retryInterruptedChallenge_frame k st
    rw [heq]
    exact .inr fun _ _ h => .same h
  | @failChallenge k a _ ha hst hset' =>
    refine .inr fun id o' h => ?_
    obtain ⟨o, ho, hpend, -⟩ := hinv.coherent.order_pending hinv.linked hset' ha hst
    simp only [State.failChallenge, ho, Option.getD_some] at h
    exact hset ho (.inl hpend) h rfl
  | @proveChallenge t a now target _ _ ha hst hset' =>
    refine .inr fun id o' h => ?_
    obtain ⟨o, ho, hpend, -⟩ := hinv.coherent.order_pending hinv.linked hset' ha hst
    simp only [State.proveChallenge, ho, Option.getD_some] at h
    exact hset ho (.inl hpend) h rfl
  | rejectOrder ho hst =>
    refine .inr fun id o' h => ?_
    rcases FinMap.get_set_eq_some.1 h with ⟨rfl, rfl⟩ | ⟨-, hold⟩
    · exact .changed ho (.inr hst) rfl
    · exact .same hold
  | issue hi =>
    refine .inr fun id o' h => ?_
    rcases FinMap.get_set_eq_some.1 h with ⟨rfl, rfl⟩ | ⟨-, hold⟩
    · exact .changed hi.get (.inr hi.ready) rfl
    · exact .same hold
  | relist _ _ hs =>
    obtain ⟨_, _, _, -, -, -, -, -, -, rfl⟩ := State.refreshCRL_some hs
    exact .inr fun _ _ h => .same h
  | _ => exact .inr fun _ _ h => .same h

/-- Where an order after a mutation comes from. -/
inductive OrderChange (c : Context crypto) (st : State) (id : GoString) (o' : Order) : Prop
  | kept : st.orders.get id = some o' → OrderChange c st id o'
  | added : id ∈ c.env.ids → o'.status = .pending → OrderChange c st id o'
  | changed {o : Order} : st.orders.get id = some o → o.status = .pending ∨ o.status = .ready →
      o'.shape = o.shape → OrderChange c st id o'

/-- How an order came to be what it is. -/
theorem Mutation.order (hm : Mutation c st st') (hinv : st.Inv c.cfg crypto) {o' : Order}
    (h : st'.orders.get id = some o') : OrderChange c st id o' := by
  rcases hm.orders hinv with ⟨o, auths, hn, heq⟩ | hkept
  · rw [heq] at h
    rcases FinMap.get_set_eq_some.1 h with ⟨rfl, rfl⟩ | ⟨-, hold⟩
    · exact .added hn.id_mem hn.status
    · exact .kept hold
  · cases hkept id o' h with
    | same hold => exact .kept hold
    | changed ho hopen hshape => exact .changed ho hopen hshape

/-! ## Accounts -/

/-- The last activity, with what is not persisted yet, is the later of the two. -/
theorem Account.active_eq_max (activity : FinMap GoString Int) (id : GoString) (a : Account) :
    a.active activity id = max a.lastActive ((activity.get id).getD 0) := by
  unfold Account.active
  split <;> omega

/-- How the accounts change. -/
inductive AccountsChange (c : Context crypto) (st : State) : FinMap GoString Account → Prop
  | same : AccountsChange c st st.accounts
  | pruned {activity : FinMap GoString Int} {now : Int} : (∃ p i, now = c.env.clock.read p i) →
      AccountsChange c st (st.prune activity now).accounts
  | added {id : GoString} {a : Account} : NewAccount c st id a →
      AccountsChange c st (st.accounts.set id a)
  | noted {accountID : GoString} {now : Int} :
      accountID ∈ c.used → 0 < (c.activity.get accountID).getD 0 →
      ((st.accounts.get accountID).getD default).recentOrders.length < maxAccountOrders →
      c.creates = true → AccountsChange c st (st.noteOrder accountID now).accounts
  | updated {id : GoString} {a a' : Account} : UpdatedAccount crypto st id a a' →
      AccountsChange c st (st.accounts.set id a')

/-- What a mutation does to the accounts. -/
theorem Mutation.accounts (hm : Mutation c st st') : AccountsChange c st st'.accounts := by
  cases hm with
  | prune hnow => exact .pruned hnow
  | addAccount hn => exact .added hn
  | noteOrder hused hpos hfew hcr => exact .noted hused hpos hfew hcr
  | @updateAccount id a a' hu =>
    obtain ⟨orders, auths, heq⟩ := st.updateAccount_frame id a'
    rw [heq]
    exact .updated hu
  | @deactivateAuthorization id a _ =>
    obtain ⟨orders, auths, heq⟩ := st.deactivateAuthorization_frame id a
    rw [heq]
    exact .same
  | @retry id _ =>
    obtain ⟨auths, heq⟩ := retryInterruptedChallenge_frame id st
    rw [heq]
    exact .same
  | relist _ _ hs =>
    obtain ⟨_, _, _, -, -, -, -, -, -, rfl⟩ := State.refreshCRL_some hs
    exact .same
  | _ => exact .same

/-- Where an account after a mutation comes from. A new order whose account was pruned leaves a
blank account under the old identifier, with the activity of the request. -/
inductive AccountChange (c : Context crypto) (st : State) (id : GoString) (a' : Account) : Prop
  | kept {a : Account} : st.accounts.get id = some a → a'.status = a.status →
      a.lastActive ≤ a'.lastActive → AccountChange c st id a'
  | added : id ∈ c.env.ids → 0 < a'.lastActive → AccountChange c st id a'
  | updated {a : Account} : st.accounts.get id = some a → a.status = .valid →
      a'.lastActive = a.lastActive → AccountChange c st id a'
  | blank : id ∈ c.used → a'.status = .other [] → 0 < (c.activity.get id).getD 0 →
      AccountChange c st id a'

/-- How an account came to be what it is. -/
theorem AccountsChange.account {accounts : FinMap GoString Account}
    (hc : AccountsChange c st accounts) {a' : Account} (h : accounts.get id = some a') :
    AccountChange c st id a' := by
  have hkept : st.accounts.get id = some a' → AccountChange c st id a' := fun h =>
    .kept h rfl (Int.le_refl _)
  cases hc with
  | same => exact hkept h
  | pruned _ =>
    obtain ⟨a, ha, rfl⟩ := State.of_prune_accounts h
    refine .kept ha rfl ?_
    rw [Account.active_eq_max]
    exact Int.le_max_left _ _
  | added hn =>
    rcases FinMap.get_set_eq_some.1 h with ⟨rfl, rfl⟩ | ⟨-, hold⟩
    · exact .added hn.id_mem hn.active
    · exact hkept hold
  | noted hused hpos _ =>
    rcases FinMap.get_set_eq_some.1 h with ⟨rfl, rfl⟩ | ⟨-, hold⟩
    · cases hg : st.accounts.get id with
      | none => exact .blank hused rfl hpos
      | some a => exact .kept hg rfl (Int.le_refl _)
    · exact hkept hold
  | updated hu =>
    rcases FinMap.get_set_eq_some.1 h with ⟨rfl, rfl⟩ | ⟨-, hold⟩
    · exact .updated hu.get hu.active hu.lastActive
    · exact hkept hold

theorem Mutation.account (hm : Mutation c st st') {a' : Account}
    (h : st'.accounts.get id = some a') : AccountChange c st id a' :=
  hm.accounts.account h

/-- Accounts stay active in the light of the activity map. -/
theorem Mutation.active (hm : Mutation c st st')
    (hact : ∀ id a, st.accounts.get id = some a → 0 < a.active c.activity id) :
    ∀ id a, st'.accounts.get id = some a → 0 < a.active c.activity id := by
  intro id a' h
  rw [Account.active_eq_max]
  cases hm.account h with
  | @kept a ha _ hle | @updated a ha _ hle =>
    have := hact id a ha
    rw [Account.active_eq_max] at this
    omega
  | added _ hpos | blank _ _ hpos => omega

/-! ## Certificates -/

/-- How the certificates change. -/
inductive CertificatesChange (c : Context crypto) (st : State) :
    FinMap GoString Certificate → Prop
  | same : CertificatesChange c st st.certificates
  | pruned {activity : FinMap GoString Int} {now : Int} : (∃ p i, now = c.env.clock.read p i) →
      CertificatesChange c st (st.prune activity now).certificates
  | issued {id : GoString} {o : Order} {csr certID chain : GoString} {leaf : Leaf} :
      Issued c st id o csr certID chain leaf →
      CertificatesChange c st (st.issue id o csr certID chain leaf).certificates
  | relisted {certificates : FinMap GoString Certificate} : Relisted st certificates →
      CertificatesChange c st certificates

/-- What a mutation does to the certificates. -/
theorem Mutation.certificates (hm : Mutation c st st') :
    CertificatesChange c st st'.certificates := by
  cases hm with
  | prune hnow => exact .pruned hnow
  | issue hi => exact .issued hi
  | @updateAccount id a a' _ =>
    obtain ⟨orders, auths, heq⟩ := st.updateAccount_frame id a'
    rw [heq]
    exact .same
  | @deactivateAuthorization id a _ =>
    obtain ⟨orders, auths, heq⟩ := st.deactivateAuthorization_frame id a
    rw [heq]
    exact .same
  | @retry id _ =>
    obtain ⟨auths, heq⟩ := retryInterruptedChallenge_frame id st
    rw [heq]
    exact .same
  | relist hr _ hs =>
    obtain ⟨_, _, _, -, -, -, -, -, -, rfl⟩ := State.refreshCRL_some hs
    exact .relisted hr
  | _ => exact .same

/-- A certificate after a mutation is a new one or was there. -/
theorem Mutation.certificate_source (hm : Mutation c st st') {cert' : Certificate}
    (h : st'.certificates.get id = some cert') :
    id ∈ c.env.ids ∨ ∃ cert, st.certificates.get id = some cert := by
  have hc := hm.certificates
  generalize st'.certificates = certificates at hc h
  cases hc with
  | same => exact .inr ⟨_, h⟩
  | pruned _ => exact .inr ⟨_, (State.get_prune_certificates.1 h).1⟩
  | issued hi =>
    rcases FinMap.get_set_eq_some.1 h with ⟨rfl, -⟩ | ⟨-, hold⟩
    · exact .inl hi.id_mem
    · exact .inr ⟨_, hold⟩
  | relisted hr =>
    obtain ⟨cert, hcert, -⟩ := hr.get h
    exact .inr ⟨cert, hcert⟩

/-- Where a stored certificate goes: it is kept, or revoked for the first time, or it has
expired. -/
theorem Mutation.certificate (hm : Mutation c st st') (hinv : st.Inv c.cfg crypto)
    {cert : Certificate} (h : st.certificates.get id = some cert) :
    (∃ cert', st'.certificates.get id = some cert' ∧ (cert' = cert ∨
      (cert.revokedAt = none ∧ ∃ now reason, cert' = cert.revoke now reason))) ∨
    ∃ p i, cert.notAfter ≤ c.env.clock.read p i := by
  have hc := hm.certificates
  generalize st'.certificates = certificates at hc
  cases hc with
  | same => exact .inl ⟨cert, h, .inl rfl⟩
  | @pruned activity now hnow =>
    obtain ⟨p, i, rfl⟩ := hnow
    refine or_iff_not_imp_right.2 fun hexp => ⟨cert, ?_, .inl rfl⟩
    refine State.get_prune_certificates.2 ⟨h, fun k o ho hdead heq => hexp ⟨p, i, ?_⟩⟩
    obtain ⟨hval, hid⟩ := hinv.certified.order_of_certificateID hinv.coherent h ho heq
    obtain ⟨o', ho', -, -, -, hexp⟩ := (hinv.certified.certificate id cert h).order
    rw [hid, ho] at ho'
    cases ho'
    refine Decidable.byContradiction fun hlt => ?_
    rw [Order.live_iff.2 ⟨by simp [hval], by omega⟩] at hdead
    cases hdead
  | issued hi =>
    refine .inl ⟨cert, ?_, .inl rfl⟩
    rw [State.issue, FinMap.get_set_ne _ _ fun heq => ?_, h]
    rw [heq, hi.id_new] at h
    cases h
  | relisted hr =>
    obtain ⟨cert', hget, heq⟩ := hr.of_get h
    refine .inl ⟨cert', hget, heq.imp_right ?_⟩
    rintro ⟨hnone, now, reason, -, heq⟩
    exact ⟨hnone, now, reason, heq⟩

/-- The stored list and its number change only when a list is made. -/
theorem Mutation.crl (hm : Mutation c st st') :
    (st'.crl = st.crl ∧ st'.crlNumber = st.crlNumber) ∨
      ∃ certificates p i, Relisted st certificates ∧
        { st with certificates }.refreshCRL crypto c.env.createCRL (c.env.clock.read p i) =
          some st' := by
  cases hm with
  | relist hr hnow hs =>
    obtain ⟨p, i, rfl⟩ := hnow
    exact .inr ⟨_, p, i, hr, hs⟩
  | @updateAccount id a a' _ =>
    obtain ⟨orders, auths, heq⟩ := st.updateAccount_frame id a'
    rw [heq]
    exact .inl ⟨rfl, rfl⟩
  | @deactivateAuthorization id a _ =>
    obtain ⟨orders, auths, heq⟩ := st.deactivateAuthorization_frame id a
    rw [heq]
    exact .inl ⟨rfl, rfl⟩
  | @retry id _ =>
    obtain ⟨auths, heq⟩ := retryInterruptedChallenge_frame id st
    rw [heq]
    exact .inl ⟨rfl, rfl⟩
  | _ => exact .inl ⟨rfl, rfl⟩

/-! ## Identifiers -/

/-- Every record has an identifier drawn now or before. -/
theorem Mutation.uses (hm : Mutation c st st') (hinv : st.Inv c.cfg crypto)
    (hu : st.Uses (c.env.ids ++ c.used)) : st'.Uses (c.env.ids ++ c.used) where
  accounts id a' h := by
    cases hm.account h with
    | kept ha _ _ | updated ha _ _ => exact hu.accounts _ _ ha
    | added hid _ => exact List.mem_append_left _ hid
    | blank hid _ _ => exact List.mem_append_right _ hid
  orders id o' h := by
    cases hm.order hinv h with
    | kept ho | changed ho _ _ => exact hu.orders _ _ ho
    | added hid _ => exact List.mem_append_left _ hid
  authorizations id a' h := by
    cases hm.authorization h with
    | kept ha | deactivated ha _ _ _ | challenged ha _ _ _ _ | proved ha _ _ _ _ _ | reset ha _ _ =>
      exact hu.authorizations _ _ ha
    | added hid _ _ => exact List.mem_append_left _ hid
  certificates id cert' h := by
    rcases hm.certificate_source h with hid | ⟨cert, hcert⟩
    · exact List.mem_append_left _ hid
    · exact hu.certificates _ _ hcert

end

end InfraBox.Acme
