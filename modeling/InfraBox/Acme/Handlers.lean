import InfraBox.Acme.Mutation
import InfraBox.Lib.Unseen

/-!
# The ACME server: what its handlers commit

Every snapshot a handler commits comes from the current one by the mutations of `Mutation`, with the
guards the handler has checked (`Op.commits`, `challengeResult_commits`).
-/

namespace InfraBox.Acme

variable {env : Env} {cfg : Config}

/-! ## Quotas -/

/-- Fewer times are recent later. -/
theorem length_recentTimes_le (l : List Int) {c c' : Int} (h : c ≤ c') :
    (recentTimes l c').length ≤ (recentTimes l c).length := by
  refine (List.monotone_filter_right l fun t ht => ?_).length_le
  simp only [decide_eq_true_eq] at ht ⊢
  omega

/-- Fewer times are recent later, also among those that were recent in between. -/
theorem length_recentTimes_recentTimes_le (l : List Int) {c c' d : Int} (h : c ≤ c') :
    (recentTimes (recentTimes l d) c').length ≤ (recentTimes l c).length :=
  ((List.filter_sublist.filter _).length_le).trans (length_recentTimes_le l h)

section
variable {st : State} {clock : Clock} {p : Nat} {source : GoString} {accountCreation : Bool}

/-- What `allowCreation` has checked. -/
theorem allowCreation_none (h : allowCreation st clock p source accountCreation = none) :
    source ≠ [] ∧ st.UnderQuota (clock.now p) source accountCreation ∧
      ((st.leaseLimits.get source).isSome ∨ st.leaseLimits.size < maxRecords ∨
        liveLimits (clock.read (p + 2)) st.leaseLimits < maxRecords) := by
  unfold allowCreation at h
  split at h
  · cases h
  next hs =>
  split at h
  next times maximum window hq =>
  dsimp only at h
  split at h
  · cases h
  next hroom =>
  split at h
  · cases h
  next hcap =>
  refine ⟨hs, ?_, ?_⟩
  · simpa [State.UnderQuota, hq] using hroom
  · simp only [Bool.and_eq_true, decide_eq_true_eq, Option.isNone_iff_eq_none] at hcap
    cases hg : st.leaseLimits.get source with
    | some limit => exact .inl rfl
    | none =>
      rcases Nat.lt_or_ge st.leaseLimits.size maxRecords with hlt | hge
      · exact .inr (.inl hlt)
      · exact .inr (.inr (Nat.lt_of_not_ge fun hlive => hcap ⟨⟨hg, hge⟩, hlive⟩))

/-- A source under its quota is so after pruning, at any later time. -/
theorem State.UnderQuota.prune {t t' : Int} (h : st.UnderQuota t source accountCreation)
    (activity : FinMap GoString Int) (now : Int) (ht : t ≤ t') :
    (st.prune activity now).UnderQuota t' source accountCreation := by
  cases hg : st.leaseLimits.get source with
  | none =>
    simp only [State.UnderQuota, State.prune, FinMap.get_filterMap, hg, Option.bind_none,
      Option.getD_none]
    cases accountCreation <;> exact Nat.zero_lt_succ _
  | some limit =>
    simp only [State.UnderQuota, hg, Option.getD_some] at h
    simp only [State.UnderQuota, State.prune, FinMap.get_filterMap, hg, Option.bind_some,
      LeaseLimit.prune]
    split
    · cases accountCreation <;> exact Nat.zero_lt_succ _
    · cases accountCreation
      · exact (length_recentTimes_recentTimes_le _
          (Int.sub_le_sub_right ht orderRateWindow)).trans_lt h
      · exact (length_recentTimes_recentTimes_le _
          (Int.sub_le_sub_right ht accountRateWindow)).trans_lt h

/-- Pruning keeps no more quotas than were live before. -/
theorem size_prune_leaseLimits_le {activity : FinMap GoString Int} {now : Nat → Int} {t : Int}
    (h : ∀ i, now i ≤ t) :
    (st.prune activity t).leaseLimits.size ≤ liveLimits now st.leaseLimits := by
  have hfst : st.leaseLimits.entries.zipIdx.map Prod.fst = st.leaseLimits.entries :=
    List.zipIdx_map_fst 0 st.leaseLimits.entries
  rw [State.prune, FinMap.size_filterMap, ← hfst, List.countP_map, liveLimits]
  refine List.countP_mono_left fun e _ he => ?_
  simp only [Function.comp_apply, LeaseLimit.prune] at he
  split at he
  · cases he
  next hlive =>
  have hacc := length_recentTimes_le e.1.2.accounts
    (Int.sub_le_sub_right (h (2 * e.2)) accountRateWindow)
  have hord := length_recentTimes_le e.1.2.orders
    (Int.sub_le_sub_right (h (2 * e.2 + 1)) orderRateWindow)
  simp only [Bool.or_eq_true, decide_eq_true_eq]
  omega

/-- A creation that was allowed has room in the pruned quotas. -/
theorem allowCreation_room (h : allowCreation st clock p source accountCreation = none)
    (hl : st.Limited) (activity : FinMap GoString Int) {t : Int}
    (ht : ∀ i, clock.read (p + 2) i ≤ t) :
    ((st.prune activity t).leaseLimits.get source).isSome ∨
      (st.prune activity t).leaseLimits.size < maxRecords := by
  obtain ⟨-, -, hin | hlt | hlive⟩ := allowCreation_none h
  · cases hg : ((st.prune activity t).leaseLimits.get source) with
    | some limit => exact .inl rfl
    | none =>
      refine .inr ((FinMap.size_lt_of_subset (fun k hk => ?_) hg hin).trans_le hl.size)
      rw [State.prune, FinMap.get_filterMap] at hk
      cases hk' : st.leaseLimits.get k with
      | none => simp [hk'] at hk
      | some limit => rfl
  · exact .inr ((FinMap.size_filterMap_le _ _).trans_lt hlt)
  · exact .inr ((size_prune_leaseLimits_le ht).trans_lt hlive)

end

/-! ## What a handler starts from -/

theorem Env.randomID_eq (env : Env) (i : Nat) : env.randomID i = env.ids[i]? := by
  rw [Env.randomID, Env.ids, List.getElem?_map]

theorem Env.randomID_mem {i : Nat} {id : GoString} (h : env.randomID i = some id) :
    id ∈ env.ids :=
  List.mem_of_getElem? (env.randomID_eq i ▸ h)

/-- Different calls of `randomID` return different identifiers. -/
theorem Env.randomID_inj (hnodup : env.ids.Nodup) {i j : Nat} {id : GoString}
    (hi : env.randomID i = some id) (hj : env.randomID j = some id) : i = j := by
  rw [Env.randomID_eq] at hi hj
  obtain ⟨hlt, -⟩ := List.getElem?_eq_some_iff.1 hi
  exact (List.getElem?_inj hlt hnodup).1 (hi.trans hj.symm)

/-- The state a handler runs in: the invariant, no invalid order, and random identifiers that no
record has. -/
structure Ready {crypto : Crypto} (c : Context crypto) (st : State) : Prop where
  inv : st.Inv c.cfg crypto
  settled : st.Settled
  uses : st.Uses c.used
  fresh : c.env.Fresh c.used

/-- No record has an identifier that is drawn now. -/
theorem Ready.unused {crypto : Crypto} {c : Context crypto} {st : State} (h : Ready c st)
    {id : GoString} (hid : id ∈ c.env.ids) : st.accounts.get id = none ∧
      st.orders.get id = none ∧ st.authorizations.get id = none ∧
      st.certificates.get id = none := by
  have hnot := h.fresh.unused id hid
  refine ⟨?_, ?_, ?_, ?_⟩ <;> refine Option.eq_none_iff_forall_ne_some.2 fun r hr => hnot ?_
  · exact h.uses.accounts id r hr
  · exact h.uses.orders id r hr
  · exact h.uses.authorizations id r hr
  · exact h.uses.certificates id r hr

section
variable {crypto : Crypto} {c : Context crypto} (codec : Codec crypto) {srv : Server crypto}
  {signed : Request crypto} {accountID id source : GoString} {activity : FinMap GoString Int}
  {cm : Commit crypto}

/-! ## Accounts -/

/-- A new account that is committed: what has been checked and what is stored. -/
theorem newAccount_commit
    (h : newAccount cfg codec srv env signed source = .commit activity cm) :
    activity = srv.activity ∧ cm.retry = none ∧ cm.now = env.clock.now 7 ∧
      (∃ r, cm.answer = .respond r) ∧
      (∀ k b, srv.state.accounts.get k = some b → b.thumbprint ≠ signed.thumbprint) ∧
      allowCreation srv.state env.clock 0 source true = none ∧
      (srv.state.prune srv.activity (env.clock.now 3)).accounts.size < maxAccounts ∧
      ∃ id contact, env.randomID 0 = some id ∧
        cm.next = { (srv.state.prune srv.activity (env.clock.now 3)).recordCreation env.clock 5
            source true with
          accounts := (srv.state.prune srv.activity (env.clock.now 3)).accounts.set id
            ⟨id, signed.key, signed.thumbprint, .valid, contact, env.clock.now 4, []⟩ } := by
  unfold newAccount at h
  dsimp only at h
  split at h
  · cases h
  split at h
  · cases h
  split at h
  · cases h
  next hunique =>
  split at h
  · cases h
  split at h
  · cases h
  next contact _ =>
  split at h
  · cases h
  next hallow =>
  split at h
  · cases h
  next hroom =>
  split at h
  · cases h
  next id hid =>
  cases h
  refine ⟨rfl, rfl, rfl, ⟨_, rfl⟩, fun k b hk => ?_, hallow, Nat.lt_of_not_le hroom, id, contact,
    hid, rfl⟩
  simpa using FinMap.find_eq_none.1 hunique k b hk

/-- `newAccount` prunes, counts the creation and adds the account. -/
theorem newAccount_commits (hc : c.challenged = none) (hcr : c.creates = true)
    (hr : Ready c srv.state)
    (h : newAccount c.cfg codec srv c.env signed source = .commit activity cm) :
    Commits c srv.state cm := by
  obtain ⟨-, hretry, hnow, ⟨r, hans⟩, hunique, hallow, hroom, id, contact, hid, hnext⟩ :=
    newAccount_commit codec h
  refine ⟨hretry.trans hc.symm, ⟨7, 0, hnow⟩, fun _ ht => (by cases hans.symm.trans ht), hnext ▸ ?_⟩
  have hmem := Env.randomID_mem hid
  obtain ⟨hsource, hquota, -⟩ := allowCreation_none hallow
  have hquota' := hquota.prune srv.activity (c.env.clock.now 3)
    (c.env.clock.mono 0 0 5 0 (.inl (by decide)))
  have hcap := allowCreation_room hallow hr.inv.limited srv.activity fun i =>
    c.env.clock.mono 2 i 3 0 (.inl (by decide))
  refine ((Relation.ReflTransGen.single (.prune ⟨3, 0, rfl⟩)).tail
    (.recordCreation hsource hquota' hcap hcr)).tail (.addAccount ⟨hmem, ?_, rfl, signed.verified,
      fun k b hk => ?_, rfl, c.env.clock.pos 4 0, rfl, hroom⟩)
  · exact State.get_prune_accounts_none _ _ (hr.unused hmem).1
  · obtain ⟨old, hold, rfl⟩ := State.of_prune_accounts hk
    exact hunique k old hold

/-- An update of an account that is committed. -/
theorem account_commit
    (h : account cfg codec srv env signed accountID id = .commit activity cm) :
    id = accountID ∧ cm.retry = none ∧ cm.now = env.clock.now 1 ∧ (∃ r, cm.answer = .respond r) ∧
      ∃ a a', UpdatedAccount crypto srv.state accountID a a' ∧
        cm.next = srv.state.updateAccount accountID a' := by
  unfold account at h
  dsimp only at h
  split at h
  · cases h
  next hid =>
  split at h
  · cases h
  split at h
  · cases h
  split at h
  · cases h
  next status hstatus =>
  split at h
  · cases h
  next a act hact =>
  split at h
  · cases h
    rw [ne_eq, not_not] at hid
    subst hid
    obtain ⟨hget, hvalid, -⟩ := activeAccount_ok _ hact
    refine ⟨rfl, rfl, rfl, ⟨_, rfl⟩, a, _, ?_, rfl⟩
    refine ⟨hget, hvalid, rfl, rfl, rfl, ?_, .inl ⟨rfl, rfl⟩⟩
    unfold accountStatus at hstatus
    split at hstatus
    · cases hstatus
      exact .inl hvalid
    split at hstatus
    · cases hstatus
    split at hstatus
    · cases hstatus
      exact .inl rfl
    split at hstatus
    · cases hstatus
      exact .inr rfl
    · cases hstatus
  · cases h

theorem account_commits (hc : c.challenged = none)
    (h : account c.cfg codec srv c.env signed accountID id = .commit activity cm) :
    Commits c srv.state cm := by
  obtain ⟨-, hretry, hnow, ⟨r, hans⟩, a, a', hu, hnext⟩ := account_commit codec h
  exact ⟨hretry.trans hc.symm, ⟨1, 0, hnow⟩, fun _ ht => (by cases hans.symm.trans ht),
    hnext ▸ .single (.updateAccount hu)⟩

/-- A change of an account's key that is committed. -/
theorem keyChange_commit
    (h : keyChange cfg codec srv env signed accountID = .commit activity cm) :
    cm.retry = none ∧ cm.now = env.clock.now 1 ∧ (∃ r, cm.answer = .respond r) ∧
      ∃ a a', UpdatedAccount crypto srv.state accountID a a' ∧
        cm.next = srv.state.updateAccount accountID a' := by
  unfold keyChange at h
  dsimp only at h
  split at h
  · cases h
  next inner _ =>
  split at h
  · cases h
  split at h
  · cases h
  split at h
  · cases h
  split at h
  · cases h
  split at h
  · cases h
  next a act hact =>
  split at h
  · cases h
  next hunique =>
  cases h
  obtain ⟨hget, hvalid, -⟩ := activeAccount_ok _ hact
  refine ⟨rfl, rfl, ⟨_, rfl⟩, a, { a with key := inner.key, thumbprint := inner.thumbprint }, ?_,
    ?_⟩
  · refine ⟨hget, hvalid, rfl, rfl, rfl, .inl hvalid, .inr ⟨inner.verified, fun k b hk => ?_⟩⟩
    simpa using FinMap.find_eq_none.1 hunique k b hk
  · rw [State.updateAccount, if_neg (by rw [hvalid]; decide)]

theorem keyChange_commits (hc : c.challenged = none)
    (h : keyChange c.cfg codec srv c.env signed accountID = .commit activity cm) :
    Commits c srv.state cm := by
  obtain ⟨hretry, hnow, ⟨r, hans⟩, a, a', hu, hnext⟩ := keyChange_commit codec h
  exact ⟨hretry.trans hc.symm, ⟨1, 0, hnow⟩, fun _ ht => (by cases hans.symm.trans ht),
    hnext ▸ .single (.updateAccount hu)⟩

/-! ## Orders -/

/-- The names an order is made for: as many as requested, allowed and distinct. -/
theorem orderNames_ok {lookup : Nat → GoString → Option Target}
    {names ids : List Identifier} {i : Nat} {seen : List GoString}
    (h : orderNames cfg lookup names i seen = .ok ids) :
    ids.length = names.length ∧
      (∀ n ∈ ids, n.type = str "dns" ∧ cfg.allowedName n.value = true) ∧
      Unseen Identifier.value seen ids := by
  induction names generalizing i seen ids with
  | nil =>
    cases h
    exact ⟨rfl, by simp, .nil⟩
  | cons name names ih =>
    simp only [orderNames] at h
    split at h
    · cases h
    split at h
    · cases h
    next hok =>
    split at h
    · cases h
    split at h
    · cases h
    next rest hrest =>
    cases h
    obtain ⟨hlen, hall, hdistinct⟩ := ih hrest
    simp only [Bool.or_eq_true, Bool.not_eq_eq_eq_not, Bool.not_true, not_or, decide_eq_true_eq,
      not_not, Bool.not_eq_false] at hok
    exact ⟨by simp [hlen], List.forall_mem_cons.2 ⟨hok.1, hall⟩, unseen_cons.2 ⟨hok.2, hdistinct⟩⟩

/-- The authorizations of a new order, one for each name, with identifiers of their own. -/
theorem newAuthorizations_some {orderID : GoString} {expires : Int}
    {names : List Identifier} {i : Nat} {auths : List Authorization} (hnodup : env.ids.Nodup)
    (h : newAuthorizations env accountID orderID expires names i = some auths) :
    List.Forall₂ (fun (n : Identifier) (a : Authorization) => a.orderID = orderID ∧
        a.accountID = accountID ∧ a.name = n.value ∧ a.expires = expires ∧ a.status = .pending ∧
        a.challengeStatus = .pending) names auths ∧
      (∀ a ∈ auths, a.token ∈ env.ids ∧ ∃ j, i ≤ j ∧ env.randomID (1 + 2 * j) = some a.id) ∧
      (auths.map Authorization.id).Nodup := by
  induction names generalizing i auths with
  | nil =>
    cases h
    exact ⟨.nil, by simp, List.nodup_nil⟩
  | cons name names ih =>
    simp only [newAuthorizations] at h
    split at h
    · next authID token rest hid htoken hrest =>
      cases h
      obtain ⟨hforall, hmem, hnd⟩ := ih hrest
      refine ⟨.cons ⟨rfl, rfl, rfl, rfl, rfl, rfl⟩ hforall, fun a ha => ?_, ?_⟩
      · rcases List.mem_cons.1 ha with rfl | ha
        · exact ⟨Env.randomID_mem htoken, i, Nat.le_refl i, hid⟩
        · obtain ⟨ht, j, hj, hj'⟩ := hmem a ha
          exact ⟨ht, j, by omega, hj'⟩
      · rw [List.map_cons, List.nodup_cons]
        refine ⟨fun hin => ?_, hnd⟩
        obtain ⟨a, ha, heq⟩ := List.mem_map.1 hin
        obtain ⟨-, j, hj, hj'⟩ := hmem a ha
        have := Env.randomID_inj hnodup hid (heq ▸ hj')
        omega
    · cases h

/-- A new order that is committed: what has been checked and what is stored. -/
theorem newOrder_commit
    (h : newOrder cfg codec srv env signed accountID source = .commit activity cm) :
    ∃ a identifiers names id auths,
      srv.state.accounts.get accountID = some a ∧ a.status = .valid ∧
      activity = srv.activity.set accountID (env.clock.now 0) ∧
      identifiers.length ≠ 0 ∧ identifiers.length ≤ maxIdentifiers ∧
      orderNames cfg env.lookup identifiers 0 [] = .ok names ∧
      allowCreation srv.state env.clock 1 source false = none ∧
      (srv.state.prune activity (env.clock.now 4)).outstanding accountID < maxAccountOrders ∧
      (((srv.state.prune activity (env.clock.now 4)).accounts.get accountID).getD
        default).recentOrders.length < maxAccountOrders ∧
      (srv.state.prune activity (env.clock.now 4)).orders.size < maxRecords ∧
      (srv.state.prune activity (env.clock.now 4)).authorizations.size + names.length ≤ maxRecords ∧
      env.randomID 0 = some id ∧
      newAuthorizations env accountID id (env.clock.now 5 + orderLifetime) names 0 = some auths ∧
      cm.retry = none ∧ cm.now = env.clock.now 9 ∧ (∃ r, cm.answer = .respond r) ∧
      cm.next = (((srv.state.prune activity (env.clock.now 4)).addOrder
        ⟨id, accountID, .pending, env.clock.now 5 + orderLifetime, names,
          auths.map Authorization.id, [], [], none⟩ auths).noteOrder accountID
            (env.clock.now 6)).recordCreation env.clock 7 source false := by
  unfold newOrder at h
  dsimp only at h
  split at h
  · cases h
  next body _ =>
  split at h
  · cases h
  next hlen =>
  split at h
  · cases h
  split at h
  · cases h
  next names hnames =>
  split at h
  · cases h
  next a act hok =>
  split at h
  · cases h
  next hallow =>
  split at h
  · cases h
  next hroom =>
  split at h
  · cases h
  next id hid =>
  split at h
  · cases h
  next auths hauths =>
  cases h
  obtain ⟨hget, hvalid, -, hactivity⟩ := activeAccount_ok _ hok
  simp only [not_or, not_le, not_lt] at hroom hlen
  exact ⟨a, body.identifiers, names, id, auths, hget, hvalid, hactivity, hlen.1, hlen.2, hnames,
    hallow, hroom.1, hroom.2.1, hroom.2.2.1, hroom.2.2.2, hid, hauths, rfl, rfl, ⟨_, rfl⟩, rfl⟩

/-- `newOrder` prunes, notes the order, adds it and counts it. -/
theorem newOrder_commits (hc : c.challenged = none) (hcr : c.creates = true)
    (hr : Ready c srv.state) (hact : c.activity = activity)
    (h : newOrder c.cfg codec srv c.env signed accountID source = .commit activity cm) :
    Commits c srv.state cm := by
  obtain ⟨a, identifiers, names, newID, auths, hget, -, hactivity, hsome, hfew, hnames, hallow,
    houtstanding, hrecent, horders, hauthorizations, hid, hauths, hretry, hnow, ⟨r, hans⟩, hnext⟩ :=
    newOrder_commit codec h
  refine ⟨hretry.trans hc.symm, ⟨9, 0, hnow⟩, fun _ ht => (by cases hans.symm.trans ht), hnext ▸ ?_⟩
  have hnoted : 0 < (c.activity.get accountID).getD 0 := by
    rw [hact, hactivity, FinMap.get_set_self]
    exact c.env.clock.pos 0 0
  obtain ⟨hsource, hquota, -⟩ := allowCreation_none hallow
  have hquota' := hquota.prune activity (c.env.clock.now 4)
    (c.env.clock.mono 1 0 7 0 (.inl (by decide)))
  have hcap := allowCreation_room hallow hr.inv.limited activity fun i =>
    c.env.clock.mono 3 i 4 0 (.inl (by decide))
  obtain ⟨hcount, hallowed, hdistinct⟩ := orderNames_ok hnames
  obtain ⟨hforall, hmem, hnodup⟩ := newAuthorizations_some hr.fresh.nodup hauths
  have hnewID := Env.randomID_mem hid
  have hnewAuth : ∀ a ∈ auths, a.id ∈ c.env.ids := fun a ha =>
    Env.randomID_mem (hmem a ha).2.choose_spec.2
  have hnote : Mutation c (srv.state.prune activity (c.env.clock.now 4))
      ((srv.state.prune activity (c.env.clock.now 4)).noteOrder accountID (c.env.clock.now 6)) :=
    .noteOrder (hr.uses.accounts _ _ hget) hnoted hrecent hcr
  -- the account is noted before the order is added, so that the order always has an account
  refine (((Relation.ReflTransGen.single (.prune ⟨4, 0, rfl⟩)).tail hnote).tail
    (.addOrder ?_)).tail (.recordCreation hsource hquota' hcap hcr)
  have hpos : 0 < c.env.clock.now 5 + orderLifetime :=
    Int.add_pos (c.env.clock.pos 5 0) (by decide)
  have hne : names ≠ [] := fun hnil => by
    rw [hnil, List.length_nil] at hcount
    omega
  exact {
    id_mem := hnewID
    id_new := by
      simp [State.noteOrder, State.prune, FinMap.get_filter, (hr.unused hnewID).2.1]
    auth_mem := fun a ha => ⟨hnewAuth a ha, (hmem a ha).1⟩
    auth_new := fun a ha => by
      simp [State.noteOrder, State.prune, FinMap.get_filter, (hr.unused (hnewAuth a ha)).2.2.1]
    nodup := hnodup
    account := by
      rw [State.noteOrder, FinMap.get_set_self]
      rfl
    status := rfl
    expires := hpos
    some_name := hne
    few_names := by
      show names.length ≤ _
      omega
    names := hallowed
    distinct := hdistinct.nodup
    certificateID := rfl
    authIDs := rfl
    auths := hforall
    room := ⟨horders, hauthorizations⟩
    few_orders := houtstanding }

/-- A deactivation of an authorization that is committed. -/
theorem getAuthorization_commit
    (h : getAuthorization cfg codec srv env signed accountID id = .commit activity cm) :
    cm.retry = none ∧ cm.now = env.clock.now 1 ∧ (∃ r, cm.answer = .respond r) ∧
      ∃ a, srv.state.authorizations.get id = some a ∧
        cm.next = srv.state.deactivateAuthorization id a := by
  unfold getAuthorization at h
  split at h
  · cases h
  split at h
  · cases h
  next a ha =>
  split at h
  · cases h
  split at h
  · split at h
    · cases h
    · cases h
      exact ⟨rfl, rfl, ⟨_, rfl⟩, a, ha, rfl⟩
  · cases h

theorem getAuthorization_commits (hc : c.challenged = none)
    (h : getAuthorization c.cfg codec srv c.env signed accountID id = .commit activity cm) :
    Commits c srv.state cm := by
  obtain ⟨hretry, hnow, ⟨r, hans⟩, a, ha, hnext⟩ := getAuthorization_commit codec h
  exact ⟨hretry.trans hc.symm, ⟨1, 0, hnow⟩, fun _ ht => (by cases hans.symm.trans ht),
    hnext ▸ .single (.deactivateAuthorization ha)⟩

/-! ## Challenges -/

/-- An acknowledgement that is taken: what it has checked and what it commits. -/
theorem challenge_commit
    (h : challenge cfg codec srv env signed accountID id = .commit activity cm) :
    ∃ a acc, srv.state.authorizations.get id = some a ∧ a.accountID = accountID ∧
      a.status = .pending ∧ a.challengeStatus ≠ .processing ∧
      srv.state.accounts.get accountID = some acc ∧ acc.status = .valid ∧
      acc.thumbprint = signed.thumbprint ∧
      cm.next = { srv.state with authorizations :=
        srv.state.authorizations.set id { a with challengeStatus := .processing } } ∧
      cm.answer = .validate ⟨signed, accountID, id, a.name, a.token⟩ ∧ cm.retry = some id ∧
      cm.now = env.clock.now 2 := by
  unfold challenge at h
  dsimp only at h
  split at h
  · cases h
  split at h
  · cases h
  next acc act hact =>
  split at h
  · cases h
  next a ha =>
  split at h
  · cases h
  next hacc =>
  split at h
  · cases h
  next hopen =>
  split at h
  · cases h
  next hpending =>
  split at h
  · cases h
  cases h
  obtain ⟨hget, hvalid, hthumb, -⟩ := activeAccount_ok _ hact
  simp only [not_or, not_not] at hacc hopen hpending
  exact ⟨a, acc, ha, hacc, hpending.1, hopen.2.1, hget, hvalid, hthumb, rfl, rfl, rfl, rfl⟩

theorem challenge_commits (hc : c.challenged = some id)
    (h : challenge c.cfg codec srv c.env signed accountID id = .commit activity cm) :
    Commits c srv.state cm := by
  obtain ⟨a, acc, ha, -, hst, -, -, -, -, hnext, hans, hretry, hnow⟩ := challenge_commit codec h
  refine ⟨hretry.trans hc.symm, ⟨2, 0, hnow⟩, fun t ht => ?_, hnext ▸ .single (.begin hc ha hst)⟩
  cases hans.symm.trans ht
  exact hc

/-- What is committed for the result of a validation: the challenge may be retried after a
rollover, has failed, or is proved with the key the account still has. -/
theorem challengeResult_commit {t : Ticket crypto}
    {result : Option Target} (h : challengeResult cfg srv env t result = .commit activity cm) :
    ∃ a, srv.state.authorizations.get t.authID = some a ∧ a.status = .pending ∧
      a.challengeStatus = .processing ∧ cm.retry = some t.authID ∧
      cm.now = env.clock.now 2 ∧ (∃ r, cm.answer = .respond r) ∧
      (cm.next = { srv.state with authorizations :=
          srv.state.authorizations.set t.authID { a with challengeStatus := .pending } } ∨
        cm.next = srv.state.failChallenge t.authID a ∨
        ∃ target acc now, result = some target ∧ srv.state.accounts.get t.accountID = some acc ∧
          acc.status = .valid ∧ acc.thumbprint = t.signed.thumbprint ∧
          cm.next = srv.state.proveChallenge t.authID a now target) := by
  unfold challengeResult at h
  split at h
  · cases h
  next a ha =>
  split at h
  · cases h
  next hopen =>
  dsimp only at h
  simp only [not_or, not_not] at hopen
  refine ⟨a, ha, hopen.1, hopen.2, ?_⟩
  split at h
  · cases h
    exact ⟨rfl, rfl, ⟨_, rfl⟩, .inl rfl⟩
  split at h
  · cases h
    exact ⟨rfl, rfl, ⟨_, rfl⟩, .inr (.inl rfl)⟩
  next target =>
  split at h
  · cases h
    exact ⟨rfl, rfl, ⟨_, rfl⟩, .inr (.inl rfl)⟩
  next hok =>
  cases h
  rw [not_or] at hok
  cases hact : activeAccount cfg srv (env.clock.now 1) t.signed t.accountID with
  | error p =>
    rw [hact] at hok
    exact absurd rfl hok.1
  | ok r =>
    obtain ⟨acc, act⟩ := r
    obtain ⟨hget, hvalid, hthumb, -⟩ := activeAccount_ok _ hact
    exact ⟨rfl, rfl, ⟨_, rfl⟩, .inr (.inr ⟨target, acc, _, rfl, hget, hvalid, hthumb, rfl⟩)⟩

/-- The result of a validation is not committed only if it came too late. -/
theorem challengeResult_reply {t : Ticket crypto}
    {result : Option Target} {r : Response} {a : Authorization}
    (h : challengeResult cfg srv env t result = .reply activity r)
    (ha : srv.state.authorizations.get t.authID = some a) (hst : a.status = .pending) :
    a.challengeStatus ≠ .processing := by
  intro hch
  simp only [challengeResult, ha, hst, hch] at h
  split at h
  · next hopen => simp at hopen
  split at h
  · cases h
  split at h
  · cases h
  split at h <;> cases h

/-- A challenge that may be retried, as `retryInterruptedChallenge` leaves it. -/
theorem retryInterruptedChallenge_eq {st : State} {a : Authorization}
    (ha : st.authorizations.get id = some a) (hst : a.status = .pending)
    (hch : a.challengeStatus = .processing) :
    retryInterruptedChallenge id st = { st with
      authorizations := st.authorizations.set id { a with challengeStatus := .pending } } := by
  rw [retryInterruptedChallenge, ha]
  exact if_pos ⟨hst, hch⟩

/-- The end of a validation is one mutation of its challenge. -/
theorem challengeResult_commits {t : Ticket crypto} {result : Option Target}
    (hc : c.challenged = some t.authID)
    (hp : ∀ target acc, result = some target → srv.state.accounts.get t.accountID = some acc →
      acc.status = .valid → acc.thumbprint = t.signed.thumbprint → c.proof t target)
    (hset : srv.state.Settled)
    (h : challengeResult c.cfg srv c.env t result = .commit activity cm) :
    Commits c srv.state cm := by
  obtain ⟨a, ha, hst, hch, hretry, hnow, ⟨r, hans⟩, hnext⟩ := challengeResult_commit h
  refine ⟨hretry.trans hc.symm, ⟨2, 0, hnow⟩, fun _ ht => (by cases hans.symm.trans ht), ?_⟩
  rcases hnext with hnext | hnext | ⟨target, acc, now, hres, hacc, hvalid, hthumb, hnext⟩
  · rw [hnext, ← retryInterruptedChallenge_eq ha hst hch]
    exact .single (.retry hc)
  · exact hnext ▸ .single (.failChallenge hc ha hst hset)
  · have hproof := hp target acc hres hacc hvalid hthumb
    exact hnext ▸ .single (.proveChallenge hc hproof ha hst hset)

/-! ## Issuance -/

/-- What one iteration of the loop of `finalize` has checked. -/
theorem authorizedNames_cons {st : State} {authID : GoString}
    {rest names : List GoString} {i : Nat}
    (h : authorizedNames st env (authID :: rest) i = some names) :
    let a := (st.authorizations.get authID).getD default
    a.status = .valid ∧ env.clock.read 2 i < a.expires ∧ env.lookup i a.name = some a.target ∧
      ∃ others, authorizedNames st env rest (i + 1) = some others ∧ names = a.name :: others := by
  simp only [authorizedNames] at h
  split at h
  · cases h
  next target hlookup =>
  split at h
  · cases h
  next hok =>
  simp only [not_or, not_not, not_le] at hok
  obtain ⟨hvalid, hexp, rfl⟩ := hok
  obtain ⟨others, hrest, rfl⟩ := Option.map_eq_some_iff.1 h
  exact ⟨hvalid, hexp, hlookup, others, hrest, rfl⟩

/-- What `finalize` has checked when it calls `SignCSR`. -/
theorem prepareSigning_ok {s : Signing}
    (h : prepareSigning cfg codec srv env signed accountID id = .ok s) :
    srv.state.orders.get id = some s.order ∧ s.order.accountID = accountID ∧
      s.order.status = .ready ∧ env.clock.now 1 < s.order.expires ∧ s.csr ≠ [] ∧
      srv.state.certificates.size < maxRecords ∧
      (∃ acc, srv.state.accounts.get accountID = some acc ∧ acc.status = .valid ∧
        acc.thumbprint = signed.thumbprint) ∧
      authorizedNames srv.state env s.order.authIDs 0 = some s.names := by
  unfold prepareSigning at h
  dsimp only at h
  split at h
  · cases h
  split at h
  · cases h
  next csr _ =>
  split at h
  · cases h
  next hcsr =>
  split at h
  · cases h
  next acc act hact =>
  split at h
  · cases h
  next o ho =>
  split at h
  · cases h
  next hacc =>
  split at h
  · cases h
  split at h
  · cases h
  next hready =>
  split at h
  · cases h
  next hroom =>
  split at h
  · cases h
  next names hnames =>
  cases h
  obtain ⟨hget, hvalid, hthumb, -⟩ := activeAccount_ok _ hact
  simp only [not_or, not_not, not_le] at hacc hready hroom hcsr
  exact ⟨ho, hacc, hready.1, hready.2, fun hnil => hcsr.1 (congrArg List.length hnil), hroom,
    ⟨acc, hget, hvalid, hthumb⟩, hnames⟩

/-- When `finalize` does not get to `SignCSR` it commits at most the end of a ready order. -/
theorem prepareSigning_error
    (h : prepareSigning cfg codec srv env signed accountID id = .error (.commit activity cm)) :
    cm.retry = none ∧ cm.now = env.clock.now 3 ∧ (∃ r, cm.answer = .respond r) ∧
      ∃ o p, srv.state.orders.get id = some o ∧ o.status = .ready ∧
        cm.next = srv.state.rejectOrder id o p := by
  unfold prepareSigning at h
  dsimp only at h
  split at h
  · cases h
  split at h
  · cases h
  split at h
  · cases h
  split at h
  · cases h
  split at h
  · cases h
  next o ho =>
  split at h
  · cases h
  split at h
  · cases h
  split at h
  · cases h
  next hready =>
  split at h
  · cases h
  split at h
  · cases h
    rw [not_or, not_not] at hready
    exact ⟨rfl, rfl, ⟨_, rfl⟩, o, _, ho, hready.1, rfl⟩
  · cases h

/-- The certificates that are signed have serial numbers no stored certificate has. -/
def FreshSerials (srv : Server crypto) (env : Env) : Prop :=
  ∀ csr names chain leaf, env.signCSR csr names = .ok chain → crypto.parseLeaf chain = some leaf →
    ∀ k cert, srv.state.certificates.get k = some cert → cert.serial ≠ formatInt leaf.serialNumber

/-- What `finalize` commits: the end of a ready order, or a certificate for it. -/
theorem finalize_commit
    (h : finalize cfg codec srv env signed accountID id = .commit activity cm) :
    cm.retry = none ∧ cm.now = env.clock.now 3 ∧ (∃ r, cm.answer = .respond r) ∧
      ((∃ o p, srv.state.orders.get id = some o ∧ o.status = .ready ∧
          cm.next = srv.state.rejectOrder id o p) ∨
        ∃ s certID chain leaf, prepareSigning cfg codec srv env signed accountID id = .ok s ∧
          env.signCSR s.csr s.names = .ok chain ∧ crypto.parseLeaf chain = some leaf ∧
          env.randomID 0 = some certID ∧
          cm.next = srv.state.issue id s.order s.csr certID chain leaf) := by
  unfold finalize at h
  split at h
  · next action hprep =>
    subst h
    obtain ⟨hretry, hnow, hans, hnext⟩ := prepareSigning_error codec hprep
    exact ⟨hretry, hnow, hans, .inl hnext⟩
  next s hprep =>
  split at h
  · cases h
  · cases h
  next chain hchain =>
  split at h
  · cases h
  next leaf hleaf =>
  split at h
  · cases h
  next certID hid =>
  cases h
  exact ⟨rfl, rfl, ⟨_, rfl⟩, .inr ⟨s, certID, chain, leaf, hprep, hchain, hleaf, hid, rfl⟩⟩

/-- `finalize` ends an order or issues its certificate. -/
theorem finalize_commits (hc : c.challenged = none) (hr : Ready c srv.state)
    (hserial : c.strict → FreshSerials srv c.env)
    (h : finalize c.cfg codec srv c.env signed accountID id = .commit activity cm) :
    Commits c srv.state cm := by
  obtain ⟨hretry, hnow, ⟨r, hans⟩, hnext⟩ := finalize_commit codec h
  refine ⟨hretry.trans hc.symm, ⟨3, 0, hnow⟩, fun _ ht => (by cases hans.symm.trans ht), ?_⟩
  rcases hnext with ⟨o, p, ho, hready, hnext⟩ |
    ⟨s, certID, chain, leaf, hprep, hchain, hleaf, hid, hnext⟩
  · exact hnext ▸ .single (.rejectOrder ho hready)
  · obtain ⟨ho, -, hready, -, hcsr, hroom, -⟩ := prepareSigning_ok codec hprep
    have hmem := Env.randomID_mem hid
    exact hnext ▸ .single (.issue ⟨ho, hready, hcsr, hmem, (hr.unused hmem).2.2.2, hroom,
      ⟨s.names, hchain⟩, hleaf, fun hs => hserial hs _ _ _ _ hchain hleaf⟩)

/-! ## Revocation -/

/-- A certificate found for revocation is stored, with the serial number and the bytes that were
looked for. -/
theorem findIssued_some {leaf : Leaf} {der : GoString} {entries : List (GoString × Certificate)}
    {cert : Certificate} (h : findIssued crypto leaf der entries = some (some cert)) :
    ∃ k stored, (k, cert) ∈ entries ∧ cert.serial = formatInt leaf.serialNumber ∧
      crypto.parseLeaf cert.pem = some stored ∧ stored.raw = der := by
  induction entries with
  | nil => cases h
  | cons e rest ih =>
    obtain ⟨k, candidate⟩ := e
    have hrest : findIssued crypto leaf der rest = some (some cert) →
        ∃ k' stored, (k', cert) ∈ (k, candidate) :: rest ∧
          cert.serial = formatInt leaf.serialNumber ∧
          crypto.parseLeaf cert.pem = some stored ∧ stored.raw = der := fun h => by
      obtain ⟨k', stored, hk', hrest⟩ := ih h
      exact ⟨k', stored, .tail _ hk', hrest⟩
    simp only [findIssued] at h
    split at h
    · exact hrest h
    next hserial =>
    split at h
    · cases h
    next stored hstored =>
    split at h
    · next hraw =>
      cases h
      exact ⟨k, stored, .head _, not_not.1 hserial, hstored, hraw⟩
    · exact hrest h

/-- The stored certificate a request for revocation names. -/
structure Revokes (codec : Codec crypto) (st : State) (signed : Request crypto) (id : GoString)
    (cert : Certificate) (leaf : Leaf) (reason : Int) : Prop where
  request : ∃ certificate der, decodePayload codec.revocationInput signed.payload =
      some ⟨certificate, reason⟩ ∧ codec.base64Decode certificate = some der ∧
    crypto.parseCertificate der = some leaf ∧
    ∃ stored, crypto.parseLeaf cert.pem = some stored ∧ stored.raw = der ∧
      cert.notAfter = stored.notAfter
  get : st.certificates.get id = some cert
  serial : cert.serial = formatInt leaf.serialNumber

/-- A revocation that is committed: the certificate it revokes and the list it makes. -/
theorem revokeCertificate_commit (hinv : srv.state.Inv cfg crypto)
    (h : revokeCertificate cfg codec srv env signed = .commit activity cm) :
    cm.retry = none ∧ cm.now = env.clock.now 4 ∧
      cm.answer = .respond { status := 200, body := .none } ∧
      ∃ k cert leaf reason, Revokes codec srv.state signed k cert leaf reason ∧
      cert.revokedAt = none ∧ validRevocationReason reason = true ∧
      { srv.state with
        certificates := srv.state.certificates.set k (cert.revoke (env.clock.now 2) reason)
        }.refreshCRL crypto env.createCRL (env.clock.now 3) = some cm.next := by
  unfold revokeCertificate at h
  dsimp only at h
  split at h
  · cases h
  next payload hpayload =>
  split at h
  · cases h
  next hreason =>
  split at h
  · cases h
  next der hder =>
  split at h
  · cases h
  split at h
  · cases h
  next leaf hleaf =>
  split at h
  · cases h
  next found hfound =>
  split at h
  · cases h
  next hid =>
  split at h
  · cases h
  split at h
  · cases h
  next hnone =>
  split at h
  · cases h
  next newState hnext =>
  cases h
  cases hf : found with
  | none =>
    rw [hf] at hid
    exact absurd rfl hid
  | some cert =>
    rw [hf] at hfound hnone hnext
    obtain ⟨k, stored, hk, hserial, hstored, hraw⟩ := findIssued_some hfound
    have hget := FinMap.mem_entries.1 hk
    have hl := hinv.certified.certificate k cert hget
    obtain ⟨stored', hstored', -, hexp⟩ := hl.leaf
    cases hstored.symm.trans hstored'
    refine ⟨rfl, rfl, rfl, k, cert, leaf, payload.reason, ⟨⟨payload.certificate, der, hpayload,
      hder, hleaf, stored, hstored, hraw, hexp⟩, hget, hserial⟩, ?_, by simpa using hreason, ?_⟩
    · simpa using hnone
    · rw [Option.getD_some, hl.id_eq] at hnext
      exact hnext

/-- A revocation that is not committed is refused. -/
theorem revokeCertificate_reply {r : Response}
    (h : revokeCertificate cfg codec srv env signed = .reply activity r) : 400 ≤ r.status := by
  unfold revokeCertificate at h
  dsimp only at h
  repeat' split at h
  all_goals cases h
  all_goals decide

theorem revokeCertificate_commits (hc : c.challenged = none) (hr : Ready c srv.state)
    (h : revokeCertificate c.cfg codec srv c.env signed = .commit activity cm) :
    Commits c srv.state cm := by
  obtain ⟨hretry, hnow, hans, k, cert, leaf, reason, hrev, hnone, hreason, hnext⟩ :=
    revokeCertificate_commit codec hr.inv h
  exact ⟨hretry.trans hc.symm, ⟨4, 0, hnow⟩, fun _ ht => (by cases hans.symm.trans ht),
    .single (.relist (.revoked hrev.get hnone hreason) ⟨3, 0, rfl⟩ hnext)⟩

/-- A list that is made for serving. -/
theorem serveCRL_commit {head : Bool}
    (h : serveCRL srv env head = .commit activity cm) :
    cm.retry = none ∧ cm.now = env.clock.now 2 ∧
      srv.state.refreshCRL crypto env.createCRL (env.clock.now 1) = some cm.next ∧
      cm.answer = .respond { status := 200, body := if head then .none else .crl cm.next.crl } := by
  unfold serveCRL at h
  dsimp only at h
  split at h
  · split at h
    · cases h
    next newState hnext =>
    cases h
    exact ⟨rfl, rfl, hnext, rfl⟩
  · cases h

theorem serveCRL_commits {head : Bool} (hc : c.challenged = none)
    (h : serveCRL srv c.env head = .commit activity cm) :
    Commits c srv.state cm := by
  obtain ⟨hretry, hnow, hnext, hans⟩ := serveCRL_commit h
  exact ⟨hretry.trans hc.symm, ⟨2, 0, hnow⟩, fun _ ht => (by cases hans.symm.trans ht),
    .single (.relist .same ⟨1, 0, rfl⟩ hnext)⟩

/-! ## Every handler -/

/-- The authorization whose challenge a handler serves. -/
def Op.challenged : Op crypto → Option GoString
  | .challenge _ _ id => some id
  | _ => none

/-- The handlers that create an account or an order. -/
def Op.creates : Op crypto → Bool
  | .newAccount _ _ => true
  | .newOrder _ _ _ => true
  | _ => false

/-- The handlers that only read commit nothing. -/
theorem Op.reads {op : Op crypto} (hop : ∃ signed accountID id,
      op = .accountOrders signed accountID id ∨ op = .getOrder signed accountID id ∨
        op = .getCertificate signed accountID id) :
    op.action cfg codec srv env ≠ .commit activity cm := by
  intro h
  obtain ⟨signed, accountID, id, rfl | rfl | rfl⟩ := hop
  all_goals
    simp only [Op.action, Acme.accountOrders, Acme.getOrder, Acme.getCertificate] at h
    repeat' split at h
    all_goals cases h

/-- What a handler commits comes from the current state by mutations, and it may retry only the
challenge it serves. -/
theorem Op.commits {op : Op crypto} (hc : c.challenged = op.challenged)
    (hcr : c.creates = op.creates) (hr : Ready c srv.state)
    (hact : c.activity = activity)
    (hstrict : c.strict → FreshSerials srv c.env)
    (h : op.action c.cfg codec srv c.env = .commit activity cm) :
    Commits c srv.state cm := by
  cases op with
  | newAccount signed source => exact newAccount_commits codec hc hcr hr h
  | account signed accountID id => exact account_commits codec hc h
  | keyChange signed accountID => exact keyChange_commits codec hc h
  | newOrder signed accountID source =>
    exact newOrder_commits codec hc hcr hr hact h
  | getAuthorization signed accountID id => exact getAuthorization_commits codec hc h
  | challenge signed accountID id => exact challenge_commits codec hc h
  | finalize signed accountID id =>
    exact finalize_commits codec hc hr hstrict h
  | accountOrders | getOrder | getCertificate => exact absurd h (Op.reads codec (by simp))
  | revokeCertificate signed => exact revokeCertificate_commits codec hc hr h
  | serveCRL head => exact serveCRL_commits hc h

end

end InfraBox.Acme
