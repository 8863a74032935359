import InfraBox.Acme.SingleFlight

/-!
# The ACME server: issuance

When `finalize` calls `SignCSR`, every name of the order has an authorization that a validation has
proved: the validator was called for it with the key the account had then and when the result was
recorded, and the target it returned is the one the name has now. Neither the authorization nor the
account has been deactivated, because neither could be active again.

A valid authorization is traced back to the result that made it valid (`proved_of_run`), and the
result to the acknowledgement that called the validator (`started_of_run`).
-/

namespace InfraBox.Acme

/-! ## Where a valid authorization comes from -/

section
variable {crypto : Crypto} {c : Context crypto} {st st' : State} {id : GoString}

/-- A valid authorization was valid before, with the same target, or it is proved now. -/
theorem Mutations.valid_source (hm : Mutations c st st') {a' : Authorization}
    (h : st'.authorizations.get id = some a') (hst : a'.status = .valid) :
    (∃ a, st.authorizations.get id = some a ∧ a.status = .valid ∧ a.target = a'.target) ∨
      ∃ t, c.proof t a'.target ∧ t.authID = id := by
  induction hm generalizing a' with
  | refl => exact .inl ⟨a', h, hst, rfl⟩
  | tail _ hs ih =>
    rcases hs.valid_source h hst with ⟨a, ha, hvalid, heq⟩ | hproof
    · rw [← heq]
      exact ih ha hvalid
    · exact .inr hproof

/-- The stored authorization is the one the validator was called for. -/
def State.Matches (t : Ticket crypto) (st : State) : Prop :=
  ∀ a, st.authorizations.get t.authID = some a →
    a.accountID = t.accountID ∧ a.name = t.name ∧ a.token = t.token

/-- The record of a validation keeps its name and token. -/
theorem Mutation.matches {t : Ticket crypto} (hm : Mutation c st st') (hid : t.authID ∉ c.env.ids)
    (h : st.Matches t) : st'.Matches t := by
  intro a' ha'
  have hshape : ∀ {a : Authorization}, st.authorizations.get t.authID = some a →
      a'.shape = a.shape → a'.accountID = t.accountID ∧ a'.name = t.name ∧ a'.token = t.token := by
    intro a ha heq
    simp only [Authorization.shape, Prod.mk.injEq] at heq
    obtain ⟨-, hacc, -, hname, htoken, -⟩ := heq
    exact hacc ▸ hname ▸ htoken ▸ h a ha
  cases hm.authorization ha' with
  | kept hold => exact h a' hold
  | added hnew _ _ => exact absurd hnew hid
  | deactivated ha heq _ _ | challenged ha _ _ heq _ => exact hshape ha heq
  | proved ha _ _ _ _ heq => exact hshape ha (by rw [heq]; rfl)
  | reset ha _ heq => exact hshape ha (by rw [heq, Authorization.reset_shape])

theorem State.Matches.of_reset {t : Ticket crypto} (heq : st'.reset = st.reset)
    (h : st.Matches t) : st'.Matches t := by
  intro a' ha'
  obtain ⟨a, ha, hshape, -⟩ := State.authorization_of_reset heq ha'
  simp only [Authorization.shape, Prod.mk.injEq] at hshape
  obtain ⟨-, hacc, -, hname, htoken, -⟩ := hshape
  exact hacc ▸ hname ▸ htoken ▸ h a ha

end

/-! ## The history of a proof -/

section
variable {cfg : Config} {crypto : Crypto} {codec : Codec crypto} {p p' : Process crypto}
  {start : Int} {tr : Trace (Process crypto) (Label crypto)}

/-- The step leaves the calls of the validator for the authorization in flight. -/
def Spares (authID : GoString) (u : Transition (Process crypto) (Label crypto)) : Prop :=
  u.label ≠ .crash ∧ ∀ t r env answer, u.label = .result t r env answer → t.authID ≠ authID

/-- The call `t` of the validator was made by an acknowledgement, signed with the key the account
had, and has been in flight since. -/
def Started (tr : Trace (Process crypto) (Label crypto)) (t : Ticket crypto) : Prop :=
  ∃ before b mid env, tr = before ++ b :: mid ∧
    b.label = .call (.challenge t.signed t.accountID t.authID) env (.validate t) ∧
    b.pre.HasKey t.accountID t.signed.thumbprint ∧ ∀ u ∈ mid, Spares t.authID u

/-- Other steps leave a call in progress. -/
theorem Started.snoc {t : Ticket crypto} (h : Started tr t)
    {u : Transition (Process crypto) (Label crypto)} (hu : Spares t.authID u) :
    Started (tr ++ [u]) t := by
  obtain ⟨before, b, mid, env, rfl, hlabel, hkey, hmid⟩ := h
  refine ⟨before, b, mid ++ [u], env, by simp, hlabel, hkey, fun w hw => ?_⟩
  rcases List.mem_append.1 hw with hw | hw
  · exact hmid w hw
  · exact List.mem_singleton.1 hw ▸ hu

/-- Every call in flight was started in the run. -/
theorem started_of_run (hrun : Run (Step cfg codec) (.initial start) tr p) {srv : Server crypto}
    (hsrv : p.server = some srv) {t : Ticket crypto} (ht : t ∈ srv.validations) : Started tr t := by
  refine hrun.induction
    (P := fun tr p => ∀ srv, p.server = some srv → ∀ t ∈ srv.validations, Started tr t)
    (fun _ h => (by cases h)) (fun tr q l q' hrun ih hs srv' hsrv' t ht => ?_) srv hsrv t ht
  have hq := Process.inv_of_run hrun
  rcases hs.validations hsrv' with ⟨srv, op, env, answer, rfl, hsrv, hval⟩ |
    ⟨srv, earlier, later, t', r, env, answer, rfl, hsrv, hval, hval'⟩ | ⟨_, _, -, hval⟩
  · rw [hval, List.mem_append] at ht
    rcases ht with ht | ht
    · cases answer with
      | respond _ => cases ht
      | validate t' =>
        cases List.mem_singleton.1 ht
        obtain ⟨rfl, hkey, -⟩ := hs.acknowledged hq
        exact ⟨tr, _, [], env, rfl, rfl, hkey, fun _ hu => (by cases hu)⟩
    · exact (ih srv hsrv t ht).snoc
        ⟨fun h => (by cases h), fun _ _ _ _ h => (by cases h)⟩
  · have hnodup := (Server.singleFlight_of_run hrun hsrv).nodup
    rw [hval, List.map_append, List.map_cons, List.nodup_middle, List.nodup_cons,
      ← List.map_append] at hnodup
    rw [hval'] at ht
    refine (ih srv hsrv t ?_).snoc ⟨fun h => (by cases h), fun _ _ _ _ h heq => ?_⟩
    · rw [hval, List.mem_append, List.mem_cons]
      exact (List.mem_append.1 ht).imp_right .inr
    · cases h
      exact hnodup.1 (List.mem_map.2 ⟨t, ht, heq.symm⟩)
  · rw [hval] at ht
    cases ht

/-- The authorization a call was made for keeps its account, name and token. -/
theorem matches_of_run (hrun : Run (Step cfg codec) (.initial start) tr p)
    {b : Transition (Process crypto) (Label crypto)} (hb : b ∈ tr) {op : Op crypto} {env : Env}
    {t : Ticket crypto} (hlabel : b.label = .call op env (.validate t)) :
    ∀ v, p.View cfg v → v.Matches t := by
  obtain ⟨before, after, rfl, hbefore, hstep, hafter⟩ := hrun.mem_inv hb
  have hp := Process.inv_of_run hbefore
  have hack := hstep
  rw [hlabel] at hack
  obtain ⟨-, -, srv, -, a, hsrv, -, ha, haid, -, -, hname, htoken, -⟩ := hack.acknowledged hp
  have hid : t.authID ∈ b.pre.ids := (hp.sound _ (.memory hsrv)).uses.authorizations _ a ha
  have hmem : srv.state.Matches t := fun a' ha' => by
    rw [ha] at ha'
    cases ha'
    exact ⟨haid, hname, htoken⟩
  have hpre : ∀ v, b.pre.View cfg v → v.Matches t := fun v hv =>
    hmem.of_reset ((hp.view_reset hv).trans (hp.view_reset (.memory hsrv)).symm)
  exact Process.persists hp hid hpre (.cons hstep hafter) fun _ _ _ hnew _ hm => hm.matches hnew

/-- A valid authorization was proved in the run: the validator returned its target while the
account had the key of the request. -/
theorem proved_of_run (hrun : Run (Step cfg codec) (.initial start) tr p) {v : State}
    (hv : p.View cfg v) {id : GoString} {a : Authorization} (ha : v.authorizations.get id = some a)
    (hst : a.status = .valid) :
    ∃ before f after t env answer, tr = before ++ f :: after ∧
      f.label = .result t (some a.target) env answer ∧ t.authID = id ∧
      f.pre.HasKey t.accountID t.signed.thumbprint := by
  refine hrun.induction (P := fun tr p => ∀ v, p.View cfg v →
    ∀ a, v.authorizations.get id = some a → a.status = .valid →
    ∃ before f after t env answer, tr = before ++ f :: after ∧
      f.label = .result t (some a.target) env answer ∧ t.authID = id ∧
      f.pre.HasKey t.accountID t.signed.thumbprint) ?_ ?_ v hv a ha hst
  · intro v hv a ha
    cases hv with
    | stored => cases (FinMap.get_empty (V := Authorization) id).symm.trans ha
    | memory hsrv => cases hsrv
  · intro tr q l q' hrun ih hs v' hv' a' ha' hst'
    -- a step either keeps the authorization valid or is the result that proves it
    have hkept : ∀ w, q.View cfg w → ∀ a, w.authorizations.get id = some a → a.status = .valid →
        a.target = a'.target → ∃ before f after t env answer,
          tr ++ [⟨q, l, q'⟩] = before ++ f :: after ∧
          f.label = .result t (some a'.target) env answer ∧ t.authID = id ∧
          f.pre.HasKey t.accountID t.signed.thumbprint := by
      intro w hw a ha hst htarget
      obtain ⟨before, f, after, t, env, answer, rfl, hlabel, hid, hkey⟩ := ih w hw a ha hst
      exact ⟨before, f, after ++ [⟨q, l, q'⟩], t, env, answer, by simp, htarget ▸ hlabel, hid, hkey⟩
    obtain ⟨w, hw, rfl | ⟨c, hf, hpub⟩⟩ :=
      hs.view (Process.inv_of_run hrun) (False.elim : False → _) hv'
    · exact hkept _ hw a' ha' hst' rfl
    · rcases hpub.mutations.valid_source ha' hst' with ⟨a, ha, hst, htarget⟩ | ⟨t, hproof, hid⟩
      · exact hkept w hw a ha hst htarget
      · obtain ⟨activity, hctx⟩ := hf.context
        cases l with
        | result t' returned env answer =>
          cases hctx
          obtain ⟨rfl, hret, hkey⟩ := hproof
          exact ⟨tr, _, [], t, env, answer, rfl, by rw [hret], hid, hkey⟩
        | call _ _ _ | start _ _ =>
          cases hctx
          exact hproof.elim
        | crash => cases hctx

/-! ## Deactivation -/

/-- The authorization is gone or deactivated. -/
def State.Withdrawn (id : GoString) (st : State) : Prop :=
  ∀ a, st.authorizations.get id = some a → a.status = .deactivated

/-- The account is gone or not active. -/
def State.Closed (id : GoString) (st : State) : Prop :=
  ∀ a, st.accounts.get id = some a → a.status ≠ .valid

section
variable {c : Context crypto} {st st' : State} {id : GoString}

/-- What is withdrawn stays so. -/
theorem Mutation.withdrawn (hm : Mutation c st st') (hid : id ∉ c.env.ids)
    (h : st.Withdrawn id) : st'.Withdrawn id := by
  intro a' ha'
  cases hm.authorization ha' with
  | kept hold => exact h a' hold
  | added hnew _ _ => exact absurd hnew hid
  | deactivated _ _ hd _ => exact hd
  | challenged ha _ hp _ _ | proved ha _ _ _ hp _ => cases hp.symm.trans (h _ ha)
  | @reset a ha _ heq =>
    subst heq
    exact a.reset_status.trans (h a ha)

/-- A closed account stays closed. -/
theorem Mutation.closed (hm : Mutation c st st') (hid : id ∉ c.env.ids) (h : st.Closed id) :
    st'.Closed id := by
  intro a' ha'
  cases hm.account ha' with
  | kept ha heq _ => exact heq ▸ h _ ha
  | added hnew _ => exact absurd hnew hid
  | updated ha hvalid _ => exact absurd hvalid (h _ ha)
  | blank _ hst _ => simp [hst]

end

/-- The step commits the deactivation of the authorization, if only in the file. -/
def DeactivatesAuthorization (cfg : Config) (codec : Codec crypto) (authID : GoString)
    (u : Transition (Process crypto) (Label crypto)) : Prop :=
  ∃ srv signed accountID env answer activity cm, u.pre.server = some srv ∧
    u.label = .call (.getAuthorization signed accountID authID) env answer ∧
    getAuthorization cfg codec srv env signed accountID authID = .commit activity cm ∧
    env.outcome ≠ .failedBefore

/-- The step commits the deactivation of the account, if only in the file. -/
def DeactivatesAccount (cfg : Config) (codec : Codec crypto) (accountID : GoString)
    (u : Transition (Process crypto) (Label crypto)) : Prop :=
  ∃ srv signed id env answer activity cm a, u.pre.server = some srv ∧
    u.label = .call (.account signed accountID id) env answer ∧
    account cfg codec srv env signed accountID id = .commit activity cm ∧
    cm.next.accounts.get accountID = some a ∧ a.status = .deactivated ∧
    env.outcome ≠ .failedBefore

/-- A commit without a challenge that reaches the file leaves its snapshot in memory too. -/
theorem Step.committed {op : Op crypto} {env : Env} {answer : Answer crypto} {srv : Server crypto}
    {activity : FinMap GoString Int} {cm : Commit crypto}
    (h : Step cfg codec p (.call op env answer) p') (hsrv : p.server = some srv)
    (hact : op.action cfg codec srv env = .commit activity cm) (hretry : cm.retry = none)
    (hout : env.outcome ≠ .failedBefore) {v : State} (hv : p'.View cfg v) :
    v = cm.next.prune activity cm.now := by
  have hmem : ∀ st, cm.interrupted st = st := fun st => by rw [Commit.interrupted, hretry]
  cases h with
  | call _ _ _ hperf =>
    cases hsrv
    rw [hact] at hperf
    cases hcase : env.outcome with
    | failedBefore => exact absurd hcase hout
    | failedAfter | committed =>
      simp only [Server.perform, hcase, hmem, Prod.mk.injEq] at hperf
      obtain ⟨-, rfl, rfl⟩ := hperf
      cases hv with
      | stored => rfl
      | memory hsrv =>
        cases hsrv
        rfl

/-- A deactivated authorization is never active again. -/
theorem withdrawn_of_run (hrun : Run (Step cfg codec) (.initial start) tr p)
    {u : Transition (Process crypto) (Label crypto)} (hu : u ∈ tr) {authID : GoString}
    (hd : DeactivatesAuthorization cfg codec authID u) :
    ∀ v, p.View cfg v → v.Withdrawn authID := by
  obtain ⟨before, after, rfl, hbefore, hstep, hafter⟩ := hrun.mem_inv hu
  have hp := Process.inv_of_run hbefore
  obtain ⟨srv, signed, accountID, env, answer, activity, cm, hsrv, hlabel, hact, hout⟩ := hd
  rw [hlabel] at hstep
  obtain ⟨hretry, -, -, a, ha, hnext⟩ := getAuthorization_commit codec hact
  refine Process.persists (hstep.inv hp)
    (hstep.ids_subset ((hp.sound _ (.memory hsrv)).uses.authorizations _ a ha)) (fun v hv => ?_)
    hafter fun _ _ _ hnew _ hm => hm.withdrawn hnew
  rw [hstep.committed hsrv hact hretry hout hv]
  intro a' ha'
  have hget := (State.get_prune_authorizations.1 ha').1
  rw [hnext, State.deactivateAuthorization] at hget
  dsimp only at hget
  have hset : (srv.state.authorizations.set authID a.deactivate).get authID = some a' := by
    split at hget <;> exact hget
  rw [FinMap.get_set_self] at hset
  cases hset
  rfl

/-- A deactivated account is never active again. -/
theorem closed_of_run (hrun : Run (Step cfg codec) (.initial start) tr p)
    {u : Transition (Process crypto) (Label crypto)} (hu : u ∈ tr) {accountID : GoString}
    (hd : DeactivatesAccount cfg codec accountID u) : ∀ v, p.View cfg v → v.Closed accountID := by
  obtain ⟨before, after, rfl, hbefore, hstep, hafter⟩ := hrun.mem_inv hu
  have hp := Process.inv_of_run hbefore
  obtain ⟨srv, signed, id, env, answer, activity, cm, a, hsrv, hlabel, hact, ha, hst, hout⟩ := hd
  rw [hlabel] at hstep
  obtain ⟨rfl, hretry, -, -, old, new, hold, -⟩ := account_commit codec hact
  refine Process.persists (hstep.inv hp)
    (hstep.ids_subset ((hp.sound _ (.memory hsrv)).uses.accounts _ old hold.get)) (fun v hv => ?_)
    hafter fun _ _ _ hnew _ hm => hm.closed hnew
  rw [hstep.committed hsrv hact hretry hout hv]
  intro a' ha'
  rcases State.get_prune_accounts activity cm.now ha with hkept | ⟨hgone, -⟩
  · rw [hkept] at ha'
    cases ha'
    simp [hst]
  · cases hgone.symm.trans ha'

/-! ## Issuance -/

/-- What `finalize` has checked of the authorizations, one by one. -/
theorem authorizedNames_some {st : State} {env : Env} {authIDs names : List GoString} {i : Nat}
    (h : authorizedNames st env authIDs i = some names) :
    names = authIDs.map (fun id => ((st.authorizations.get id).getD default).name) ∧
      ∀ j authID, authIDs[j]? = some authID → ∀ a, st.authorizations.get authID = some a →
        a.status = .valid ∧ env.clock.read 2 (i + j) < a.expires ∧
          env.lookup (i + j) a.name = some a.target := by
  induction authIDs generalizing i names with
  | nil =>
    cases h
    exact ⟨rfl, fun j _ hj => (by simp at hj)⟩
  | cons id rest ih =>
    obtain ⟨hvalid, hexp, hlookup, others, hrest, rfl⟩ := authorizedNames_cons h
    obtain ⟨hnames, hall⟩ := ih hrest
    refine ⟨by rw [hnames, List.map_cons], fun j authID hj a ha => ?_⟩
    cases j with
    | zero =>
      cases Option.some.inj hj
      rw [ha, Option.getD_some] at hvalid hexp hlookup
      exact ⟨hvalid, hexp, hlookup⟩
    | succ j =>
      have := hall j authID hj a ha
      rwa [show i + 1 + j = i + (j + 1) by omega] at this

/-- The proof of an authorization in a run: the validator was called for its name and token with a
key authorization made of the key the account had then, the call returned the target of the
authorization without a crash or another result in between, and the account still had the key. -/
def Proved (tr : Trace (Process crypto) (Label crypto)) (accountID authID : GoString)
    (a : Authorization) : Prop :=
  ∃ before f after t env answer, tr = before ++ f :: after ∧
    f.label = .result t (some a.target) env answer ∧
    t.accountID = accountID ∧ t.authID = authID ∧ t.name = a.name ∧ t.token = a.token ∧
    t.keyAuthorization = a.token ++ dot :: t.signed.thumbprint ∧
    Started before t ∧ f.pre.HasKey accountID t.signed.thumbprint

/-- What holds when `finalize` calls `SignCSR` with `s` after the run `tr`. -/
structure IssuanceSafe (cfg : Config) (codec : Codec crypto)
    (tr : Trace (Process crypto) (Label crypto)) (srv : Server crypto) (env : Env)
    (accountID id : GoString) (s : Signing) : Prop where
  order : srv.state.orders.get id = some s.order ∧ s.order.accountID = accountID
  names : s.names = s.order.identifiers.map Identifier.value
  account : ∃ acc, srv.state.accounts.get accountID = some acc ∧ acc.status = .valid
  /-- The order has not expired at any of the readings made before. -/
  unexpired : ∀ i < s.names.length, env.clock.read 2 i < s.order.expires
  /-- Every name has a valid authorization of the order that expires with it, bound to the target
  the name has now, and it was proved. -/
  authorized : ∀ i n, s.names[i]? = some n → ∃ authID a, s.order.authIDs[i]? = some authID ∧
    srv.state.authorizations.get authID = some a ∧ a.orderID = id ∧ a.accountID = accountID ∧
    a.name = n ∧ a.status = .valid ∧ a.expires = s.order.expires ∧
    env.lookup i n = some a.target ∧ Proved tr accountID authID a ∧
    ∀ u ∈ tr, ¬ DeactivatesAuthorization cfg codec authID u
  open_account : ∀ u ∈ tr, ¬ DeactivatesAccount cfg codec accountID u

/-- The call that returns is in flight. -/
theorem Step.in_flight {p' : Process crypto} {t : Ticket crypto} {r : Option Target} {env : Env}
    {answer : Answer crypto} (h : Step cfg codec p (.result t r env answer) p') :
    ∃ srv, p.server = some srv ∧ t ∈ srv.validations := by
  cases h with
  | result _ _ _ _ => exact ⟨_, rfl, List.mem_append_right _ (.head _)⟩

/-- A valid authorization was proved for its account, name and token. -/
theorem Process.proved_of_run (hrun : Run (Step cfg codec) (.initial start) tr p)
    {srv : Server crypto} (hsrv : p.server = some srv) {id : GoString} {a : Authorization}
    (ha : srv.state.authorizations.get id = some a) (hst : a.status = .valid) :
    Proved tr a.accountID id a := by
  obtain ⟨before, f, after, t, env, answer, rfl, hlabel, rfl, hkey⟩ :=
    Acme.proved_of_run hrun (.memory hsrv) ha hst
  obtain ⟨hbefore, hstep, -⟩ := hrun.mid_inv
  obtain ⟨srv', hsrv', ht⟩ := (hlabel ▸ hstep).in_flight
  have hstarted := started_of_run hbefore hsrv' ht
  obtain ⟨first, b, mid, env', rfl, hb, -⟩ := id hstarted
  obtain ⟨hacc, hname, htoken⟩ :=
    matches_of_run hrun (b := b) (by simp) hb _ (.memory hsrv) a ha
  exact ⟨_, f, after, t, env, answer, rfl, hlabel, hacc.symm, rfl, hname.symm, htoken.symm,
    by rw [Ticket.keyAuthorization, htoken], hstarted, hacc ▸ hkey⟩

/-- The names `finalize` signs are those of the order. -/
theorem Order.Linked.names_eq {cfg : Config} {st : State} {id : GoString} {o : Order}
    (h : o.Linked cfg st id) :
    o.authIDs.map (fun id => ((st.authorizations.get id).getD default).name) =
      o.identifiers.map Identifier.value := by
  have hauth := h.authorizations
  generalize o.identifiers = ids, o.authIDs = auths at hauth
  induction hauth with
  | nil => rfl
  | cons hrel _ ih =>
    obtain ⟨a, ha, -, -, hname⟩ := hrel
    rw [List.map_cons, List.map_cons, ih, ha, Option.getD_some, hname]

/-- Whenever `finalize` calls `SignCSR`, at any point of a run and whatever it is given, every name
is authorized. -/
theorem issuance_safe {srv : Server crypto} {signed : Request crypto} {accountID id : GoString}
    {env : Env} {s : Signing} (hrun : Run (Step cfg codec) (.initial start) tr p)
    (hsrv : p.server = some srv)
    (hsign : prepareSigning cfg codec srv env signed accountID id = .ok s) :
    IssuanceSafe cfg codec tr srv env accountID id s := by
  have hs := (Process.inv_of_run hrun).sound _ (.memory hsrv)
  obtain ⟨ho, hoacc, hready, -, -, -, ⟨acc, hacc, hvalid, -⟩, hnames⟩ :=
    prepareSigning_ok codec hsign
  obtain ⟨hmap, hall⟩ := authorizedNames_some hnames
  have hl := hs.inv.linked.order id s.order ho
  have hlen : s.names.length = s.order.authIDs.length := by rw [hmap, List.length_map]
  -- the authorizations of the order, by position
  have hauth : ∀ (i : Nat) authID, s.order.authIDs[i]? = some authID →
      ∃ (n : Identifier) (a : Authorization),
      s.order.identifiers[i]? = some n ∧ srv.state.authorizations.get authID = some a ∧
      a.orderID = id ∧ a.accountID = accountID ∧ a.name = n.value ∧
      a.expires = s.order.expires := by
    intro i authID hi
    obtain ⟨hlt, hget⟩ := List.getElem?_eq_some_iff.1 hi
    have hlt' : i < s.order.identifiers.length := hl.authorizations.length_eq ▸ hlt
    obtain ⟨a, ha, horder, haacc, hname⟩ := hl.authorizations.get hlt' hlt
    rw [List.get_eq_getElem, hget] at ha
    refine ⟨_, a, List.getElem?_eq_getElem hlt', ha, horder, haacc.trans hoacc, hname, ?_⟩
    exact (hs.inv.coherent.order id _ ho).expires (by simp [hready]) authID
      (List.mem_of_getElem? hi) a ha
  refine ⟨⟨ho, hoacc⟩, ?_, ⟨acc, hacc, hvalid⟩, fun i hi => ?_, fun i n hn => ?_, fun u hu hd => ?_⟩
  · exact hmap.trans hl.names_eq
  · obtain ⟨authID, hi⟩ : ∃ authID, s.order.authIDs[i]? = some authID :=
      ⟨_, List.getElem?_eq_getElem (hlen ▸ hi)⟩
    obtain ⟨n, a, -, ha, -, -, -, hexp⟩ := hauth i authID hi
    have hlt := (hall i authID hi a ha).2.1
    rwa [hexp, Nat.zero_add] at hlt
  · rw [hmap, List.getElem?_map, Option.map_eq_some_iff] at hn
    obtain ⟨authID, hi, rfl⟩ := hn
    obtain ⟨n, a, -, ha, horder, haacc, -, hexp⟩ := hauth i authID hi
    obtain ⟨hst, -, hlookup⟩ := hall i authID hi a ha
    rw [Nat.zero_add] at hlookup
    rw [ha, Option.getD_some]
    refine ⟨authID, a, hi, ha, horder, haacc, rfl, hst, hexp, hlookup,
      haacc ▸ Process.proved_of_run hrun hsrv ha hst, fun u hu hd => ?_⟩
    cases hst.symm.trans (withdrawn_of_run hrun hu hd _ (.memory hsrv) a ha)
  · exact closed_of_run hrun hu hd _ (.memory hsrv) acc hacc hvalid

end

/-- The theorem at a run with one order whose challenge has been validated. -/
theorem issuance_safe_validated :
    ∃ srv s, (sampleEnd (sampleOrder ++ sampleIssue.take 2)).server = some srv ∧
      s.names = [str "a.lan"] ∧
      IssuanceSafe sampleConfig sampleCodec (sampleTrace (sampleOrder ++ sampleIssue.take 2)) srv
        sampleFinalize.env (sampleID 1) (sampleID 2) s := by
  have hsign : (sampleEnd (sampleOrder ++ sampleIssue.take 2)).server.any (fun srv =>
      (prepareSigning sampleConfig sampleCodec srv sampleFinalize.env sampleSigned (sampleID 1)
        (sampleID 2)).toOption.any (·.names = [str "a.lan"])) = true := by decide +kernel
  obtain ⟨srv, hsrv, hany⟩ := (Option.any_eq_true _ _).1 hsign
  obtain ⟨s, hs, hnames⟩ := (Option.any_eq_true _ _).1 hany
  have hok : prepareSigning sampleConfig sampleCodec srv sampleFinalize.env sampleSigned
      (sampleID 1) (sampleID 2) = .ok s := by
    cases hprep : prepareSigning sampleConfig sampleCodec srv sampleFinalize.env sampleSigned
      (sampleID 1) (sampleID 2) with
    | error _ =>
      rw [hprep] at hs
      cases hs
    | ok s' =>
      rw [hprep] at hs
      cases hs
      rfl
  refine ⟨srv, s, hsrv, of_decide_eq_true hnames, issuance_safe (sampleTrace_run ?_) hsrv hok⟩
  decide +kernel

end InfraBox.Acme
