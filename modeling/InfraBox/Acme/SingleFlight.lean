import InfraBox.Acme.Consistency

/-!
# The ACME server: validations in flight

At most one call of the validator is in flight for an authorization, and a challenge is processing
in memory exactly while its call is. Every way a call or a commit can end returns the challenge to
pending or finishes it, so a pending authorization without a call in flight can be acknowledged
again.
-/

namespace InfraBox.Acme

/-! ## The authorizations a step does not serve -/

section
variable {crypto : Crypto} {c : Context crypto} {st st' : State} {id : GoString}

/-- An authorization whose challenge is not served is as it was, or it is not being validated and
is pending only if it is new. -/
theorem Mutations.authorization_other (hm : Mutations c st st') (hr : c.restart = false)
    (hne : c.challenged ≠ some id) {a' : Authorization}
    (h : st'.authorizations.get id = some a') :
    st.authorizations.get id = some a' ∨
      (a'.challengeStatus ≠ .processing ∧ (a'.status = .pending → id ∈ c.env.ids)) := by
  induction hm generalizing a' with
  | refl => exact .inl h
  | tail _ hs ih =>
    cases hs.authorization h with
    | kept hold => exact ih hold
    | added hid _ hch => exact .inr ⟨by simp [hch], fun _ => hid⟩
    | deactivated _ _ hst hch => exact .inr ⟨hch, fun hp => by simp [hst] at hp⟩
    | challenged _ hc _ _ _ | proved _ hc _ _ _ _ => exact absurd hc hne
    | reset _ hrestart _ => simp [hr] at hrestart

/-- A challenge that may be retried is not processing. -/
theorem State.Coherent.retry_not_processing (hc : st.Coherent) {a : Authorization}
    (h : (retryInterruptedChallenge id st).authorizations.get id = some a) :
    a.challengeStatus ≠ .processing := by
  intro hch
  unfold retryInterruptedChallenge at h
  split at h
  · next hnone =>
    rw [hnone] at h
    cases h
  next b hb =>
  split at h
  · rw [FinMap.get_set_self] at h
    cases h
    cases hch
  · next hopen =>
    rw [hb] at h
    cases h
    exact hopen ⟨(hc.authorization id a hb).processing hch, hch⟩

end

/-! ## The invariant of the calls in flight -/

/-- The calls in flight and the challenges that are processing correspond. -/
structure Server.SingleFlight {crypto : Crypto} (srv : Server crypto) : Prop where
  nodup : (srv.validations.map Ticket.authID).Nodup
  waiting : ∀ t ∈ srv.validations, ∀ a, srv.state.authorizations.get t.authID = some a →
    a.status = .pending → a.challengeStatus = .processing
  processing : ∀ id a, srv.state.authorizations.get id = some a →
    a.challengeStatus = .processing → ∃ t ∈ srv.validations, t.authID = id

section
variable {cfg : Config} {crypto : Crypto} {codec : Codec crypto} {p p' : Process crypto}
  {l : Label crypto} {srv srv' : Server crypto}

/-- The correspondence is kept when it is kept at the authorization that is served and the others
are untouched. -/
theorem Server.SingleFlight.update (h : srv.SingleFlight) {served : Option GoString}
    {ids : List GoString} (hold : ∀ t ∈ srv.validations, t.authID ∉ ids)
    (hnodup : (srv'.validations.map Ticket.authID).Nodup)
    (hval : ∀ t, served ≠ some t.authID → (t ∈ srv'.validations ↔ t ∈ srv.validations))
    (hother : ∀ id a, served ≠ some id → srv'.state.authorizations.get id = some a →
      srv.state.authorizations.get id = some a ∨
        (a.challengeStatus ≠ .processing ∧ (a.status = .pending → id ∈ ids)))
    (hserved : ∀ id a, served = some id → srv'.state.authorizations.get id = some a →
      ((∃ t ∈ srv'.validations, t.authID = id) → a.status = .pending →
        a.challengeStatus = .processing) ∧
      (a.challengeStatus = .processing → ∃ t ∈ srv'.validations, t.authID = id)) :
    srv'.SingleFlight where
  nodup := hnodup
  waiting t ht a ha hst := by
    rcases eq_or_ne served (some t.authID) with heq | hne
    · exact (hserved _ a heq ha).1 ⟨t, ht, rfl⟩ hst
    · have ht := (hval t hne).1 ht
      rcases hother _ a hne ha with hget | ⟨-, hnew⟩
      · exact h.waiting t ht a hget hst
      · exact absurd (hnew hst) (hold t ht)
  processing id a ha hch := by
    rcases eq_or_ne served (some id) with heq | hne
    · exact (hserved id a heq ha).2 hch
    · rcases hother id a hne ha with hget | ⟨hnot, -⟩
      · obtain ⟨t, ht, rfl⟩ := h.processing id a hget hch
        exact ⟨t, (hval t hne).2 ht, rfl⟩
      · exact absurd hch hnot

/-- A commit ends in one of two ways: it is interrupted, after the rename or before, or it goes
through. -/
theorem Server.perform_commit {disk disk' : Option State} {outcome : Outcome}
    {activity : FinMap GoString Int} {cm : Commit crypto} {answer : Answer crypto}
    (h : srv.perform disk outcome (.commit activity cm) = (answer, srv', disk')) :
    (srv'.validations = srv.validations ∧
      ∃ st, srv'.state = cm.interrupted st ∧ (st = srv.state ∨ disk' = some st)) ∨
    (srv'.validations = cm.answer.tickets ++ srv.validations ∧
      srv'.state = cm.next.prune activity cm.now) := by
  cases outcome <;> cases h
  · exact .inl ⟨rfl, srv.state, rfl, .inl rfl⟩
  · exact .inl ⟨rfl, _, rfl, .inr rfl⟩
  · exact .inr ⟨rfl, rfl⟩

/-- After an interrupted commit the challenge that was served is not processing. -/
theorem Step.interrupted (h : Step cfg codec p l p') (hp : p.Inv cfg) (hsrv : p.server = some srv)
    {cm : Commit crypto} {st : State} {id : GoString} {a : Authorization}
    (hst : st = srv.state ∨ p'.disk = some st) (hretry : cm.retry = some id)
    (ha : (cm.interrupted st).authorizations.get id = some a) :
    a.challengeStatus ≠ .processing := by
  have hc : st.Coherent := by
    rcases hst with rfl | hdisk
    · exact (hp.sound _ (.memory hsrv)).inv.coherent
    · have hs := (h.inv hp).sound _ .stored
      rw [Process.stored, hdisk] at hs
      exact hs.inv.coherent
  simp only [Commit.interrupted, hretry] at ha
  exact hc.retry_not_processing ha

/-- An acknowledgement keeps the correspondence. -/
theorem Step.singleFlight_challenge {signed : Request crypto} {accountID id : GoString} {env : Env}
    {answer : Answer crypto}
    (h : Step cfg codec p (.call (.challenge signed accountID id) env answer) p') (hp : p.Inv cfg)
    (hsrv : p.server = some srv) (hsrv' : p'.server = some srv') (hsf : srv.SingleFlight) :
    (srv'.validations.map Ticket.authID).Nodup ∧
      (∀ t, t.authID ≠ id → (t ∈ srv'.validations ↔ t ∈ srv.validations)) ∧
      ∀ a, srv'.state.authorizations.get id = some a →
        ((∃ t ∈ srv'.validations, t.authID = id) → a.status = .pending →
          a.challengeStatus = .processing) ∧
        (a.challengeStatus = .processing → ∃ t ∈ srv'.validations, t.authID = id) := by
  have hint := fun cm st a => @Step.interrupted _ _ _ _ _ _ _ h hp hsrv cm st id a
  cases h with
  | @call disk disk' _ _ clock now ids _ _ _ hwithin hfresh _ hperf =>
    cases hsrv
    cases hsrv'
    cases hact : Op.action cfg codec srv env (.challenge signed accountID id) with
    | reply activity r =>
      rw [hact] at hperf
      cases hperf
      exact ⟨hsf.nodup, fun _ _ => Iff.rfl, fun a ha =>
        ⟨fun ⟨t, ht, heq⟩ => hsf.waiting t ht a (heq ▸ ha), hsf.processing id a ha⟩⟩
    | commit activity cm =>
      obtain ⟨b, -, hb, -, hst, hch, -, -, -, hnext, hans, hretry, -⟩ := challenge_commit codec hact
      -- the challenge is not processing, so no call is in flight for it
      have hnone : ∀ t ∈ srv.validations, t.authID ≠ id := fun t ht heq =>
        hch (hsf.waiting t ht b (heq ▸ hb) hst)
      rw [hact] at hperf
      rcases Server.perform_commit hperf with ⟨hval, st, hstate, hor⟩ | ⟨hval, hstate⟩
      · rw [hval]
        refine ⟨hsf.nodup, fun _ _ => Iff.rfl, fun a ha => ⟨fun ⟨t, ht, heq⟩ => ?_, fun hp => ?_⟩⟩
        · exact absurd heq (hnone t ht)
        · rw [hstate] at ha
          exact absurd hp (hint cm st a hor hretry ha)
      · rw [hval, hans]
        refine ⟨List.nodup_cons.2 ⟨fun hmem => ?_, hsf.nodup⟩, fun t hne => ?_, fun a ha => ?_⟩
        · obtain ⟨t, ht, heq⟩ := List.mem_map.1 hmem
          exact hnone t ht heq
        · refine List.mem_cons.trans (or_iff_right fun heq => hne ?_)
          rw [heq]
        · rw [hstate, hnext] at ha
          have ha := (State.get_prune_authorizations.1 ha).1
          rw [FinMap.get_set_self] at ha
          cases ha
          exact ⟨fun _ _ => rfl, fun _ => ⟨_, .head _, rfl⟩⟩

/-- The challenge a result is for is not processing after its handler. -/
theorem Step.result_not_processing {t : Ticket crypto} {r : Option Target} {env : Env}
    {answer : Answer crypto} (h : Step cfg codec p (.result t r env answer) p') (hp : p.Inv cfg)
    (hsrv : p.server = some srv) (hsrv' : p'.server = some srv') {a : Authorization}
    (ha : srv'.state.authorizations.get t.authID = some a) : a.challengeStatus ≠ .processing := by
  have hint := fun cm st => @Step.interrupted _ _ _ _ _ _ _ h hp hsrv cm st t.authID a
  have hcoh := (hp.sound _ (.memory hsrv)).inv.coherent
  obtain ⟨_, _, srv₁, validations, henv, -, hsrv₁, hperf⟩ := h.performs hsrv rfl
  cases henv
  cases hsrv₁.symm.trans hsrv'
  cases hact : challengeResult cfg srv env t r with
  | reply activity resp =>
    rw [hact, Server.perform, Prod.mk.injEq, Prod.mk.injEq] at hperf
    obtain ⟨-, rfl, -⟩ := hperf
    -- a processing challenge is pending, so its result is committed
    exact fun hch => challengeResult_reply hact ha ((hcoh.authorization _ a ha).processing hch) hch
  | commit activity cm =>
    obtain ⟨b, hb, hst, hch, hretry, -, -, hnext⟩ := challengeResult_commit hact
    rw [hact] at hperf
    rcases Server.perform_commit hperf with ⟨-, st, hstate, hor⟩ | ⟨-, hstate⟩
    · rw [hstate] at ha
      exact hint cm st hor hretry ha
    · rw [hstate] at ha
      have ha := (State.get_prune_authorizations.1 ha).1
      rcases hnext with hnext | hnext | ⟨target, -, now, -, -, -, -, hnext⟩
      all_goals
        rw [hnext] at ha
        rcases FinMap.get_set_eq_some.1 ha with ⟨-, rfl⟩ | ⟨hne, -⟩
        · exact fun heq => (by cases heq)
        · exact absurd rfl hne

/-- No challenge is processing after a start. -/
theorem Step.started {env : Env} {modTime : Int} (h : Step cfg codec p (.start env modTime) p')
    (hp : p.Inv cfg) (hsrv' : p'.server = some srv') :
    srv'.validations = [] ∧ ∀ id a, srv'.state.authorizations.get id = some a →
      a.challengeStatus ≠ .processing := by
  cases h with
  | start _ _ hnew =>
    rcases newServer_eq (hp.sound _ .stored) hnew with ⟨rfl, -⟩ | ⟨next, rfl, -, rfl | rfl⟩
    · cases hsrv'
    · cases hsrv'
    · cases hsrv'
      refine ⟨rfl, fun id a ha => ?_⟩
      have ha := (State.get_prune_authorizations.1 ha).1
      simp only [State.reset, FinMap.get_mapVals, Option.map_eq_some_iff] at ha
      obtain ⟨b, -, rfl⟩ := ha
      unfold Authorization.reset
      split
      · exact fun heq => (by cases heq)
      · assumption

theorem Op.challenged_eq_some {op : Op crypto} {id : GoString} (h : op.challenged = some id) :
    ∃ signed accountID, op = .challenge signed accountID id := by
  cases op with
  | challenge signed accountID _ =>
    cases h
    exact ⟨signed, accountID, rfl⟩
  | _ => cases h

/-- A step leaves the authorizations it does not serve. -/
theorem Step.authorization_other (h : Step cfg codec p l p') (hp : p.Inv cfg)
    {action : Action crypto} (hsrv : p.server = some srv) (hsrv' : p'.server = some srv')
    (hact : l.action cfg codec srv = some action) :
    ∃ ids : List GoString, (∀ t ∈ srv.validations, t.authID ∉ ids) ∧
      ∀ id a, l.challenged ≠ some id → srv'.state.authorizations.get id = some a →
        srv.state.authorizations.get id = some a ∨
          (a.challengeStatus ≠ .processing ∧ (a.status = .pending → id ∈ ids)) := by
  obtain ⟨c, srv₁, hf, hr, hc, hsrv₁, hpub, -⟩ :=
    h.publishes hp (False.elim : False → _) hsrv hact
  cases hsrv₁.symm.trans hsrv'
  refine ⟨c.env.ids, fun t ht hid => hf.fresh.unused _ hid (hp.tickets srv hsrv t ht), ?_⟩
  exact fun id a hne ha => hpub.mutations.authorization_other hr (hc ▸ hne) ha

/-- Every step keeps the correspondence. -/
theorem Step.singleFlight (h : Step cfg codec p l p') (hp : p.Inv cfg)
    (hsf : ∀ srv, p.server = some srv → srv.SingleFlight) (hsrv' : p'.server = some srv') :
    srv'.SingleFlight := by
  rcases h.validations hsrv' with ⟨srv, op, env, answer, rfl, hsrv, hval⟩ |
    ⟨srv, earlier, later, t, r, env, answer, rfl, hsrv, hval, hval'⟩ | ⟨env, modTime, rfl, -⟩
  · have hsf := hsf srv hsrv
    obtain ⟨ids, hold, hother⟩ := h.authorization_other hp hsrv hsrv' rfl
    cases hch : op.challenged with
    | some id =>
      obtain ⟨signed, accountID, rfl⟩ := Op.challenged_eq_some hch
      obtain ⟨hnodup, hmem, hserved⟩ := h.singleFlight_challenge hp hsrv hsrv' hsf
      refine hsf.update hold hnodup (fun t hne => hmem t fun heq => hne ?_) hother ?_
      · rw [heq]; rfl
      · rintro k a heq ha
        cases heq
        exact hserved a ha
    | none =>
      have hsame : srv'.validations = srv.validations := by
        cases answer with
        | respond _ => exact hval
        | validate t =>
          obtain ⟨rfl, -⟩ := h.acknowledged hp
          cases hch
      rw [Label.challenged, hch] at hother
      exact hsf.update hold (hsame ▸ hsf.nodup) (fun t _ => by rw [hsame]) hother
        fun _ _ heq => (by cases heq)
  · have hsf := hsf srv hsrv
    obtain ⟨ids, hold, hother⟩ := h.authorization_other hp hsrv hsrv' rfl
    have hnodup := hsf.nodup
    rw [hval, List.map_append, List.map_cons, List.nodup_middle, List.nodup_cons] at hnodup
    rw [← List.map_append, ← hval'] at hnodup
    refine hsf.update hold hnodup.2 (fun t' hne => ?_) hother ?_
    · rw [hval, hval', List.mem_append, List.mem_append, List.mem_cons]
      refine or_congr_right (or_iff_right fun heq => hne ?_).symm
      rw [heq]; rfl
    · rintro k a heq ha
      cases heq
      refine ⟨fun ⟨t', ht', heq⟩ => ?_, fun hp' => ?_⟩
      · exact absurd (List.mem_map.2 ⟨t', ht', heq⟩) hnodup.1
      · exact absurd hp' (h.result_not_processing hp hsrv hsrv' ha)
  · obtain ⟨hnil, hnot⟩ := h.started hp hsrv'
    refine ⟨by rw [hnil]; exact .nil, fun t ht => ?_, fun id a ha hch => absurd hch (hnot id a ha)⟩
    rw [hnil] at ht
    cases ht

/-- The calls in flight and the processing challenges correspond at the end of every run. -/
theorem Server.singleFlight_of_run {start : Int}
    {tr : Trace (Process crypto) (Label crypto)}
    (hrun : Run (Step cfg codec) (.initial start) tr p) (hsrv : p.server = some srv) :
    srv.SingleFlight := by
  have h := hrun.invariant
    (I := fun p => p.Inv cfg ∧ ∀ srv, p.server = some srv → srv.SingleFlight)
    ⟨Process.inv_initial cfg start, nofun⟩ fun _ _ _ hp hs =>
      ⟨hs.inv hp.1, fun _ hsrv' => hs.singleFlight hp.1 hp.2 hsrv'⟩
  exact h.2 srv hsrv

end

/-! ## Acknowledging again -/

/-- If the authorization is pending, its account is active. -/
def State.Served (id : GoString) (st : State) : Prop :=
  ∀ a, st.authorizations.get id = some a → a.status = .pending →
    ∃ acc, st.accounts.get a.accountID = some acc ∧ acc.status = .valid

section
variable {crypto : Crypto} {c : Context crypto} {st st' : State} {id : GoString}

/-- A pending authorization that is not new was pending before, for the same account. -/
theorem Mutation.was_pending (hm : Mutation c st st') (hid : id ∉ c.env.ids) {a' : Authorization}
    (h : st'.authorizations.get id = some a') (hst : a'.status = .pending) :
    ∃ a, st.authorizations.get id = some a ∧ a.status = .pending ∧ a.accountID = a'.accountID := by
  have hshape : ∀ {a b : Authorization}, a.shape = b.shape → b.accountID = a.accountID := fun heq =>
    (congrArg (fun s => s.2.1) heq).symm
  cases hm.authorization h with
  | kept hold => exact ⟨a', hold, hst, rfl⟩
  | added hnew _ _ => exact absurd hnew hid
  | deactivated _ _ hd _ => simp [hst] at hd
  | challenged ha _ hp heq _ => exact ⟨_, ha, hp, hshape heq⟩
  | proved _ _ _ _ _ heq => simp [heq, Authorization.prove] at hst
  | @reset a ha _ heq =>
    subst heq
    exact ⟨a, ha, a.reset_status ▸ hst, hshape a.reset_shape⟩

/-- Of a served authorization, only its own challenge is touched. -/
theorem Mutation.served (hm : Mutation c st st') (hinv : st.Inv c.cfg crypto)
    (hid : id ∉ c.env.ids) (h : st.Served id) : st'.Served id := by
  intro a' ha' hst'
  obtain ⟨a, ha, hst, heq⟩ := hm.was_pending hid ha' hst'
  obtain ⟨acc, hacc, hvalid⟩ := h a ha hst
  rw [heq] at hacc
  cases hm with
  | @prune activity now _ =>
    rcases State.get_prune_accounts activity now hacc with hkept | ⟨-, -, hdead⟩
    · exact ⟨_, hkept, hvalid⟩
    · obtain ⟨o, ho, hlive, hoacc, -⟩ := hinv.linked.prune_order ha'
      exact absurd hoacc (hdead _ o ho hlive)
  | addAccount hn =>
    refine ⟨acc, ?_, hvalid⟩
    rw [FinMap.get_set_ne _ _ fun hk => ?_, hacc]
    rw [hk, hn.id_new] at hacc
    cases hacc
  | @noteOrder accountID now _ _ _ _ =>
    simp only [State.noteOrder, FinMap.get_set]
    split
    · next hk => exact ⟨_, rfl, by simp [← hk, hacc, hvalid]⟩
    · exact ⟨acc, hacc, hvalid⟩
  | @updateAccount k old new hu =>
    unfold State.updateAccount at ha' ⊢
    dsimp only at ha' ⊢
    split at ha'
    · next hdead =>
      rw [if_pos hdead]
      simp only [State.deactivateAccount, FinMap.get_mapVals, Option.map_eq_some_iff] at ha'
      obtain ⟨b, hb, rfl⟩ := ha'
      -- the pending authorizations of the account are deactivated with it
      have hne : b.accountID ≠ k ∧ (b.accountDeactivated k).accountID = b.accountID := by
        unfold Authorization.accountDeactivated at hst' ⊢
        split
        · next hk => simp [hk] at hst'
        · next hk =>
          rw [if_neg hk] at hst'
          exact ⟨fun heq => hk ⟨heq, hst'⟩, rfl⟩
      refine ⟨acc, ?_, hvalid⟩
      rw [hne.2] at hacc ⊢
      exact (FinMap.get_set_ne _ _ hne.1).trans hacc
    · next hlive =>
      rw [if_neg hlive]
      simp only [FinMap.get_set]
      split
      · exact ⟨new, rfl, hu.status.resolve_right hlive⟩
      · exact ⟨acc, hacc, hvalid⟩
  | @deactivateAuthorization k a _ =>
    obtain ⟨orders, auths, hframe⟩ := st.deactivateAuthorization_frame k a
    rw [hframe]
    exact ⟨acc, hacc, hvalid⟩
  | @retry k _ =>
    obtain ⟨auths, hframe⟩ := retryInterruptedChallenge_frame k st
    rw [hframe]
    exact ⟨acc, hacc, hvalid⟩
  | relist _ _ hs =>
    obtain ⟨_, _, _, -, -, -, -, -, -, rfl⟩ := State.refreshCRL_some hs
    exact ⟨acc, hacc, hvalid⟩
  | _ => exact ⟨acc, hacc, hvalid⟩

end

theorem State.Served.of_reset {st st' : State} {id : GoString} (heq : st'.reset = st.reset)
    (h : st.Served id) : st'.Served id := by
  intro a' ha' hst
  obtain ⟨a, ha, hshape, hstatus⟩ := State.authorization_of_reset heq ha'
  have hacc : a.accountID = a'.accountID := congrArg (fun s => s.2.1) hshape
  have haccounts : st'.reset.accounts = st.reset.accounts := by rw [heq]
  rw [← hacc, show st'.accounts = st.accounts from haccounts]
  exact h a ha (hstatus.trans hst)

section
variable {cfg : Config} {crypto : Crypto} {codec : Codec crypto} {p : Process crypto}
  {srv : Server crypto} {start : Int} {tr : Trace (Process crypto) (Label crypto)}

/-- Once an authorization has been acknowledged its account stays active as long as it is
pending. -/
theorem Process.served_of_run (hrun : Run (Step cfg codec) (.initial start) tr p)
    {b : Transition (Process crypto) (Label crypto)} (hb : b ∈ tr) {op : Op crypto} {env : Env}
    {t : Ticket crypto} (hlabel : b.label = .call op env (.validate t)) :
    ∀ v, p.View cfg v → v.Served t.authID := by
  obtain ⟨before, after, rfl, hbefore, hstep, hafter⟩ := hrun.mem_inv hb
  have hp := Process.inv_of_run hbefore
  have hack := hstep
  rw [hlabel] at hack
  obtain ⟨-, ⟨srv, acc, hsrv, hacc, hvalid, -⟩, srv₁, -, a, hsrv₁, -, ha, haid, -⟩ :=
    hack.acknowledged hp
  cases hsrv.symm.trans hsrv₁
  have hid : t.authID ∈ b.pre.ids := (hp.sound _ (.memory hsrv)).uses.authorizations _ a ha
  have hmem : srv.state.Served t.authID := fun a' ha' _ => by
    rw [ha] at ha'
    cases ha'
    exact ⟨acc, haid ▸ hacc, hvalid⟩
  have hpre : ∀ v, b.pre.View cfg v → v.Served t.authID := fun v hv =>
    hmem.of_reset ((hp.view_reset hv).trans (hp.view_reset (.memory hsrv)).symm)
  exact Process.persists hp hid hpre (.cons hstep hafter) fun _ _ _ hnew hinv hm =>
    hm.served hinv hnew

/-- A request of the account of `a` that acknowledges the challenge of `a` in time, while a
validation slot is free, makes the server call the validator. -/
def CanAcknowledge (cfg : Config) (codec : Codec crypto) (srv : Server crypto) (id : GoString)
    (a : Authorization) : Prop :=
  ∀ signed env acc, srv.state.accounts.get a.accountID = some acc → acc.status = .valid →
    acc.thumbprint = signed.thumbprint → signed.keyID = cfg.accountURL a.accountID →
    signed.payload ≠ [] → codec.members signed.payload = some 0 →
    env.clock.now 1 < a.expires → srv.validations.length + env.busy < maxValidations →
    ∃ activity cm, challenge cfg codec srv env signed a.accountID id = .commit activity cm ∧
      cm.answer = .validate ⟨signed, a.accountID, id, a.name, a.token⟩

/-- A pending challenge of a pending authorization can be acknowledged. -/
theorem State.Sound.canAcknowledge {ids : List GoString} (hs : srv.state.Sound cfg crypto ids)
    {id : GoString} {a : Authorization} (ha : srv.state.authorizations.get id = some a)
    (hst : a.status = .pending) (hch : a.challengeStatus = .pending) :
    CanAcknowledge cfg codec srv id a := by
  intro signed env acc hacc hvalid hthumb hkey hpayload hmembers htime hslot
  obtain ⟨o, ho, hpend, -⟩ := hs.inv.coherent.order_pending hs.inv.linked hs.settled ha hst
  have hactive : activeAccount cfg srv (env.clock.now 0) signed a.accountID =
      .ok (acc, srv.activity.set a.accountID (env.clock.now 0)) := by
    simp [activeAccount, hacc, hvalid, hthumb, hkey]
  unfold challenge
  dsimp only
  rw [if_neg (by simp [decodePayload, hpayload, hmembers]), hactive]
  simp only [ha]
  rw [if_neg (by simp), if_neg (by simp [hpayload, hch, hst]), if_neg ?_, if_neg (by omega)]
  · exact ⟨_, _, rfl, rfl⟩
  · simp only [hst, ho, Option.getD_some, hpend, not_or, not_not, not_le, true_and, ne_eq]
    exact htime

/-- What holds of the validations of a running server at the end of a run. -/
structure ValidationSafe (cfg : Config) (codec : Codec crypto)
    (tr : Trace (Process crypto) (Label crypto)) (srv : Server crypto) : Prop where
  /-- At most one call is in flight for an authorization. -/
  single : (srv.validations.map Ticket.authID).Nodup
  /-- A challenge is processing only while its call is in flight. -/
  processing : ∀ id a, srv.state.authorizations.get id = some a →
    a.challengeStatus = .processing → ∃ t ∈ srv.validations, t.authID = id
  /-- A pending authorization without a call in flight can be acknowledged. -/
  again : ∀ id a, srv.state.authorizations.get id = some a → a.status = .pending →
    (∀ t ∈ srv.validations, t.authID ≠ id) →
    a.challengeStatus = .pending ∧ CanAcknowledge cfg codec srv id a
  /-- If it has been acknowledged before, its account is still active. -/
  account : ∀ b ∈ tr, ∀ op env t a, b.label = .call op env (.validate t) →
    srv.state.authorizations.get t.authID = some a → a.status = .pending →
    ∃ acc, srv.state.accounts.get a.accountID = some acc ∧ acc.status = .valid
  /-- After a start nothing is in flight or processing. -/
  started : ∀ b ∈ tr, ∀ env modTime srv', b.label = .start env modTime →
    b.post.server = some srv' → srv'.validations = [] ∧
      ∀ id a, srv'.state.authorizations.get id = some a → a.challengeStatus ≠ .processing

/-- Validation is single-flight and never stranded. -/
theorem validation_safe (hrun : Run (Step cfg codec) (.initial start) tr p)
    (hsrv : p.server = some srv) : ValidationSafe cfg codec tr srv := by
  have hs := (Process.inv_of_run hrun).sound _ (.memory hsrv)
  have hsf := Server.singleFlight_of_run hrun hsrv
  refine ⟨hsf.nodup, hsf.processing, fun id a ha hst hnone => ?_, fun b hb op env t a hlabel => ?_,
    fun b hb env modTime srv' hlabel hsrv' => ?_⟩
  · have hch : a.challengeStatus = .pending := by
      refine ((hs.inv.coherent.authorization id a ha).pending hst).resolve_right fun hp => ?_
      obtain ⟨t, ht, heq⟩ := hsf.processing id a ha hp
      exact hnone t ht heq
    exact ⟨hch, hs.canAcknowledge ha hst hch⟩
  · exact Process.served_of_run hrun hb hlabel _ (.memory hsrv) a
  · obtain ⟨before, after, rfl, hbefore, hstep, -⟩ := hrun.mem_inv hb
    rw [hlabel] at hstep
    exact hstep.started (Process.inv_of_run hbefore) hsrv'

/-- The theorem at a run that ends while a challenge is being validated. -/
theorem validation_safe_validating :
    ∃ srv, (sampleEnd (sampleOrder ++ sampleIssue.take 1)).server = some srv ∧
      srv.validations.length = 1 ∧
      ValidationSafe sampleConfig sampleCodec (sampleTrace (sampleOrder ++ sampleIssue.take 1))
        srv := by
  have hup : (sampleEnd (sampleOrder ++ sampleIssue.take 1)).server.any
      (·.validations.length = 1) = true := by decide +kernel
  obtain ⟨srv, hsrv, hlen⟩ := (Option.any_eq_true _ _).1 hup
  refine ⟨srv, hsrv, of_decide_eq_true hlen, validation_safe (sampleTrace_run ?_) hsrv⟩
  decide +kernel

end

end InfraBox.Acme
