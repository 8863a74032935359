import InfraBox.Acme.Lifecycle
import Mathlib.Data.List.Sort

/-!
# The ACME server: the revocation lists it serves

A stored list changes only together with its number, so a number determines the list that is served
with it. A certificate that is revoked stays stored, and revoked, until it expires, and every list
that is made until then has an entry for it.
-/

namespace InfraBox.Acme

/-! ## What is on a list -/

/-- `CreateCRL` returns a list with the given number and entries for exactly the given serial
numbers; the times on it are whole seconds. -/
def Env.CreatesLists (crypto : Crypto) (env : Env) : Prop :=
  ∀ entries number der, env.createCRL entries number = some der →
    ∃ list, crypto.parseRevocationList der = some list ∧ list.number = some number ∧
      ∀ serial, (∃ e ∈ list.entries, e.serialNumber = serial) ↔
        ∃ e ∈ entries, e.serialNumber = serial

/-- A revoked certificate that has not expired gets an entry. -/
theorem mem_revokedEntries {now : Int} {certificates : List (GoString × Certificate)}
    {entries : List RevocationEntry} (h : revokedEntries now certificates = some entries)
    {id : GoString} {cert : Certificate} (hmem : (id, cert) ∈ certificates) {revokedAt serial : Int}
    (hrev : cert.revokedAt = some revokedAt) (hlive : now < cert.notAfter)
    (hserial : parseInt cert.serial = some serial) :
    ⟨serial, revokedAt, cert.reason⟩ ∈ entries := by
  induction certificates generalizing entries with
  | nil => cases hmem
  | cons e rest ih =>
    obtain ⟨k, c⟩ := e
    rcases List.mem_cons.1 hmem with heq | hmem
    · cases heq
      simp only [revokedEntries, hrev, hserial] at h
      rw [if_neg (by omega)] at h
      split at h
      · cases h
      obtain ⟨rest', -, rfl⟩ := Option.map_eq_some_iff.1 h
      exact .head _
    · simp only [revokedEntries] at h
      split at h
      · exact ih h hmem
      split at h
      · exact ih h hmem
      split at h
      · cases h
      split at h
      · cases h
      obtain ⟨rest', hrest, rfl⟩ := Option.map_eq_some_iff.1 h
      exact .tail _ (ih hrest hmem)

/-- A revoked certificate is stored, and the stored list has an entry with its serial number. -/
structure State.Lists (crypto : Crypto) (id : GoString) (serial notAfter : Int) (st : State) :
    Prop where
  certificate : ∃ cert, st.certificates.get id = some cert ∧ cert.revokedAt.isSome ∧
    cert.serial = formatInt serial ∧ cert.notAfter = notAfter
  listed : ∃ list, crypto.parseRevocationList st.crl = some list ∧
    ∃ e ∈ list.entries, e.serialNumber = serial

section
variable {crypto : Crypto} {c : Context crypto} {st st' : State} {id : GoString}
  {serial notAfter : Int}

/-- A list that is made has an entry for every revoked certificate that has not expired. -/
theorem State.refreshCRL_lists {env : Env} {now : Int} {cert : Certificate}
    (hs : st.refreshCRL crypto env.createCRL now = some st') (hlists : env.CreatesLists crypto)
    (hget : st.certificates.get id = some cert) (hrev : cert.revokedAt.isSome)
    (hlive : now < cert.notAfter) (hserial : cert.serial = formatInt serial) :
    ∃ list, crypto.parseRevocationList st'.crl = some list ∧
      ∃ e ∈ list.entries, e.serialNumber = serial := by
  obtain ⟨entries, der, list, hentries, hder, hparse, -, -, -, rfl⟩ := State.refreshCRL_some hs
  obtain ⟨list', hparse', -, hmem⟩ := hlists _ _ _ hder
  cases hparse.symm.trans hparse'
  obtain ⟨revokedAt, hrevoked⟩ := Option.isSome_iff_exists.1 hrev
  have hentry := mem_revokedEntries hentries (FinMap.mem_entries.2 hget) hrevoked hlive
    (hserial ▸ parseInt_formatInt serial)
  exact ⟨list, hparse, (hmem serial).2 ⟨_, List.mem_mergeSort.2 hentry, rfl⟩⟩

/-- A revoked certificate stays on the list until it has expired. -/
theorem Mutation.lists (hm : Mutation c st st') (hinv : st.Inv c.cfg crypto)
    (hlists : c.env.CreatesLists crypto) (htime : ∀ p i, c.env.clock.read p i < notAfter)
    (h : st.Lists crypto id serial notAfter) : st'.Lists crypto id serial notAfter := by
  obtain ⟨cert, hget, hrev, hserial, hexp⟩ := h.certificate
  have hsame : ∀ {cert' : Certificate}, (cert' = cert ∨ (cert.revokedAt = none ∧
      ∃ now reason, cert' = cert.revoke now reason)) → cert' = cert := fun hor =>
    hor.resolve_right fun hnone => by simp [hnone.1] at hrev
  refine ⟨?_, ?_⟩
  · rcases hm.certificate hinv hget with ⟨cert', hget', hor⟩ | ⟨p, i, hle⟩
    · cases hsame hor
      exact ⟨cert, hget', hrev, hserial, hexp⟩
    · have := htime p i
      omega
  · rcases hm.crl with ⟨hcrl, -⟩ | ⟨certificates, p, i, hr, hs⟩
    · rw [hcrl]
      exact h.listed
    · obtain ⟨cert', hget', hor⟩ := hr.of_get hget
      have heq := hsame (hor.imp_right fun ⟨hnone, now, reason, _, heq⟩ =>
        ⟨hnone, now, reason, heq⟩)
      subst heq
      exact State.refreshCRL_lists hs hlists hget' hrev (hexp ▸ htime p i) hserial

/-- The stored number is at least `number`, and with this number the list is `der`. -/
structure State.Numbered (number : Int) (der : GoString) (st : State) : Prop where
  le : number ≤ st.crlNumber
  eq : st.crlNumber = number → st.crl = der

theorem Mutation.numbered {number : Int} {der : GoString} (hm : Mutation c st st')
    (h : st.Numbered number der) : st'.Numbered number der := by
  rcases hm.crl with ⟨hcrl, hnumber⟩ | ⟨certificates, p, i, -, hs⟩
  · exact ⟨hnumber ▸ h.le, fun heq => hcrl.trans (h.eq (hnumber ▸ heq))⟩
  · obtain ⟨_, _, _, -, -, -, -, -, -, rfl⟩ := State.refreshCRL_some hs
    have hle : number ≤ st.crlNumber := h.le
    exact ⟨Int.le_add_one hle, fun heq => absurd heq (by show st.crlNumber + 1 ≠ number; omega)⟩

end

/-! ## Steps -/

section
variable {cfg : Config} {crypto : Crypto} {codec : Codec crypto} {p p' : Process crypto}
  {srv : Server crypto} {env : Env} {head : Bool} {r : Response} {der : GoString}

/-- The stored list is served only while it has more than a minute left. -/
theorem serveCRL_reply {activity : FinMap GoString Int}
    (h : serveCRL srv env head = .reply activity r) (hbody : r.body = .crl der) :
    srv.state.crl = der ∧ der ≠ [] ∧ env.clock.now 0 + minute < srv.state.crlNextUpdate := by
  unfold serveCRL at h
  dsimp only at h
  split at h
  · split at h
    · cases h
      cases hbody
    · cases h
  · next hfresh =>
    cases h
    dsimp only at hbody
    split at hbody
    · cases hbody
    cases hbody
    simp only [not_or, not_le] at hfresh
    exact ⟨rfl, fun hnil => hfresh.1 (by simp [hnil]), hfresh.2⟩

/-- A list that is served is the one in memory afterwards, and has been checked not to be out of
date. -/
theorem Step.served (h : Step cfg codec p (.call (.serveCRL head) env (.respond r)) p')
    (hp : p.Inv cfg) (hbody : r.body = .crl der) :
    ∃ srv' list, p'.server = some srv' ∧ srv'.state.crl = der ∧
      crypto.parseRevocationList der = some list ∧ list.number = some srv'.state.crlNumber ∧
      (env.clock.now 0 + minute < list.nextUpdate ∨ env.clock.now 1 < list.nextUpdate) := by
  obtain ⟨srv, hsrv⟩ := h.call_server
  have hlisted := (hp.sound _ (.memory hsrv)).inv.listed
  obtain ⟨_, _, srv', validations, henv, hans, hsrv', hperf⟩ := h.performs hsrv rfl
  cases henv
  cases hans
  simp only [Op.action] at hperf
  cases hact : serveCRL srv env head with
  | reply activity r' =>
    rw [hact, Server.perform, Prod.mk.injEq, Prod.mk.injEq] at hperf
    obtain ⟨heq, rfl, -⟩ := hperf
    cases heq
    obtain ⟨hder, hne, htime⟩ := serveCRL_reply hact hbody
    obtain ⟨list, hparse, hnumber, hnext, -⟩ := hlisted (hder.symm ▸ hne)
    exact ⟨_, list, hsrv', hder, hder ▸ hparse, hnumber, .inl (hnext.symm ▸ htime)⟩
  | commit activity cm =>
    obtain ⟨-, -, hs, hans⟩ := serveCRL_commit hact
    rw [hact] at hperf
    have hint : internalError.body ≠ .crl der := fun heq => (by cases heq)
    cases hout : env.outcome <;>
      simp only [hout, Server.perform, Prod.mk.injEq, Answer.respond.injEq] at hperf
    · exact absurd (hperf.1 ▸ hbody) hint
    · exact absurd (hperf.1 ▸ hbody) hint
    · obtain ⟨heq, rfl, -⟩ := hperf
      rw [hans] at heq
      cases heq
      dsimp only at hbody
      split at hbody
      · cases hbody
      cases hbody
      obtain ⟨_, _, list, -, -, hparse, hnumber, htime, -, hnext⟩ := State.refreshCRL_some hs
      refine ⟨_, list, hsrv', rfl, ?_, ?_, .inr htime⟩
      · rw [hnext]
        exact hparse
      · show list.number = some cm.next.crlNumber
        rw [hnext]
        exact hnumber

/-- A revocation that answers 200 has put the certificate on the list. -/
theorem Step.revoked {signed : Request crypto}
    (h : Step cfg codec p (.call (.revokeCertificate signed) env (.respond r)) p')
    (hp : p.Inv cfg) (hok : r.status = 200) (hlists : env.CreatesLists crypto) :
    ∃ srv id cert leaf reason, p.server = some srv ∧
      Revokes codec srv.state signed id cert leaf reason ∧
      (p'.clock < cert.notAfter → ∀ v, p'.View cfg v →
        v.Lists crypto id leaf.serialNumber cert.notAfter) := by
  obtain ⟨srv, hsrv⟩ := h.call_server
  have hs := hp.sound _ (.memory hsrv)
  obtain ⟨_, _, srv', validations, henv, hans, hsrv', hperf⟩ := h.performs hsrv rfl
  obtain ⟨c, hf, -, -, hactivity, hcm⟩ := h.commits hp (False.elim : False → _) hsrv rfl
  cases henv
  cases hans
  simp only [Op.action] at hperf hcm hactivity
  cases hact : revokeCertificate cfg codec srv env signed with
  | reply activity r' =>
    rw [hact, Server.perform, Prod.mk.injEq] at hperf
    cases hperf.1
    have := revokeCertificate_reply codec hact
    omega
  | commit activity cm =>
    obtain ⟨-, -, -, id, cert, leaf, reason, hrev, hnone, hreason, hnext⟩ :=
      revokeCertificate_commit codec hs.inv hact
    refine ⟨srv, id, cert, leaf, reason, hsrv, hrev, fun htime => ?_⟩
    rw [hact] at hperf hactivity
    have hcm := hcm cm (by rw [hact, hactivity]; rfl)
    obtain ⟨activity', hctx⟩ := hf.context
    cases hctx
    have hreads : ∀ q i, env.clock.read q i < cert.notAfter := fun q i =>
      (hf.within q i).2.trans_lt htime
    have hlisted : cm.next.Lists crypto id leaf.serialNumber cert.notAfter := by
      refine ⟨?_, State.refreshCRL_lists hnext hlists (FinMap.get_set_self _ _ _) rfl (hreads 3 0)
        hrev.serial⟩
      obtain ⟨_, _, _, -, -, -, -, -, -, heq⟩ := State.refreshCRL_some hnext
      refine ⟨cert.revoke (env.clock.now 2) reason, ?_, rfl, hrev.serial, rfl⟩
      rw [heq]
      exact FinMap.get_set_self _ _ _
    have hpruned : (cm.next.prune activity cm.now).Lists crypto id leaf.serialNumber
        cert.notAfter :=
      (Mutation.prune hcm.now).lists (Mutations.inv hcm.next hf.fresh.valid hs.inv) hlists hreads
        hlisted
    have hint : internalError.status ≠ 200 := by decide
    cases hout : env.outcome <;>
      simp only [hout, Server.perform, Prod.mk.injEq, Answer.respond.injEq] at hperf
    · exact absurd (hperf.1 ▸ hok) hint
    · exact absurd (hperf.1 ▸ hok) hint
    · obtain ⟨-, rfl, hdisk⟩ := hperf
      intro v hv
      cases hv with
      | stored => rwa [Process.stored, ← hdisk]
      | memory hsrv₁ =>
        cases hsrv'.symm.trans hsrv₁
        exact hpruned

/-! ## Runs -/

variable {tr : Trace (Process crypto) (Label crypto)}

/-- The lists the signing authority makes in a run are as asked for. -/
def CreatesLists (tr : Trace (Process crypto) (Label crypto)) : Prop :=
  ∀ t ∈ tr, ∀ env, t.label.env = some env → env.CreatesLists crypto

/-- A revoked certificate stays on the list until it expires. -/
theorem Process.lists_of_run (hrun : Run (Step cfg codec) p tr p') (hlists : CreatesLists tr)
    (hp : p.Inv cfg) {id : GoString} {serial notAfter : Int}
    (h : p.clock < notAfter → ∀ v, p.View cfg v → v.Lists crypto id serial notAfter)
    (htime : p'.clock < notAfter) : ∀ v, p'.View cfg v → v.Lists crypto id serial notAfter := by
  refine (hrun.invariant_mem (I := fun q => q.Inv cfg ∧ (q.clock < notAfter → ∀ v, q.View cfg v →
    v.Lists crypto id serial notAfter)) ⟨hp, h⟩ fun t ht hs hpre => ?_).2 htime
  refine ⟨hs.inv hpre.1, fun hlt => ?_⟩
  refine hs.preserves hpre.1 (False.elim : False → _) (hpre.2 (hs.clock_le.trans_lt hlt))
    fun c s s' hf hinv hm => ?_
  have henv : t.label.env = some c.env := by
    obtain ⟨activity, hctx⟩ := hf.context
    revert hctx
    cases t.label <;> intro hctx <;> cases hctx <;> rfl
  exact hm.lists (hf.eqs.1 ▸ hinv) (hlists t ht _ henv) fun q i => (hf.within q i).2.trans_lt hlt

/-- A list keeps its number to itself. -/
theorem Process.numbered_of_run (hrun : Run (Step cfg codec) p tr p') (hp : p.Inv cfg)
    {number : Int} {der : GoString} (h : ∀ v, p.View cfg v → v.Numbered number der) :
    ∀ v, p'.View cfg v → v.Numbered number der := by
  refine (hrun.invariant (I := fun q => q.Inv cfg ∧ ∀ v, q.View cfg v → v.Numbered number der)
    ⟨hp, h⟩ fun q l q' hq hs => ⟨hs.inv hq.1, ?_⟩).2
  exact hs.preserves hq.1 (False.elim : False → _) hq.2 fun c s s' _ _ hm => hm.numbered

/-- The step serves the list `der`. -/
def Serves (t : Transition (Process crypto) (Label crypto)) (der : GoString) : Prop :=
  ∃ head env r, t.label = .call (.serveCRL head) env (.respond r) ∧ r.body = .crl der

/-- The revocations and the served lists of a run. -/
structure RevocationSafe (codec : Codec crypto)
    (tr : Trace (Process crypto) (Label crypto)) : Prop where
  /-- A certificate whose revocation was answered with 200 is on every list that is served later
  and before it expires. -/
  sticks : ∀ before t rest signed env r, tr = before ++ t :: rest →
    t.label = .call (.revokeCertificate signed) env (.respond r) → r.status = 200 →
    ∃ srv id cert leaf reason, t.pre.server = some srv ∧
      Revokes codec srv.state signed id cert leaf reason ∧
      ∀ mid t' after der, rest = mid ++ t' :: after → Serves t' der →
        t'.post.clock < cert.notAfter →
        ∃ list, crypto.parseRevocationList der = some list ∧
          ∃ e ∈ list.entries, e.serialNumber = leaf.serialNumber
  /-- The numbers of the served lists do not decrease, and a number belongs to one list. -/
  monotone : ∀ before t mid t' after der der', tr = before ++ t :: mid ++ t' :: after →
    Serves t der → Serves t' der' →
    ∃ list list' number number', crypto.parseRevocationList der = some list ∧
      crypto.parseRevocationList der' = some list' ∧ list.number = some number ∧
      list'.number = some number' ∧ number ≤ number' ∧ (number = number' → der = der')
  /-- A stored list is served when it has more than a minute left, a new one before its end. -/
  current : ∀ t ∈ tr, ∀ head env r der, t.label = .call (.serveCRL head) env (.respond r) →
    r.body = .crl der → ∃ list, crypto.parseRevocationList der = some list ∧
      (env.clock.now 0 + minute < list.nextUpdate ∨ env.clock.now 1 < list.nextUpdate)

/-- Revocation sticks and the served lists are monotone. -/
theorem revocation_safe {start : Int} (hrun : Run (Step cfg codec) (.initial start) tr p)
    (hlists : CreatesLists tr) : RevocationSafe codec tr where
  sticks before t rest signed env r heq hlabel hok := by
    subst heq
    obtain ⟨hbefore, hstep, hafter⟩ := hrun.mid_inv
    have hp := Process.inv_of_run hbefore
    have hstep' := hstep
    rw [hlabel] at hstep'
    obtain ⟨srv, id, cert, leaf, reason, hsrv, hrev, hpost⟩ := hstep'.revoked hp hok
      (hlists t (List.mem_append_right _ (.head _)) env (by rw [hlabel]; rfl))
    refine ⟨srv, id, cert, leaf, reason, hsrv, hrev, fun mid t' after der heq hserves htime => ?_⟩
    subst heq
    obtain ⟨hmid, hstep₂, -⟩ := hafter.mid_inv
    obtain ⟨head, env', r', hlabel', hbody⟩ := hserves
    have hrun' : Run (Step cfg codec) t.post (mid ++ [t']) t'.post :=
      hmid.append (.cons hstep₂ (.nil _))
    have hinv := hmid.invariant (hstep.inv hp) fun _ _ _ hq hs => hs.inv hq
    rw [hlabel'] at hstep₂
    obtain ⟨srv', list, hsrv', hcrl, -⟩ := hstep₂.served hinv hbody
    have hlists' : CreatesLists (mid ++ [t']) := fun u hu => hlists u (by
      simp only [List.mem_append, List.mem_cons, List.not_mem_nil, or_false] at hu ⊢
      tauto)
    have hl := Process.lists_of_run hrun' hlists' (hstep.inv hp) hpost htime _ (.memory hsrv')
    exact hcrl ▸ hl.listed
  monotone before t mid t' after der der' heq hserves hserves' := by
    subst heq
    obtain ⟨hfirst, hstep', -⟩ := hrun.mid_inv
    obtain ⟨hbefore, hstep, hmid⟩ := hfirst.mid_inv
    obtain ⟨head, env, r, hlabel, hbody⟩ := hserves
    obtain ⟨head', env', r', hlabel', hbody'⟩ := hserves'
    have hpost := hstep.inv (Process.inv_of_run hbefore)
    have hrun' := hmid.append (.cons hstep' (.nil _))
    rw [hlabel] at hstep
    rw [hlabel'] at hstep'
    obtain ⟨srv, list, hsrv, hcrl, hparse, hnumber, -⟩ :=
      hstep.served (Process.inv_of_run hbefore) hbody
    obtain ⟨srv', list', hsrv', hcrl', hparse', hnumber', -⟩ :=
      hstep'.served (Process.inv_of_run hfirst) hbody'
    have hviews : ∀ v, t.post.View cfg v → v.Numbered srv.state.crlNumber der := fun v hv => by
      obtain ⟨-, -, hvcrl, hvnumber⟩ := hpost.view_fields hv (.memory hsrv)
      exact ⟨hvnumber.ge, fun _ => hvcrl.trans hcrl⟩
    have hn := Process.numbered_of_run hrun' hpost hviews _ (.memory hsrv')
    exact ⟨list, list', _, _, hparse, hparse', hnumber, hnumber', hn.le,
      fun heq => (hn.eq heq.symm).symm.trans hcrl'⟩
  current t ht head env r der hlabel hbody := by
    obtain ⟨before, after, rfl, hbefore, hstep, -⟩ := hrun.mem_inv ht
    rw [hlabel] at hstep
    obtain ⟨-, list, -, -, hparse, -, htime⟩ := hstep.served (Process.inv_of_run hbefore) hbody
    exact ⟨list, hparse, htime⟩

/-- A run that issues a certificate, revokes it and serves the list twice. -/
def sampleRevocation : List (Event sampleCrypto × Scene) :=
  sampleOrder ++ sampleIssue ++
    [(.call (.revokeCertificate sampleSigned), {
        first := 60
        last := 60
        createCRL := fun entries number =>
          if entries = [⟨7, 60, 1⟩] ∧ number = 1 then some [1, 2, 7] else none }),
      (.call (.serveCRL false), { first := 70, last := 70 }),
      (.call (.serveCRL false), { first := 80, last := 80 })]

/-- The only list of the run is as asked for. -/
theorem createsLists_sampleRevocation : CreatesLists (sampleTrace sampleRevocation) := by
  intro t ht env henv entries number der hder
  obtain ⟨e, he, rfl⟩ := sampleTrace_env t ht env henv
  simp only [sampleRevocation, sampleOrder, sampleIssue, List.cons_append, List.nil_append,
    List.mem_cons, List.not_mem_nil, or_false] at he
  rcases he with rfl | rfl | rfl | rfl | rfl | rfl | rfl | rfl | rfl
  case inr.inr.inr.inr.inr.inr.inl =>
    simp only [Scene.env, Option.ite_none_right_eq_some, Option.some.injEq] at hder
    obtain ⟨⟨rfl, rfl⟩, rfl⟩ := hder
    exact ⟨_, rfl, rfl, fun serial => (by simp)⟩
  all_goals cases hder

/-- The theorem at a run that revokes a certificate and serves the list twice before it expires. -/
theorem revocation_safe_served :
    (sampleTrace sampleRevocation).length = 9 ∧
      (sampleEnd sampleRevocation).clock < 24 * hour ∧
      RevocationSafe sampleCodec (sampleTrace sampleRevocation) := by
  refine ⟨by decide +kernel, by decide +kernel, revocation_safe (sampleTrace_run ?_)
    createsLists_sampleRevocation⟩
  decide +kernel

end

end InfraBox.Acme
