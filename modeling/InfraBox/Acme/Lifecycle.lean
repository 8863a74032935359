import InfraBox.Acme.Consistency

/-!
# The ACME server: the lifecycle of orders and certificates

In every snapshot the statuses of an order, of its authorizations and of their challenges fit
together, and no step changes a valid order. A certificate is pruned only with its order, which is
valid and expires with it, so it stays stored until it expires, can be downloaded by its account and
can be revoked.
-/

namespace InfraBox.Acme

/-! ## Orders and authorizations -/

/-- Every authorization of the order is stored and satisfies `P`. -/
def Order.Every (st : State) (o : Order) (P : Authorization → Prop) : Prop :=
  ∀ authID ∈ o.authIDs, ∃ a, st.authorizations.get authID = some a ∧ P a

/-- The statuses of an order and of its authorizations. -/
structure Order.Lifecycle (st : State) (o : Order) : Prop where
  pending : o.status = .pending ↔
    ∃ authID ∈ o.authIDs, ∃ a, st.authorizations.get authID = some a ∧ a.status = .pending
  others : o.status = .pending → o.Every st fun a => a.status = .pending ∨ a.status = .valid
  ready : o.status = .ready → o.Every st fun a => a.status = .valid
  valid : o.status = .valid → o.Every st fun a => a.status = .valid ∨ a.status = .deactivated

/-- The statuses in a snapshot. -/
structure State.Lifecycle (st : State) : Prop where
  order : ∀ id o, st.orders.get id = some o → o.Lifecycle st
  processing : ∀ id a, st.authorizations.get id = some a → a.challengeStatus = .processing →
    a.status = .pending

section
variable {cfg : Config} {crypto : Crypto} {ids : List GoString} {st : State} {id : GoString}

theorem State.Sound.every (h : st.Sound cfg crypto ids) {o : Order} {P : Authorization → Prop}
    (ho : st.orders.get id = some o) (hP : o.Auths st P) : o.Every st P := by
  intro authID hmem
  obtain ⟨a, ha, -⟩ := h.inv.linked.orderID ho hmem
  exact ⟨a, ha, hP authID hmem a ha⟩

/-- The states of records follow from the invariant. -/
theorem State.Sound.lifecycle (h : st.Sound cfg crypto ids) : st.Lifecycle where
  order id o ho := by
    have hc := h.inv.coherent.order id o ho
    refine ⟨⟨fun hp => (hc.pending hp).2, fun ⟨authID, hmem, a, ha, hst⟩ => ?_⟩,
      fun hp => h.every ho (hc.pending hp).1, fun hr => h.every ho (hc.ready hr),
      fun hv => h.every ho (hc.valid hv)⟩
    obtain ⟨o', ho', hp, -⟩ :=
      h.inv.coherent.order_pending h.inv.linked h.settled ha hst
    rw [h.inv.linked.eq_of_mem ha ho hmem, ho] at ho'
    cases ho'
    exact hp
  processing id a ha := (h.inv.coherent.authorization id a ha).processing

end

/-! ## Steps -/

/-- The certificate is the same, revoked at most once. -/
def Certificate.Keeps (cert cert' : Certificate) : Prop :=
  cert' = cert ∨ (cert.revokedAt = none ∧ ∃ now reason, cert' = cert.revoke now reason)

theorem Certificate.Keeps.trans {c₁ c₂ c₃ : Certificate} (h : c₁.Keeps c₂) (h' : c₂.Keeps c₃) :
    c₁.Keeps c₃ := by
  rcases h with rfl | ⟨hnone, now, reason, rfl⟩
  · exact h'
  · rcases h' with rfl | ⟨hnone', -⟩
    · exact .inr ⟨hnone, now, reason, rfl⟩
    · cases hnone'

section
variable {cfg : Config} {crypto : Crypto} {codec : Codec crypto} {p p' : Process crypto}
  {l : Label crypto} {id : GoString}

/-- The snapshots of a process differ in interrupted challenges only. -/
theorem Process.Inv.view_fields (hp : p.Inv cfg) {v w : State} (hv : p.View cfg v)
    (hw : p.View cfg w) : v.orders = w.orders ∧ v.certificates = w.certificates ∧
      v.crl = w.crl ∧ v.crlNumber = w.crlNumber := by
  have heq := (hp.view_reset hv).trans (hp.view_reset hw).symm
  have horders : v.reset.orders = w.reset.orders := by rw [heq]
  have hcerts : v.reset.certificates = w.reset.certificates := by rw [heq]
  have hcrl : v.reset.crl = w.reset.crl := by rw [heq]
  have hnumber : v.reset.crlNumber = w.reset.crlNumber := by rw [heq]
  exact ⟨horders, hcerts, hcrl, hnumber⟩

/-- No step changes a valid order. -/
theorem Step.valid_order (h : Step cfg codec p l p') (hp : p.Inv cfg) {v v' : State}
    (hv : p.View cfg v) (hv' : p'.View cfg v') {o o' : Order} (ho : v.orders.get id = some o)
    (hst : o.status = .valid) (ho' : v'.orders.get id = some o') : o' = o := by
  have hid : id ∈ p.ids := (hp.sound v hv).uses.orders id o ho
  have hpre : ∀ w, p.View cfg w → ∀ b, w.orders.get id = some b → b = o := fun w hw b hb => by
    rw [(hp.view_fields hw hv).1, ho] at hb
    exact (Option.some.inj hb).symm
  refine h.preserves hp (False.elim : False → _) hpre (fun c s s' hf hinv hm hs b hb => ?_) v' hv'
    o' ho'
  cases hm.order (hf.eqs.1 ▸ hinv) hb with
  | kept hold => exact hs b hold
  | added hnew _ => exact absurd hid (hf.fresh.unused id hnew)
  | changed hold hopen _ =>
    rw [hs _ hold] at hopen
    simp [hst] at hopen

/-- A step keeps a stored certificate that has not expired. -/
theorem Step.certificate (h : Step cfg codec p l p') (hp : p.Inv cfg) {cert : Certificate}
    (hcert : ∀ v, p.View cfg v → ∃ cert', v.certificates.get id = some cert' ∧ cert.Keeps cert')
    (htime : p'.clock < cert.notAfter) :
    ∀ v', p'.View cfg v' → ∃ cert', v'.certificates.get id = some cert' ∧ cert.Keeps cert' := by
  refine h.preserves hp (False.elim : False → _) hcert fun c s s' hf hinv hm hs => ?_
  obtain ⟨cert', hget, hkeeps⟩ := hs
  rcases hm.certificate (hf.eqs.1 ▸ hinv) hget with ⟨cert'', hget', hkeeps'⟩ | ⟨q, i, hexp⟩
  · exact ⟨cert'', hget', hkeeps.trans hkeeps'⟩
  · have hle := (hf.within q i).2
    have heq : cert'.notAfter = cert.notAfter := by
      rcases hkeeps with rfl | ⟨-, now, reason, rfl⟩ <;> rfl
    omega

/-- A certificate stays stored until it expires. -/
theorem Process.certificate_of_run {tr : Trace (Process crypto) (Label crypto)}
    (hp : p.Inv cfg) (hrun : Run (Step cfg codec) p tr p') {v : State} (hv : p.View cfg v)
    {cert : Certificate} (hcert : v.certificates.get id = some cert)
    (htime : p'.clock < cert.notAfter) :
    ∀ v', p'.View cfg v' → ∃ cert', v'.certificates.get id = some cert' ∧ cert.Keeps cert' := by
  have hpre : ∀ w, p.View cfg w → ∃ cert', w.certificates.get id = some cert' ∧
      cert.Keeps cert' := fun w hw => by
    rw [(hp.view_fields hw hv).2.1]
    exact ⟨cert, hcert, .inl rfl⟩
  refine (hrun.invariant (I := fun q => q.Inv cfg ∧ (q.clock < cert.notAfter → ∀ w, q.View cfg w →
    ∃ cert', w.certificates.get id = some cert' ∧ cert.Keeps cert')) ⟨hp, fun _ => hpre⟩
    fun q l q' ⟨hq, hkept⟩ hs => ⟨hs.inv hq, fun hlt => ?_⟩).2 htime
  exact hs.certificate hq (hkept (hs.clock_le.trans_lt hlt)) hlt

end

/-! ## Using a certificate -/

section
variable (cfg : Config) {crypto : Crypto} (codec : Codec crypto) (srv : Server crypto)

/-- A request of the account, while it is active, gets the certificate. -/
def Downloadable (id : GoString) (cert : Certificate) : Prop :=
  ∀ signed env a activity, activeAccount cfg srv (env.clock.now 0) signed cert.accountID =
    .ok (a, activity) → signed.payload = [] →
    getCertificate cfg srv env signed cert.accountID id =
      .reply activity { status := 200, body := .certificate cert.pem }

/-- A request that revokes a certificate with a reason: it carries its bytes and is signed with its
key. -/
structure RevocationRequest (cert : Certificate) (signed : Request crypto) (leaf : Leaf)
    (reason : Int) : Prop where
  parse : crypto.parseLeaf cert.pem = some leaf
  /-- Parsing the bytes of a certificate gives the certificate. -/
  raw : leaf.raw ≠ [] ∧ crypto.parseCertificate leaf.raw = some leaf
  payload : decodePayload codec.revocationInput signed.payload =
    some ⟨base64Encode leaf.raw, reason⟩
  decoded : codec.base64Decode (base64Encode leaf.raw) = some leaf.raw
  reason : validRevocationReason reason = true
  key : signed.keyID = [] ∧ crypto.thumbprint leaf.publicKey = some signed.thumbprint

/-- A request that revokes the certificate finds a record with its bytes. Unless that is revoked
already, the revocation is committed when the new list can be made. -/
def Revocable (cert : Certificate) : Prop :=
  ∀ signed leaf reason env, RevocationRequest codec cert signed leaf reason →
    ∃ k issued stored, srv.state.certificates.get k = some issued ∧
      crypto.parseLeaf issued.pem = some stored ∧ stored.raw = leaf.raw ∧
      (issued.revokedAt = none → ∀ next,
        { srv.state with
          certificates := srv.state.certificates.set k (issued.revoke (env.clock.now 2) reason)
          }.refreshCRL crypto env.createCRL (env.clock.now 3) = some next →
        ∃ activity cm, revokeCertificate cfg codec srv env signed = .commit activity cm ∧
          cm.next = next ∧ cm.answer = .respond { status := 200, body := .none })

end

section
variable {cfg : Config} {crypto : Crypto} {codec : Codec crypto} {srv : Server crypto}
  {ids : List GoString} {id : GoString} {cert : Certificate}

/-- A stored certificate is found by its bytes, if all stored certificates can be read. -/
theorem findIssued_found {leaf : Leaf} {der : GoString} {entries : List (GoString × Certificate)}
    (hread : ∀ e ∈ entries, ∃ stored, crypto.parseLeaf e.2.pem = some stored)
    (hmem : ∃ e ∈ entries, e.2.serial = formatInt leaf.serialNumber ∧
      ∃ stored, crypto.parseLeaf e.2.pem = some stored ∧ stored.raw = der) :
    ∃ k issued stored, findIssued crypto leaf der entries = some (some issued) ∧
      (k, issued) ∈ entries ∧ crypto.parseLeaf issued.pem = some stored ∧ stored.raw = der := by
  induction entries with
  | nil =>
    obtain ⟨e, he, -⟩ := hmem
    cases he
  | cons e rest ih =>
    obtain ⟨k, candidate⟩ := e
    obtain ⟨stored, hstored⟩ := hread _ (.head _)
    have hskip : ¬ (candidate.serial = formatInt leaf.serialNumber ∧ stored.raw = der) →
        ∃ k' issued stored', findIssued crypto leaf der rest = some (some issued) ∧
          (k', issued) ∈ (k, candidate) :: rest ∧ crypto.parseLeaf issued.pem = some stored' ∧
          stored'.raw = der := fun hnot => by
      obtain ⟨e, he, hserial, s, hs, hraw⟩ := hmem
      rcases List.mem_cons.1 he with rfl | he
      · rw [hstored] at hs
        cases hs
        exact absurd ⟨hserial, hraw⟩ hnot
      · obtain ⟨k', issued, s', hfound, hin, hrest⟩ :=
          ih (fun e he => hread e (.tail _ he)) ⟨e, he, hserial, s, hs, hraw⟩
        exact ⟨k', issued, s', hfound, .tail _ hin, hrest⟩
    simp only [findIssued, hstored]
    split
    · next hne => exact hskip fun hboth => hne hboth.1
    split
    · next hraw => exact ⟨k, candidate, stored, rfl, .head _, hstored, hraw⟩
    · next hraw => exact hskip fun hboth => hraw hboth.2

/-- A stored certificate can be downloaded. -/
theorem downloadable_of_get (h : srv.state.certificates.get id = some cert) :
    Downloadable cfg srv id cert := by
  intro signed env a activity hactive hpayload
  simp [getCertificate, hpayload, hactive, h]

/-- A stored certificate can be revoked. -/
theorem State.Sound.revocable (hs : srv.state.Sound cfg crypto ids)
    (h : srv.state.certificates.get id = some cert) : Revocable cfg codec srv cert := by
  intro signed leaf reason env hreq
  have hlinked := fun k c hc => hs.inv.certified.certificate k c hc
  obtain ⟨leaf', hparse, hserial, -⟩ := (hlinked id cert h).leaf
  cases hreq.parse.symm.trans hparse
  obtain ⟨k, issued, stored, hfound, hmem, hstored, hraw⟩ :
      ∃ k issued stored, findIssued crypto leaf leaf.raw srv.state.certificates.entries =
        some (some issued) ∧ (k, issued) ∈ srv.state.certificates.entries ∧
        crypto.parseLeaf issued.pem = some stored ∧ stored.raw = leaf.raw := by
    refine findIssued_found (fun e he => ?_)
      ⟨(id, cert), FinMap.mem_entries.2 h, hserial, leaf, hparse, rfl⟩
    obtain ⟨l, hl, -⟩ := (hlinked e.1 e.2 (FinMap.mem_entries.1 he)).leaf
    exact ⟨l, hl⟩
  have hget := FinMap.mem_entries.1 hmem
  refine ⟨k, issued, stored, hget, hstored, hraw, fun hnone next hnext => ?_⟩
  have hid : issued.id = k := (hlinked k issued hget).id_eq
  have hne : k ≠ [] := validID_ne_nil (hlinked k issued hget).valid_id
  dsimp only at hnext
  simp [revokeCertificate, hreq.payload, hreq.reason, hreq.decoded, hreq.raw.1, hreq.raw.2, hfound,
    hne, canRevoke, hreq.key.1, hreq.key.2, hnone, hid, hnext]

end

section
variable {cfg : Config} {crypto : Crypto} {codec : Codec crypto}
  {tr : Trace (Process crypto) (Label crypto)} {p : Process crypto} {start : Int}

/-- What holds of the orders and certificates at the end of a run, and of its steps. -/
structure LifecycleSafe (cfg : Config) (codec : Codec crypto)
    (tr : Trace (Process crypto) (Label crypto)) (p : Process crypto) : Prop where
  statuses : ∀ v, p.View cfg v → v.Lifecycle
  /-- No step moves a valid order to another status. -/
  valid : ∀ t ∈ tr, ∀ v v' id o o', t.pre.View cfg v → t.post.View cfg v' →
    v.orders.get id = some o → o.status = .valid → v'.orders.get id = some o' → o'.status = .valid
  /-- A certificate stored at some point of the run is still stored and usable before it expires. -/
  certificate : ∀ q v id cert, q = p ∨ (∃ t ∈ tr, q = t.pre) → q.View cfg v →
    v.certificates.get id = some cert → p.clock < cert.notAfter →
    (∀ v', p.View cfg v' → ∃ cert', v'.certificates.get id = some cert' ∧ cert.Keeps cert') ∧
    ∀ srv, p.server = some srv → Downloadable cfg srv id cert ∧ Revocable cfg codec srv cert

/-- Orders and authorizations keep their lifecycle and certificates are retained. -/
theorem lifecycle_safe (hrun : Run (Step cfg codec) (.initial start) tr p) :
    LifecycleSafe cfg codec tr p where
  statuses v hv := ((Process.inv_of_run hrun).sound v hv).lifecycle
  valid t ht v v' id o o' hv hv' ho hst ho' := by
    obtain ⟨before, after, rfl, hbefore, hstep, -⟩ := hrun.mem_inv ht
    rw [hstep.valid_order (Process.inv_of_run hbefore) hv hv' ho hst ho', hst]
  certificate q v id cert hq hv hcert htime := by
    have hkept : ∀ v', p.View cfg v' → ∃ cert', v'.certificates.get id = some cert' ∧
        cert.Keeps cert' := by
      rcases hq with rfl | ⟨t, ht, rfl⟩
      · have hnil : Run (Step cfg codec) q [] q := .nil q
        exact Process.certificate_of_run (Process.inv_of_run hrun) hnil hv hcert htime
      · obtain ⟨before, after, rfl, hbefore, hstep, hafter⟩ := hrun.mem_inv ht
        exact Process.certificate_of_run (Process.inv_of_run hbefore) (.cons hstep hafter) hv hcert
          htime
    refine ⟨hkept, fun srv hsrv => ?_⟩
    obtain ⟨cert', hget, hkeeps⟩ := hkept _ (.memory hsrv)
    have hs := (Process.inv_of_run hrun).sound _ (.memory hsrv)
    have hdown : Downloadable cfg srv id cert' := downloadable_of_get hget
    have hrev : Revocable cfg codec srv cert' := hs.revocable hget
    rcases hkeeps with rfl | ⟨-, now, reason, rfl⟩
    · exact ⟨hdown, hrev⟩
    · exact ⟨hdown, fun signed leaf reason env hreq => hrev signed leaf reason env
        ⟨hreq.parse, hreq.raw, hreq.payload, hreq.decoded, hreq.reason, hreq.key⟩⟩

/-- The theorem at a run that issues a certificate, which is stored at its end. -/
theorem lifecycle_safe_issued :
    let script := sampleOrder ++ sampleIssue
    ((sampleEnd script).stored sampleConfig).certificates.size = 1 ∧
      LifecycleSafe sampleConfig sampleCodec (sampleTrace script) (sampleEnd script) := by
  refine ⟨by decide +kernel, lifecycle_safe (sampleTrace_run ?_)⟩
  decide +kernel

end

end InfraBox.Acme
