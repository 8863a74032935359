import InfraBox.Lib.Zone
import InfraBox.Lease.Runs
import InfraBox.Dns.Names

/-!
# Forward lookups follow RFC 4592

The zone a query sees, as sets of names (`Zone`), and the answer RFC 4592 gives in it
(`Zone.Answer`): infrastructure names, then exact records, then leases, then existing names without
an address, and for a name that does not exist the wildcard at its closest encloser.
`lookupLocalAddress` computes that answer (`lookupLocalAddress_rfc4592`).
-/

namespace InfraBox.Dns

open Leasing

/-! ## The reference -/

/-- What a zone holds: its apex, the server's address, and the records and live leases by name. -/
structure Zone where
  apex : List GoString
  server : Addr
  record : List GoString → Addr → Prop
  lease : List GoString → Addr → Prop

/-- The names of the server itself. -/
def Zone.Infra (z : Zone) (n : List GoString) : Prop :=
  n = str "ns" :: z.apex ∨ n = str "gateway" :: z.apex

/-- A name of the zone exists when it is the apex or the server's, or lies at or above a record or
a live lease. -/
def Zone.Exists (z : Zone) (n : List GoString) : Prop :=
  z.apex <:+ n ∧ (n = z.apex ∨ z.Infra n ∨ (∃ k a, z.record k a ∧ n <:+ k) ∨
    ∃ k a, z.lease k a ∧ n <:+ k)

/-- The answer to a query for a name: an address, if there is one, and whether the name exists. -/
inductive Zone.Answer (z : Zone) (n : List GoString) : Addr × Bool → Prop
  | server : z.Infra n → Zone.Answer z n (z.server, true)
  | record {a : Addr} : ¬ z.Infra n → z.record n a → Zone.Answer z n (a, true)
  | lease {a : Addr} : ¬ z.Infra n → (∀ a, ¬ z.record n a) → z.lease n a → Zone.Answer z n (a, true)
  | noAddress : ¬ z.Infra n → (∀ a, ¬ z.record n a) → (∀ a, ¬ z.lease n a) → z.Exists n →
      Zone.Answer z n (.invalid, true)
  | wildcard {ce : List GoString} {a : Addr} : ¬ z.Exists n →
      IsClosestEncloser z.Exists z.apex n ce → z.record ([star] :: ce) a → Zone.Answer z n (a, true)
  | nameError {ce : List GoString} : ¬ z.Exists n → IsClosestEncloser z.Exists z.apex n ce →
      (∀ a, ¬ z.record ([star] :: ce) a) → Zone.Answer z n (.invalid, false)

/-- Every name at or below the apex has an answer. -/
theorem Zone.exists_answer (z : Zone) {n : List GoString} (hz : z.apex <:+ n) :
    ∃ r, z.Answer n r := by
  by_cases hinf : z.Infra n
  · exact ⟨_, .server hinf⟩
  by_cases hrec : ∃ a, z.record n a
  · obtain ⟨a, ha⟩ := hrec
    exact ⟨_, .record hinf ha⟩
  have hrec := not_exists.1 hrec
  by_cases hlease : ∃ a, z.lease n a
  · obtain ⟨a, ha⟩ := hlease
    exact ⟨_, .lease hinf hrec ha⟩
  by_cases hex : z.Exists n
  · exact ⟨_, .noAddress hinf hrec (not_exists.1 hlease) hex⟩
  have hapex : z.Exists z.apex := ⟨List.suffix_rfl, .inl rfl⟩
  obtain ⟨ce, hce⟩ := exists_isClosestEncloser hapex hz fun h => hex (h ▸ hapex)
  by_cases hw : ∃ a, z.record ([star] :: ce) a
  · obtain ⟨a, ha⟩ := hw
    exact ⟨_, .wildcard hex hce ha⟩
  · exact ⟨_, .nameError hex hce (not_exists.1 hw)⟩

/-- The existing names of a zone are closed under taking parents. -/
theorem Zone.Exists.parent {z : Zone} {l : GoString} {n : List GoString} (h : z.Exists (l :: n))
    (hz : z.apex <:+ n) : z.Exists n := by
  have hn : n <:+ l :: n := List.suffix_cons l n
  refine ⟨hz, ?_⟩
  rcases h.2 with heq | hinf | ⟨k, a, hk, hs⟩ | ⟨k, a, hk, hs⟩
  · have := hz.length_le
    rw [← heq, List.length_cons] at this
    omega
  · rcases hinf with heq | heq
    · exact .inl (List.cons.inj heq).2
    · exact .inl (List.cons.inj heq).2
  · exact .inr (.inr (.inl ⟨k, a, hk, hn.trans hs⟩))
  · exact .inr (.inr (.inr ⟨k, a, hk, hn.trans hs⟩))

/-- The zone of a server and a lease manager at an instant. -/
def Server.zone (s : Server) (m : Manager) (now : Int) : Zone where
  apex := labelsOf s.config.domain
  server := s.config.serverIP
  record n a := ∃ k, s.config.aRecords.get k = some a ∧ labelsOf k = n
  lease n a := ∃ l, LiveName m now l ∧ labelsOf l.hostname = n ∧ l.ip = a

/-! ## The code -/

section
variable {lib : NameLib} {s : Server} {m : Manager} {now : Int} {q : List GoString}

/-- A server and a manager for the same domain. -/
structure SameDomain (lib : NameLib) (s : Server) (m : Manager) : Prop where
  skips : lib.SkipsLabels
  serves : s.Serves lib m.cfg.domain
  wf : m.state.Wf m.cfg

theorem SameDomain.apex (h : SameDomain lib s m) :
    (s.zone m now).apex = m.cfg.domain.splitOn dot := by
  simp only [Server.zone, h.serves.domain, labelsOf, trimSuffix_append]

/-- The infrastructure of the zone, as the server compares it. -/
theorem SameDomain.infra_iff (h : SameDomain lib s m) (hq : QueryName (s.zone m now).apex q) :
    (s.zone m now).Infra q ↔ render q = s.nsName ∨ render q = s.gatewayName := by
  have hplain : ∀ label, PlainLabel (str label) →
      (render q = serviceName label m.cfg.domain ↔ q = str label :: m.cfg.domain.splitOn dot) := by
    intro label hl
    rw [serviceName_eq_render]
    refine ⟨eq_of_render_eq hq.label fun l hm => ?_, fun h => h ▸ rfl⟩
    rcases List.mem_cons.1 hm with rfl | hm
    · exact hl
    · exact plainLabel_of_validLabel (List.all_eq_true.1 h.serves.domain_valid l hm)
  rw [Zone.Infra, h.apex, h.serves.nsName, h.serves.gatewayName, hplain "ns" ⟨by decide, by decide⟩,
    hplain "gateway" ⟨by decide, by decide⟩]

/-- A record is found under the text of its labels. -/
theorem SameDomain.record_iff (h : SameDomain lib s m) (hq : ∀ l ∈ q, isLabel l = true) {a : Addr} :
    (s.zone m now).record q a ↔ s.config.aRecords.get (render q) = some a :=
  h.serves.record_iff hq

/-- The leases of the zone, as the manager finds them. -/
theorem SameDomain.lease_iff (h : SameDomain lib s m) (hq : ∀ l ∈ q, isLabel l = true) {a : Addr} :
    (s.zone m now).lease q a ↔ ∃ l, LiveName m now l ∧ l.hostname = render q ∧ l.ip = a := by
  refine ⟨?_, ?_⟩
  · rintro ⟨l, hl, rfl, rfl⟩
    obtain ⟨pre, -, -, hr, hlabels, -⟩ := hl.labels h.wf
    exact ⟨l, hl, by rw [hlabels, hr], rfl⟩
  · rintro ⟨l, hl, hr, rfl⟩
    obtain ⟨pre, -, hall, hr', hlabels, -⟩ := hl.labels h.wf
    refine ⟨l, hl, hlabels.trans ?_, rfl⟩
    exact (eq_of_render_eq hq (fun x hx => plainLabel_of_validLabel (hall x hx))
      (hr.symm.trans hr')).symm

/-- The existence test of the server decides existence in the zone. -/
theorem SameDomain.hasName_iff (h : SameDomain lib s m) (hq : QueryName (s.zone m now).apex q) :
    s.hasName m now (render q) = true ↔ (s.zone m now).Exists q := by
  have hq' : QueryName (m.cfg.domain.splitOn dot) q := h.apex ▸ hq
  obtain ⟨hne, hroot⟩ := hq'.ne_root h.serves.domain_valid
  rw [Server.hasName, Bool.or_eq_true, decide_eq_true_eq,
    h.serves.mem_staticNames h.skips hq.label hne hroot, Dns.hasName_iff h.wf hq', Zone.Exists,
    Zone.Infra, h.apex]
  have hrec : (∃ k a, s.config.aRecords.get k = some a ∧ q <:+ labelsOf k) ↔
      ∃ k a, (s.zone m now).record k a ∧ q <:+ k :=
    ⟨fun ⟨k, a, hk, hs⟩ => ⟨labelsOf k, a, ⟨k, hk, rfl⟩, hs⟩,
      fun ⟨_, a, ⟨k, hk, hl⟩, hs⟩ => ⟨k, a, hk, hl ▸ hs⟩⟩
  have hlease : (∃ l, LiveName m now l ∧ q <:+ labelsOf l.hostname) ↔
      ∃ k a, (s.zone m now).lease k a ∧ q <:+ k :=
    ⟨fun ⟨l, hl, hs⟩ => ⟨labelsOf l.hostname, l.ip, ⟨l, hl, rfl, rfl⟩, hs⟩,
      fun ⟨_, _, ⟨l, hl, hn, _⟩, hs⟩ => ⟨l, hl, hn ▸ hs⟩⟩
  simp only [hrec, hlease, hq'.inZone, true_and, or_assoc]

/-- The wildcard owner at the closest encloser of a query name is made of labels. -/
theorem starLabels {E : List GoString → Prop} {apex ce : List GoString}
    (hce : IsClosestEncloser E apex q ce) (hq : QueryName apex q) :
    ∀ l ∈ [star] :: ce, isLabel l = true :=
  List.forall_mem_cons.2 ⟨by decide, fun l hl => hq.label l (hce.ancestor.subset hl)⟩

/-- The walk over the ancestors of a name finds the record at its closest encloser. -/
theorem SameDomain.wildcard_eq (h : SameDomain lib s m) {ce : List GoString} :
    ∀ {q : List GoString} {fuel : Nat}, QueryName (s.zone m now).apex q →
      IsClosestEncloser (s.zone m now).Exists (s.zone m now).apex q ce → q.length ≤ fuel →
      s.wildcard lib m now fuel (render q) =
        match s.config.aRecords.get (render ([star] :: ce)) with
        | some a => some (a, s.ttl, true)
        | none => some (.invalid, s.ttl, false)
  | [], _, hq, hce, _ => absurd (List.suffix_nil.1 hce.ancestor) hce.proper
  | l :: q, 0, _, _, hf => by simp at hf
  | l :: q, fuel + 1, hq, hce, hf => by
    have hcq : ce <:+ q := suffix_tail hce.ancestor hce.proper
    have hz : (s.zone m now).apex <:+ q := hce.inZone.trans hcq
    -- the name is longer than the domain, so the loop is entered
    have hdom : render (l :: q) ≠ s.config.domain := fun heq => by
      have hapex : (s.zone m now).apex = m.cfg.domain.splitOn dot := h.apex
      have hlen := congrArg List.length heq
      rw [h.serves.domain, ← render_splitOn, ← hapex] at hlen
      obtain ⟨pre, rfl⟩ := hz
      rw [render_cons, render_append] at hlen
      simp only [List.length_append, List.length_cons] at hlen
      omega
    have hnext := h.skips.nextLabel l (render q) (hq.label l (.head _))
    have hdrop : (render (l :: q)).drop (lib.nextLabel (render (l :: q)) 0).1 = render q := by
      rw [render_cons, hnext]
      simp
    have hq' := hq.of_cons hz
    rw [Server.wildcard, if_neg hdom, hdrop]
    rcases hce.step with ⟨hE, rfl⟩ | ⟨hE, hce'⟩
    · simp only [(h.hasName_iff hq').2 hE, if_true, render_cons [star]]
      rfl
    · rw [if_neg (mt (h.hasName_iff hq').1 hE)]
      exact h.wildcard_eq hq' hce' (by simp at hf; omega)

/-- A query name is the domain's exactly when its text is. -/
theorem SameDomain.apex_iff (h : SameDomain lib s m) (hq : QueryName (s.zone m now).apex q) :
    render q = s.config.domain ↔ q = m.cfg.domain.splitOn dot := by
  rw [h.serves.domain, ← render_splitOn]
  refine ⟨eq_of_render_eq hq.label fun l hl => ?_, fun h => h ▸ rfl⟩
  exact plainLabel_of_validLabel (List.all_eq_true.1 h.serves.domain_valid l hl)

/-- A live hostname that is neither the server's nor a record is answered from its lease. -/
theorem SameDomain.lookup_lease (h : SameDomain lib s m) (hq : QueryName (s.zone m now).apex q)
    (hi : ¬ (s.zone m now).Infra q) (hr : s.config.aRecords.get (render q) = none) {l : Lease}
    (hlive : LiveName m now l) (hname : l.hostname = render q) :
    s.lookupLocalAddress lib m now (render q) = some (l.ip, s.leaseTTL now l, true) := by
  -- hostnames lie strictly below the domain
  have hne : q ≠ m.cfg.domain.splitOn dot := by
    rintro rfl
    obtain ⟨pre, hpre, hall, hr', -⟩ := hlive.labels h.wf
    have := congrArg List.length (hname.symm.trans hr')
    obtain ⟨l₀, pre', rfl⟩ := List.exists_cons_of_ne_nil hpre
    rw [List.cons_append, render_cons, render_append] at this
    simp only [List.length_append, List.length_cons] at this
    omega
  rw [Server.lookupLocalAddress, if_neg (mt (h.infra_iff hq).2 hi), hr]
  simp only [if_neg (mt (h.apex_iff hq).1 hne),
    (lookupName_iff h.wf (h.apex ▸ hq) hne).2 ⟨hlive, hname⟩]
  rw [Option.filter_some, if_pos (decide_eq_true hlive.2.1)]

/-- The zone's answer is what the code returns. -/
theorem SameDomain.lookup_eq (h : SameDomain lib s m) (hq : QueryName (s.zone m now).apex q)
    {r : Addr × Bool} (hr : (s.zone m now).Answer q r) :
    ∃ ttl, s.lookupLocalAddress lib m now (render q) = some (r.1, ttl, r.2) := by
  have hq' : QueryName (m.cfg.domain.splitOn dot) q := h.apex ▸ hq
  have hinf := h.infra_iff hq
  have hrec : (∀ a, ¬ (s.zone m now).record q a) → s.config.aRecords.get (render q) = none :=
    fun hn => Option.eq_none_iff_forall_ne_some.2 fun a ha => hn a ((h.record_iff hq.label).2 ha)
  have hdom := h.apex_iff hq
  -- without a record, and below the apex, the leases are consulted
  have hlook : ¬ (s.zone m now).Infra q → (∀ a, ¬ (s.zone m now).record q a) →
      q ≠ m.cfg.domain.splitOn dot → (∀ a, ¬ (s.zone m now).lease q a) →
      s.lookupLocalAddress lib m now (render q) =
        if s.hasName m now (render q) then some (.invalid, 0, true)
        else s.wildcard lib m now (render q).length (render q) := by
    intro hn hr hne hl
    have hnone : (m.lookupName now (render q)).1 = none :=
      Option.eq_none_iff_forall_ne_some.2 fun l hl' => by
        obtain ⟨hlive, hname⟩ := (lookupName_iff h.wf hq' hne).1 hl'
        exact hl l.ip ((h.lease_iff hq.label).2 ⟨l, hlive, hname, rfl⟩)
    rw [Server.lookupLocalAddress, if_neg (mt hinf.2 hn), hrec hr]
    simp only [if_neg (mt hdom.1 hne), hnone, Option.filter_none]
  -- a record or a lease makes its name exist
  have hnot : ¬ (s.zone m now).Exists q → ¬ (s.zone m now).Infra q ∧
      (∀ a, ¬ (s.zone m now).record q a) ∧ q ≠ m.cfg.domain.splitOn dot ∧
      ∀ a, ¬ (s.zone m now).lease q a := fun hn => by
    refine ⟨fun hi => hn ⟨hq.inZone, .inr (.inl hi)⟩, fun a ha => hn ?_, fun heq => hn ?_,
      fun a ha => hn ?_⟩
    · exact ⟨hq.inZone, .inr (.inr (.inl ⟨q, a, ha, List.suffix_rfl⟩))⟩
    · exact ⟨hq.inZone, .inl (heq.trans h.apex.symm)⟩
    · exact ⟨hq.inZone, .inr (.inr (.inr ⟨q, a, ha, List.suffix_rfl⟩))⟩
  cases hr with
  | server hi => exact ⟨s.ttl, if_pos (hinf.1 hi)⟩
  | record hi hr =>
    refine ⟨s.ttl, ?_⟩
    rw [Server.lookupLocalAddress, if_neg (mt hinf.2 hi), (h.record_iff hq.label).1 hr]
  | lease hi hr hl =>
    obtain ⟨l, hlive, hname, rfl⟩ := (h.lease_iff hq.label).1 hl
    exact ⟨s.leaseTTL now l, h.lookup_lease hq hi (hrec hr) hlive hname⟩
  | noAddress hi hr hl hex =>
    refine ⟨0, ?_⟩
    rcases eq_or_ne q (m.cfg.domain.splitOn dot) with heq | hne
    · rw [Server.lookupLocalAddress, if_neg (mt hinf.2 hi), hrec hr]
      exact if_pos (hdom.2 heq)
    · rw [hlook hi hr hne hl, if_pos ((h.hasName_iff hq).2 hex)]
  | @wildcard ce a hex hce hw =>
    obtain ⟨hi, hr, hne, hl⟩ := hnot hex
    refine ⟨s.ttl, ?_⟩
    rw [hlook hi hr hne hl, if_neg (mt (h.hasName_iff hq).1 hex),
      h.wildcard_eq hq hce (length_le_render q), (h.record_iff (starLabels hce hq)).1 hw]
  | @nameError ce hex hce hw =>
    obtain ⟨hi, hr, hne, hl⟩ := hnot hex
    have hnone : s.config.aRecords.get (render ([star] :: ce)) = none :=
      Option.eq_none_iff_forall_ne_some.2 fun a ha =>
        hw a ((h.record_iff (starLabels hce hq)).2 ha)
    refine ⟨s.ttl, ?_⟩
    rw [hlook hi hr hne hl, if_neg (mt (h.hasName_iff hq).1 hex),
      h.wildcard_eq hq hce (length_le_render q), hnone]

end

/-- Forward lookups follow RFC 4592: for a server that `New` accepts and a lease manager of the same
domain in any state it reaches, `lookupLocalAddress` returns the one answer of the zone for every
canonical name at or below the domain, and the names that exist are those of the zone. -/
theorem lookupLocalAddress_rfc4592 {lib : NameLib} {net : ListenerLib} {config : Config}
    {s : Server} {leases : Leasing.Config} {disk : LeaseFile} {start : Int} {m : Manager}
    {p : Process} {tr : Trace Process Label} {q : List GoString} (now : Int)
    (hlib : lib.SkipsLabels) (hnew : new lib net config = .ok s) (hstart : 0 < start)
    (hm : newManager leases start disk = .ok m)
    (hrun : Run (Step leases) ⟨⟨m, disk⟩, start⟩ tr p)
    (hdomain : s.config.domain = p.sys.manager.cfg.domain ++ [dot])
    (hq : QueryName (labelsOf s.config.domain) q) :
    (∃ r, (∀ r', (s.zone p.sys.manager now).Answer q r' ↔ r' = r) ∧
      ∃ ttl, s.lookupLocalAddress lib p.sys.manager now (render q) = some (r.1, ttl, r.2)) ∧
    (s.hasName p.sys.manager now (render q) = true ↔ (s.zone p.sys.manager now).Exists q) ∧
    (∀ l n, q = l :: n → labelsOf s.config.domain <:+ n →
      s.hasName p.sys.manager now (render (l :: n)) = true →
      s.hasName p.sys.manager now (render n) = true) := by
  have h : SameDomain lib s p.sys.manager :=
    ⟨hlib, new_serves hnew hdomain, ((Process.Inv.start hstart hm).run hrun).wf⟩
  refine ⟨?_, h.hasName_iff hq, ?_⟩
  · obtain ⟨r, hr⟩ := (s.zone p.sys.manager now).exists_answer hq.inZone
    obtain ⟨ttl, hlook⟩ := h.lookup_eq hq hr
    refine ⟨r, fun r' => ⟨fun hr' => ?_, fun heq => heq ▸ hr⟩, ttl, hlook⟩
    -- the code returns one result, so the zone has one answer
    obtain ⟨ttl', hlook'⟩ := h.lookup_eq hq hr'
    rw [hlook, Option.some.injEq, Prod.mk.injEq, Prod.mk.injEq] at hlook'
    exact Prod.ext hlook'.1.symm hlook'.2.2.symm
  · rintro l n rfl hz hname
    exact (h.hasName_iff (hq.of_cons hz)).2 (((h.hasName_iff hq).1 hname).parent hz)

/-- An implementation of the name functions, for names in presentation format. -/
def referenceLib : NameLib where
  nextLabel s offset :=
    (offset + labelLength (s.drop offset) + 1, s.length ≤ offset + labelLength (s.drop offset) + 1)
  fqdn s := if [dot] <:+ s then s else s ++ [dot]
  canonicalName s := toLower (if [dot] <:+ s then s else s ++ [dot])
  isDomainName s := s ≠ []
  isSubDomain parent child := labelSuffix parent child.length child
  nextLabel_pos s _ := by omega

theorem referenceLib_skipsLabels : referenceLib.SkipsLabels where
  nextLabel l rest hl := by
    simp only [referenceLib, List.drop_zero, labelLength_append hl, Prod.mk.injEq, decide_eq_decide]
    refine ⟨by omega, ?_⟩
    rw [List.length_append, List.length_cons, ← List.length_eq_zero_iff]
    omega

/-- A server of the sample network with a wildcard record. -/
def sampleDns : Config where
  address := str "10.0.0.1:53"
  domain := str "lan"
  serverIP := .v4 0x0a000001
  subnet := ⟨.v4 0x0a000000, 24⟩
  aRecords := FinMap.empty.set (str "*.apps") (.v4 0x0a000002)
  upstream := []
  ttl := minute

/-- The records of `sampleDns` in normal form. -/
def sampleServer : Server :=
  build referenceLib { sampleDns with
    domain := str "lan."
    aRecords := FinMap.empty.set (str "*.apps.lan.") (.v4 0x0a000002) }

theorem new_sample : new referenceLib ⟨fun _ _ => none, fun _ _ _ => false⟩ sampleDns =
    .ok sampleServer := rfl

/-- Below the wildcard a name that does not exist gets its address, with a lease elsewhere. -/
theorem lookupLocalAddress_rfc4592_wildcard :
    let p := sampleStart.after 2 true (.commit (str "a") (.v4 0x0a00000a) (str "x") [])
    ∃ r, (∀ r', (sampleServer.zone p.sys.manager 3).Answer
        [str "web", str "apps", str "lan"] r' ↔ r' = r) ∧ r = (.v4 0x0a000002, true) := by
  intro p
  have hrun : Run (Step sampleConfig) sampleStart _ _ :=
    .cons (.after _ 2 true (.commit (str "a") (.v4 0x0a00000a) (str "x") []) (by decide)) (.nil _)
  have hq : QueryName (labelsOf sampleServer.config.domain) [str "web", str "apps", str "lan"] :=
    ⟨by decide, by decide +kernel, by decide⟩
  obtain ⟨⟨r, hr, ttl, hlook⟩, -⟩ := lookupLocalAddress_rfc4592 3 referenceLib_skipsLabels
    new_sample (by decide) (newManager_sample 1) hrun rfl hq
  refine ⟨r, hr, ?_⟩
  have heval : sampleServer.lookupLocalAddress referenceLib p.sys.manager 3
      (render [str "web", str "apps", str "lan"]) = some (.v4 0x0a000002, 60, true) := by
    decide +kernel
  rw [heval, Option.some.injEq, Prod.mk.injEq, Prod.mk.injEq] at hlook
  exact Prod.ext hlook.1.symm hlook.2.2.symm

end InfraBox.Dns
