import InfraBox.Config.Accepted
import InfraBox.Dns.Lookup
import InfraBox.Dns.Reverse

/-!
# Forward and reverse answers agree with the leases

For an accepted configuration the lease manager and the DNS server built from it see one set of
names (`Deployment`). A live lease with a name is answered in both directions, an answer that is
not the server's own, static or synthesised comes from the one lease with that name or address, and
no client holds a name of the server or of a record (`dns_agrees_with_leases`).
-/

namespace InfraBox.Dns

open Leasing InfraBox.Config

/-- A label of a canonical name, without capitals. -/
def CanonicalLabel (l : GoString) : Prop :=
  l ≠ [] ∧ isLabel l = true ∧ ∀ b ∈ l, isUpper b = false

/-- The documented behaviour of the name functions. -/
structure NameLib.Documented (lib : NameLib) : Prop extends lib.SkipsLabels where
  /-- `Fqdn` adds the final dot. -/
  fqdn : ∀ s, validLabels s = true → lib.fqdn s = s ++ [dot]
  /-- `IsDomainName` accepts host names. -/
  isDomainName : ∀ q, q ≠ [] → (∀ l ∈ q, validLabel l = true) → (render q).length ≤ 254 →
    lib.isDomainName (render q) = true
  /-- `IsSubDomain` compares labels, up to the case of letters. -/
  isSubDomain : ∀ parent child, parent ≠ [] → (∀ l ∈ parent, CanonicalLabel l) →
    (∀ l ∈ child, CanonicalLabel l) →
    (lib.isSubDomain (render parent) (render child) = true ↔ parent <:+ child)

/-- A lease manager and a DNS server built from one accepted configuration, whose domain is apart
from the reverse zones. -/
structure Deployment (lib : NameLib) (cfg : BoxConfig) (s : Server) (m : Manager) :
    Prop where
  documented : lib.Documented
  accepted : Accepted cfg
  domain : m.cfg.domain = cfg.domain
  reserved : ∀ n ∈ cfg.reservedNames, n ∈ m.cfg.reservedNames
  poolStart : m.cfg.poolStart = cfg.poolStart
  poolEnd : m.cfg.poolEnd = cfg.poolEnd
  wf : m.state.Wf m.cfg
  serves : s.Serves lib cfg.domain
  aRecords : s.config.aRecords = cfg.aRecords
  serverIP : s.config.serverIP = cfg.serverIP
  subnet : s.config.subnet = cfg.subnet
  ttl : s.ttl = (cfg.dnsTTL / second).toNat
  above : ¬ labelsOf (cfg.domain ++ [dot]) <:+ arpa
  below : ¬ arpa <:+ labelsOf (cfg.domain ++ [dot])

section
variable {lib : NameLib} {cfg : BoxConfig} {s : Server} {m : Manager} {now : Int}
  {q : List GoString}

theorem Deployment.sameDomain (h : Deployment lib cfg s m) : SameDomain lib s m :=
  ⟨h.documented.toSkipsLabels, h.domain ▸ h.serves, h.wf⟩

theorem Deployment.apex (h : Deployment lib cfg s m) :
    (s.zone m now).apex = cfg.domain.splitOn dot := h.domain ▸ h.sameDomain.apex

/-- A valid label is a label of a canonical name. -/
theorem validLabel_query {l : GoString} (h : validLabel l = true) :
    isLabel l = true ∧ ∀ b ∈ l, b < 0x80 ∧ isUpper b = false := by
  obtain ⟨hd, hb⟩ := plainLabel_of_validLabel h
  refine ⟨isLabel_of_plain hd hb, fun b hb => ?_⟩
  have := nameByte_plain (validLabel_bytes h b hb)
  exact ⟨this.1, this.2.1⟩

theorem validLabel_canonical {l : GoString} (h : validLabel l = true) : CanonicalLabel l :=
  ⟨validLabel_ne_nil h, (validLabel_query h).1, fun b hb => ((validLabel_query h).2 b hb).2⟩

/-- Whether a name is at or below the domain. -/
theorem Deployment.isSubDomain_iff (h : Deployment lib cfg s m) (hq : ∀ l ∈ q, CanonicalLabel l) :
    lib.isSubDomain s.config.domain (render q) = true ↔ cfg.domain.splitOn dot <:+ q := by
  rw [h.serves.domain, ← render_splitOn]
  exact h.documented.isSubDomain _ _ (List.splitOn_ne_nil _ _)
    (fun x hx => validLabel_canonical (List.all_eq_true.1 h.serves.domain_valid x hx)) hq

/-! ## Names of clients -/

/-- No lease has the name of a record, or of the server. -/
theorem Deployment.hostname_free (h : Deployment lib cfg s m) {c : GoString} {l : Lease}
    (hl : m.state.leases.get c = some l) :
    cfg.aRecords.get l.hostname = none ∧ l.hostname ≠ serviceName "ns" cfg.domain ∧
      l.hostname ≠ serviceName "gateway" cfg.domain ∧
      l.hostname ≠ serviceName "ldap" cfg.domain :=
  h.accepted.hostname_free h.domain h.reserved (h.wf.lease hl)

/-- The labels of a live hostname, as a query. -/
theorem Deployment.query (h : Deployment lib cfg s m) {l : Lease} (hl : LiveName m now l) :
    ∃ q, l.hostname = render q ∧ QueryName (s.zone m now).apex q ∧
      (∀ x ∈ q, validLabel x = true) ∧ q ≠ [] ∧ q ≠ (s.zone m now).apex ∧
      (render q).length ≤ 254 := by
  obtain ⟨pre, hpre, hall, hr, -, hlen⟩ := hl.labels h.wf
  rw [h.domain] at hall hr
  refine ⟨pre ++ cfg.domain.splitOn dot, hr, ?_, hall, by simp [hpre], ?_, hr ▸ hlen⟩
  · refine ⟨fun x hx => (validLabel_query (hall x hx)).1,
      fun x hx => (validLabel_query (hall x hx)).2, ?_⟩
    rw [h.apex]
    exact List.suffix_append _ _
  · rw [h.apex]
    intro heq
    exact hpre (by simpa using heq)

/-! ## Requests -/

/-- An ordinary query for a name and a type. -/
structure Request.Asks (lib : NameLib) (name : GoString) (kind : Kind) (r : Request) : Prop where
  response : r.response = false
  edns : r.edns.any (· ≠ 0) = false
  query : r.query = true
  questions : r.questions = 1
  internet : r.internet = true
  tsig : r.tsig = false
  name : lib.canonicalName r.name = name
  kind : r.kind = kind

/-- A plain question is answered by its name. -/
theorem Request.Asks.serve {r : Request} {name : GoString} {kind : Kind}
    (h : r.Asks lib name kind) (hk : kind ≠ .axfr ∧ kind ≠ .ixfr) :
    s.serveDNS lib m now r = s.answerName lib m now name kind r.recursionDesired := by
  have hkind : ¬ (r.kind = .axfr ∨ r.kind = .ixfr) := by
    rw [h.kind]
    exact fun hc => hc.elim hk.1 hk.2
  have hedns : ¬ r.edns.any (· ≠ 0) = true := by
    rw [h.edns]
    decide
  rw [Server.serveDNS, if_neg hedns, if_neg hkind]
  simp [h.response, h.query, h.questions, h.internet, h.tsig, h.name, h.kind]

/-- A response with an answer comes from the name. -/
theorem serveDNS_answer {r : Request} {resp : Response} {rec : Record}
    (h : s.serveDNS lib m now r = some (.reply resp)) (hrec : rec ∈ resp.answer) :
    s.answerName lib m now (lib.canonicalName r.name) r.kind r.recursionDesired =
      some (.reply resp) := by
  have hfail : ∀ {rc : Rcode}, some (Outcome.fail rc) ≠ some (Outcome.reply resp) := by
    intro rc heq
    rw [Option.some.injEq, Outcome.fail, Outcome.reply.injEq] at heq
    subst heq
    cases hrec
  simp only [Server.serveDNS] at h
  split at h
  · cases h
  split at h
  · exact absurd h hfail
  split at h
  · exact absurd h hfail
  split at h
  · exact absurd h hfail
  split at h
  · exact absurd h hfail
  split at h
  · exact absurd h hfail
  exact h

/-! ## Live leases are answered -/

/-- The times to live of lease answers. -/
theorem Deployment.ttl_le (h : Deployment lib cfg s m) {l : Lease} (hlive : now < l.expiresAt) :
    s.leaseTTL now l * second ≤ l.expiresAt - now ∧ s.leaseTTL now l * second ≤ cfg.dnsTTL := by
  have httl := h.accepted.ttl
  have hsec : second = 1000000000 := rfl
  have hle : ((s.leaseTTL now l : Nat) : Int) ≤ (l.expiresAt - now) / second ∧
      ((s.leaseTTL now l : Nat) : Int) ≤ cfg.dnsTTL / second := by
    simp only [Server.leaseTTL, h.ttl, if_neg (by omega : ¬ l.expiresAt - now ≤ 0)]
    rw [hsec] at httl ⊢
    omega
  rw [hsec] at hle ⊢
  omega

/-- The lease is the only live one with its name. -/
theorem Deployment.name_unique (h : Deployment lib cfg s m) {l l' : Lease}
    (hl : LiveName m now l) (hl' : LiveName m now l') (heq : l'.hostname = l.hostname) :
    l' = l := by
  obtain ⟨⟨c, hc⟩, -, hne⟩ := hl
  obtain ⟨⟨c', hc'⟩, -, -⟩ := hl'
  obtain rfl := h.wf.names hc hc' hne heq.symm
  exact Option.some.inj (hc'.symm.trans hc)

/-- The lease is the only one with its address. -/
theorem Deployment.address_unique (h : Deployment lib cfg s m) {c c' : GoString} {l l' : Lease}
    (hl : m.state.leases.get c = some l) (hl' : m.state.leases.get c' = some l')
    (heq : l'.ip = l.ip) : l' = l := by
  obtain rfl := h.wf.exclusive (.inl ⟨l, hl, rfl⟩) (.inl ⟨l', hl', heq⟩)
  exact Option.some.inj (hl'.symm.trans hl)

/-- The name of a lease is answered with its address. -/
theorem Deployment.forward (h : Deployment lib cfg s m) {l : Lease} (hl : LiveName m now l)
    (rd : Bool) : ∃ r, s.answerName lib m now l.hostname .a rd = some (.reply r) ∧
      r.answer = [.a l.hostname (s.leaseTTL now l) l.ip] := by
  obtain ⟨q, hr, hq, hvalid, hne, hapex, hlen⟩ := h.query hl
  obtain ⟨c, hc⟩ := hl.1
  obtain ⟨hfree, hns, hgw, -⟩ := h.hostname_free hc
  have hinf : ¬ (s.zone m now).Infra q := by
    rw [h.sameDomain.infra_iff hq, ← hr, h.serves.nsName, h.serves.gatewayName]
    exact fun hor => hor.elim hns hgw
  have hlook := h.sameDomain.lookup_lease hq hinf (by rw [← hr, h.aRecords, hfree]) hl hr
  have hsub : lib.isSubDomain s.config.domain l.hostname = true := by
    rw [hr, h.isSubDomain_iff fun x hx => validLabel_canonical (hvalid x hx)]
    exact h.apex ▸ hq.inZone
  have hvalidIP : l.ip.isValid = true := by
    have hpool := (h.wf.lease hc).pool
    simp only [Settings.inPool, Bool.and_eq_true] at hpool
    obtain ⟨a, ha⟩ := Addr.is4_iff.1 hpool.1.1
    rw [ha]
    rfl
  have hzone : l.hostname ≠ s.config.domain := by
    rw [hr]
    exact fun heq => hapex (((h.sameDomain.apex_iff hq).1 heq).trans h.sameDomain.apex.symm)
  rw [Server.answerName, hr, h.documented.isDomainName q hne hvalid hlen, ← hr, hsub]
  simp only [Server.answerLocal, Server.apexAnswer, if_neg hzone, Server.forwardAnswer, if_true,
    hr ▸ hlook, Option.map_some, hvalidIP]
  exact ⟨_, rfl, rfl⟩

/-- An address of the pool is in the subnet and is not the server's. -/
theorem Deployment.pool (h : Deployment lib cfg s m) {ip : Addr} (hip : m.cfg.inPool ip = true) :
    ∃ a, ip = .v4 a ∧ s.config.subnet.contains ip = true ∧ ip ≠ s.config.serverIP := by
  simp only [Settings.inPool, Bool.and_eq_true, decide_eq_true_eq, h.poolStart, h.poolEnd] at hip
  obtain ⟨a, ha⟩ := Addr.is4_iff.1 hip.1.1
  refine ⟨a, ha, ?_, ?_⟩
  · rw [h.subnet]
    exact h.accepted.pool_contained hip.1.2 hip.2
  · rw [h.serverIP]
    rintro rfl
    have := h.accepted.pool_server
    simp [Network.inPool, hip.1.2, hip.2] at this

/-- `LookupIP` finds the live lease of an address. -/
theorem lookupIP_iff (hw : m.state.Wf m.cfg) {a : BitVec 32} {l : Lease} :
    (m.lookupIP now (.v4 a)).1 = some l ↔
      ∃ c, m.state.leases.get c = some l ∧ now < l.expiresAt ∧ l.ip = .v4 a := by
  simp only [Manager.lookupIP, Option.map_eq_some_iff, Addr.unmap_v4]
  refine ⟨?_, ?_⟩
  · rintro ⟨⟨c, l'⟩, hf, rfl⟩
    obtain ⟨hl, hip⟩ := FinMap.find_eq_some hf
    obtain ⟨hl, hlive⟩ := State.expire_leases.1 hl
    exact ⟨c, hl, hlive, of_decide_eq_true hip⟩
  · rintro ⟨c, hl, hlive, hip⟩
    refine ⟨(c, l), FinMap.find_of_unique (State.expire_leases.2 ⟨hl, hlive⟩) (decide_eq_true hip)
      ?_, rfl⟩
    intro c' l' hl' hip'
    exact hw.exclusive (.inl ⟨l', (State.expire_leases.1 hl').1, of_decide_eq_true hip'⟩)
      (.inl ⟨l, hl, hip⟩)

/-- A reverse zone is not the domain. -/
theorem Deployment.zone_ne (h : Deployment lib cfg s m) {name zone : GoString} {ip : Addr}
    (hz : s.reverseAuthority name = some (zone, ip)) : zone ≠ s.config.domain := by
  rintro rfl
  have hsuf := reverseAuthority_zone hz
  have hdot : ∀ l ∈ cfg.domain.splitOn dot, dot ∉ l := fun l hl =>
    (plainLabel_of_validLabel (List.all_eq_true.1 h.serves.domain_valid l hl)).1
  rw [h.serves.domain, ← render_splitOn] at hsuf
  obtain ⟨pre, -, heq⟩ := (dot_render_suffix_iff hdot (by decide)).1 hsuf
  refine h.below ⟨pre, ?_⟩
  rw [labelsOf, trimSuffix_append]
  exact heq.symm

/-- A reverse name is not below the domain. -/
theorem Deployment.not_subDomain (h : Deployment lib cfg s m) (a : BitVec 32) :
    lib.isSubDomain s.config.domain (reverseName (.v4 a)) = false := by
  rw [← Bool.not_eq_true, reverseName,
    h.isSubDomain_iff fun x hx => validLabel_canonical (validLabel_reverseLabels a x hx)]
  intro hs
  have habove := h.above
  have hbelow := h.below
  rw [labelsOf, trimSuffix_append] at habove hbelow
  exact (List.suffix_or_suffix_of_suffix hs (List.suffix_append _ _)).elim habove hbelow

/-- A reverse name is short enough. -/
theorem length_reverseName (a : BitVec 32) : (render (reverseLabels a)).length ≤ 254 := by
  have hlen : ∀ n, (formatUint8 n).length ≤ 3 := fun n => by
    simp only [formatUint8]
    split
    · simp
    · split <;> simp
  have h₀ := hlen (a.toNat / 2 ^ 24)
  have h₁ := hlen (a.toNat / 2 ^ 16 % 256)
  have h₂ := hlen (a.toNat / 2 ^ 8 % 256)
  have h₃ := hlen (a.toNat % 256)
  have harpa : (render arpa).length = 13 := by decide
  simp only [reverseLabels, octets, List.reverse_cons, List.reverse_nil, List.nil_append,
    List.cons_append, List.map_cons, List.map_nil, render_cons, List.length_append,
    List.length_cons, harpa]
  omega

/-- The reverse name of a lease's address is answered with its name. -/
theorem Deployment.reverse (h : Deployment lib cfg s m) {l : Lease} (hl : LiveName m now l)
    (rd : Bool) : ∃ r, s.answerName lib m now (reverseName l.ip) .ptr rd = some (.reply r) ∧
      r.answer = [.ptr (reverseName l.ip) (s.leaseTTL now l) l.hostname] := by
  obtain ⟨⟨c, hc⟩, hlive, hne⟩ := hl
  obtain ⟨a, ha, hcontains, hserver⟩ := h.pool (h.wf.lease hc).pool
  have hlook := (lookupIP_iff h.wf).2 ⟨c, hc, hlive, ha⟩
  have hbits : s.config.subnet.bits ≤ 32 := by
    rw [h.subnet]
    have := h.accepted.subnet_bits
    omega
  rw [ha] at hcontains hserver ⊢
  obtain ⟨zone, hz⟩ := reverseAuthority_reverseName hbits hcontains
  have hname : lib.isDomainName (reverseName (.v4 a)) = true :=
    h.documented.isDomainName _ (by simp [reverseLabels, arpa]) (validLabel_reverseLabels a)
      (length_reverseName a)
  have hapex : ∀ zone', s.apexAnswer (reverseName (.v4 a)) .ptr zone' = ([], []) := by
    intro zone'
    simp only [Server.apexAnswer]
    split <;> rfl
  have hans : s.reverseAnswer m now (reverseName (.v4 a)) .ptr (.v4 a) =
      ([.ptr (reverseName (.v4 a)) (s.leaseTTL now l) l.hostname], true) := by
    have hlease : (decide (l.hostname ≠ []) && decide (now < l.expiresAt)) = true := by
      simp [hne, hlive]
    simp only [Server.reverseAnswer, if_neg hserver, hlook, if_pos hlease]
    rfl
  rw [Server.answerName, hname, h.not_subDomain a, hz]
  simp only [Server.answerLocal, hapex, if_neg (h.zone_ne hz), hans]
  exact ⟨_, rfl, rfl⟩

/-! ## Answers come from leases -/

/-- An answer with this time to live comes from the live lease `l`, the only one with its name and
the only one with its address, and outlives neither the lease nor the configured limit. -/
structure FromLease (cfg : BoxConfig) (m : Manager) (now : Int) (ttl : Nat)
    (l : Lease) : Prop where
  live : LiveName m now l
  name_unique : ∀ l', LiveName m now l' → l'.hostname = l.hostname → l' = l
  address_unique : ∀ c l', m.state.leases.get c = some l' → l'.ip = l.ip → l' = l
  ttl_lease : ttl * second ≤ l.expiresAt - now
  ttl_config : ttl * second ≤ cfg.dnsTTL

theorem Deployment.fromLease (h : Deployment lib cfg s m) {l : Lease} (hl : LiveName m now l) :
    FromLease cfg m now (s.leaseTTL now l) l where
  live := hl
  name_unique _ hl' := h.name_unique hl hl'
  address_unique _ _ hl' := h.address_unique hl.1.choose_spec hl'
  ttl_lease := (h.ttl_le hl.2.1).1
  ttl_config := (h.ttl_le hl.2.1).2

/-- Where an address below the domain comes from. -/
inductive AddressSource (cfg : BoxConfig) (s : Server) (m : Manager) (now : Int)
    (q : List GoString) (ttl : Nat) (a : Addr) : Prop
  | infrastructure : (s.zone m now).Infra q → AddressSource cfg s m now q ttl a
  | static : (s.zone m now).record q a → AddressSource cfg s m now q ttl a
  | wildcard {ce : List GoString} : ¬ (s.zone m now).Exists q →
      IsClosestEncloser (s.zone m now).Exists (s.zone m now).apex q ce →
      (s.zone m now).record ([star] :: ce) a → AddressSource cfg s m now q ttl a
  | lease {l : Lease} : FromLease cfg m now ttl l → l.hostname = render q → l.ip = a →
      AddressSource cfg s m now q ttl a

/-- Every address answered for a name below the domain has such a source. -/
theorem Deployment.address_source (h : Deployment lib cfg s m)
    (hq : QueryName (s.zone m now).apex q) (hlabels : ∀ l ∈ q, l ≠ [])
    {kind : Kind} {rd : Bool} {r : Response} {owner : GoString} {ttl : Nat} {a : Addr}
    (hans : s.answerName lib m now (render q) kind rd = some (.reply r))
    (hrec : .a owner ttl a ∈ r.answer) :
    owner = render q ∧ AddressSource cfg s m now q ttl a := by
  have hsub : lib.isSubDomain s.config.domain (render q) = true := by
    rw [h.isSubDomain_iff fun x hx =>
      ⟨hlabels x hx, hq.label x hx, fun b hb => (hq.lower x hx b hb).2⟩]
    exact h.apex ▸ hq.inZone
  rw [Server.answerName, hsub] at hans
  split at hans
  · cases hans
    cases hrec
  rw [if_pos rfl, Option.map_eq_some_iff] at hans
  obtain ⟨r', hlocal, heq⟩ := hans
  cases heq
  rcases answerLocal_forward hlocal hrec with hapex | ⟨a', ttl', found, hlook, hv, heq⟩
  · rcases apexAnswer_cases hapex with ⟨_, _, _, _, heq⟩ | ⟨_, _, _, heq⟩ <;> cases heq
  · cases heq
    refine ⟨rfl, ?_⟩
    -- the zone has an answer, and it is the one looked up
    obtain ⟨ans, hans⟩ := (s.zone m now).exists_answer hq.inZone
    obtain ⟨ttl', hlook'⟩ := h.sameDomain.lookup_eq hq hans
    rw [hlook, Option.some.injEq, Prod.mk.injEq, Prod.mk.injEq] at hlook'
    obtain ⟨ha, -, -⟩ := hlook'
    cases hans with
    | server hi => exact .infrastructure hi
    | record _ hr => exact .static (ha ▸ hr)
    | lease hi hr hl =>
      obtain ⟨l, hlive, hname, hip⟩ := (h.sameDomain.lease_iff hq.label).1 hl
      have hnone : s.config.aRecords.get (render q) = none :=
        Option.eq_none_iff_forall_ne_some.2 fun a ha =>
          hr a ((h.sameDomain.record_iff hq.label).2 ha)
      have hlease := h.sameDomain.lookup_lease hq hi hnone hlive hname
      rw [hlook, Option.some.injEq, Prod.mk.injEq, Prod.mk.injEq] at hlease
      exact .lease (hlease.2.1 ▸ h.fromLease hlive) hname hlease.1.symm
    | noAddress | nameError =>
      simp only at ha
      subst ha
      cases hv
    | wildcard hex hce hw => exact .wildcard hex hce (ha ▸ hw)

/-- Every pointer is the server's own or that of the live lease with the address. -/
theorem Deployment.pointer_source (h : Deployment lib cfg s m) {name : GoString} {kind : Kind}
    {rd : Bool} {r : Response} {owner target : GoString} {ttl : Nat}
    (hans : s.answerName lib m now name kind rd = some (.reply r))
    (hrec : .ptr owner ttl target ∈ r.answer) :
    (owner = reverseName s.config.serverIP ∧ target = s.nsName) ∨
      ∃ l, FromLease cfg m now ttl l ∧ owner = reverseName l.ip ∧ target = l.hostname := by
  have hnot : ∀ {zone}, .ptr owner ttl target ∉ (s.apexAnswer name kind zone).1 := by
    intro zone hmem
    rcases apexAnswer_cases hmem with ⟨_, _, _, _, heq⟩ | ⟨_, _, _, heq⟩ <;> cases heq
  rw [Server.answerName] at hans
  split at hans
  · cases hans
    cases hrec
  split at hans
  · obtain ⟨r', hlocal, heq⟩ := Option.map_eq_some_iff.1 hans
    cases heq
    rcases answerLocal_forward hlocal hrec with hapex | ⟨_, _, _, _, _, heq⟩
    · exact absurd hapex hnot
    · cases heq
  split at hans
  · next zone ip hz =>
    obtain ⟨r', hlocal, heq⟩ := Option.map_eq_some_iff.1 hans
    cases heq
    rcases answerLocal_reverse (h.zone_ne hz) hlocal hrec with hapex | ⟨hv, hsource⟩
    · exact absurd hapex hnot
    obtain ⟨a, rfl, rfl⟩ := reverseAuthority_ip hz hv
    rcases hsource with ⟨hip, heq⟩ | ⟨l, hl, hne, hlive, heq⟩
    · cases heq
      exact .inl ⟨by rw [← hip], rfl⟩
    · cases heq
      obtain ⟨c, hc, -, hip⟩ := (lookupIP_iff h.wf).1 hl
      exact .inr ⟨l, h.fromLease ⟨⟨c, hc⟩, hlive, hne⟩, by rw [hip], rfl⟩
  · split at hans
    · rw [Option.some.injEq, Outcome.reply.injEq] at hans
      subst hans
      simp only [Server.answerOverride] at hrec
      split at hrec
      · cases List.mem_singleton.1 hrec
      · cases hrec
    · split at hans
      · cases hans
      · cases hans
        cases hrec

end

/-- The manager and the server built from an accepted configuration, in any state they reach. -/
theorem Deployment.reached {lib : NameLib} {net : ListenerLib} {parsers : Parsers}
    {f : FileSettings} {cfg : BoxConfig} {address : GoString} {s : Server}
    {disk : LeaseFile} {start : Int} {m : Manager} {p : Process}
    {tr : Trace Process Label} (hlib : lib.Documented)
    (hcfg : f.config parsers = .ok cfg) (habove : ¬ labelsOf (cfg.domain ++ [dot]) <:+ arpa)
    (hbelow : ¬ arpa <:+ labelsOf (cfg.domain ++ [dot]))
    (hs : Dns.new lib net (cfg.dns address) = .ok s) (hstart : 0 < start)
    (hm : newManager cfg.leases start disk = .ok m)
    (hrun : Run (Step cfg.leases) ⟨⟨m, disk⟩, start⟩ tr p) :
    Deployment lib cfg s p.sys.manager := by
  have hacc := FileSettings.config_ok hcfg
  have hinv := (Process.Inv.start hstart hm).run hrun
  obtain ⟨hdom, hps, hpe, hres⟩ := hacc.leases_ok hinv.configured
  obtain ⟨hserves, hrec, hip, hsub, httl⟩ := hacc.dns_ok (hlib.fqdn _ hacc.domain_valid) hs
  exact ⟨hlib, hacc, hdom, hres, hps, hpe, hinv.wf, hserves, hrec, hip, hsub, httl, habove, hbelow⟩

/-- Forward and reverse DNS agree with the lease table. For a manager and a server built from one
accepted configuration, in every state the manager reaches: the name and the address of a live lease
lead to each other and to nothing else; every other answer below the domain that is not the
server's, static or synthesised, and every other pointer, comes from such a lease and outlives
neither it nor the configured limit; and no client gets a name of the server, of the LDAP service or
of a record. -/
theorem dns_agrees_with_leases {lib : NameLib} {net : ListenerLib} {parsers : Parsers}
    {f : FileSettings} {cfg : BoxConfig} {address : GoString} {s : Server}
    {disk : LeaseFile} {start : Int} {m : Manager} {p : Process}
    {tr : Trace Process Label} (now : Int) (hlib : lib.Documented)
    (hcfg : f.config parsers = .ok cfg) (habove : ¬ labelsOf (cfg.domain ++ [dot]) <:+ arpa)
    (hbelow : ¬ arpa <:+ labelsOf (cfg.domain ++ [dot]))
    (hs : Dns.new lib net (cfg.dns address) = .ok s) (hstart : 0 < start)
    (hm : newManager cfg.leases start disk = .ok m)
    (hrun : Run (Step cfg.leases) ⟨⟨m, disk⟩, start⟩ tr p) :
    (∀ l, LiveName p.sys.manager now l →
      (∀ req : Request, req.Asks lib l.hostname .a →
        ∃ r, s.serveDNS lib p.sys.manager now req = some (.reply r) ∧
          r.answer = [.a l.hostname (s.leaseTTL now l) l.ip]) ∧
      (∀ req : Request, req.Asks lib (reverseName l.ip) .ptr →
        ∃ r, s.serveDNS lib p.sys.manager now req = some (.reply r) ∧
          r.answer = [.ptr (reverseName l.ip) (s.leaseTTL now l) l.hostname])) ∧
    (∀ (req : Request) q r owner ttl a, QueryName (labelsOf s.config.domain) q →
      (∀ l ∈ q, l ≠ []) → lib.canonicalName req.name = render q →
      s.serveDNS lib p.sys.manager now req = some (.reply r) → .a owner ttl a ∈ r.answer →
      owner = render q ∧ AddressSource cfg s p.sys.manager now q ttl a) ∧
    (∀ (req : Request) r owner ttl target,
      s.serveDNS lib p.sys.manager now req = some (.reply r) → .ptr owner ttl target ∈ r.answer →
      (owner = reverseName s.config.serverIP ∧ target = s.nsName) ∨
      ∃ l, FromLease cfg p.sys.manager now ttl l ∧ owner = reverseName l.ip ∧
        target = l.hostname) ∧
    (∀ c l, (p.sys.manager.state.leases.get c = some l ∨
        ∃ t ∈ tr, ∃ n, t.label.Commits n c l) →
      cfg.aRecords.get l.hostname = none ∧ l.hostname ≠ serviceName "ns" cfg.domain ∧
      l.hostname ≠ serviceName "gateway" cfg.domain ∧
      l.hostname ≠ serviceName "ldap" cfg.domain) := by
  have h : Deployment lib cfg s p.sys.manager :=
    .reached hlib hcfg habove hbelow hs hstart hm hrun
  refine ⟨fun l hl => ⟨fun req hreq => ?_, fun req hreq => ?_⟩, ?_, ?_, ?_⟩
  · rw [hreq.serve ⟨by decide, by decide⟩]
    exact h.forward hl _
  · rw [hreq.serve ⟨by decide, by decide⟩]
    exact h.reverse hl _
  · intro req q r owner ttl a hq hlabels hname hserve hrec
    have hans := serveDNS_answer hserve hrec
    rw [hname] at hans
    exact h.address_source hq hlabels hans hrec
  · intro req r owner ttl target hserve hrec
    exact h.pointer_source (serveDNS_answer hserve hrec) hrec
  · rintro c l (hl | ⟨t, ht, n, w, a, hn, fb, hlabel⟩)
    · exact h.hostname_free hl
    · -- the granted lease is in the state right after the commit
      obtain ⟨before, after, rfl, hpre, hstep, -⟩ := hrun.mem_inv ht
      have hpost := hpre.append (.cons hstep (.nil _))
      rw [hlabel] at hstep
      exact (Deployment.reached hlib hcfg habove hbelow hs hstart hm hpost).hostname_free
        hstep.committed_inv.2.2.2.2.2.2

theorem referenceLib_documented : referenceLib.Documented where
  toSkipsLabels := referenceLib_skipsLabels
  fqdn _ hs := if_neg (validLabels_not_dot_suffix hs)
  isDomainName _ hne _ _ := decide_eq_true (render_ne_nil hne)
  isSubDomain _ child hne hp hc :=
    labelSuffix_render (fun l hl => (hp l hl).2.1) hne (fun l hl => (hc l hl).2.1)
      (length_le_render child)

/-- The lease manager of `sampleAccepted`. -/
def sampleManager : Manager where
  cfg := { sampleSettings with
    reservedNames := [str "ns.lan.", str "gateway.lan.", str "ldap.lan."]
    reserved_ns := by decide
    reserved_gateway := by decide
    reserved_hostnames := by decide }
  state := newState

/-- The name and the address of a client's lease answer for each other. -/
theorem dns_agrees_with_leases_commit :
    let p := Process.after ⟨⟨sampleManager, .absent⟩, 1⟩ 2 true
      (.commit (str "a") (.v4 0x0a00000a) (str "x") [])
    let s := build referenceLib { sampleAccepted.dns (str "10.0.0.1:53") with
      domain := str "lan." }
    let asks : GoString → Kind → Request := fun name kind =>
      ⟨false, none, true, 1, name, kind, true, false, false⟩
    (∃ r, s.serveDNS referenceLib p.sys.manager 3 (asks (str "X.lan") .a) = some (.reply r) ∧
      r.answer = [.a (str "x.lan.") 60 (.v4 0x0a00000a)]) ∧
    (∃ r, s.serveDNS referenceLib p.sys.manager 3 (asks (str "10.0.0.10.in-addr.arpa") .ptr) =
        some (.reply r) ∧
      r.answer = [.ptr (str "10.0.0.10.in-addr.arpa.") 60 (str "x.lan.")]) := by
  intro p s asks
  have hrun : Run (Step sampleAccepted.leases) ⟨⟨sampleManager, .absent⟩, 1⟩ _ p :=
    .cons (.after _ 2 true (.commit (str "a") (.v4 0x0a00000a) (str "x") []) (by decide)) (.nil _)
  have hlive : LiveName p.sys.manager 3
      ⟨str "a", .v4 0x0a00000a, str "x.lan.", 2 + hour⟩ :=
    ⟨⟨str "a", by decide +kernel⟩, by decide, by decide⟩
  have hs : Dns.new referenceLib ⟨fun _ _ => none, fun _ _ _ => false⟩
      (sampleAccepted.dns (str "10.0.0.1:53")) = .ok s := rfl
  have hm : newManager sampleAccepted.leases 1 .absent = .ok sampleManager := rfl
  have h := (dns_agrees_with_leases 3 referenceLib_documented sampleFile_config (by decide)
    (by decide) hs (by decide) hm hrun).1 _ hlive
  exact ⟨h.1 _ ⟨rfl, rfl, rfl, rfl, rfl, rfl, by decide +kernel, rfl⟩,
    h.2 _ ⟨rfl, rfl, rfl, rfl, rfl, rfl, by decide +kernel, rfl⟩⟩

end InfraBox.Dns
