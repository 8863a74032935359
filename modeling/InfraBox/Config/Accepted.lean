import InfraBox.Config.Settings
import InfraBox.Dns.Names

/-!
# Accepted configurations

What `fileSettings.config` guarantees of the configurations it accepts (`Accepted`), and what the
lease manager and the DNS server built from one have in common: the same domain, the configured
records unchanged, and every exact record below the domain reserved against the clients.
-/

namespace InfraBox.Config

open Leasing Dns

variable {f : FileSettings} {p : Parsers} {d : GoString}

/-- What holds of an accepted configuration. -/
structure Accepted (cfg : BoxConfig) : Prop where
  serverIP_is4 : cfg.serverIP.is4 = true
  subnet_is4 : cfg.subnet.addr.is4 = true
  subnet_bits : cfg.subnet.bits ≤ 30
  subnet_masked : cfg.subnet = cfg.subnet.masked
  pool_is4 : cfg.poolStart.is4 = true ∧ cfg.poolEnd.is4 = true
  pool_subnet : cfg.subnet.contains cfg.poolStart = true ∧ cfg.subnet.contains cfg.poolEnd = true
  pool_server : cfg.inPool cfg.serverIP = false
  domain_valid : validLabels cfg.domain = true
  domain_length : cfg.domain.length ≤ 242
  record : ∀ {k a}, cfg.aRecords.get k = some a → RecordName cfg.domain k
  ldap : cfg.aRecords.get (serviceName "ldap" cfg.domain) = some cfg.serverIP
  ttl : second ≤ cfg.dnsTTL

/-- What the loop body of `validateNetwork` has checked. -/
structure HostAddress (subnet : Prefix) (addr : Addr) : Prop where
  contained : subnet.contains addr = true
  ne_network : addr ≠ subnet.addr
  ne_broadcast : addr ≠ broadcast subnet

theorem hostAddress_ok {subnet : Prefix} {name : String} {addr : Addr} {u : Unit}
    (h : hostAddress subnet name addr = .ok u) : HostAddress subnet addr := by
  simp only [hostAddress, bind_eq_ok, require_eq_ok, Bool.not_eq_true', Bool.or_eq_false_iff,
    decide_eq_false_iff_not] at h
  obtain ⟨_, hin, hnet, hlast⟩ := h
  exact ⟨hin, hnet, hlast⟩

/-- What `validateNetwork` has checked. -/
theorem Network.validate_ok {n : Network} (h : n.validate = .ok ()) :
    HostAddress n.subnet n.serverIP ∧ HostAddress n.subnet n.poolStart ∧
      HostAddress n.subnet n.poolEnd ∧ n.poolStart ≤ n.poolEnd ∧ n.inPool n.serverIP = false ∧
      (n.router.isValid = true → HostAddress n.subnet n.router ∧ n.inPool n.router = false) := by
  simp only [Network.validate, bind_eq_ok, require_eq_ok, Bool.not_eq_true',
    Bool.and_eq_false_iff, decide_eq_true_eq] at h
  obtain ⟨_, hserver, _, hstart, _, hend, _, hrouter, _, hle, _, hout, hrouterOut⟩ := h
  refine ⟨hostAddress_ok hserver, hostAddress_ok hstart, hostAddress_ok hend, hle, hout,
    fun hv => ?_⟩
  rw [routerAddress, if_pos hv] at hrouter
  exact ⟨hostAddress_ok hrouter, hrouterOut.resolve_left (by simp [hv])⟩

/-- The subnets `config` admits: canonical IPv4 networks with usable host addresses. -/
structure IsSubnet (subnet : Prefix) : Prop where
  is4 : subnet.addr.is4 = true
  bits : subnet.bits ≤ 30
  canonical : subnet = subnet.masked

/-- `config` validates a network only after its subnet. -/
theorem FileSettings.network_ok {n : Network}
    (h : f.network p = .ok n) :
    IsSubnet n.subnet ∧ n.validate = .ok () ∧ n.serverIP.is4 = true ∧ n.poolStart.is4 = true ∧
      n.poolEnd.is4 = true := by
  simp only [FileSettings.network, bind_eq_ok, require_eq_ok] at h
  obtain ⟨serverIP, hserver, subnet, -, -, hv4, -, hmasked, poolStart, hstart, poolEnd, hend,
    router, -, _, hvalid, hn⟩ := h
  cases hn
  simp only [Bool.and_eq_true, decide_eq_true_eq] at hv4
  exact ⟨⟨hv4.1, hv4.2, of_decide_eq_true hmasked⟩, hvalid, (parseIPv4_ok hserver).1,
    (parseIPv4_ok hstart).1, (parseIPv4_ok hend).1⟩

/-- Every record the loop returns was there before or has a record name. -/
theorem parseARecords_ok (hd : validLabels d = true) :
    ∀ {entries : List (GoString × GoString)} {acc recs : FinMap GoString Addr},
      parseARecords p d entries acc = .ok recs →
      ∀ {k a}, recs.get k = some a → acc.get k = some a ∨ RecordName d k
  | [], acc, recs, h, k, a, hk => by cases h; exact .inl hk
  | (name, value) :: rest, acc, recs, h, k, a, hk => by
    simp only [parseARecords, bind_eq_ok, require_eq_ok, decide_eq_true_eq] at h
    obtain ⟨-, hne, -, -, -, -, ip, -, hrest⟩ := h
    rcases parseARecords_ok hd hrest hk with hacc | hok
    · rcases FinMap.get_set_eq_some.1 hacc with ⟨rfl, -⟩ | ⟨-, hacc⟩
      · exact .inr ((normalizeARecord_cases hd name).resolve_left hne)
      · exact .inl hacc
    · exact .inr hok

/-- What is checked of the names. -/
theorem FileSettings.names_ok
    {recs : FinMap GoString Addr} (h : f.names p = .ok (d, recs)) :
    validLabels d = true ∧ d.length ≤ 242 ∧ ∀ {k a}, recs.get k = some a → RecordName d k := by
  simp only [FileSettings.names, bind_eq_ok, require_eq_ok] at h
  obtain ⟨-, -, u, hdom, recs', hrecs, heq⟩ := h
  cases heq
  obtain ⟨hvalid, hlen⟩ := validateDomain_ok hdom
  exact ⟨hvalid, hlen, fun hk => (parseARecords_ok hvalid hrecs hk).resolve_left (by simp)⟩

theorem FileSettings.durations_ok {d : Int × Int}
    (h : f.durations p = .ok d) : second ≤ d.2 := by
  simp only [FileSettings.durations, validateDuration, bind_eq_ok, require_eq_ok, Bool.and_eq_true,
    decide_eq_true_eq] at h
  obtain ⟨lease, -, ttl, -, -, -, -, ⟨-, hmin, -⟩, heq⟩ := h
  cases heq
  exact hmin.1

/-- A service name of a short enough domain is a record name. -/
theorem recordName_service {label : String} (hl : validLabels (str label) = true)
    (hlen : (str label).length + d.length ≤ 252) (hd : validLabels d = true) :
    RecordName d (serviceName label d) := by
  refine ⟨⟨str label ++ dot :: d, validLabels_append.2 ⟨hl, hd⟩, .inr (by simp), .inl rfl⟩, ?_⟩
  simp only [serviceName, List.length_append, List.length_cons, List.length_nil]
  omega

/-- `config` accepts only such configurations. -/
theorem FileSettings.config_ok {cfg : BoxConfig}
    (h : f.config p = .ok cfg) : Accepted cfg := by
  simp only [FileSettings.config, bind_eq_ok, require_eq_ok, report_eq_ok] at h
  obtain ⟨-, -, network, hnet, ⟨d, recs⟩, hnames, dur, hdur, -, -, -, -, -, -, -, -, -, -, -, -, -,
    -, hcfg⟩ := h
  cases hcfg
  obtain ⟨hsubnet, hvalidated, hserver, hstart, hend⟩ := FileSettings.network_ok hnet
  obtain ⟨-, hfrom, hto, -, hout, -⟩ := Network.validate_ok hvalidated
  obtain ⟨hvalid, hlen, hrec⟩ := FileSettings.names_ok hnames
  refine ⟨hserver, hsubnet.is4, hsubnet.bits, hsubnet.canonical, ⟨hstart, hend⟩,
    ⟨hfrom.contained, hto.contained⟩, hout, hvalid, hlen, fun hk => ?_, FinMap.get_set_self ..,
    FileSettings.durations_ok hdur⟩
  rcases FinMap.get_set_eq_some.1 hk with ⟨rfl, -⟩ | ⟨-, hk⟩
  · refine recordName_service (by decide) ?_ hvalid
    show 4 + d.length ≤ 252
    omega
  · exact hrec hk

/-- The network of an accepted configuration was validated, and its pool starts in it. -/
theorem FileSettings.config_network {cfg : BoxConfig}
    (h : f.config p = .ok cfg) :
    IsSubnet cfg.subnet ∧ cfg.toNetwork.validate = .ok () ∧
      cfg.poolStart.isGlobalUnicast = true := by
  simp only [FileSettings.config, bind_eq_ok] at h
  obtain ⟨-, -, network, hnet, ⟨d, recs⟩, -, dur, -, -, -, -, -, -, -, -, -, -, -, -, -, -, -,
    hcfg⟩ := h
  cases hcfg
  obtain ⟨hsubnet, hvalid, -⟩ := FileSettings.network_ok hnet
  simp only [FileSettings.network, bind_eq_ok] at hnet
  obtain ⟨_, -, _, -, _, -, _, -, _, hstart, _, -, _, -, _, -, hn⟩ := hnet
  cases hn
  exact ⟨hsubnet, hvalid, (parseIPv4_ok hstart).2⟩

/-- The pool starts at a host address, so it does not contain the unspecified one. -/
theorem FileSettings.config_pool_ne {cfg : BoxConfig}
    (h : f.config p = .ok cfg) {ip : BitVec 32} (hle : cfg.poolStart ≤ .v4 ip) : ip ≠ 0 := by
  obtain ⟨-, -, hunicast⟩ := FileSettings.config_network h
  obtain ⟨a, ha⟩ := Addr.is4_iff.1 (FileSettings.config_ok h).pool_is4.1
  rw [ha] at hle hunicast
  rintro rfl
  have hle := Addr.v4_le_v4.1 hle
  have ha : a = 0 := BitVec.eq_of_toNat_eq (by simpa using hle)
  rw [ha] at hunicast
  exact absurd hunicast (by decide)

section
variable {cfg : BoxConfig}

/-- The lease manager takes the domain. -/
theorem Accepted.domain_validDNSName (h : Accepted cfg) : validDNSName cfg.domain = true := by
  have hne : cfg.domain ≠ [] := by
    intro h0
    have := h.domain_valid
    rw [h0] at this
    exact absurd this (by decide)
  have := List.length_pos_iff.2 hne
  have := h.domain_length
  simp only [validDNSName, h.domain_valid, Bool.and_true, Bool.not_eq_true', Bool.or_eq_false_iff,
    decide_eq_false_iff_not]
  omega

/-- The subnet is an interval, so it contains the whole pool. -/
theorem Accepted.pool_contained (h : Accepted cfg) {ip : Addr} (hle : cfg.poolStart ≤ ip)
    (hge : ip ≤ cfg.poolEnd) : cfg.subnet.contains ip = true :=
  Prefix.contains_between h.subnet_is4 h.pool_subnet.1 h.pool_subnet.2 hle hge

/-! ## The lease manager -/

/-- Every reserved name is kept in canonical form. -/
theorem mem_canonicalReserved : ∀ {names rest : List GoString},
    canonicalReserved d names = .ok rest → ∀ n ∈ names, normalizeHostname n d ∈ rest
  | [], _, _, _, hn => by cases hn
  | name :: names, rest, h, n, hn => by
    simp only [canonicalReserved] at h
    split at h
    · cases h
    split at h
    · cases h
    split at h
    · cases h
    next rest' hrest =>
    cases h
    rcases List.mem_cons.1 hn with rfl | hn
    · exact .head _
    · exact .tail _ (mem_canonicalReserved hrest n hn)

/-- A record at or below the domain, other than a wildcard or the domain itself, is a host name. -/
theorem hostname_of_record {d k : GoString} (hk : RecordName d k) (hbelow : dot :: d ++ [dot] <:+ k)
    (hstar : ¬ [star, dot] <+: k) : HostnameUnder d k := by
  obtain ⟨n, hn, -, hr⟩ := hk.host
  have hlen := hk.length_le
  rcases hr with rfl | rfl
  · refine ⟨n, rfl, ?_, ?_⟩
    · have hne : n ≠ [] := by
        rintro rfl
        exact absurd hn (by decide)
      have := List.length_pos_iff.2 hne
      simp only [List.length_append, List.length_singleton] at hlen
      simp only [validDNSName, hn, Bool.and_true, Bool.not_eq_true', Bool.or_eq_false_iff,
        decide_eq_false_iff_not]
      omega
    · obtain ⟨x, hx⟩ := hbelow
      rw [← List.append_assoc] at hx
      exact ⟨x, List.append_cancel_right hx⟩
  · exact absurd ⟨n ++ [dot], rfl⟩ hstar

/-- The manager keeps the configured domain and pool, and reserves every exact record below it. -/
theorem Accepted.leases_ok (h : Accepted cfg) {settings : Settings}
    (hc : configure cfg.leases = .ok settings) :
    settings.domain = cfg.domain ∧ settings.poolStart = cfg.poolStart ∧
      settings.poolEnd = cfg.poolEnd ∧
      ∀ n ∈ cfg.reservedNames, n ∈ settings.reservedNames := by
  obtain ⟨hs, he, hd, -, reserved, hres, hnames⟩ := configure_ok hc
  have hdom : settings.domain = cfg.domain :=
    hd.trans (canonicalDomain_of_valid h.domain_validDNSName)
  refine ⟨hdom, ?_, ?_, fun n hn => ?_⟩
  · obtain ⟨a, ha⟩ := Addr.is4_iff.1 h.pool_is4.1
    rw [hs, show cfg.leases.poolStart = cfg.poolStart from rfl, ha, Addr.unmap_v4]
  · obtain ⟨a, ha⟩ := Addr.is4_iff.1 h.pool_is4.2
    rw [he, show cfg.leases.poolEnd = cfg.poolEnd from rfl, ha, Addr.unmap_v4]
  · have hmem := mem_canonicalReserved hres n hn
    obtain ⟨hkey, htest⟩ := List.mem_filter.1 hn
    obtain ⟨a, ha⟩ := Option.isSome_iff_exists.1 ((FinMap.mem_keys _ n).1 hkey)
    simp only [Bool.and_eq_true, decide_eq_true_eq, Bool.not_eq_true', decide_eq_false_iff_not]
      at htest
    have hunder := hostname_of_record (h.record ha) htest.1 htest.2
    rw [hdom, hunder.normalize h.domain_validDNSName] at hmem
    rw [hnames]
    exact .tail _ (.tail _ hmem)

/-- A client has no name of a record, or of the server, when the records are reserved. -/
theorem Accepted.hostname_free (h : Accepted cfg) {settings : Settings}
    (hdom : settings.domain = cfg.domain)
    (hres : ∀ n ∈ cfg.reservedNames, n ∈ settings.reservedNames) {c : GoString} {l : Lease}
    (hok : settings.LeaseOk c l) :
    cfg.aRecords.get l.hostname = none ∧ l.hostname ≠ serviceName "ns" cfg.domain ∧
      l.hostname ≠ serviceName "gateway" cfg.domain ∧
      l.hostname ≠ serviceName "ldap" cfg.domain := by
  have hnone : cfg.aRecords.get l.hostname = none := by
    refine Option.eq_none_iff_forall_ne_some.2 fun a ha => ?_
    have hrec := h.record ha
    rcases hok.name with hnil | hunder
    · obtain ⟨n, -, -, hr⟩ := hrec.host
      rw [hnil] at hr
      rcases hr with hr | hr <;> simp at hr
    · -- a host name below the domain that is a record is reserved
      obtain ⟨n, hn, hv, x, hx⟩ := hunder
      refine hok.name_free (hres _ (List.mem_filter.2 ⟨?_, ?_⟩))
      · exact (FinMap.mem_keys _ _).2 (by rw [ha]; rfl)
      · simp only [Bool.and_eq_true, decide_eq_true_eq, Bool.not_eq_true', decide_eq_false_iff_not]
        refine ⟨⟨x, ?_⟩, ?_⟩
        · rw [hn, ← hx, hdom]
          simp
        · rintro ⟨y, hy⟩
          have hstar : star ∈ n := by
            rw [hn] at hy
            cases n with
            | nil => simp at hy
            | cons b n =>
              rw [List.cons_append, List.cons_append] at hy
              rw [(List.cons.inj hy).1]
              exact .head _
          exact absurd (validLabels_bytes (validLabels_of_validDNSName hv) _ hstar) (by decide)
  refine ⟨hnone, ?_, ?_, ?_⟩
  · exact fun heq => hok.name_free (heq ▸ hdom ▸ settings.reserved_ns)
  · exact fun heq => hok.name_free (heq ▸ hdom ▸ settings.reserved_gateway)
  · intro heq
    rw [heq, h.ldap] at hnone
    cases hnone

/-! ## The DNS server -/

/-- A map of records in normal form passes through `normalizeARecords` unchanged. -/
theorem normalizeARecords_fixed (hd : validLabels d = true) :
    ∀ {entries : List (GoString × Addr)} {acc recs : FinMap GoString Addr},
      normalizeARecords (d ++ [dot]) entries acc = .ok recs →
      (∀ e ∈ entries, RecordName d e.1) →
      ∀ {k a}, recs.get k = some a ↔ acc.get k = some a ∨ (k, a) ∈ entries
  | [], acc, recs, h, _, k, a => by cases h; simp
  | (name, ip) :: rest, acc, recs, h, hr, k, a => by
    obtain ⟨hname, hrest⟩ := List.forall_mem_cons.1 hr
    simp only [normalizeARecords, normalizeARecord_dot hd, hname.normalize hd] at h
    split at h
    · cases h
    split at h
    · cases h
    split at h
    · cases h
    next hfresh =>
    split at h
    · cases h
    rw [normalizeARecords_fixed hd h hrest, FinMap.get_set_eq_some, List.mem_cons, Prod.mk.injEq]
    refine ⟨?_, ?_⟩
    · rintro ((⟨rfl, rfl⟩ | ⟨-, hacc⟩) | hmem)
      · exact .inr (.inl ⟨rfl, rfl⟩)
      · exact .inl hacc
      · exact .inr (.inr hmem)
    · rintro (hacc | ⟨rfl, rfl⟩ | hmem)
      · refine .inl (.inr ⟨?_, hacc⟩)
        rintro rfl
        exact hfresh (by rw [hacc]; rfl)
      · exact .inl (.inl ⟨rfl, rfl⟩)
      · exact .inr hmem

/-- The server built from an accepted configuration serves its domain, with its records. -/
theorem Accepted.dns_ok (h : Accepted cfg) {lib : NameLib} {net : ListenerLib} {address : GoString}
    {s : Server} (hfqdn : lib.fqdn cfg.domain = cfg.domain ++ [dot])
    (hs : Dns.new lib net (cfg.dns address) = .ok s) :
    s.Serves lib cfg.domain ∧ s.config.aRecords = cfg.aRecords ∧ s.config.serverIP = cfg.serverIP ∧
      s.config.subnet = cfg.subnet ∧ s.ttl = (cfg.dnsTTL / second).toNat := by
  have hlow : toLower (cfg.domain ++ [dot]) = cfg.domain ++ [dot] :=
    toLower_eq_self (validLabels_plain_dot h.domain_valid)
  have hdom : toLower (lib.fqdn (trimSpace (cfg.dns address).domain)) = cfg.domain ++ [dot] := by
    rw [show (cfg.dns address).domain = cfg.domain from rfl, validLabels_trimSpace h.domain_valid,
      hfqdn, hlow]
  obtain ⟨recs, hbuild, -, hrecs, -⟩ := new_ok hs
  have hserves : s.Serves lib cfg.domain := new_serves hs (by rw [hbuild]; exact hdom)
  rw [hdom] at hrecs
  have hsame : recs = cfg.aRecords := FinMap.ext_get fun k => Option.ext fun a => by
    rw [normalizeARecords_fixed h.domain_valid hrecs fun e he =>
      h.record (FinMap.mem_entries.1 he)]
    simp [BoxConfig.dns]
  rw [hbuild]
  exact ⟨hbuild ▸ hserves, hsame, rfl, h.subnet_masked.symm, rfl⟩

end

/-! ## A sample file -/

/-- The texts of `sampleFile`. -/
def sampleParsers : Parsers where
  addr v := List.lookup v [(str "10.0.0.1", .v4 0x0a000001), (str "10.0.0.10", .v4 0x0a00000a),
    (str "10.0.0.20", .v4 0x0a000014)]
  subnet v := List.lookup v [(str "10.0.0.0/24", ⟨.v4 0x0a000000, 24⟩)]
  duration v := List.lookup v [(str "1h", hour), (str "1m", minute)]

/-- A configuration file of the sample network. -/
def sampleFile : FileSettings where
  interface := str "eth0"
  serverIP := str "10.0.0.1"
  subnet := str "10.0.0.0/24"
  poolStart := str "10.0.0.10"
  poolEnd := str "10.0.0.20"
  router := []
  domain := str "lan"
  aRecords := .empty
  leaseDuration := str "1h"
  dnsTTL := str "1m"
  leaseFile := str "leases.json"
  upstream := []
  bootDirectory := str "boot"
  caDirectory := str "ca"
  acmeStateFile := []
  nfsError := none
  ldapError _ := none
  listenerError _ := none

/-- The configuration it describes. -/
def sampleAccepted : BoxConfig where
  serverIP := .v4 0x0a000001
  subnet := ⟨.v4 0x0a000000, 24⟩
  poolStart := .v4 0x0a00000a
  poolEnd := .v4 0x0a000014
  router := .invalid
  domain := str "lan"
  aRecords := FinMap.empty.set (str "ldap.lan.") (.v4 0x0a000001)
  leaseDuration := hour
  dnsTTL := minute
  leaseFile := str "leases.json"
  upstream := []

theorem sampleFile_config : sampleFile.config sampleParsers = .ok sampleAccepted := rfl

end InfraBox.Config
