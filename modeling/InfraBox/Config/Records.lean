import InfraBox.Config.Accepted
import InfraBox.Dns.Lookup

/-!
# Static records pass through every stage

A record of the configuration file is normalised by `config`, again by the DNS server, and once
more by the lease manager when it reserves the name. The stages are written apart, with length
limits and dot conventions of their own; here they are compared on what `config` accepts. Records
and hosts are also compared as functions of the written name (`normalizeHostname_eq_record`): a name
that is written for a host below the domain is the same name to both.
-/

namespace InfraBox

/-! ## Records and hosts -/

/-- What is left of `NormalizeARecord` once the name is split from its wildcard label. -/
theorem record_tail_cases {name d r : GoString} {wildcard : Bool}
    (hr : (if !validLabels (qualify name d) then []
      else if 253 < (if wildcard then star :: dot :: qualify name d else qualify name d).length
        then [] else (if wildcard then star :: dot :: qualify name d else qualify name d) ++ [dot])
      = r) (hne : r ≠ []) (hhost : ¬ [star, dot] <+: r) :
    wildcard = false ∧ validLabels (qualify name d) = true ∧ (qualify name d).length ≤ 253 ∧
      r = qualify name d ++ [dot] := by
  generalize hw : (if wildcard then star :: dot :: qualify name d else qualify name d) = w at hr
  split at hr
  · exact absurd hr.symm hne
  next hvalid =>
  split at hr
  · exact absurd hr.symm hne
  next hlen =>
  subst hr hw
  cases wildcard with
  | true => exact absurd ⟨qualify name d ++ [dot], rfl⟩ hhost
  | false => exact ⟨rfl, by simpa using hvalid, not_lt.1 hlen, rfl⟩

/-- A record without a wildcard is the apex or the written name, made relative to the domain. -/
theorem normalizeARecord_host {d s : GoString} (hd : validLabels d = true)
    (hne : normalizeARecord s d ≠ []) (hhost : ¬ [star, dot] <+: normalizeARecord s d) :
    normalizeARecord s d = d ++ [dot] ∨
      (validLabels (qualify (toLower (trimSuffix s [dot])) d) = true ∧
        (qualify (toLower (trimSuffix s [dot])) d).length ≤ 253 ∧
        normalizeARecord s d = qualify (toLower (trimSuffix s [dot])) d ++ [dot]) := by
  obtain ⟨-, hstar, hcut⟩ := validLabels_head hd
  generalize hr : normalizeARecord s d = r at hne hhost ⊢
  simp only [normalizeARecord, validLabels_trimSuffix hd, validLabels_toLower hd] at hr
  generalize toLower (trimSuffix s [dot]) = n at hr ⊢
  split at hr
  · exact absurd hr.symm hne
  obtain ⟨hw, hvalid, hlen, heq⟩ := record_tail_cases hr hne hhost
  by_cases hat : n = str "@"
  · -- `@` stands for the domain
    simp only [if_pos hat, if_neg hstar, cutPrefix, if_neg hcut,
      qualify_of_qualified (.inl rfl : d = d ∨ dot ∈ d)] at heq
    exact .inl heq
  by_cases hs : n = [star]
  · simp [hs, cutPrefix, show [star] ≠ str "@" by decide] at hw
  by_cases hpre : [star, dot] <+: n
  · simp [if_neg hat, if_neg hs, cutPrefix, if_pos hpre] at hw
  · simp only [if_neg hat, if_neg hs, cutPrefix, if_neg hpre] at hvalid hlen heq
    exact .inr ⟨hvalid, hlen, heq⟩

/-- The domain is not strictly below itself. -/
theorem not_below_self {d : GoString} : ¬ dot :: d ++ [dot] <:+ d ++ [dot] := by
  intro h
  have := h.length_le
  simp only [List.length_append, List.length_cons] at this
  omega

/-- A name that is a record of a host below the domain names the same host to a DHCP client. -/
theorem normalizeHostname_eq_record {d s : GoString} (hd : validDNSName d = true)
    (hbelow : dot :: d ++ [dot] <:+ normalizeARecord s d)
    (hhost : ¬ [star, dot] <+: normalizeARecord s d) :
    normalizeHostname s d = normalizeARecord s d := by
  have hne : normalizeARecord s d ≠ [] := by
    intro h0
    rw [h0] at hbelow
    simpa using hbelow.length_le
  rcases normalizeARecord_host (validLabels_of_validDNSName hd) hne hhost with
    heq | ⟨hvalid, hlen, heq⟩
  · exact absurd (heq ▸ hbelow) not_below_self
  rw [heq] at hbelow ⊢
  simp only [normalizeHostname, canonicalDomain_of_valid hd, hd, Bool.not_true, Bool.false_or]
  generalize toLower (trimSuffix s [dot]) = n at hvalid hlen hbelow ⊢
  have hbelow : dot :: d <:+ qualify n d := by
    obtain ⟨x, hx⟩ := hbelow
    rw [← List.append_assoc] at hx
    exact ⟨x, List.append_cancel_right hx⟩
  have hname : validDNSName (qualify n d) = true := by
    have := hbelow.length_le
    rw [List.length_cons] at this
    simp only [validDNSName, hvalid, Bool.and_true, Bool.not_eq_true', Bool.or_eq_false_iff,
      decide_eq_false_iff_not]
    omega
  by_cases hrel : n ≠ d ∧ dot ∉ n
  · -- a single label: both append the domain
    have hq : qualify n d = n ++ dot :: d := if_pos (by simpa using hrel)
    rw [hq] at hname hvalid hlen ⊢
    have hn : validDNSName n = true := by
      have hl := (validLabels_append.1 hvalid).1
      have : n ≠ [] := by
        rintro rfl
        exact absurd hl (by decide)
      have := List.length_pos_iff.2 this
      simp only [List.length_append, List.length_cons] at hlen
      simp only [validDNSName, hl, Bool.and_true, Bool.not_eq_true', Bool.or_eq_false_iff,
        decide_eq_false_iff_not]
      omega
    simp [hn, hrel.2, hname]
  · have hq : qualify n d = n := if_neg (by simpa using hrel)
    rw [hq] at hname hbelow ⊢
    have hdot : dot ∈ n := hbelow.subset (.head _)
    simp [hname, hdot, hbelow]

end InfraBox

namespace InfraBox.Config

open Leasing Dns

/-! ## What the file guarantees of its records -/

/-- A record that the DNS server accepts next to the names of its own. -/
structure Servable (d k : GoString) (a : Addr) : Prop where
  name : RecordName d k
  not_ns : k ≠ serviceName "ns" d
  not_gateway : k ≠ serviceName "gateway" d
  is4 : a.is4 = true
  unicast : a.isGlobalUnicast = true

/-- Every record the loop of `parseARecords` returns was there before or can be served. -/
theorem parseARecords_servable {p : Parsers} {d : GoString} (hd : validLabels d = true) :
    ∀ {entries : List (GoString × GoString)} {acc recs : FinMap GoString Addr},
      parseARecords p d entries acc = .ok recs →
      ∀ {k a}, recs.get k = some a → acc.get k = some a ∨ Servable d k a
  | [], acc, recs, h, k, a, hk => by cases h; exact .inl hk
  | (name, value) :: rest, acc, recs, h, k, a, hk => by
    simp only [parseARecords, bind_eq_ok, require_eq_ok, decide_eq_true_eq, Bool.not_eq_true',
      Bool.or_eq_false_iff, decide_eq_false_iff_not] at h
    obtain ⟨-, hne, -, ⟨hns, hgateway⟩, -, -, ip, hip, hrest⟩ := h
    rcases parseARecords_servable hd hrest hk with hacc | hok
    · rcases FinMap.get_set_eq_some.1 hacc with ⟨rfl, rfl⟩ | ⟨-, hacc⟩
      · have hname := (normalizeARecord_cases hd name).resolve_left hne
        exact .inr ⟨hname, hns, hgateway, (parseIPv4_ok hip).1, (parseIPv4_ok hip).2⟩
      · exact .inl hacc
    · exact .inr hok

/-- What else holds of an accepted configuration: its records can be served, and the lease manager
takes its pool and its lease time. -/
structure Usable (cfg : BoxConfig) : Prop where
  record : ∀ {k a}, cfg.aRecords.get k = some a → Servable cfg.domain k a
  pool_ordered : cfg.poolStart ≤ cfg.poolEnd
  leaseDuration_pos : 0 < cfg.leaseDuration

theorem serviceName_inj {l l' : String} {d : GoString} (h : serviceName l d = serviceName l' d) :
    str l = str l' := by
  simpa [serviceName] using h

/-- What is checked of the network and the names. -/
theorem FileSettings.config_usable {p : Parsers} {f : FileSettings} {cfg : BoxConfig}
    (h : f.config p = .ok cfg) : Usable cfg := by
  have hacc := FileSettings.config_ok h
  simp only [FileSettings.config, bind_eq_ok, require_eq_ok, report_eq_ok] at h
  obtain ⟨-, -, network, hnet, ⟨d, recs⟩, hnames, ⟨lease, ttl⟩, hdur, -, -, -, -, -, -, -, -, -, -,
    -, -, -, -, hcfg⟩ := h
  cases hcfg
  refine ⟨fun {k a} hk => ?_, ?_, ?_⟩
  · simp only [FileSettings.names, bind_eq_ok, require_eq_ok] at hnames
    obtain ⟨-, -, u, hdom, recs', hrecs, heq⟩ := hnames
    cases heq
    rcases FinMap.get_set_eq_some.1 hk with ⟨rfl, rfl⟩ | ⟨-, hk⟩
    · -- the record that `config` adds for the LDAP service
      simp only [FileSettings.network, bind_eq_ok] at hnet
      obtain ⟨serverIP, hserver, _, -, _, -, _, -, _, -, _, -, _, -, _, -, hn⟩ := hnet
      cases hn
      exact ⟨hacc.record hk, fun h => absurd (serviceName_inj h) (by decide),
        fun h => absurd (serviceName_inj h) (by decide), (parseIPv4_ok hserver).1,
        (parseIPv4_ok hserver).2⟩
    · exact (parseARecords_servable hacc.domain_valid hrecs hk).resolve_left (by simp)
  · simp only [FileSettings.network, bind_eq_ok, require_eq_ok] at hnet
    obtain ⟨serverIP, -, _, -, _, -, _, -, poolStart, -, poolEnd, -, _, -, _, hvalid, hn⟩ := hnet
    cases hn
    simp only [Network.validate, bind_eq_ok, require_eq_ok, decide_eq_true_eq] at hvalid
    obtain ⟨_, -, _, -, _, -, _, -, _, hordered, -⟩ := hvalid
    exact hordered
  · simp only [FileSettings.durations, validateDuration, bind_eq_ok, require_eq_ok,
      Bool.and_eq_true, decide_eq_true_eq] at hdur
    obtain ⟨_, -, _, -, _, ⟨_, ⟨hmin, -⟩, -⟩, _, -, heq⟩ := hdur
    cases heq
    exact lt_of_lt_of_le (by decide : (0 : Int) < minute) hmin

/-! ## The DNS server -/

/-- The DNS server takes the configured domain: with its final dot it has at most 243 bytes. -/
theorem Accepted.validDomain {cfg : BoxConfig} (h : Accepted cfg) :
    Dns.validDomain (cfg.domain ++ [dot]) = true := by
  have hne : cfg.domain ≠ [] := by
    intro h0
    exact absurd (h0 ▸ h.domain_valid) (by decide)
  have := List.length_pos_iff.2 hne
  have := h.domain_length
  have hroot : cfg.domain ++ [dot] ≠ [dot] := fun heq => hne (by simpa using heq)
  simp only [Dns.validDomain, trimSuffix_append, h.domain_valid, Bool.and_true, Bool.not_eq_true',
    Bool.or_eq_false_iff, decide_eq_false_iff_not, List.length_append, List.length_singleton]
  exact ⟨by omega, hroot⟩

/-- `normalizeARecords` accepts servable records with distinct names. -/
theorem normalizeARecords_accepts {d : GoString} (hd : validLabels d = true) :
    ∀ {entries : List (GoString × Addr)} (acc : FinMap GoString Addr),
      (∀ e ∈ entries, Servable d e.1 e.2) → (entries.map Prod.fst).Nodup →
      (∀ e ∈ entries, acc.get e.1 = none) →
      ∃ recs, normalizeARecords (d ++ [dot]) entries acc = .ok recs
  | [], acc, _, _, _ => ⟨acc, rfl⟩
  | (name, ip) :: rest, acc, hs, hnd, hfresh => by
    obtain ⟨hok, hs⟩ := List.forall_mem_cons.1 hs
    obtain ⟨hnew, hfresh⟩ := List.forall_mem_cons.1 hfresh
    rw [List.map_cons, List.nodup_cons] at hnd
    have hne : name ≠ [] := by
      obtain ⟨n, -, -, hr⟩ := hok.name.host
      rcases hr with rfl | rfl <;> simp
    have hns : name ≠ str "ns." ++ (d ++ [dot]) := hok.not_ns
    have hgateway : name ≠ str "gateway." ++ (d ++ [dot]) := hok.not_gateway
    obtain ⟨recs, hrecs⟩ := normalizeARecords_accepts hd (acc.set name ip) hs hnd.2
      fun e he => by
        have hne : e.1 ≠ name := fun heq => hnd.1 (List.mem_map.2 ⟨e, he, heq⟩)
        rw [FinMap.get_set_ne _ _ hne]
        exact hfresh e he
    refine ⟨recs, ?_⟩
    simp only [normalizeARecords, normalizeARecord_dot hd, hok.name.normalize hd, hne, hns,
      hgateway, hnew, hok.is4, hok.unicast]
    simpa using hrecs

/-- The records come out of `normalizeARecords` as they went in, in every order of iteration. -/
theorem Accepted.normalizeARecords_eq {cfg : BoxConfig} (h : Accepted cfg) (hu : Usable cfg)
    {entries : List (GoString × Addr)} (hp : entries.Perm cfg.aRecords.entries) :
    normalizeARecords (cfg.domain ++ [dot]) entries .empty = .ok cfg.aRecords := by
  have hmem : ∀ {k a}, (k, a) ∈ entries ↔ cfg.aRecords.get k = some a := fun {k a} => by
    rw [hp.mem_iff, FinMap.mem_entries]
  have hnd : (entries.map Prod.fst).Nodup := by
    rw [(hp.map _).nodup_iff, FinMap.map_fst_entries]
    exact cfg.aRecords.sorted.nodup
  obtain ⟨recs, hrecs⟩ := normalizeARecords_accepts h.domain_valid .empty
    (fun e he => hu.record (hmem.1 he)) hnd fun e _ => FinMap.get_empty _
  rw [hrecs]
  congr 1
  refine FinMap.ext_get fun k => Option.ext fun a => ?_
  rw [normalizeARecords_fixed h.domain_valid hrecs fun e he => h.record (hmem.1 he), hmem]
  simp

/-! ## The lease manager -/

/-- Host names under the domain are reserved as they are. -/
theorem canonicalReserved_hostnames {d : GoString} (hd : validDNSName d = true) :
    ∀ {names : List GoString}, (∀ n ∈ names, HostnameUnder d n) →
      canonicalReserved d names = .ok names
  | [], _ => rfl
  | name :: names, h => by
    obtain ⟨hname, hnames⟩ := List.forall_mem_cons.1 h
    obtain ⟨n, rfl, hn, hbelow⟩ := id hname
    have hplain := validLabels_plain_dot (validLabels_of_validDNSName hn)
    have hascii : ¬ (runes (n ++ [dot])).any (fun c => 0x80 ≤ c) = true := by
      rw [runes_of_ascii fun b hb => (hplain b hb).1]
      simp only [List.any_map, List.any_eq_true, Function.comp_apply, decide_eq_true_eq,
        not_exists, not_and, not_le]
      exact fun b hb => UInt8.lt_iff_toNat_lt.1 (hplain b hb).1
    have hapex : n ≠ d := by
      rintro rfl
      have := hbelow.length_le
      rw [List.length_cons] at this
      omega
    simp only [canonicalReserved, if_neg hascii, hname.normalize hd, toLower_eq_self hplain,
      trimSuffix_append, hname.ne_nil, hapex, or_self, if_false,
      canonicalReserved_hostnames hd hnames]

/-- A configuration with an ordered pool, a domain, a lease time and reservable names is taken. -/
theorem configure_accepts {cfg : Leasing.Config} {reserved : List GoString}
    (hpool : cfg.poolStart.unmap.is4 = true ∧ cfg.poolEnd.unmap.is4 = true ∧
      cfg.poolStart.unmap ≤ cfg.poolEnd.unmap)
    (hdomain : validDNSName (canonicalDomain cfg.domain) = true) (hlease : 0 < cfg.leaseDuration)
    (hdur : 0 ≤ cfg.offerDuration ∧ 0 ≤ cfg.declineDuration)
    (hres : canonicalReserved (canonicalDomain cfg.domain) cfg.reservedNames = .ok reserved) :
    ∃ settings, configure cfg = .ok settings := by
  simp only [configure]
  rw [dif_pos hpool, dif_pos hdomain, dif_pos hlease, dif_pos hdur]
  split
  · next e he => rw [hres] at he; cases he
  · exact ⟨_, rfl⟩

theorem mem_reservedNames {cfg : BoxConfig} {n : GoString} :
    n ∈ cfg.reservedNames ↔ (cfg.aRecords.get n).isSome ∧
      dot :: cfg.domain ++ [dot] <:+ n ∧ ¬ [star, dot] <+: n := by
  simp [BoxConfig.reservedNames, List.mem_filter, FinMap.mem_keys]

/-- Every name that `newLeaseManager` reserves is a host name under the domain. -/
theorem Accepted.reserved_hostname {cfg : BoxConfig} (h : Accepted cfg) :
    ∀ n ∈ cfg.reservedNames, HostnameUnder cfg.domain n := fun n hn => by
  obtain ⟨hkey, hbelow, hstar⟩ := mem_reservedNames.1 hn
  obtain ⟨a, ha⟩ := Option.isSome_iff_exists.1 hkey
  exact hostname_of_record (h.record ha) hbelow hstar

/-- The lease manager of an accepted configuration is built, and reserves the exact records below
the domain and the two names of the server. -/
theorem Accepted.leases_configure {cfg : BoxConfig} (h : Accepted cfg) (hu : Usable cfg) :
    ∃ settings, configure cfg.leases = .ok settings ∧
      settings.reservedNames = serviceName "ns" cfg.domain :: serviceName "gateway" cfg.domain ::
        cfg.reservedNames := by
  have hcanon : canonicalDomain cfg.leases.domain = cfg.domain :=
    canonicalDomain_of_valid h.domain_validDNSName
  have hres : canonicalReserved (canonicalDomain cfg.leases.domain) cfg.leases.reservedNames =
      .ok cfg.reservedNames := by
    rw [hcanon]
    exact canonicalReserved_hostnames h.domain_validDNSName h.reserved_hostname
  have hpool : cfg.leases.poolStart.unmap.is4 = true ∧ cfg.leases.poolEnd.unmap.is4 = true ∧
      cfg.leases.poolStart.unmap ≤ cfg.leases.poolEnd.unmap := by
    obtain ⟨a, ha⟩ := Addr.is4_iff.1 h.pool_is4.1
    obtain ⟨b, hb⟩ := Addr.is4_iff.1 h.pool_is4.2
    have hordered := hu.pool_ordered
    rw [ha, hb] at hordered
    rw [show cfg.leases.poolStart = _ from ha, show cfg.leases.poolEnd = _ from hb, Addr.unmap_v4,
      Addr.unmap_v4]
    exact ⟨rfl, rfl, hordered⟩
  obtain ⟨settings, hset⟩ := configure_accepts hpool (hcanon ▸ h.domain_validDNSName)
    hu.leaseDuration_pos ⟨le_rfl, le_rfl⟩ hres
  refine ⟨settings, hset, ?_⟩
  obtain ⟨-, -, hdom, -, reserved, hreserved, hnames⟩ := configure_ok hset
  rw [hdom, hres] at hreserved
  cases hreserved
  rw [hnames, hdom, hcanon]

/-! ## The stages together -/

/-- The stages agree on static records. For an accepted file, every record is its own normal form,
which the DNS server accepts and leaves unchanged in whatever order; the lease manager reserves
exactly the records of hosts below the domain and the names `ns` and `gateway`; and a written name
of such a record is the same name to a DHCP client. -/
theorem static_records_agree {p : Parsers} {f : FileSettings} {cfg : BoxConfig} {lib : NameLib}
    (hfqdn : ∀ s, validLabels s = true → lib.fqdn s = s ++ [dot]) (h : f.config p = .ok cfg) :
    (∀ k a, cfg.aRecords.get k = some a → normalizeARecord k cfg.domain = k) ∧
    (∀ entries, entries.Perm cfg.aRecords.entries →
      normalizeARecords (toLower (lib.fqdn (trimSpace cfg.domain))) entries .empty =
        .ok cfg.aRecords) ∧
    Dns.validDomain (toLower (lib.fqdn (trimSpace cfg.domain))) = true ∧
    (∃ settings, configure cfg.leases = .ok settings ∧
      ∀ n, n ∈ settings.reservedNames ↔
        n = serviceName "ns" cfg.domain ∨ n = serviceName "gateway" cfg.domain ∨
        ((cfg.aRecords.get n).isSome ∧ dot :: cfg.domain ++ [dot] <:+ n ∧
          ¬ [star, dot] <+: n)) ∧
    ∀ s, dot :: cfg.domain ++ [dot] <:+ normalizeARecord s cfg.domain →
      ¬ [star, dot] <+: normalizeARecord s cfg.domain →
      normalizeHostname s cfg.domain = normalizeARecord s cfg.domain := by
  have hacc := FileSettings.config_ok h
  have hu := FileSettings.config_usable h
  have hdom : toLower (lib.fqdn (trimSpace cfg.domain)) = cfg.domain ++ [dot] := by
    rw [validLabels_trimSpace hacc.domain_valid, hfqdn _ hacc.domain_valid]
    exact toLower_eq_self (validLabels_plain_dot hacc.domain_valid)
  rw [hdom]
  refine ⟨fun k a hk => (hacc.record hk).normalize hacc.domain_valid,
    fun entries hp => hacc.normalizeARecords_eq hu hp, hacc.validDomain, ?_,
    fun s => normalizeHostname_eq_record hacc.domain_validDNSName⟩
  obtain ⟨settings, hset, hnames⟩ := hacc.leases_configure hu
  refine ⟨settings, hset, fun n => ?_⟩
  rw [hnames, List.mem_cons, List.mem_cons, mem_reservedNames]

/-- A host, a wildcard and a name outside the domain. -/
def recordsFile : FileSettings := { sampleFile with
  aRecords := ((FinMap.empty.set (str "Printer") (str "10.0.0.1")).set (str "*.apps.lan")
    (str "10.0.0.10")).set (str "mirror.example.org.") (str "10.0.0.20") }

/-- The configuration of the file. -/
def recordsAccepted : BoxConfig := { sampleAccepted with
  aRecords := (((FinMap.empty.set (str "*.apps.lan.") (.v4 0x0a00000a)).set (str "printer.lan.")
    (.v4 0x0a000001)).set (str "mirror.example.org.") (.v4 0x0a000014)).set (str "ldap.lan.")
    (.v4 0x0a000001) }

theorem recordsFile_config : recordsFile.config sampleParsers = .ok recordsAccepted := rfl

/-- The DNS server keeps the records in another order too, and of the names only the host's is
reserved. -/
theorem static_records_agree_sample :
    recordsFile.config sampleParsers = .ok recordsAccepted ∧
    normalizeARecords (str "lan.") recordsAccepted.aRecords.entries.reverse .empty =
      .ok recordsAccepted.aRecords ∧
    (∃ settings, configure recordsAccepted.leases = .ok settings ∧
      str "printer.lan." ∈ settings.reservedNames ∧ str "*.apps.lan." ∉ settings.reservedNames ∧
      str "mirror.example.org." ∉ settings.reservedNames) ∧
    normalizeHostname (str "Printer") (str "lan") = str "printer.lan." := by
  have hfqdn : ∀ s, validLabels s = true → referenceLib.fqdn s = s ++ [dot] := fun _ hs =>
    if_neg (validLabels_not_dot_suffix hs)
  obtain ⟨-, hrecords, -, ⟨settings, hset, hnames⟩, hhost⟩ := static_records_agree hfqdn
    recordsFile_config
  refine ⟨recordsFile_config, hrecords _ (List.reverse_perm _), ⟨settings, hset, ?_⟩,
    hhost (str "Printer") (by decide +kernel) (by decide +kernel)⟩
  simp only [hnames]
  decide +kernel

end InfraBox.Config
