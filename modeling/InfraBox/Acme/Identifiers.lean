import InfraBox.Acme.Issuance
import InfraBox.Config.Settings
import InfraBox.Lib.Bytes
import InfraBox.Pki.Names

/-!
# Which names can be certified

`Validator.Lookup` (`internal/acmevalidate/validator.go`) and its agreement with the other two
checks of a name, `allowedName` of the ACME server and `certificateName` of the authority. Each is
an instance of one policy, stated without reference to how it is tested: a host below the domain
(`LocalHost`) that is not one of the server's own. Only the validator and the authority also refuse
the name of the LDAP service and the texts of addresses.

`netip.ParseAddr` is a parameter, as for the authority, and so is the registry of leases.
-/

namespace InfraBox

/-! ## Case of ASCII letters only -/

/-- `strings.Map` with a function that drops no rune. An ill-formed byte is visited, and written
back, as U+FFFD. -/
def mapRunes (f : Nat → Nat) (s : GoString) : GoString :=
  (runes s).flatMap fun r => encodeRune (f r)

/-- The function `canonicalName` maps over a name. -/
def lowerAsciiRune (r : Nat) : Nat := if 'A'.toNat ≤ r && r ≤ 'Z'.toNat then r + 32 else r

/-- Runes above 127 have no ASCII encoding. -/
theorem isAscii_encodeRune {r : Nat} (h : IsAscii (encodeRune r)) : r < 0x80 := by
  by_contra hr
  -- the last byte of the encoding is a continuation byte
  have hlast : UInt8.ofNat (0x80 + r % 64) ∈ encodeRune r := by
    unfold encodeRune
    rw [if_neg hr]
    split
    · simp
    split <;> simp
  have := UInt8.lt_iff_toNat_lt.1 (h _ hlast)
  simp only [UInt8.toNat_ofNat', UInt8.reduceToNat] at this
  omega

/-- A string that becomes ASCII by mapping ASCII letters was ASCII. -/
theorem isAscii_of_mapRunes {s : GoString} (h : IsAscii (mapRunes lowerAsciiRune s)) :
    IsAscii s := by
  refine isAscii_of_runes fun r hr => ?_
  have hlow := isAscii_encodeRune fun b hb => h b (List.mem_flatMap.2 ⟨r, hr, hb⟩)
  unfold lowerAsciiRune at hlow
  split at hlow <;> omega

/-- On an ASCII string it is `strings.ToLower`. -/
theorem mapRunes_eq_toLower {s : GoString} (h : IsAscii s) :
    mapRunes lowerAsciiRune s = toLower s := by
  have htable : ∀ n : Fin 128, encodeRune (lowerAsciiRune n) = [lowerByte (UInt8.ofNat n)] := by
    decide
  have hbyte : ∀ b : UInt8, b < 0x80 → encodeRune (lowerAsciiRune b.toNat) = [lowerByte b] :=
    fun b hb => by
      have := htable ⟨b.toNat, UInt8.lt_iff_toNat_lt.1 hb⟩
      rwa [UInt8.ofNat_toNat] at this
  rw [mapRunes, toLower, if_pos h, runes_of_ascii h, List.flatMap_map]
  induction s with
  | nil => rfl
  | cons b s ih =>
    rw [isAscii_cons] at h
    rw [List.flatMap_cons, List.map_cons, ih h.2, hbyte b h.1]
    rfl

theorem isAscii_of_trimSuffix {s : GoString} (h : IsAscii (trimSuffix s [dot])) : IsAscii s := by
  unfold trimSuffix at h
  split at h
  · next hs =>
    obtain ⟨x, rfl⟩ := hs
    refine isAscii_append.2 ⟨by simpa using h, by decide⟩
  · exact h

end InfraBox

namespace InfraBox.Acme

open Leasing

/-! ## The validator -/

/-- `acmevalidate.canonicalName`. -/
def canonicalName (name : GoString) : GoString := mapRunes lowerAsciiRune (trimSuffix name [dot])

/-- The fields of `Validator` that `Lookup` reads. -/
structure Validator where
  domain : GoString
  subnet : Prefix
  broadcast : Addr
deriving DecidableEq

/-- The broadcast address of `acmevalidate.New`, made from the four bytes of the network address. -/
def validatorBroadcast (subnet : Prefix) : Addr :=
  match subnet.addr with
  | .v4 a =>
    let network := putUint32 (.ofBitVec a)
    let broadcast := putUint32 (uint32 network ||| .ofBitVec (BitVec.allOnes 32 >>> subnet.bits))
    .from4 (broadcast.map UInt8.toNat)
  | _ => .invalid

/-- `acmevalidate.New`, with a registry. -/
def newValidator (domain : GoString) (subnet : Prefix) : Except String Validator :=
  let domain := canonicalName domain
  if !validDNSName domain then .error "ACME validation domain must be a valid DNS name"
  else if !subnet.isValid || !subnet.addr.is4 || 30 < subnet.bits || subnet ≠ subnet.masked then
    .error "ACME validation subnet must be a canonical IPv4 network with usable host addresses"
  else .ok ⟨domain, subnet, validatorBroadcast subnet⟩

section
variable (v : Validator) (parseAddr : GoString → Option Addr)

/-- The checks of `Lookup` on the canonical name, before the registry is asked. -/
def Validator.checkIdentifier (name : GoString) : Except String Unit :=
  if !validDNSName name || !decide (dot :: v.domain <:+ name) then
    .error "ACME identifier rejected: name must be a DNS hostname beneath the domain"
  else if (parseAddr name).isSome || name = str "gateway." ++ v.domain ||
      name = str "ns." ++ v.domain || name = str "ldap." ++ v.domain then
    .error "ACME identifier rejected: reserved hostname or IP literal"
  else .ok ()

/-- `Validator.Lookup`; `registry` is `LookupName` and `now` the clock reading. -/
def Validator.lookup (registry : GoString → Option Lease) (now : Int) (name : GoString) :
    Except String Target :=
  let name := canonicalName name
  match v.checkIdentifier parseAddr name with
  | .error e => .error e
  | .ok () =>
    match registry name with
    | none => .error "ACME identifier rejected: hostname has no active committed DHCP lease"
    | some current =>
      if current.clientID = [] || current.expiresAt ≤ now ||
          canonicalName current.hostname ≠ name then
        .error "ACME identifier rejected: hostname has no active committed DHCP lease"
      else if !current.ip.is4 || (!current.ip.isGlobalUnicast && !current.ip.isLoopback) ||
          !v.subnet.contains current.ip || current.ip = v.subnet.addr ||
          current.ip = v.broadcast then
        .error "ACME identifier rejected: leased address is not a usable IPv4 host in the subnet"
      else .ok ⟨current.ip, current.clientID⟩

end

/-! ## The policy -/

/-- A host below the domain that is neither the gateway nor the name server. -/
structure LocalHost (d n : GoString) : Prop where
  valid : validDNSName n = true
  below : dot :: d <:+ n
  not_gateway : n ≠ str "gateway." ++ d
  not_ns : n ≠ str "ns." ++ d

theorem LocalHost.not_apex {d n : GoString} (h : LocalHost d n) : n ≠ d := by
  rintro rfl
  have := h.below.length_le
  rw [List.length_cons] at this
  omega

theorem LocalHost.no_star {d n : GoString} (h : LocalHost d n) : star ∉ n := fun hmem => by
  rcases validLabels_bytes (validLabels_of_validDNSName h.valid) star hmem with heq | hbyte
  · exact absurd heq (by decide)
  · exact absurd hbyte (by decide)

/-- What each check requires of the written name: it is ASCII, and in lower case and without its
final dot it is below the domain, no wildcard, and none of the apex, the name server and the
gateway. -/
structure Eligible (d name : GoString) : Prop where
  ascii : IsAscii name
  below : dot :: d <:+ toLower (trimSuffix name [dot])
  not_apex : toLower (trimSuffix name [dot]) ≠ d
  not_ns : toLower (trimSuffix name [dot]) ≠ str "ns." ++ d
  not_gateway : toLower (trimSuffix name [dot]) ≠ str "gateway." ++ d
  no_wildcard : star ∉ toLower (trimSuffix name [dot])

theorem LocalHost.eligible {d name : GoString} (h : LocalHost d (toLower (trimSuffix name [dot])))
    (ha : IsAscii name) : Eligible d name :=
  ⟨ha, h.below, h.not_apex, h.not_ns, h.not_gateway, h.no_star⟩

section
variable {d : GoString}

/-- `allowedName` accepts exactly the local hosts. -/
theorem allowedName_iff {cfg : Config} (hd : validDNSName d = true) (hcfg : cfg.domain = d)
    {n : GoString} : cfg.allowedName n = true ↔ LocalHost d n := by
  simp only [Config.allowedName, hcfg, Bool.and_eq_true, Bool.not_eq_true', decide_eq_true_eq]
  constructor
  · rintro ⟨⟨⟨⟨-, hdot⟩, hcanon⟩, hgateway⟩, hns⟩
    obtain ⟨hvalid, hbelow⟩ :=
      (trimSuffix_normalizeHostname hd (List.ne_nil_of_mem hdot)).1 hcanon.symm
    exact ⟨hvalid, hbelow, hgateway, hns⟩
  · intro h
    have hdot : dot ∈ n := h.below.subset (.head _)
    have hcanon :=
      (trimSuffix_normalizeHostname hd (List.ne_nil_of_mem hdot)).2 ⟨h.valid, h.below⟩
    have hascii := validLabels_ascii (validLabels_of_validDNSName h.valid)
    refine ⟨⟨⟨⟨?_, hdot⟩, hcanon.symm⟩, h.not_gateway⟩, h.not_ns⟩
    exact Bool.eq_false_iff.2 fun hany => any_runes_high.1 hany hascii

/-- A valid name is its own canonical form. -/
theorem canonicalName_valid {n : GoString} (hn : validDNSName n = true) : canonicalName n = n := by
  have hl := validLabels_of_validDNSName hn
  rw [canonicalName, validLabels_trimSuffix hl, mapRunes_eq_toLower (validLabels_ascii hl),
    validLabels_toLower hl]

/-- A local host is written in lower case and without a final dot. -/
theorem LocalHost.canonical {n : GoString} (h : LocalHost d n) :
    toLower (trimSuffix n [dot]) = n ∧ canonicalName n = n := by
  have hl := validLabels_of_validDNSName h.valid
  exact ⟨by rw [validLabels_trimSuffix hl, validLabels_toLower hl], canonicalName_valid h.valid⟩

theorem Signable.localHost {parseAddr : GoString → Option Addr} {n : GoString}
    (h : Pki.Signable parseAddr d n) : LocalHost d n :=
  ⟨h.valid, h.below, h.not_gateway, h.not_ns⟩

variable {v : Validator} {subnet : Prefix} {parseAddr : GoString → Option Addr}

theorem newValidator_ok (h : newValidator d subnet = .ok v) :
    v = ⟨canonicalName d, subnet, validatorBroadcast subnet⟩ := by
  simp only [newValidator] at h
  split at h
  · cases h
  split at h
  · cases h
  · exact (Except.ok.inj h).symm

theorem newValidator_domain (hd : validDNSName d = true) (h : newValidator d subnet = .ok v) :
    v.domain = d := by
  rw [newValidator_ok h, canonicalName_valid hd]

/-- The identifier checks of `Lookup` accept exactly the names that are signed. -/
theorem checkIdentifier_iff (hv : v.domain = d) {n : GoString} :
    v.checkIdentifier parseAddr n = .ok () ↔ Pki.Signable parseAddr d n := by
  unfold Validator.checkIdentifier
  rw [hv]
  constructor
  · intro h
    split at h
    · cases h
    next hname =>
    split at h
    · cases h
    next hreserved =>
    simp only [Bool.or_eq_true, Bool.not_eq_true', decide_eq_false_iff_not, not_or, not_not,
      Bool.not_eq_false] at hname
    simp only [Bool.or_eq_true, decide_eq_true_eq, not_or, Bool.not_eq_true,
      Option.isSome_eq_false_iff, Option.isNone_iff_eq_none] at hreserved
    obtain ⟨⟨⟨haddr, hgateway⟩, hns⟩, hldap⟩ := hreserved
    exact ⟨hname.1, hname.2, hgateway, hns, hldap, haddr⟩
  · intro h
    simp [h.valid, h.below, h.not_address, h.not_gateway, h.not_ns, h.not_ldap]

/-- What `Lookup` has checked of the name when it succeeds. -/
theorem lookup_ok (hv : v.domain = d) {registry : GoString → Option Lease} {now : Int}
    {name : GoString} {t : Target} (h : v.lookup parseAddr registry now name = .ok t) :
    IsAscii name ∧ canonicalName name = toLower (trimSuffix name [dot]) ∧
      Pki.Signable parseAddr d (canonicalName name) := by
  unfold Validator.lookup at h
  dsimp only at h
  split at h
  · cases h
  next hcheck =>
  have hs := (checkIdentifier_iff hv).1 hcheck
  have hascii : IsAscii (trimSuffix name [dot]) :=
    isAscii_of_mapRunes (validLabels_ascii (validLabels_of_validDNSName hs.valid))
  exact ⟨isAscii_of_trimSuffix hascii, mapRunes_eq_toLower hascii, hs⟩

end

/-! ## Orders -/

/-- Every name that `finalize` signs was found by `Lookup`. -/
theorem authorizedNames_lookup {st : State} {env : Env} : ∀ {authIDs names : List GoString}
    {i : Nat}, authorizedNames st env authIDs i = some names →
      ∀ n ∈ names, ∃ j t, env.lookup j n = some t
  | [], _, _, h, n, hn => by cases h; cases hn
  | authID :: rest, names, i, h, n, hn => by
    obtain ⟨-, -, hlookup, others, hrest, rfl⟩ := authorizedNames_cons h
    rcases List.mem_cons.1 hn with rfl | hn
    · exact ⟨i, _, hlookup⟩
    · exact authorizedNames_lookup hrest n hn

/-! ## Agreement -/

/-- The three checks of a name agree, for one domain. A name that `Lookup` finds is, in canonical
form, a host name of the domain that the server allows and the authority signs; so whenever
`finalize` asks for a signature, the authority accepts its names. A name the authority signs is
allowed and passes the checks of `Lookup`. And what any of the three accepts is eligible. -/
theorem identifier_policy_agrees {d : GoString} {subnet : Prefix} {v : Validator}
    {m : Pki.Manager} (cfg : Config) (parseAddr : GoString → Option Addr)
    (hd : validDNSName d = true) (hcfg : cfg.domain = d) (hv : newValidator d subnet = .ok v)
    (hm : Pki.openNames d = .ok m) :
    (∀ registry now name t, v.lookup parseAddr registry now name = .ok t →
      cfg.allowedName (canonicalName name) = true ∧
      m.certificateName parseAddr (canonicalName name) = canonicalName name ∧
      normalizeHostname (canonicalName name) d = canonicalName name ++ [dot]) ∧
    (∀ (crypto : Crypto) (codec : Codec crypto) start tr (p : Process crypto) srv env signed
        accountID id s, Run (Step cfg codec) (.initial start) tr p → p.server = some srv →
      prepareSigning cfg codec srv env signed accountID id = .ok s →
      (∀ i n t, env.lookup i n = some t →
        ∃ registry now, v.lookup parseAddr registry now n = .ok t) →
      (∃ authorized, m.authorizedSet parseAddr s.names [] = .ok authorized) ∧
      ∀ csr : Pki.CertificateRequest, csr.dnsNames.Perm s.names → csr.commonNames = [] →
        m.csrNames parseAddr csr s.names = .ok (csr.dnsNames.mergeSort fun a b => a ≤ b)) ∧
    (∀ n, m.certificateName parseAddr n ≠ [] →
      cfg.allowedName (m.certificateName parseAddr n) = true ∧
      v.checkIdentifier parseAddr (canonicalName (m.certificateName parseAddr n)) = .ok ()) ∧
    (∀ registry now name t, v.lookup parseAddr registry now name = .ok t → Eligible d name) ∧
    (∀ n, cfg.allowedName n = true → Eligible d n) ∧
    ∀ n, m.certificateName parseAddr n ≠ [] → Eligible d n := by
  have hdom := newValidator_domain hd hv
  have hserves := Pki.openNames_serves hd hm
  refine ⟨fun registry now name t h => ?_, ?_, fun n hn => ?_, fun registry now name t h => ?_,
    fun n hn => ?_, fun n hn => ?_⟩
  · obtain ⟨-, -, hs⟩ := lookup_ok hdom h
    exact ⟨(allowedName_iff hd hcfg).2 (Signable.localHost hs), hs.certificateName_eq hserves hd,
      normalizeHostname_below hd hs.valid hs.below⟩
  · intro crypto codec start tr p srv env signed accountID id s hrun hsrv hsign hlookup
    obtain ⟨ho, -, -, -, -, -, -, hnames⟩ := prepareSigning_ok codec hsign
    have hl := ((Process.inv_of_run hrun).sound _ (.memory hsrv)).inv.linked.order id s.order ho
    have heq : s.names = s.order.identifiers.map Identifier.value :=
      (authorizedNames_some hnames).1.trans hl.names_eq
    have hsignable : ∀ n ∈ s.names, Pki.Signable parseAddr d n := fun n hn => by
      obtain ⟨i, t, ht⟩ := authorizedNames_lookup hnames n hn
      obtain ⟨registry, now, hok⟩ := hlookup i n t ht
      obtain ⟨x, hx, rfl⟩ := List.mem_map.1 (heq ▸ hn)
      have hlocal := (allowedName_iff hd hcfg).1 (hl.names x hx).2
      exact hlocal.canonical.2 ▸ (lookup_ok hdom hok).2.2
    have hnd : s.names.Nodup := heq ▸ hl.distinct
    have hpos : s.names ≠ [] := by
      rw [heq, Ne, List.map_eq_nil_iff]
      exact hl.some_name
    have hlen : s.names.length ≤ 100 := by
      rw [heq, List.length_map]
      exact hl.few_names.trans (by decide)
    exact ⟨⟨_, hserves.authorizedSet_eq hd hsignable hnd⟩,
      fun csr hperm hcn => hserves.csrNames_eq hd hsignable hnd hpos hlen hperm hcn⟩
  · obtain ⟨-, -, hs⟩ := (hserves.certificateName_cases hd n).resolve_left hn
    have hlocal := Signable.localHost hs
    refine ⟨(allowedName_iff hd hcfg).2 hlocal, ?_⟩
    rw [hlocal.canonical.2]
    exact (checkIdentifier_iff hdom).2 hs
  · obtain ⟨hascii, hcanon, hs⟩ := lookup_ok hdom h
    exact LocalHost.eligible (hcanon ▸ Signable.localHost hs) hascii
  · have hlocal := (allowedName_iff hd hcfg).1 hn
    exact LocalHost.eligible (hlocal.canonical.1.symm ▸ hlocal)
      (validLabels_ascii (validLabels_of_validDNSName hlocal.valid))
  · obtain ⟨hascii, hcanon, hs⟩ := (hserves.certificateName_cases hd n).resolve_left hn
    exact LocalHost.eligible (hcanon ▸ Signable.localHost hs) hascii

/-- The registry of a network with one host, and the components of its domain. -/
theorem identifier_policy_agrees_sample :
    let registry : GoString → Option Lease := fun n =>
      if n = str "pc.lan" then some ⟨str "client", .v4 0x0a00000a, str "pc.lan.", 10⟩ else none
    let subnet : Prefix := ⟨.v4 0x0a000000, 24⟩
    let v : Validator := ⟨str "lan", subnet, .v4 0x0a0000ff⟩
    let m : Pki.Manager := ⟨str "lan", str "gateway.lan"⟩
    v.lookup (fun _ => none) registry 5 (str "PC.lan.") =
        .ok ⟨.v4 0x0a00000a, str "client"⟩ ∧
      m.certificateName (fun _ => none) (canonicalName (str "PC.lan.")) = str "pc.lan" := by
  intro registry subnet v m
  have hv : newValidator (str "lan") subnet = .ok v := by decide +kernel
  have hm : Pki.openNames (str "lan") = .ok m := rfl
  have hlookup : v.lookup (fun _ => none) registry 5 (str "PC.lan.") =
      .ok ⟨.v4 0x0a00000a, str "client"⟩ := by decide +kernel
  have hagree := identifier_policy_agrees ⟨[], str "lan", []⟩ (fun _ => none) (by decide) rfl hv hm
  exact ⟨hlookup, (hagree.1 registry 5 (str "PC.lan.") _ hlookup).2.1⟩

end InfraBox.Acme
