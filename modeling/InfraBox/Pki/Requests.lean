import InfraBox.Pki.Names

/-!
# Requests carry exactly the authorized names

`csrNames` compares two lists of names by their lengths and by striking the names of one off a set
of the others. `csrNames_exact` says what that amounts to, in terms of the policy for names
(`Permitted`) and of their canonical form, without the loops: the request has the authorized names,
each once. A canonical form ignores the case of ASCII letters and a final dot and nothing else; a
name with other characters is refused before it is lowered, as some of them become ASCII letters.
-/

namespace InfraBox.Pki

/-- The canonical form of a name. -/
def canonicalForm (name : GoString) : GoString := toLower (trimSuffix name [dot])

/-- A name the policy permits: its canonical form is signable. -/
structure Permitted (parseAddr : GoString → Option Addr) (d name : GoString) : Prop where
  ascii : IsAscii name
  signable : Signable parseAddr d (canonicalForm name)

/-- `pkix.AttributeTypeAndValue`; `value` is `none` if it is not a string. -/
structure AttributeTypeAndValue where
  type : List Int
  value : Option GoString

/-- The attributes of a subject that `csrNames` looks at. -/
def commonNames (subject : List AttributeTypeAndValue) : List (Option GoString) :=
  (subject.filter fun a => a.type = [2, 5, 4, 3]).map AttributeTypeAndValue.value

/-! ## The canonical form of a name -/

section
variable {m : Manager} {parseAddr : GoString → Option Addr} {domain : GoString}

/-- The manager `open` builds serves the canonical form of its domain. -/
theorem openNames_canonical (h : openNames domain = .ok m) :
    validDNSName (canonicalDomain domain) = true ∧
      (∀ n, normalizeHostname n m.domain = normalizeHostname n (canonicalDomain domain)) ∧
      openNames (canonicalDomain domain) = .ok ⟨canonicalDomain domain, m.hostname⟩ := by
  obtain ⟨hne, rfl⟩ := openNames_ok.1 h
  have hd : validDNSName (canonicalDomain domain) = true := by
    by_contra hbad
    refine hne ?_
    rw [normalizeHostname_of_invalid hbad]
    rfl
  have hnorm := normalizeHostname_canonicalDomain hd
  rw [hnorm] at hne
  exact ⟨hd, hnorm, openNames_ok.2 ⟨hne, by rw [hnorm]⟩⟩

/-- Only the canonical form of the domain matters. -/
theorem Manager.certificateName_domain {d hostname : GoString}
    (h : ∀ n, normalizeHostname n m.domain = normalizeHostname n d) (hh : m.hostname = hostname)
    (name : GoString) :
    m.certificateName parseAddr name =
      Manager.certificateName ⟨d, hostname⟩ parseAddr name := by
  simp only [Manager.certificateName, h, hh]

/-- `certificateName` returns the canonical form of permitted names and nothing for others. -/
theorem certificateName_permitted (h : openNames domain = .ok m) {name : GoString}
    (hp : Permitted parseAddr (canonicalDomain domain) name) :
    m.certificateName parseAddr name = canonicalForm name := by
  obtain ⟨hd, hnorm, hopen⟩ := openNames_canonical h
  have hserves := openNames_serves hd hopen
  rw [Manager.certificateName_domain hnorm rfl,
    ← hp.signable.certificateName_eq hserves hd]
  have hl := validLabels_of_validDNSName hp.signable.valid
  have hfixed : toLower (trimSuffix (canonicalForm name) [dot]) = canonicalForm name := by
    rw [validLabels_trimSuffix hl, validLabels_toLower hl]
  have hascii : ∀ {n}, IsAscii n → ¬ ((runes n).any fun c => 127 < c) = true := fun hn hany =>
    any_runes_high.1 hany hn
  simp only [Manager.certificateName]
  rw [if_neg (hascii hp.ascii), if_neg (hascii (validLabels_ascii hl)), hfixed]
  rfl

/-- A name is certified just if the policy permits it. -/
theorem certificateName_ne_nil (h : openNames domain = .ok m) {name : GoString} :
    m.certificateName parseAddr name ≠ [] ↔ Permitted parseAddr (canonicalDomain domain) name := by
  constructor
  · intro hne
    obtain ⟨hd, hnorm, hopen⟩ := openNames_canonical h
    rw [Manager.certificateName_domain hnorm rfl] at hne
    obtain ⟨hascii, heq, hs⟩ :=
      ((openNames_serves hd hopen).certificateName_cases hd name).resolve_left hne
    refine ⟨hascii, ?_⟩
    rw [canonicalForm, ← heq]
    exact hs
  · intro hp
    rw [certificateName_permitted h hp]
    exact hp.signable.ne_nil

/-- `certificateName` does not see the case of letters. -/
theorem Manager.certificateName_foldCase {a b : GoString} (h : foldCase a = foldCase b) :
    m.certificateName parseAddr a = m.certificateName parseAddr b := by
  have hascii : IsAscii a ↔ IsAscii b := by rw [← isAscii_foldCase, h, isAscii_foldCase]
  by_cases ha : IsAscii a
  · have hb := hascii.1 ha
    have hform : toLower (trimSuffix a [dot]) = toLower (trimSuffix b [dot]) := by
      show canonicalForm a = canonicalForm b
      rw [canonicalForm, canonicalForm, toLower_trimSuffix ha, toLower_trimSuffix hb, h]
    simp only [Manager.certificateName]
    rw [if_neg fun hany => any_runes_high.1 hany ha, if_neg fun hany => any_runes_high.1 hany hb,
      hform]
  · simp only [Manager.certificateName]
    rw [if_pos (any_runes_high.2 ha), if_pos (any_runes_high.2 fun hb => ha (hascii.2 hb))]

end

/-! ## The check of a request -/

/-- The request is for the authorized names: there are 1 to 100 of them, permitted and different
from each other, the request has each of them once and no others, and every common name is one of
them. -/
structure CertificateRequest.Matches (csr : CertificateRequest)
    (parseAddr : GoString → Option Addr) (d : GoString) (authorizedNames : List GoString) :
    Prop where
  count : 1 ≤ authorizedNames.length ∧ authorizedNames.length ≤ 100
  permitted : ∀ n ∈ authorizedNames, Permitted parseAddr d n
  distinct : (authorizedNames.map canonicalForm).Nodup
  requested_ascii : ∀ n ∈ csr.dnsNames, IsAscii n
  requested : (csr.dnsNames.map canonicalForm).Perm (authorizedNames.map canonicalForm)
  commonNames : ∀ cn ∈ csr.commonNames, ∃ s, cn = some s ∧ IsAscii s ∧
    canonicalForm s ∈ authorizedNames.map canonicalForm

/-- Two requests with the same names, in any order and case. -/
structure CertificateRequest.SameNames (csr csr' : CertificateRequest) : Prop where
  dnsNames : (csr'.dnsNames.map foldCase).Perm (csr.dnsNames.map foldCase)
  commonNames : (csr'.commonNames.map (Option.map foldCase)).Perm
    (csr.commonNames.map (Option.map foldCase))

theorem CertificateRequest.SameNames.symm {csr csr' : CertificateRequest} (h : csr.SameNames csr') :
    csr'.SameNames csr := ⟨h.dnsNames.symm, h.commonNames.symm⟩

section
variable {m : Manager} {parseAddr : GoString → Option Addr} {domain : GoString}
  {csr csr' : CertificateRequest} {authorizedNames : List GoString}

/-- A name whose canonical form is that of a permitted one, and ASCII, is permitted. -/
theorem Permitted.of_mem {names : List GoString} {d s : GoString}
    (h : ∀ n ∈ names, Permitted parseAddr d n) (hs : IsAscii s)
    (hmem : canonicalForm s ∈ names.map canonicalForm) : Permitted parseAddr d s := by
  obtain ⟨n, hn, heq⟩ := List.mem_map.1 hmem
  exact ⟨hs, heq ▸ (h n hn).signable⟩

/-- What the loops check is that the names match. -/
theorem passes_iff_matches (h : openNames domain = .ok m) :
    csr.Passes (m.certificateName parseAddr) authorizedNames ↔
      csr.Matches parseAddr (canonicalDomain domain) authorizedNames := by
  have hmap : ∀ {names : List GoString},
      (∀ n ∈ names, Permitted parseAddr (canonicalDomain domain) n) →
      names.map (m.certificateName parseAddr) = names.map canonicalForm := fun hp =>
    List.map_congr_left fun n hn => certificateName_permitted h (hp n hn)
  constructor
  · intro hc
    have hauth : ∀ n ∈ authorizedNames, Permitted parseAddr (canonicalDomain domain) n :=
      fun n hn => (certificateName_ne_nil h).1 (hc.valid n hn)
    -- a name with the canonical form of an authorized one has a canonical form, so it is permitted
    have hmem : ∀ {s}, m.certificateName parseAddr s ∈
        authorizedNames.map (m.certificateName parseAddr) →
        Permitted parseAddr (canonicalDomain domain) s := fun hs => by
      obtain ⟨n, hn, heq⟩ := List.mem_map.1 hs
      exact (certificateName_ne_nil h).1 (heq ▸ hc.valid n hn)
    have hreq : ∀ n ∈ csr.dnsNames, Permitted parseAddr (canonicalDomain domain) n :=
      fun n hn => hmem (hc.requested.subset (List.mem_map_of_mem hn))
    refine ⟨⟨List.length_pos_iff.2 hc.nonempty, hc.atMost⟩, hauth, hmap hauth ▸ hc.distinct,
      fun n hn => (hreq n hn).ascii, hmap hreq ▸ hmap hauth ▸ hc.requested, fun cn hcn => ?_⟩
    obtain ⟨s, rfl, hs⟩ := hc.commonNames cn hcn
    have hp := hmem hs
    rw [certificateName_permitted h hp, hmap hauth] at hs
    exact ⟨s, rfl, hp.ascii, hs⟩
  · intro hc
    have hreq : ∀ n ∈ csr.dnsNames, Permitted parseAddr (canonicalDomain domain) n :=
      fun n hn => .of_mem hc.permitted (hc.requested_ascii n hn)
        (hc.requested.subset (List.mem_map_of_mem hn))
    refine ⟨List.length_pos_iff.1 hc.count.1, hc.count.2,
      fun n hn => (certificateName_ne_nil h).2 (hc.permitted n hn), ?_, ?_, fun cn hcn => ?_⟩
    · rw [hmap hc.permitted]
      exact hc.distinct
    · rw [hmap hreq, hmap hc.permitted]
      exact hc.requested
    · obtain ⟨s, rfl, hascii, hs⟩ := hc.commonNames cn hcn
      refine ⟨s, rfl, ?_⟩
      rw [certificateName_permitted h (.of_mem hc.permitted hascii hs), hmap hc.permitted]
      exact hs

/-- The check does not see the order and the case of the names of the request. -/
theorem CertificateRequest.SameNames.passes (h : csr.SameNames csr')
    (hc : csr.Passes (m.certificateName parseAddr) authorizedNames) :
    csr'.Passes (m.certificateName parseAddr) authorizedNames := by
  -- a function that does not see case gives permuted lists on names that agree up to case
  have hfactor : ∀ {l l' : List GoString}, (l'.map foldCase).Perm (l.map foldCase) →
      (l'.map (m.certificateName parseAddr)).Perm (l.map (m.certificateName parseAddr)) := by
    intro l l' hperm
    have hinv : ∀ s, m.certificateName parseAddr (foldCase s) = m.certificateName parseAddr s :=
      fun s => Manager.certificateName_foldCase (foldCase_foldCase s)
    simpa only [List.map_map, Function.comp_def, hinv] using
      hperm.map (m.certificateName parseAddr)
  refine ⟨hc.nonempty, hc.atMost, hc.valid, hc.distinct,
    (hfactor h.dnsNames).trans hc.requested, fun cn hcn => ?_⟩
  obtain ⟨cn', hcn', heq⟩ := List.mem_map.1 (h.commonNames.subset (List.mem_map_of_mem hcn))
  obtain ⟨s, rfl, hs⟩ := hc.commonNames cn' hcn'
  cases cn with
  | none => cases heq
  | some s' =>
    refine ⟨s', rfl, ?_⟩
    rwa [← Manager.certificateName_foldCase (Option.some.inj heq)]

end

/-- For every manager `open` builds, every list of names and subject of a request and every list of
authorized names: `csrNames` succeeds exactly when the request matches the authorized names, its
result is then the sorted list of their canonical forms, and it is the same for every request with
the same names in another order or case. -/
theorem csrNames_exact {domain : GoString} {m : Manager} (hm : openNames domain = .ok m)
    (parseAddr : GoString → Option Addr) (dnsNames : List GoString)
    (subject : List AttributeTypeAndValue) (authorizedNames : List GoString) :
    let csr : CertificateRequest := ⟨dnsNames, commonNames subject⟩
    ((∃ names, m.csrNames parseAddr csr authorizedNames = .ok names) ↔
      csr.Matches parseAddr (canonicalDomain domain) authorizedNames) ∧
    (∀ names, m.csrNames parseAddr csr authorizedNames = .ok names →
      names.Perm (authorizedNames.map canonicalForm) ∧ names.Pairwise (· < ·)) ∧
    (∀ csr', csr.SameNames csr' → ∀ names,
      m.csrNames parseAddr csr' authorizedNames = .ok names ↔
        m.csrNames parseAddr csr authorizedNames = .ok names) := by
  intro csr
  refine ⟨⟨?_, fun h => ?_⟩, fun names hnames => ?_, fun csr' hsame names => ?_⟩
  · rintro ⟨names, hnames⟩
    exact (passes_iff_matches hm).1 (Manager.csrNames_ok.1 hnames).1
  · exact ⟨_, Manager.csrNames_ok.2 ⟨(passes_iff_matches hm).2 h, rfl⟩⟩
  · obtain ⟨hpass, rfl⟩ := Manager.csrNames_ok.1 hnames
    have hmatch := (passes_iff_matches hm).1 hpass
    rw [List.map_congr_left fun n hn => certificateName_permitted hm (hmatch.permitted n hn)]
    exact ⟨List.mergeSort_perm _ _, pairwise_lt_mergeSort hmatch.distinct⟩
  · simp only [Manager.csrNames_ok]
    exact and_congr_left fun _ => ⟨hsame.symm.passes, hsame.passes⟩

/-- A request in another order and case, with a final dot and a common name. -/
theorem csrNames_exact_sample :
    ∃ names, Manager.csrNames ⟨str "lan", str "gateway.lan"⟩ (fun _ => none)
        ⟨[str "B.lan", str "a.LAN."], [some (str "A.lan")]⟩ [str "a.lan", str "b.lan"] = .ok names ∧
      names.Perm [str "a.lan", str "b.lan"] ∧ names.Pairwise (· < ·) := by
  have hm : openNames (str "lan") = .ok ⟨str "lan", str "gateway.lan"⟩ := rfl
  have h := csrNames_exact hm (fun _ => none) [str "B.lan", str "a.LAN."]
    [⟨[2, 5, 4, 3], some (str "A.lan")⟩, ⟨[2, 5, 4, 10], some (str "x")⟩]
    [str "a.lan", str "b.lan"]
  have hsignable : ∀ n ∈ [str "a.lan", str "b.lan"], Permitted (fun _ => none)
      (canonicalDomain (str "lan")) n := by
    intro n hn
    refine ⟨?_, ⟨?_, ?_, ?_, ?_, ?_, rfl⟩⟩
    all_goals
      revert n
      decide +kernel
  obtain ⟨names, hnames⟩ := h.1.2 ⟨by decide, hsignable, by decide +kernel, by decide +kernel,
    by decide +kernel, by
      rintro cn hcn
      obtain rfl : cn = some (str "A.lan") := by simpa [commonNames] using hcn
      exact ⟨_, rfl, by decide +kernel, by decide +kernel⟩⟩
  obtain ⟨hperm, hsorted⟩ := h.2.1 names hnames
  exact ⟨names, hnames, hperm.trans (by decide +kernel), hsorted⟩

end InfraBox.Pki
