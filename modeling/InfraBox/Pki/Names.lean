import Mathlib.Data.List.Sort
import InfraBox.Lease.Hostname
import InfraBox.Lib.Unseen
import InfraBox.Net.Addr

/-!
# The names the certificate authority signs

`Manager.certificateName` and `Manager.csrNames` (`internal/pki/csr.go`), and the part of `open`
that fixes the host name of the gateway. A name is signed when it is a host below the domain that
is none of the server's own (`Signable.certificateName_eq`); `certificateName` returns the
empty string for every other name.

`netip.ParseAddr` is a parameter, of which only the success is used.
-/

namespace InfraBox.Pki

/-- The fields of `Manager` that names are checked against. -/
structure Manager where
  /-- `cfg.Domain`. -/
  domain : GoString
  hostname : GoString

/-- The names of `open`; the state of the authority is read afterwards. -/
def openNames (domain : GoString) : Except String Manager :=
  let hostname := trimSuffix (normalizeHostname (str "gateway") domain) [dot]
  if hostname = [] then .error "invalid domain for gateway certificate" else .ok ⟨domain, hostname⟩

/-- The names of an `x509.CertificateRequest`. -/
structure CertificateRequest where
  dnsNames : List GoString
  /-- The common names of the subject; `none` for a value that is not a string. -/
  commonNames : List (Option GoString)

section
variable (m : Manager) (parseAddr : GoString → Option Addr)

/-- `Manager.certificateName`. -/
def Manager.certificateName (name : GoString) : GoString :=
  if (runes name).any fun c => 127 < c then []
  else
    let name := toLower (trimSuffix name [dot])
    if (parseAddr name).isSome then []
    else
      let canonical := trimSuffix (normalizeHostname name m.domain) [dot]
      let domain := trimPrefix m.hostname (str "gateway.")
      if name = [] || canonical ≠ name || name = m.hostname || name = str "ns." ++ domain ||
          name = str "ldap." ++ domain then []
      else canonical

/-- The loop of `csrNames` over the authorized names. -/
def Manager.authorizedSet : List GoString → List GoString → Except String (List GoString)
  | [], authorized => .ok authorized
  | name :: rest, authorized =>
    let canonical := m.certificateName parseAddr name
    if canonical = [] || canonical ∈ authorized then
      .error "invalid or duplicate authorized DNS name"
    else Manager.authorizedSet rest (canonical :: authorized)

/-- The loop of `csrNames` over the names of the request. -/
def Manager.requestedNames : List GoString → List GoString → Except String (List GoString)
  | [], _ => .ok []
  | name :: rest, authorized =>
    let canonical := m.certificateName parseAddr name
    if canonical = [] || canonical ∉ authorized then
      .error "CSR DNS name does not match the authorized names"
    else match Manager.requestedNames rest (authorized.erase canonical) with
      | .error e => .error e
      | .ok names => .ok (canonical :: names)

/-- `Manager.csrNames`. -/
def Manager.csrNames (csr : CertificateRequest) (authorizedNames : List GoString) :
    Except String (List GoString) :=
  if authorizedNames.length = 0 || 100 < authorizedNames.length ||
      csr.dnsNames.length ≠ authorizedNames.length then
    .error "CSR DNS names must exactly match the authorized names (1 to 100 names)"
  else match m.authorizedSet parseAddr authorizedNames [] with
    | .error e => .error e
    | .ok authorized =>
      match m.requestedNames parseAddr csr.dnsNames authorized with
      | .error e => .error e
      | .ok names =>
        if !csr.commonNames.all fun cn => cn.any fun cn => m.certificateName parseAddr cn ∈ names
        then .error "CSR common name must match an authorized DNS name"
        else .ok (names.mergeSort fun a b => a ≤ b)

end

/-! ## Which names are signed -/

/-- What `open` leaves in a manager for the domain `d`. -/
structure Manager.Serves (m : Manager) (d : GoString) : Prop where
  domain : m.domain = d
  hostname : m.hostname = str "gateway." ++ d

theorem Manager.Serves.trimPrefix_hostname {m : Manager} {d : GoString} (h : m.Serves d) :
    trimPrefix m.hostname (str "gateway.") = d := by
  rw [h.hostname, trimPrefix, if_pos ⟨d, rfl⟩, List.drop_left]

/-- `open` keeps the domain and the name of the gateway in it, which has to be one. -/
theorem openNames_ok {domain : GoString} {m : Manager} : openNames domain = .ok m ↔
    trimSuffix (normalizeHostname (str "gateway") domain) [dot] ≠ [] ∧
      m = ⟨domain, trimSuffix (normalizeHostname (str "gateway") domain) [dot]⟩ := by
  unfold openNames
  dsimp only
  split
  · next hnil => simp [hnil]
  · next hne => simp [hne, eq_comm]

/-- The names of a manager are those of its domain. -/
theorem openNames_serves {d : GoString} {m : Manager} (hd : validDNSName d = true)
    (h : openNames d = .ok m) : m.Serves d := by
  obtain ⟨hne, rfl⟩ := openNames_ok.1 h
  refine ⟨rfl, ?_⟩
  have hlow : toLower (trimSuffix (str "gateway") [dot]) = str "gateway" := by decide
  have hvalid : validDNSName (str "gateway") = true := by decide
  have hdot : dot ∉ str "gateway" := by decide
  simp only [normalizeHostname, canonicalDomain_of_valid hd, hlow, hvalid, hd, Bool.not_true,
    Bool.or_self, Bool.false_eq_true, if_false, hdot, not_false_eq_true, if_true] at hne ⊢
  split at hne
  · exact absurd rfl hne
  next hlong =>
  rw [if_neg hlong, trimSuffix_append]
  rfl

/-- A name that is signed: a host below the domain, none of the server's own, and no address. -/
structure Signable (parseAddr : GoString → Option Addr) (d n : GoString) : Prop where
  valid : validDNSName n = true
  below : dot :: d <:+ n
  not_gateway : n ≠ str "gateway." ++ d
  not_ns : n ≠ str "ns." ++ d
  not_ldap : n ≠ str "ldap." ++ d
  not_address : parseAddr n = none

section
variable {m : Manager} {parseAddr : GoString → Option Addr} {d : GoString}

theorem Signable.ne_nil {n : GoString} (h : Signable parseAddr d n) : n ≠ [] := by
  rintro rfl
  exact absurd h.valid (by decide)

/-- The answer of `certificateName` is the name in lower case and without its final dot. -/
theorem Manager.Serves.certificateName_cases (hm : m.Serves d) (hd : validDNSName d = true)
    (n : GoString) : m.certificateName parseAddr n = [] ∨
      (IsAscii n ∧ m.certificateName parseAddr n = toLower (trimSuffix n [dot]) ∧
        Signable parseAddr d (m.certificateName parseAddr n)) := by
  simp only [Manager.certificateName, hm.domain, hm.trimPrefix_hostname]
  rw [hm.hostname]
  split
  · exact .inl rfl
  next hascii =>
  split
  · exact .inl rfl
  next haddr =>
  split
  · exact .inl rfl
  next hok =>
  simp only [Bool.or_eq_true, decide_eq_true_eq, not_or, not_not] at hok
  obtain ⟨⟨⟨⟨hne, hcanon⟩, hgateway⟩, hns⟩, hldap⟩ := hok
  obtain ⟨hvalid, hbelow⟩ := (trimSuffix_normalizeHostname hd hne).1 hcanon
  rw [hcanon]
  refine .inr ⟨not_not.1 fun h => hascii (any_runes_high.2 h), rfl, hvalid, hbelow, hgateway, hns,
    hldap, by simpa using haddr⟩

/-- Signable names are their own canonical form. -/
theorem Signable.certificateName_eq {n : GoString} (h : Signable parseAddr d n) (hm : m.Serves d)
    (hd : validDNSName d = true) : m.certificateName parseAddr n = n := by
  have hl := validLabels_of_validDNSName h.valid
  have hne := h.ne_nil
  have hascii : ¬ ((runes n).any fun c => 127 < c) = true := fun hany =>
    any_runes_high.1 hany (validLabels_ascii hl)
  have hcanon := (trimSuffix_normalizeHostname hd hne).2 ⟨h.valid, h.below⟩
  simp only [Manager.certificateName, hm.domain, hm.trimPrefix_hostname]
  simp [hm.hostname, hascii, validLabels_trimSuffix hl, validLabels_toLower hl, h.not_address,
    hcanon, hne, h.not_gateway, h.not_ns, h.not_ldap]

/-! ## Requests for authorized names -/

/-- The loop over the authorized names keeps their canonical forms, if these are all names and all
different. -/
theorem Manager.authorizedSet_ok {names authorized set : List GoString} :
    m.authorizedSet parseAddr names authorized = .ok set ↔
      (∀ n ∈ names, m.certificateName parseAddr n ≠ []) ∧
      Unseen (m.certificateName parseAddr) authorized names ∧
      set = (names.map (m.certificateName parseAddr)).reverse ++ authorized := by
  induction names generalizing authorized with
  | nil =>
    rw [Manager.authorizedSet, Except.ok.injEq]
    exact ⟨fun h => ⟨by simp, .nil, h.symm⟩, fun h => h.2.2.symm⟩
  | cons name rest ih =>
    simp only [Manager.authorizedSet, List.forall_mem_cons, List.map_cons, unseen_cons,
      List.reverse_cons, List.append_assoc, List.singleton_append]
    split
    · next hbad =>
      refine iff_of_false (by simp) ?_
      rintro ⟨hne, hnew, -⟩
      simp only [Bool.or_eq_true, decide_eq_true_eq] at hbad
      rcases hbad with hnil | hmem
      · exact hne.1 hnil
      · exact hnew.1 hmem
    · next hok =>
      simp only [Bool.or_eq_true, decide_eq_true_eq, not_or] at hok
      rw [ih]
      constructor
      · rintro ⟨hne, hnew, rfl⟩
        exact ⟨⟨hok.1, hne⟩, ⟨hok.2, hnew⟩, rfl⟩
      · rintro ⟨⟨-, hne⟩, ⟨-, hnew⟩, rfl⟩
        exact ⟨hne, hnew, rfl⟩

/-- The loop over the names of the request strikes each one off; with as many names as were
authorized, it gets through exactly when the canonical forms are the authorized ones. -/
theorem Manager.requestedNames_ok {names authorized requested : List GoString}
    (hlen : names.length = authorized.length) :
    m.requestedNames parseAddr names authorized = .ok requested ↔
      (∀ n ∈ names, m.certificateName parseAddr n ≠ []) ∧
      (names.map (m.certificateName parseAddr)).Perm authorized ∧
      requested = names.map (m.certificateName parseAddr) := by
  induction names generalizing authorized requested with
  | nil =>
    obtain rfl : authorized = [] := List.length_eq_zero_iff.1 hlen.symm
    rw [Manager.requestedNames, Except.ok.injEq]
    exact ⟨fun h => ⟨by simp, .nil, h.symm⟩, fun h => h.2.2.symm⟩
  | cons name rest ih =>
    simp only [Manager.requestedNames, List.forall_mem_cons, List.map_cons]
    split
    · next hbad =>
      refine iff_of_false (by simp) ?_
      rintro ⟨hne, hperm, -⟩
      simp only [Bool.or_eq_true, decide_eq_true_eq] at hbad
      rcases hbad with hnil | hmem
      · exact hne.1 hnil
      · exact hmem (hperm.subset List.mem_cons_self)
    · next hok =>
      simp only [Bool.or_eq_true, decide_eq_true_eq, not_or, not_not] at hok
      have hrest : rest.length = (authorized.erase (m.certificateName parseAddr name)).length := by
        rw [List.length_erase_of_mem hok.2, ← hlen, List.length_cons, Nat.add_sub_cancel]
      rw [List.cons_perm_iff_perm_erase]
      cases hreq : m.requestedNames parseAddr rest
          (authorized.erase (m.certificateName parseAddr name)) with
      | error e =>
        refine iff_of_false (by simp) ?_
        rintro ⟨hne, ⟨-, hperm⟩, -⟩
        cases hreq.symm.trans ((ih hrest).2 ⟨hne.2, hperm, rfl⟩)
      | ok names =>
        obtain ⟨hne, hperm, rfl⟩ := (ih hrest).1 hreq
        simp only [Except.ok.injEq]
        exact ⟨fun heq => ⟨⟨hok.1, hne⟩, ⟨hok.2, hperm⟩, heq.symm⟩, fun h => h.2.2.symm⟩

/-- Lists of the same names are sorted into the same list. -/
theorem mergeSort_eq_of_perm {l l' : List GoString} (h : l.Perm l') :
    (l.mergeSort fun a b => a ≤ b) = l'.mergeSort fun a b => a ≤ b :=
  List.Perm.eq_of_pairwise (fun _ _ _ _ => le_antisymm) (List.pairwise_mergeSort' (· ≤ ·) l)
    (List.pairwise_mergeSort' (· ≤ ·) l')
    ((List.mergeSort_perm l _).trans (h.trans (List.mergeSort_perm l' _).symm))

/-- Different names are sorted strictly. -/
theorem pairwise_lt_mergeSort {l : List GoString} (h : l.Nodup) :
    (l.mergeSort fun a b => a ≤ b).Pairwise (· < ·) := by
  have hnd := (List.mergeSort_perm l fun a b => a ≤ b).nodup_iff.2 h
  exact (List.pairwise_mergeSort' (· ≤ ·) l).imp₂ (fun _ _ hle hne => lt_of_le_of_ne hle hne) hnd

/-- What `csrNames` checks, with the canonical form of a name as it computes it. -/
structure CertificateRequest.Passes (csr : CertificateRequest) (canonical : GoString → GoString)
    (authorizedNames : List GoString) : Prop where
  nonempty : authorizedNames ≠ []
  atMost : authorizedNames.length ≤ 100
  valid : ∀ n ∈ authorizedNames, canonical n ≠ []
  distinct : (authorizedNames.map canonical).Nodup
  requested : (csr.dnsNames.map canonical).Perm (authorizedNames.map canonical)
  commonNames : ∀ cn ∈ csr.commonNames, ∃ s, cn = some s ∧
    canonical s ∈ authorizedNames.map canonical

/-- `csrNames` returns the sorted canonical forms of the authorized names if the request passes. -/
theorem Manager.csrNames_ok {csr : CertificateRequest} {authorizedNames names : List GoString} :
    m.csrNames parseAddr csr authorizedNames = .ok names ↔
      csr.Passes (m.certificateName parseAddr) authorizedNames ∧
      names = (authorizedNames.map (m.certificateName parseAddr)).mergeSort fun a b => a ≤ b := by
  unfold Manager.csrNames
  split
  · next hbad =>
    refine iff_of_false (by simp) ?_
    rintro ⟨h, -⟩
    have hpos := List.length_pos_iff.2 h.nonempty
    have hlen := h.requested.length_eq
    have hmost := h.atMost
    simp only [List.length_map] at hlen
    simp only [Bool.or_eq_true, decide_eq_true_eq, ne_eq] at hbad
    omega
  next hcount =>
  simp only [Bool.or_eq_true, decide_eq_true_eq, ne_eq, not_or, not_not, not_lt] at hcount
  obtain ⟨⟨hpos, hmost⟩, hlen⟩ := hcount
  have hnonempty : authorizedNames ≠ [] := fun h => hpos (List.length_eq_zero_iff.2 h)
  cases hset : m.authorizedSet parseAddr authorizedNames [] with
  | error e =>
    refine iff_of_false (by simp) ?_
    rintro ⟨h, -⟩
    cases hset.symm.trans (Manager.authorizedSet_ok.2
      ⟨h.valid, unseen_start.2 h.distinct, rfl⟩)
  | ok authorized =>
  obtain ⟨hvalid, hdistinct, rfl⟩ := Manager.authorizedSet_ok.1 hset
  simp only [List.append_nil]
  have hlen' : csr.dnsNames.length =
      (authorizedNames.map (m.certificateName parseAddr)).reverse.length := by simpa using hlen
  cases hreq : m.requestedNames parseAddr csr.dnsNames
      (authorizedNames.map (m.certificateName parseAddr)).reverse with
  | error e =>
    refine iff_of_false (by simp) ?_
    rintro ⟨h, -⟩
    have hne : ∀ n ∈ csr.dnsNames, m.certificateName parseAddr n ≠ [] := fun n hn => by
      obtain ⟨a, ha, heq⟩ := List.mem_map.1 (h.requested.subset (List.mem_map_of_mem hn))
      exact heq ▸ h.valid a ha
    cases hreq.symm.trans ((Manager.requestedNames_ok hlen').2
      ⟨hne, h.requested.trans (List.reverse_perm _).symm, rfl⟩)
  | ok requested =>
  obtain ⟨-, hperm, rfl⟩ := (Manager.requestedNames_ok hlen').1 hreq
  have hperm := hperm.trans (List.reverse_perm _)
  simp only
  split
  · next hbad =>
    refine iff_of_false (by simp) ?_
    rintro ⟨h, -⟩
    rw [Bool.not_eq_true', ← Bool.not_eq_true, List.all_eq_true] at hbad
    refine hbad fun cn hcn => ?_
    obtain ⟨s, rfl, hs⟩ := h.commonNames cn hcn
    simpa using hperm.symm.subset hs
  · next hok =>
    rw [Bool.not_eq_true', Bool.not_eq_false, List.all_eq_true] at hok
    have hcn : ∀ cn ∈ csr.commonNames, ∃ s, cn = some s ∧ m.certificateName parseAddr s ∈
        authorizedNames.map (m.certificateName parseAddr) := fun cn hcn => by
      obtain ⟨s, rfl, hs⟩ := (Option.any_eq_true _ _).1 (hok cn hcn)
      exact ⟨s, rfl, hperm.subset (of_decide_eq_true hs)⟩
    rw [mergeSort_eq_of_perm hperm, Except.ok.injEq]
    exact ⟨fun heq => ⟨⟨hnonempty, hmost, hvalid, hdistinct.nodup, hperm, hcn⟩, heq.symm⟩,
      fun h => h.2.symm⟩

/-- Signable names are in canonical form. -/
theorem Manager.Serves.map_certificateName (hm : m.Serves d) (hd : validDNSName d = true)
    {names : List GoString} (hs : ∀ n ∈ names, Signable parseAddr d n) :
    names.map (m.certificateName parseAddr) = names :=
  (List.map_congr_left fun n hn => (hs n hn).certificateName_eq hm hd).trans (List.map_id' _)

/-- Distinct signable names are all authorized. -/
theorem Manager.Serves.authorizedSet_eq (hm : m.Serves d) (hd : validDNSName d = true)
    {names : List GoString} (hs : ∀ n ∈ names, Signable parseAddr d n) (hnd : names.Nodup) :
    m.authorizedSet parseAddr names [] = .ok names.reverse := by
  have hnames := hm.map_certificateName hd hs
  refine Manager.authorizedSet_ok.2 ⟨fun n hn => ?_, unseen_start.2 ?_, ?_⟩
  · rw [(hs n hn).certificateName_eq hm hd]
    exact (hs n hn).ne_nil
  · rwa [hnames]
  · rw [hnames, List.append_nil]

/-- A request for exactly the authorized names, in any order, passes the check of names. -/
theorem Manager.Serves.csrNames_eq (hm : m.Serves d) (hd : validDNSName d = true)
    {names : List GoString} {csr : CertificateRequest} (hs : ∀ n ∈ names, Signable parseAddr d n)
    (hnd : names.Nodup) (hpos : names ≠ []) (hlen : names.length ≤ 100)
    (hperm : csr.dnsNames.Perm names) (hcn : csr.commonNames = []) :
    m.csrNames parseAddr csr names = .ok (csr.dnsNames.mergeSort fun a b => a ≤ b) := by
  obtain ⟨hvalid, hdistinct, -⟩ := Manager.authorizedSet_ok.1 (hm.authorizedSet_eq hd hs hnd)
  refine Manager.csrNames_ok.2 ⟨⟨hpos, hlen, hvalid, hdistinct.nodup, hperm.map _, ?_⟩, ?_⟩
  · rw [hcn]
    exact fun cn hcn => by cases hcn
  · rw [hm.map_certificateName hd hs, mergeSort_eq_of_perm hperm]

end

end InfraBox.Pki
