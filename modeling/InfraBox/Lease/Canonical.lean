import InfraBox.Lease.Hostname

/-!
# The laws of host name canonicalization

What `NormalizeHostname` guarantees of its results, for every domain and every string. A result is
empty or a canonical host name under the domain, and the canonical host names are exactly the
nonempty strings it returns unchanged. On ASCII strings it is the composition of three rewritings
(`qualified`): lower case, without one final dot, and below the domain if there is a single label.
So the manager may compare names by comparing results.
-/

namespace InfraBox

/-! ## Canonical host names -/

/-- A label of a host name: 1 to 63 lower-case letters, digits and inner hyphens. -/
structure HostLabel (l : GoString) : Prop where
  length : 1 ≤ l.length ∧ l.length ≤ 63
  bytes : ∀ b ∈ l, ('a'.toUInt8 ≤ b ∧ b ≤ 'z'.toUInt8) ∨ ('0'.toUInt8 ≤ b ∧ b ≤ '9'.toUInt8) ∨
    b = hyphen
  inner : l.head? ≠ some hyphen ∧ l.getLast? ≠ some hyphen

theorem nameRune_toNat {b : UInt8} :
    nameRune b.toNat = true ↔
      ('a'.toUInt8 ≤ b ∧ b ≤ 'z'.toUInt8) ∨ ('0'.toUInt8 ≤ b ∧ b ≤ '9'.toUInt8) ∨ b = hyphen := by
  have hhyphen : b = hyphen ↔ b.toNat = '-'.toNat := by rw [← UInt8.toNat_inj]; rfl
  simp only [nameRune, Bool.or_eq_true, Bool.and_eq_true, decide_eq_true_eq, hhyphen,
    UInt8.le_iff_toNat_le, or_assoc]
  rfl

/-- The loop body of `validDNSName` accepts exactly these labels. -/
theorem validLabel_iff {l : GoString} : validLabel l = true ↔ HostLabel l := by
  have hbytes := all_runes (fun _ => nameRune_lt) l
  simp only [nameRune_toNat] at hbytes
  simp only [validLabel, Bool.and_eq_true, hbytes, Bool.not_eq_true', Bool.or_eq_false_iff,
    decide_eq_false_iff_not]
  constructor
  · rintro ⟨⟨⟨⟨hne, hlen⟩, hhead⟩, hlast⟩, hb⟩
    exact ⟨⟨by omega, by omega⟩, hb, hhead, hlast⟩
  · rintro ⟨hlen, hb, hhead, hlast⟩
    exact ⟨⟨⟨⟨by omega, by omega⟩, hhead⟩, hlast⟩, hb⟩

/-- A canonical host name under the domain `d`: fully qualified, in lower case, strictly below the
domain, and of valid labels. -/
structure CanonicalHostname (d r : GoString) : Prop where
  lower : toLower r = r
  below : dot :: d ++ [dot] <:+ r
  labels : ∀ l ∈ (trimSuffix r [dot]).splitOn dot, HostLabel l
  length : r.length ≤ 254

section
variable {d r : GoString}

/-- The canonical names are the fixed points. -/
theorem canonicalHostname_iff : CanonicalHostname d r ↔ HostnameUnder d r := by
  constructor
  · rintro ⟨-, ⟨x, rfl⟩, hlabels, hlen⟩
    rw [← List.append_assoc, trimSuffix_append] at hlabels
    refine ⟨x ++ dot :: d, (List.append_assoc ..).symm, ?_, x, rfl⟩
    have hvalid : validLabels (x ++ dot :: d) = true :=
      List.all_eq_true.2 fun l hl => validLabel_iff.2 (hlabels l hl)
    simp only [List.length_append, List.length_cons, List.length_nil] at hlen
    simp only [validDNSName, hvalid, Bool.and_true, Bool.not_eq_true', Bool.or_eq_false_iff,
      decide_eq_false_iff_not, List.length_append, List.length_cons]
    omega
  · rintro ⟨n, rfl, hn, x, rfl⟩
    have hvalid := validLabels_of_validDNSName hn
    simp only [validDNSName, Bool.and_eq_true, Bool.not_eq_true', Bool.or_eq_false_iff,
      decide_eq_false_iff_not] at hn
    refine ⟨toLower_eq_self (validLabels_plain_dot hvalid), ⟨x, (List.append_assoc ..).symm⟩,
      ?_, ?_⟩
    · rw [trimSuffix_append]
      exact fun l hl => validLabel_iff.1 (List.all_eq_true.1 hvalid l hl)
    · rw [List.length_append, List.length_singleton]
      omega

theorem CanonicalHostname.ne_nil (h : CanonicalHostname d r) : r ≠ [] :=
  (canonicalHostname_iff.1 h).ne_nil

theorem CanonicalHostname.ascii (h : CanonicalHostname d r) : IsAscii r := by
  obtain ⟨n, rfl, hn, -⟩ := canonicalHostname_iff.1 h
  exact fun b hb => (validLabels_plain_dot (validLabels_of_validDNSName hn) b hb).1

/-- A domain with a canonical host name is valid. -/
theorem CanonicalHostname.domain_valid (h : CanonicalHostname d r) : validDNSName d = true := by
  obtain ⟨n, -, hn, x, rfl⟩ := canonicalHostname_iff.1 h
  simp only [validDNSName, Bool.and_eq_true, Bool.not_eq_true', Bool.or_eq_false_iff,
    decide_eq_false_iff_not, validLabels_append, List.length_append, List.length_cons] at hn ⊢
  have hpos := List.length_pos_iff.2 fun hnil : d = [] =>
    absurd (hnil ▸ hn.2.2 : validLabels [] = true) (by decide)
  exact ⟨⟨by omega, by omega⟩, hn.2.2⟩

end

/-! ## The results of `NormalizeHostname` -/

section
variable {domain h h' r : GoString}

/-- A result is empty or canonical. -/
theorem normalizeHostname_canonical (h domain : GoString) :
    normalizeHostname h domain = [] ∨
      CanonicalHostname (canonicalDomain domain) (normalizeHostname h domain) := by
  by_cases hd : validDNSName (canonicalDomain domain) = true
  · rw [normalizeHostname_canonicalDomain hd, canonicalHostname_iff]
    exact normalizeHostname_cases hd h
  · exact .inl (normalizeHostname_of_invalid hd h)

/-- The strings that `NormalizeHostname` returns unchanged. -/
theorem normalizeHostname_fixed :
    normalizeHostname r domain = r ∧ r ≠ [] ↔ CanonicalHostname (canonicalDomain domain) r := by
  constructor
  · rintro ⟨hfix, hne⟩
    have hcases := normalizeHostname_canonical r domain
    rw [hfix] at hcases
    exact hcases.resolve_left hne
  · intro hr
    rw [normalizeHostname_canonicalDomain hr.domain_valid]
    exact ⟨(canonicalHostname_iff.1 hr).normalize hr.domain_valid, hr.ne_nil⟩

/-- A second run changes nothing. -/
theorem normalizeHostname_idem (h domain : GoString) :
    normalizeHostname (normalizeHostname h domain) domain = normalizeHostname h domain := by
  rcases normalizeHostname_canonical h domain with hnil | hr
  · have hempty : validDNSName (toLower (trimSuffix [] [dot])) = false := by decide
    rw [hnil]
    simp only [normalizeHostname, hempty, Bool.not_false, Bool.or_true, if_true]
  · exact (normalizeHostname_fixed.2 hr).1

/-- The host name in lower case, without one final dot, and below `d` if it is a single label. -/
def qualified (d h : GoString) : GoString :=
  let name := trimSuffix (foldCase h) [dot]
  if dot ∈ name then name else name ++ dot :: d

/-- What `NormalizeHostname` makes of an ASCII string it does not refuse. -/
theorem normalizeHostname_eq_qualified (ha : IsAscii h) (hne : normalizeHostname h domain ≠ []) :
    normalizeHostname h domain = qualified (canonicalDomain domain) h ++ [dot] := by
  simp only [normalizeHostname, qualified, toLower_trimSuffix ha] at hne ⊢
  generalize trimSuffix (foldCase h) [dot] = name at hne ⊢
  -- the refusals return the empty string; what is left depends on whether there is a dot
  split_ifs at hne ⊢
  all_goals first | exact absurd rfl hne | rfl

theorem normalizeHostname_eq_iff (ha : IsAscii h) (ha' : IsAscii h')
    (hne : normalizeHostname h domain ≠ []) (hne' : normalizeHostname h' domain ≠ []) :
    normalizeHostname h domain = normalizeHostname h' domain ↔
      qualified (canonicalDomain domain) h = qualified (canonicalDomain domain) h' := by
  rw [normalizeHostname_eq_qualified ha hne, normalizeHostname_eq_qualified ha' hne',
    List.append_left_inj]

end

/-- The laws of `NormalizeHostname`, for every domain: its results are empty or canonical, it is
idempotent, and two ASCII strings it does not refuse have the same result exactly when they are the
same name. So the names the manager stores are those that `restore` accepts, and one is found by
exactly the strings that are the same name. -/
theorem hostname_canonicalization (domain : GoString) :
    (∀ h, normalizeHostname h domain = [] ∨
      CanonicalHostname (canonicalDomain domain) (normalizeHostname h domain)) ∧
    (∀ h, normalizeHostname (normalizeHostname h domain) domain = normalizeHostname h domain) ∧
    (∀ h h', IsAscii h → IsAscii h' → normalizeHostname h domain ≠ [] →
      normalizeHostname h' domain ≠ [] →
      (normalizeHostname h domain = normalizeHostname h' domain ↔
        qualified (canonicalDomain domain) h = qualified (canonicalDomain domain) h')) ∧
    (∀ r, normalizeHostname r domain = r ∧ r ≠ [] ↔
      CanonicalHostname (canonicalDomain domain) r) ∧
    ∀ h r, IsAscii h → normalizeHostname h domain ≠ [] →
      CanonicalHostname (canonicalDomain domain) r →
      (normalizeHostname h domain = r ↔
        qualified (canonicalDomain domain) h = qualified (canonicalDomain domain) r) := by
  refine ⟨fun h => normalizeHostname_canonical h domain, fun h => normalizeHostname_idem h domain,
    fun h h' => normalizeHostname_eq_iff, fun r => normalizeHostname_fixed, fun h r ha hne hr => ?_⟩
  obtain ⟨hfix, hr'⟩ := normalizeHostname_fixed.2 hr
  have hiff := normalizeHostname_eq_iff ha hr.ascii hne (hfix.symm ▸ hr')
  rwa [hfix] at hiff

/-- Two spellings of a host name, and a name equal to the domain's label. -/
theorem hostname_canonicalization_sample :
    normalizeHostname (str "Host") (str " LAN. ") =
        normalizeHostname (str "HOST.lan.") (str "lan") ∧
      qualified (canonicalDomain (str " LAN. ")) (str "Host") = str "host.lan" ∧
      normalizeHostname (str "lan") (str "lan") = str "lan.lan." ∧
      CanonicalHostname (str "lan") (str "lan.lan.") := by
  obtain ⟨-, -, -, hfixed, -⟩ := hostname_canonicalization (str "lan")
  refine ⟨by decide +kernel, by decide +kernel, by decide +kernel, ?_⟩
  exact (hfixed (str "lan.lan.")).1 (by decide +kernel)

end InfraBox
