import InfraBox.Lib.DomainName

/-!
# Host names

`lease.NormalizeHostname` and `validDNSName` (`internal/lease/hostname.go`). The label loop of
`validDNSName` occurs in five packages; `validLabels` is that loop. A name the normalisation returns
is a text of valid labels that end in the domain's (`HostnameUnder`), and it is a fixed point
(`HostnameUnder.normalize`): this is what lets a stored name be checked again when it is read back.
-/

namespace InfraBox

variable {n : GoString}

/-! ## The label loop -/

/-- A rune of a host name label: `(c >= 'a' && c <= 'z') || (c >= '0' && c <= '9') || c == '-'`. -/
def nameRune (r : Nat) : Bool :=
  ('a'.toNat ≤ r && r ≤ 'z'.toNat) || ('0'.toNat ≤ r && r ≤ '9'.toNat) || r = '-'.toNat

/-- The loop body: 1 to 63 bytes, no hyphen at either end, and only name runes. -/
def validLabel (label : GoString) : Bool :=
  !(label.length = 0 || 63 < label.length || label.head? = some hyphen ||
    label.getLast? = some hyphen) && (runes label).all nameRune

/-- The loop over `strings.SplitSeq(name, ".")`. -/
def validLabels (name : GoString) : Bool := (name.splitOn dot).all validLabel

/-- `validDNSName`. -/
def validDNSName (name : GoString) : Bool :=
  !(name.length = 0 || 253 < name.length) && validLabels name

theorem nameRune_iff {r : Nat} :
    nameRune r = true ↔ (97 ≤ r ∧ r ≤ 122) ∨ (48 ≤ r ∧ r ≤ 57) ∨ r = 45 := by
  simp [nameRune, or_assoc]

theorem nameRune_lt {r : Nat} (h : nameRune r = true) : r < 0x80 := by
  rw [nameRune_iff] at h
  omega

/-- The bytes of a valid label are lower-case letters, digits and hyphens. -/
theorem validLabel_bytes {l : GoString} (h : validLabel l = true) :
    ∀ b ∈ l, nameRune b.toNat = true := by
  simp only [validLabel, Bool.and_eq_true] at h
  exact (all_runes (fun _ => nameRune_lt) l).1 h.2

theorem validLabel_ne_nil {l : GoString} (h : validLabel l = true) : l ≠ [] := by
  rintro rfl
  simp [validLabel] at h

theorem validLabel_length {l : GoString} (h : validLabel l = true) : l.length ≤ 63 := by
  simp only [validLabel, Bool.and_eq_true, Bool.not_eq_true', Bool.or_eq_false_iff,
    decide_eq_false_iff_not] at h
  exact Nat.not_lt.1 h.1.1.1.2

/-- What a name byte is not. -/
theorem nameByte_plain {b : UInt8} (h : nameRune b.toNat = true) :
    b < 0x80 ∧ isUpper b = false ∧ isSpace b.toNat = false ∧
      b ≠ dot ∧ b ≠ backslash ∧ b ≠ star := by
  rw [nameRune_iff] at h
  have hA : 'A'.toUInt8.toNat = 65 := rfl
  have hZ : 'Z'.toUInt8.toNat = 90 := rfl
  refine ⟨?_, ?_, ?_, ?_, ?_, ?_⟩
  · rw [UInt8.lt_iff_toNat_lt]; simp only [UInt8.reduceToNat]; omega
  · simp only [isUpper, Bool.and_eq_false_iff, decide_eq_false_iff_not, UInt8.le_iff_toNat_le]
    omega
  · simp only [isSpace, Bool.or_eq_false_iff, Bool.and_eq_false_iff, decide_eq_false_iff_not]
    omega
  · rintro rfl
    have : dot.toNat = 46 := rfl
    omega
  · rintro rfl
    have : backslash.toNat = 92 := rfl
    omega
  · rintro rfl
    have : star.toNat = 42 := rfl
    omega

/-- The bytes of a name with valid labels are name bytes and dots. -/
theorem validLabels_bytes (h : validLabels n = true) :
    ∀ b ∈ n, b = dot ∨ nameRune b.toNat = true := by
  intro b hb
  have hb' : b ∈ render (n.splitOn dot) := by
    rw [render_splitOn]; exact List.mem_append_left _ hb
  obtain ⟨l, hl, hbl⟩ := List.mem_flatMap.1 hb'
  rcases List.mem_append.1 hbl with hbl | hbl
  · exact .inr (validLabel_bytes (List.all_eq_true.1 h l hl) b hbl)
  · exact .inl (List.mem_singleton.1 hbl)

theorem validLabels_plain (h : validLabels n = true) :
    ∀ b ∈ n, b < 0x80 ∧ isUpper b = false ∧ isSpace b.toNat = false := by
  intro b hb
  rcases validLabels_bytes h b hb with rfl | hb
  · decide
  · exact ⟨(nameByte_plain hb).1, (nameByte_plain hb).2.1, (nameByte_plain hb).2.2.1⟩

/-- The same holds with a final dot. -/
theorem validLabels_plain_dot (h : validLabels n = true) :
    ∀ b ∈ n ++ [dot], b < 0x80 ∧ isUpper b = false := by
  intro b hb
  rcases List.mem_append.1 hb with hb | hb
  · exact ⟨(validLabels_plain h b hb).1, (validLabels_plain h b hb).2.1⟩
  · rw [List.mem_singleton.1 hb]; decide

theorem validLabels_ascii (h : validLabels n = true) : IsAscii n :=
  fun b hb => (validLabels_plain h b hb).1

theorem validLabels_toLower (h : validLabels n = true) : toLower n = n :=
  toLower_eq_self fun b hb => ⟨(validLabels_plain h b hb).1, (validLabels_plain h b hb).2.1⟩

theorem validLabels_trimSpace (h : validLabels n = true) : trimSpace n = n :=
  trimSpace_eq_self (validLabels_ascii h) fun b hb => (validLabels_plain h b hb).2.2

/-- A name with valid labels does not end in a dot: its last label is not empty. -/
theorem validLabels_not_dot_suffix (h : validLabels n = true) : ¬ [dot] <:+ n := by
  rintro ⟨x, rfl⟩
  have hmem : ([] : GoString) ∈ (x ++ [dot]).splitOn dot := by
    rw [List.splitOn_append_cons_self]; simp
  exact validLabel_ne_nil (List.all_eq_true.1 h _ hmem) rfl

theorem validLabels_trimSuffix (h : validLabels n = true) :
    trimSuffix n [dot] = n :=
  trimSuffix_of_not_suffix (validLabels_not_dot_suffix h)

/-- Names with valid labels join with a dot. -/
theorem validLabels_append {n m : GoString} :
    validLabels (n ++ dot :: m) = true ↔ validLabels n = true ∧ validLabels m = true := by
  simp only [validLabels, List.splitOn_append_cons_self, List.all_append, Bool.and_eq_true]

theorem validLabels_of_validDNSName (h : validDNSName n = true) :
    validLabels n = true := (Bool.and_eq_true_iff.1 h).2

/-! ## `NormalizeHostname` -/

/-- `strings.ToLower(strings.TrimSuffix(strings.TrimSpace(domain), "."))`. -/
def canonicalDomain (domain : GoString) : GoString :=
  toLower (trimSuffix (trimSpace domain) [dot])

/-- `NormalizeHostname`: the lower-case, fully qualified host name under `domain`, or the empty
string for a name that is invalid or outside the domain. -/
def normalizeHostname (hostname domain : GoString) : GoString :=
  let domain := canonicalDomain domain
  let hostname := toLower (trimSuffix hostname [dot])
  if !validDNSName domain || !validDNSName hostname then []
  else if dot ∉ hostname then
    let hostname := hostname ++ dot :: domain
    if !validDNSName hostname then [] else hostname ++ [dot]
  else if ¬ (dot :: domain <:+ hostname) then []
  else if !validDNSName hostname then [] else hostname ++ [dot]

/-- A valid domain is its own canonical form. -/
theorem canonicalDomain_of_valid {d : GoString} (hd : validDNSName d = true) :
    canonicalDomain d = d := by
  have h := validLabels_of_validDNSName hd
  rw [canonicalDomain, validLabels_trimSpace h, validLabels_trimSuffix h,
    validLabels_toLower h]

/-- Only the canonical form of the domain matters. -/
theorem normalizeHostname_canonicalDomain {domain : GoString}
    (hd : validDNSName (canonicalDomain domain) = true) (h : GoString) :
    normalizeHostname h domain = normalizeHostname h (canonicalDomain domain) := by
  simp only [normalizeHostname, canonicalDomain_of_valid hd]

/-- An invalid domain has no host names. -/
theorem normalizeHostname_of_invalid {domain : GoString}
    (hd : ¬ validDNSName (canonicalDomain domain) = true) (h : GoString) :
    normalizeHostname h domain = [] := by
  rw [Bool.not_eq_true] at hd
  simp only [normalizeHostname, hd, Bool.not_false, Bool.true_or, if_true]

/-- A fully qualified host name strictly below the domain `d`. -/
def HostnameUnder (d r : GoString) : Prop :=
  ∃ n, r = n ++ [dot] ∧ validDNSName n = true ∧ dot :: d <:+ n

/-- `NormalizeHostname` returns the empty string or a host name under the domain. -/
theorem normalizeHostname_cases {d : GoString} (hd : validDNSName d = true) (h : GoString) :
    normalizeHostname h d = [] ∨ HostnameUnder d (normalizeHostname h d) := by
  simp only [normalizeHostname, canonicalDomain_of_valid hd]
  generalize toLower (trimSuffix h [dot]) = n
  split
  · exact .inl rfl
  split
  · split
    · exact .inl rfl
    · next hv => exact .inr ⟨_, rfl, by simpa using hv, n, rfl⟩
  split
  · exact .inl rfl
  split
  · exact .inl rfl
  · next hs hv => exact .inr ⟨_, rfl, by simpa using hv, by simpa using hs⟩

/-- A host name under the domain is a fixed point of `NormalizeHostname`. -/
theorem HostnameUnder.normalize {d r : GoString} (hd : validDNSName d = true)
    (hr : HostnameUnder d r) : normalizeHostname r d = r := by
  obtain ⟨n, rfl, hn, hs⟩ := hr
  have hdot : dot ∈ n := hs.subset (.head _)
  simp [normalizeHostname, canonicalDomain_of_valid hd,
    validLabels_toLower (validLabels_of_validDNSName hn), hd, hn, hdot, hs]

/-- A valid name below the domain only gets its final dot. -/
theorem normalizeHostname_below {d n : GoString} (hd : validDNSName d = true)
    (hn : validDNSName n = true) (hs : dot :: d <:+ n) : normalizeHostname n d = n ++ [dot] := by
  have hdot : dot ∈ n := hs.subset (.head _)
  have hl := validLabels_of_validDNSName hn
  simp [normalizeHostname, canonicalDomain_of_valid hd, validLabels_trimSuffix hl,
    validLabels_toLower hl, hd, hn, hdot, hs]

/-- The names that `NormalizeHostname` leaves as they are, up to the final dot. -/
theorem trimSuffix_normalizeHostname {d n : GoString} (hd : validDNSName d = true) (hne : n ≠ []) :
    trimSuffix (normalizeHostname n d) [dot] = n ↔ validDNSName n = true ∧ dot :: d <:+ n := by
  constructor
  · intro h
    rcases normalizeHostname_cases hd n with hnil | ⟨x, hx, hvalid, hs⟩
    · rw [hnil] at h
      exact absurd h.symm hne
    · rw [hx, trimSuffix_append] at h
      exact h ▸ ⟨hvalid, hs⟩
  · rintro ⟨hn, hs⟩
    rw [normalizeHostname_below hd hn hs, trimSuffix_append]

theorem HostnameUnder.ne_nil {d r : GoString} (hr : HostnameUnder d r) : r ≠ [] := by
  obtain ⟨n, rfl, -, -⟩ := hr
  simp

/-- A host name is the text of valid labels that end in the labels of the domain. -/
theorem HostnameUnder.labels {d r : GoString} (hr : HostnameUnder d r) :
    ∃ pre, pre ≠ [] ∧ (∀ l ∈ pre, validLabel l = true) ∧ r = render (pre ++ d.splitOn dot) := by
  obtain ⟨n, rfl, hn, x, rfl⟩ := hr
  rw [validDNSName, Bool.and_eq_true, validLabels_append] at hn
  refine ⟨x.splitOn dot, List.splitOn_ne_nil _ _, List.all_eq_true.1 hn.2.1, ?_⟩
  rw [render_append, render_splitOn, render_splitOn]
  simp

end InfraBox
