import InfraBox.Lease.Hostname

/-!
# Names of static records

`dnsname.NormalizeARecord` (`internal/dnsname/name.go`). What it returns is the text of valid
labels, possibly after a leftmost wildcard label (`RecordName`), and it is a fixed point
(`RecordName.normalize`), so a map of records that has been normalised once is accepted and left
unchanged the second time.
-/

namespace InfraBox

/-- `strings.CutPrefix`: the rest, and whether the string had the beginning. -/
def cutPrefix (s start : GoString) : GoString × Bool :=
  if start <+: s then (s.drop start.length, true) else (s, false)

/-- A single label other than the domain itself is relative to the domain. -/
def qualify (name domain : GoString) : GoString :=
  if name ≠ domain && dot ∉ name then name ++ dot :: domain else name

theorem qualify_cases (name domain : GoString) :
    qualify name domain = domain ∨ dot ∈ qualify name domain := by
  unfold qualify
  split
  · exact .inr (by simp)
  · next h =>
    simp only [Bool.and_eq_true, decide_eq_true_eq, not_and, not_not] at h
    exact or_iff_not_imp_left.2 h

theorem qualify_of_qualified {name domain : GoString} (h : name = domain ∨ dot ∈ name) :
    qualify name domain = name := by
  refine if_neg fun hc => ?_
  simp only [Bool.and_eq_true, decide_eq_true_eq] at hc
  exact h.elim hc.1 hc.2

/-- `NormalizeARecord`. -/
def normalizeARecord (name domain : GoString) : GoString :=
  if (runes name).any (fun c => 127 < c) then []
  else
    let domain := toLower (trimSuffix domain [dot])
    let name := toLower (trimSuffix name [dot])
    let name := if name = str "@" then domain else name
    let name := if name = [star] then star :: dot :: domain else name
    let (name, wildcard) := cutPrefix name [star, dot]
    let name := qualify name domain
    if !validLabels name then []
    else
      let name := if wildcard then star :: dot :: name else name
      if 253 < name.length then [] else name ++ [dot]

/-- A fully qualified record name: a host name, or a wildcard above one. -/
structure RecordName (domain r : GoString) : Prop where
  /-- The host name without its final dot, the part after the wildcard label. -/
  host : ∃ n, validLabels n = true ∧ (n = domain ∨ dot ∈ n) ∧
    (r = n ++ [dot] ∨ r = star :: dot :: n ++ [dot])
  length_le : r.length ≤ 254

/-- `NormalizeARecord` returns the empty string or a record name. -/
theorem normalizeARecord_cases {d : GoString} (hd : validLabels d = true) (name : GoString) :
    normalizeARecord name d = [] ∨ RecordName d (normalizeARecord name d) := by
  simp only [normalizeARecord, validLabels_trimSuffix hd, validLabels_toLower hd]
  split
  · exact .inl rfl
  generalize cutPrefix _ _ = p
  generalize hw : (if p.2 = true then star :: dot :: qualify p.1 d else qualify p.1 d) = w
  split
  · exact .inl rfl
  next hv =>
  split
  · exact .inl rfl
  next hlen =>
  refine .inr ⟨⟨_, by simpa using hv, qualify_cases p.1 d, ?_⟩, ?_⟩
  · subst hw
    split
    · exact .inr rfl
    · exact .inl rfl
  · rw [List.length_append, List.length_singleton]
    omega

/-- A record name has no byte outside ASCII, and none in upper case. -/
theorem RecordName.plain {d r : GoString} (h : RecordName d r) :
    ∀ b ∈ r, b < 0x80 ∧ isUpper b = false := by
  obtain ⟨n, hn, -, hr⟩ := h.host
  have hbytes : ∀ b ∈ n, b < 0x80 ∧ isUpper b = false := fun b hb =>
    ⟨(validLabels_plain hn b hb).1, (validLabels_plain hn b hb).2.1⟩
  intro b hb
  rcases hr with rfl | rfl
  · rcases List.mem_append.1 hb with hb | hb
    · exact hbytes b hb
    · rw [List.mem_singleton.1 hb]; decide
  · rcases List.mem_append.1 hb with hb | hb
    · rcases List.mem_cons.1 hb with rfl | hb
      · decide
      · rcases List.mem_cons.1 hb with rfl | hb
        · decide
        · exact hbytes b hb
    · rw [List.mem_singleton.1 hb]; decide

/-- A host name does not start with a wildcard label, and is not the `@` of a zone file. -/
theorem validLabels_head {n : GoString} (h : validLabels n = true) :
    n ≠ str "@" ∧ n ≠ [star] ∧ ¬ [star, dot] <+: n := by
  have hbytes := validLabels_bytes h
  refine ⟨?_, ?_, ?_⟩
  · rintro rfl
    exact absurd (hbytes _ (.head _)) (by decide)
  · rintro rfl
    exact absurd (hbytes star (.head _)) (by decide)
  · rintro ⟨t, rfl⟩
    exact absurd (hbytes star (.head _)) (by decide)

/-- A record name is its own normal form. -/
theorem RecordName.normalize {d r : GoString} (hd : validLabels d = true) (h : RecordName d r) :
    normalizeARecord r d = r := by
  have hascii : ¬ (runes r).any (fun c => 127 < c) = true := fun hany =>
    any_runes_high.1 hany fun b hb => (h.plain b hb).1
  obtain ⟨n, hn, hdot, hr⟩ := h.host
  have hlen := h.length_le
  obtain ⟨hat, hstar, hcut⟩ := validLabels_head hn
  simp only [normalizeARecord, validLabels_trimSuffix hd, validLabels_toLower hd, if_neg hascii]
  rcases hr with rfl | rfl
  · rw [trimSuffix_append, validLabels_toLower hn, if_neg hat, if_neg hstar, cutPrefix, if_neg hcut]
    have : ¬ 253 < n.length := by simp at hlen; omega
    simp [qualify_of_qualified hdot, hn, this]
  · have hlow : toLower (star :: dot :: n) = star :: dot :: n :=
      toLower_eq_self fun b hb => h.plain b (List.mem_append_left _ hb)
    have hne : star :: dot :: n ≠ str "@" := fun heq => by
      have hlen' := congrArg List.length heq
      rw [show (str "@").length = 1 from rfl, List.length_cons, List.length_cons] at hlen'
      omega
    have hne' : star :: dot :: n ≠ [star] := by simp
    have hcut' : cutPrefix (star :: dot :: n) [star, dot] = (n, true) := if_pos ⟨n, rfl⟩
    rw [trimSuffix_append, hlow, if_neg hne, if_neg hne', hcut']
    have : ¬ 253 < n.length + 1 + 1 := by simp at hlen; omega
    simp [qualify_of_qualified hdot, hn, this]

end InfraBox
