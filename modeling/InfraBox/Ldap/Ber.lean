import InfraBox.Lib.Tlv
import InfraBox.Ldap.Packet

/-!
# Checks before BER decoding

`validateBER` of `internal/ldapserver/protocol.go`. An access outside the data
would be a `Fault.outOfRange`. The checks of one element are `elementHeader`, which accepts exactly
an element that lies in the data (`elementHeader_eq_ok`); `validateBER` takes the elements one after
the other, with one counter for all levels, and accepts exactly the grammar `ldapGrammar`.
-/

namespace InfraBox.Ldap

open Tlv

def maxBERDepth : Nat := 32
def maxBERNodes : Nat := 4096
def tagNull : Nat := 5

/-- Why a check stops: an access outside the data, or `errMalformedMessage`. -/
inductive Fault where
  | outOfRange
  | malformed
deriving DecidableEq

/-- An access to a slice. -/
def inRange {α : Type} : Option α → Except Fault α
  | some a => .ok a
  | none => .error .outOfRange

/-- The tag of an element, the size of its header and the length of its contents. -/
structure Header where
  tag : UInt8
  size : Nat
  length : Nat

/-- `header` and `length` in the loop of `validateBER`, from the first length byte. -/
def lengthOctets (data : GoString) (length : UInt8) : Except Fault (Nat × Nat) :=
  if length &&& 0x80 ≠ 0 then
    let n := (length &&& 0x7f).toNat
    if n = 0 ∨ n > 4 ∨ data.length < 2 + n then .error .malformed
    else do
      let octets ← inRange (slice data 2 (2 + n))
      return (2 + n, beNat octets)
  else .ok (2, length.toNat)

/-- The checks of an element's header in the loop of `validateBER`. -/
def elementHeader (data : GoString) (nodes : Nat) : Except Fault Header :=
  if nodes > maxBERNodes ∨ data.length < 2 then .error .malformed
  else do
    let tag ← inRange data[0]?
    if tag &&& 0x1f = 0x1f then .error .malformed
    else
      let length ← inRange data[1]?
      let (size, length) ← lengthOctets data length
      if (length : Int) > data.length - size then .error .malformed
      else return ⟨tag, size, length⟩

/-- The element at the front of the data: its tag, its contents and what follows it. -/
def nextElement (data : GoString) (nodes : Nat) : Except Fault (UInt8 × GoString × GoString) := do
  let h ← elementHeader data nodes
  let content ← inRange (slice data h.size (h.size + h.length))
  let rest ← inRange (slice data (h.size + h.length) data.length)
  return (h.tag, content, rest)

/-- The lengths of primitive elements: those of the universal class are of five types. -/
def primitiveOk (tag : UInt8) (length : Nat) : Bool :=
  if tag &&& 0xc0 = 0 then
    let number := (tag &&& 0x1f).toNat
    if number = tagBoolean then length = 1
    else if number = tagInteger ∨ number = tagEnumerated then 1 ≤ length ∧ length ≤ 4
    else number = tagOctetString ∨ number = tagNull
  else true

/-! ## One element -/

theorem toNat_and_long (b : UInt8) : (b &&& 0x7f).toNat = b.toNat % 128 := by
  rw [UInt8.toNat_and]
  exact Nat.and_two_pow_sub_one_eq_mod _ 7

theorem and_long_ne_zero (b : UInt8) : b &&& 0x80 ≠ 0 ↔ 128 ≤ b.toNat := by
  rw [ne_eq, ← UInt8.toNat_inj, UInt8.toNat_and]
  exact and_top_bit_ne_zero b.toNat_lt

section
variable {tag first : UInt8} {more octets content rest : GoString} {length size nodes : Nat}

/-- A length is read as it is meant. -/
theorem lengthOctets_of_octets (h : LengthOctets 4 (first :: more) length) (rest : GoString) :
    lengthOctets (tag :: (first :: more ++ rest)) first = .ok (2 + more.length, length) := by
  unfold lengthOctets
  dsimp only
  cases h with
  | short hb =>
    rw [if_neg (by rw [and_long_ne_zero]; omega)]
    rfl
  | long hb hpos hle =>
    have hn : (first &&& 0x7f).toNat = more.length := by rw [toNat_and_long]; omega
    have hslice : slice (tag :: (first :: more ++ rest)) 2 (2 + more.length) = some more :=
      slice_eq_some.2 ⟨by omega, by omega, [tag, first], rest, rfl, rfl⟩
    rw [if_pos (by rw [and_long_ne_zero]; omega), hn, if_neg, hslice]
    · rfl
    · simp only [List.length_cons, List.cons_append, List.length_append]
      omega

/-- Bytes that are read as a length give that length. -/
theorem lengthOctets_ok
    (h : lengthOctets (tag :: first :: more) first = .ok (size, length)) :
    ∃ octets rest, LengthOctets 4 octets length ∧ first :: more = octets ++ rest ∧
      size = 1 + octets.length := by
  unfold lengthOctets at h
  dsimp only at h
  split_ifs at h with hlong hbad
  · rw [and_long_ne_zero] at hlong
    have hlt : first.toNat < 256 := first.toNat_lt
    rw [toNat_and_long] at hbad h
    cases hslice : slice (tag :: first :: more) 2 (2 + first.toNat % 128) with
    | none => rw [hslice] at h; cases h
    | some bs =>
      rw [hslice] at h
      cases h
      obtain ⟨-, hlen, before, after, hbefore, hdata⟩ := slice_eq_some.1 hslice
      obtain ⟨a, b, rfl⟩ := List.length_eq_two.1 hbefore
      simp only [List.cons_append, List.nil_append, List.cons.injEq] at hdata
      obtain ⟨-, -, rfl⟩ := hdata
      refine ⟨first :: bs, after, .long ?_ ?_ ?_, rfl, ?_⟩
      all_goals simp at hbad ⊢; omega
  · cases h
    rw [and_long_ne_zero] at hlong
    exact ⟨[first], more, .short (by omega), rfl, rfl⟩

/-- The length bytes are read within the data. -/
theorem lengthOctets_ne_outOfRange :
    lengthOctets (tag :: first :: more) first ≠ .error .outOfRange := by
  unfold lengthOctets
  dsimp only
  split_ifs with hlong hbad
  · simp
  · have hslice : (slice (tag :: first :: more) 2 (2 + (first &&& 0x7f).toNat)).isSome := by
      rw [slice, if_pos (by omega)]; rfl
    obtain ⟨octets, hoctets⟩ := Option.isSome_iff_exists.1 hslice
    rw [hoctets]
    simp [inRange]
  · simp

/-- The checks, for data that hold a header at all. -/
theorem elementHeader_cons :
    elementHeader (tag :: first :: more) nodes =
      if nodes > maxBERNodes ∨ tag &&& 0x1f = 0x1f then .error .malformed
      else match lengthOctets (tag :: first :: more) first with
        | .error fault => .error fault
        | .ok (size, length) =>
          if (length : Int) > (tag :: first :: more).length - size then .error .malformed
          else .ok ⟨tag, size, length⟩ := by
  have hlen : ¬ (tag :: first :: more).length < 2 := by simp
  by_cases hnodes : nodes > maxBERNodes
  · simp [elementHeader, hnodes]
  by_cases htag : tag &&& 0x1f = 0x1f
  · simp [elementHeader, htag, inRange, bind, Except.bind]
  rw [elementHeader, if_neg (not_or_intro hnodes hlen), if_neg (not_or_intro hnodes htag)]
  cases hread : lengthOctets (tag :: first :: more) first with
  | error fault => simp [htag, hread, inRange, bind, Except.bind]
  | ok p => simp [htag, hread, inRange, bind, Except.bind, pure, Except.pure]

/-- The header of an element that lies in the data is accepted, while the counter allows it. -/
theorem elementHeader_of_element (hnodes : nodes ≤ maxBERNodes) (htag : tag &&& 0x1f ≠ 0x1f)
    (hlength : LengthOctets 4 octets content.length) :
    elementHeader (tag :: (octets ++ (content ++ rest))) nodes =
      .ok ⟨tag, 1 + octets.length, content.length⟩ := by
  obtain ⟨first, more, rfl⟩ := hlength.exists_cons
  have hread : lengthOctets (tag :: first :: (more ++ (content ++ rest))) first =
      .ok (2 + more.length, content.length) := lengthOctets_of_octets hlength _
  have hfits : ¬ (content.length : Int) >
      (tag :: first :: (more ++ (content ++ rest))).length - ((2 + more.length : Nat) : Int) := by
    simp only [List.length_cons, List.length_append]
    omega
  have hsize : 2 + more.length = 1 + (first :: more).length := by rw [List.length_cons]; omega
  rw [List.cons_append, elementHeader_cons, if_neg (not_or_intro (by omega) htag), hread]
  dsimp only
  rw [if_neg hfits, hsize]

/-- An accepted header is that of an element that lies in the data. -/
theorem elementHeader_ok {data : GoString} {h : Header} (hok : elementHeader data nodes = .ok h) :
    nodes ≤ maxBERNodes ∧ h.tag &&& 0x1f ≠ 0x1f ∧ ∃ octets content rest,
      data = h.tag :: (octets ++ (content ++ rest)) ∧ LengthOctets 4 octets content.length ∧
      h.size = 1 + octets.length ∧ h.length = content.length := by
  match data with
  | [] | [_] => simp [elementHeader] at hok
  | tag :: first :: more =>
    rw [elementHeader_cons] at hok
    split_ifs at hok with hbad
    split at hok
    · cases hok
    · rename_i size length hread
      split_ifs at hok with hfits
      cases hok
      obtain ⟨octets, rest, hoctets, hdata, rfl⟩ := lengthOctets_ok hread
      have hlen := congrArg List.length hdata
      simp only [List.length_cons, List.length_append] at hlen hfits
      have hle : length ≤ rest.length := by omega
      have htake : (rest.take length).length = length := List.length_take_of_le hle
      refine ⟨by omega, fun htag => hbad (.inr htag), octets, rest.take length, rest.drop length,
        ?_, ?_, rfl, htake.symm⟩
      · rw [hdata, List.take_append_drop]
      · rwa [htake]

/-- The header is read within the data. -/
theorem elementHeader_ne_outOfRange {data : GoString} :
    elementHeader data nodes ≠ .error .outOfRange := by
  match data with
  | [] | [_] => simp [elementHeader]
  | tag :: first :: more =>
    rw [elementHeader_cons]
    split_ifs with hbad
    · simp
    · split
      · rename_i fault hread
        intro h
        cases h
        exact lengthOctets_ne_outOfRange hread
      · split_ifs <;> simp

/-- An element at the front of the data is split off, while the counter allows it. -/
theorem nextElement_of_element (hnodes : nodes ≤ maxBERNodes) (htag : tag &&& 0x1f ≠ 0x1f)
    (hlength : LengthOctets 4 octets content.length) :
    nextElement (tag :: (octets ++ (content ++ rest))) nodes = .ok (tag, content, rest) := by
  have hcontent : slice (tag :: (octets ++ (content ++ rest))) (1 + octets.length)
      (1 + octets.length + content.length) = some content :=
    slice_eq_some.2 ⟨by omega, by omega, tag :: octets, rest, by simp; omega, by simp⟩
  have hrest : slice (tag :: (octets ++ (content ++ rest))) (1 + octets.length + content.length)
      (tag :: (octets ++ (content ++ rest))).length = some rest :=
    slice_eq_some.2 ⟨by simp; omega, by simp; omega, tag :: (octets ++ content), [],
      by simp; omega, by simp⟩
  rw [nextElement, elementHeader_of_element hnodes htag hlength]
  simp only [bind, Except.bind, hcontent, hrest, inRange]
  rfl

/-- What is split off is an element at the front of the data, and nothing outside is read. -/
theorem nextElement_cases (data : GoString) (nodes : Nat) :
    nextElement data nodes = .error .malformed ∨
    ∃ tag octets content rest, nextElement data nodes = .ok (tag, content, rest) ∧
      data = tag :: (octets ++ (content ++ rest)) ∧ nodes ≤ maxBERNodes ∧ tag &&& 0x1f ≠ 0x1f ∧
      LengthOctets 4 octets content.length := by
  cases hheader : elementHeader data nodes with
  | error fault =>
    cases fault with
    | outOfRange => exact absurd hheader elementHeader_ne_outOfRange
    | malformed => exact .inl (by simp [nextElement, hheader, bind, Except.bind])
  | ok h =>
    obtain ⟨hnodes, htag, octets, content, rest, rfl, hlength, -⟩ := elementHeader_ok hheader
    exact .inr ⟨h.tag, octets, content, rest, nextElement_of_element hnodes htag hlength, rfl,
      hnodes, htag, hlength⟩

/-- The contents and the rest are shorter than the data. -/
theorem nextElement_length {data : GoString}
    (h : nextElement data nodes = .ok (tag, content, rest)) :
    content.length < data.length ∧ rest.length < data.length := by
  rcases nextElement_cases data nodes with hbad | ⟨tag', octets, content', rest', hok, rfl, -⟩
  · rw [h] at hbad
    cases hbad
  · rw [h] at hok
    cases hok
    simp only [List.length_cons, List.length_append]
    omega

end

/-! ## The loop -/

mutual

/-- `validateBER`: the counter, or why the data are refused. -/
def validateBER (data : GoString) (depth nodes : Nat) : Except Fault Nat :=
  if depth ≥ maxBERDepth then .error .malformed
  else validateElements data depth nodes
termination_by (data.length, 1)

/-- The loop of `validateBER`. -/
def validateElements (data : GoString) (depth nodes : Nat) : Except Fault Nat :=
  if data.length = 0 then .ok nodes
  else
    match hnext : nextElement data (nodes + 1) with
    | .error fault => .error fault
    | .ok (tag, content, rest) =>
      if tag &&& 0x20 ≠ 0 then
        match validateBER content (depth + 1) (nodes + 1) with
        | .error fault => .error fault
        | .ok nodes => validateElements rest depth nodes
      else if primitiveOk tag content.length then validateElements rest depth (nodes + 1)
      else .error .malformed
termination_by (data.length, 0)
decreasing_by
  · exact .left _ _ (nextElement_length hnext).1
  · exact .left _ _ (nextElement_length hnext).2
  · exact .left _ _ (nextElement_length hnext).2

end

section
variable {tag : UInt8} {data octets content rest : GoString} {depth nodes count : Nat}

theorem validateElements_nil : validateElements [] depth nodes = .ok nodes := by
  simp [validateElements]

/-- One round of the loop takes one element, whatever follows it. -/
theorem validateElements_element (hne : data ≠ [])
    (hnext : nextElement data (nodes + 1) = .ok (tag, content, rest)) :
    validateElements data depth nodes =
      if tag &&& 0x20 ≠ 0 then
        match validateBER content (depth + 1) (nodes + 1) with
        | .error fault => .error fault
        | .ok nodes => validateElements rest depth nodes
      else if primitiveOk tag content.length then validateElements rest depth (nodes + 1)
      else .error .malformed := by
  rw [validateElements, if_neg (by simpa using hne)]
  split
  · rename_i fault hfault
    rw [hnext] at hfault
    cases hfault
  · rename_i tag' content' rest' hok
    rw [hnext] at hok
    cases hok
    rfl

/-- An element that is refused ends the loop. -/
theorem validateElements_refused (hne : data ≠ [])
    (hnext : nextElement data (nodes + 1) = .error .malformed) :
    validateElements data depth nodes = .error .malformed := by
  rw [validateElements, if_neg (by simpa using hne)]
  split
  · rename_i fault hfault
    rw [hnext] at hfault
    cases hfault
    rfl
  · rename_i hok
    rw [hnext] at hok
    cases hok

end

/-! ## The grammar -/

/-- What `validateBER` accepts: tags of one byte, lengths of at most four bytes after the first,
contents of constructed elements down to depth 31, and of the universal class only booleans of one
byte, integers and enumerated values of one to four bytes, octet strings and nulls. -/
def ldapGrammar : Grammar where
  maxOctets := 4
  maxDepth := 31
  tag tag := tag &&& 0x1f ≠ 0x1f
  constructed tag := tag &&& 0x20 ≠ 0
  primitive tag length := tag &&& 0xc0 = 0 →
    (tag &&& 0x1f).toNat = tagBoolean ∧ length = 1 ∨
    (tag &&& 0x1f).toNat ∈ [tagInteger, tagEnumerated] ∧ 1 ≤ length ∧ length ≤ 4 ∨
    (tag &&& 0x1f).toNat ∈ [tagOctetString, tagNull]

/-- The switch over primitive tags is the grammar's. -/
theorem primitiveOk_iff (tag : UInt8) (length : Nat) :
    primitiveOk tag length = true ↔ ldapGrammar.primitive tag length := by
  by_cases hclass : tag &&& 0xc0 = 0
  · simp only [primitiveOk, ldapGrammar, hclass, if_true, true_imp_iff, List.mem_cons,
      List.not_mem_nil, or_false]
    generalize (tag &&& 0x1f).toNat = number
    by_cases hbool : number = tagBoolean
    · subst hbool
      simp [tagBoolean, tagInteger, tagEnumerated, tagOctetString, tagNull]
    by_cases hint : number = tagInteger ∨ number = tagEnumerated
    · have hother : ¬ (number = tagOctetString ∨ number = tagNull) := by
        rcases hint with rfl | rfl <;> decide
      simp [hbool, hint, hother]
    · simp [hbool, hint]
  · simp [primitiveOk, ldapGrammar, hclass]

section
variable {data : GoString} {depth nodes count : Nat}

/-- The loop refuses the data, or they are elements and the counter has gone up by their number. -/
theorem validateElements_cases (hdepth : depth < maxBERDepth) (hnodes : nodes ≤ maxBERNodes) :
    validateElements data depth nodes = .error .malformed ∨
    ∃ count, validateElements data depth nodes = .ok (nodes + count) ∧
      nodes + count ≤ maxBERNodes ∧ Elements ldapGrammar depth data count := by
  -- the contents and what follows an element are shorter than the data
  induction hlen : data.length using Nat.strong_induction_on generalizing data depth nodes with
  | _ len ih =>
  by_cases hne : data = []
  · subst hne
    exact .inr ⟨0, validateElements_nil, hnodes, .nil⟩
  rcases nextElement_cases data (nodes + 1) with hbad | hok
  · exact .inl (validateElements_refused hne hbad)
  obtain ⟨tag, octets, content, rest, hnext, hdata, hnodes', htag, hlength⟩ := hok
  obtain ⟨hcontent, hrest⟩ := nextElement_length hnext
  rw [validateElements_element hne hnext, hdata]
  by_cases hcons : tag &&& 0x20 ≠ 0
  · rw [if_pos hcons, validateBER]
    by_cases hdeep : depth + 1 ≥ maxBERDepth
    · exact .inl (by rw [if_pos hdeep])
    have hdepth' : depth + 1 < maxBERDepth := Nat.lt_of_not_ge hdeep
    rw [if_neg hdeep]
    rcases ih _ (hlen ▸ hcontent) hdepth' hnodes' rfl with hin | ⟨inner, hin, hle, hinner⟩
    · exact .inl (by rw [hin])
    rw [hin]
    rcases ih _ (hlen ▸ hrest) hdepth hle rfl with hafter | ⟨count, hafter, hle', hcount⟩
    · exact .inl hafter
    refine .inr ⟨1 + inner + count, ?_, by omega,
      .constructed htag hcons hlength (Nat.le_of_lt_succ hdepth') hinner hcount⟩
    dsimp only
    rw [hafter, Nat.add_assoc, Nat.add_assoc, Nat.add_assoc]
  · rw [if_neg hcons]
    by_cases hprim : primitiveOk tag content.length = true
    · rw [if_pos hprim]
      rcases ih _ (hlen ▸ hrest) hdepth hnodes' rfl with hafter | ⟨count, hafter, hle, hcount⟩
      · exact .inl hafter
      refine .inr ⟨1 + count, ?_, by omega,
        .primitive htag hcons ((primitiveOk_iff _ _).1 hprim) hlength hcount⟩
      rw [hafter, Nat.add_assoc]
    · exact .inl (by rw [if_neg hprim])

/-- Elements are accepted, as far as the counter allows. -/
theorem validateElements_of_elements (h : Elements ldapGrammar depth data count)
    (hnodes : nodes + count ≤ maxBERNodes) :
    validateElements data depth nodes = .ok (nodes + count) := by
  induction h generalizing nodes with
  | nil => exact validateElements_nil
  | primitive htag hcons hprim hlength _ ih =>
    rw [validateElements_element (by simp) (nextElement_of_element (by omega) htag hlength),
      if_neg (by exact hcons), if_pos ((primitiveOk_iff _ _).2 hprim), ih (by omega), Nat.add_assoc]
  | constructed htag hcons hlength hdepth _ _ ihin ih =>
    have hdeep := Nat.not_le_of_lt (Nat.lt_succ_of_le hdepth)
    rw [validateElements_element (by simp) (nextElement_of_element (by omega) htag hlength),
      if_pos (by exact hcons), validateBER, if_neg (by exact hdeep), ihin (by omega)]
    dsimp only
    rw [ih (by omega), Nat.add_assoc, Nat.add_assoc, Nat.add_assoc]

end

/-- The check before decoding reads nothing outside the data and accepts exactly the grammar, with
no more than 4096 elements. -/
theorem validateBER_exact (data : GoString) :
    validateBER data 0 0 ≠ .error .outOfRange ∧
    ((∃ nodes, validateBER data 0 0 = .ok nodes) ↔
      ∃ count, count ≤ 4096 ∧ Elements ldapGrammar 0 data count) := by
  have hmax : maxBERNodes = 4096 := rfl
  have hloop : validateBER data 0 0 = validateElements data 0 0 := by
    rw [validateBER, if_neg (by decide)]
  have hcases : validateElements data 0 0 = .error .malformed ∨
      ∃ count, validateElements data 0 0 = .ok (0 + count) ∧ 0 + count ≤ maxBERNodes ∧
        Elements ldapGrammar 0 data count := validateElements_cases (by decide) (by decide)
  rw [hloop]
  refine ⟨?_, ?_, ?_⟩
  · rcases hcases with hbad | ⟨count, hok, -⟩
    · simp [hbad]
    · simp [hok]
  · rintro ⟨nodes, hnodes⟩
    rcases hcases with hbad | ⟨count, -, hle, helements⟩
    · rw [hnodes] at hbad
      cases hbad
    · exact ⟨count, by omega, helements⟩
  · rintro ⟨count, hle, helements⟩
    exact ⟨_, validateElements_of_elements helements (by omega)⟩

end InfraBox.Ldap
