import InfraBox.Lib.Fragments
import InfraBox.Ldap.Filter

/-!
# Substring filters match what can be cut into their parts

The loop of `compileSubstrings` takes every part at the first place it fits and never goes back.
`substrings_exact` says that nothing is lost by that: a value is accepted exactly when its lower
case is the initial part, the middle parts in order with gaps around them, and the final part, none
overlapping another.
-/

namespace InfraBox.Ldap

/-! ## The first occurrence -/

/-- `cutAfter` finds the first occurrence. -/
theorem cutAfter_some {fragment s rest : GoString} (h : cutAfter fragment s = some rest) :
    FirstCut fragment s rest := by
  induction s with
  | nil =>
    rw [cutAfter] at h
    split at h
    · next hnil =>
      cases h
      subst hnil
      refine ⟨⟨[], rfl⟩, fun before' rest' heq => ?_⟩
      rw [List.append_nil, eq_comm, List.append_eq_nil_iff] at heq
      rw [heq.2]
    · cases h
  | cons b s ih =>
    rw [cutAfter] at h
    split at h
    · next hprefix =>
      cases h
      obtain ⟨t, ht⟩ := hprefix
      rw [← ht, List.drop_left]
      refine ⟨⟨[], rfl⟩, fun before' rest' heq => ?_⟩
      -- both are suffixes of the value, and the other one is not longer
      have hlen := congrArg List.length heq
      simp only [List.length_append] at hlen
      refine List.suffix_of_suffix_length_le ⟨before' ++ fragment, heq.symm⟩ ⟨fragment, rfl⟩ ?_
      omega
    · next hprefix =>
      obtain ⟨⟨before, rfl⟩, hfirst⟩ := ih h
      refine ⟨⟨b :: before, rfl⟩, fun before' rest' heq => ?_⟩
      cases before' with
      | nil => exact absurd ⟨rest', heq.symm⟩ hprefix
      | cons b' before' =>
        simp only [List.cons_append, List.cons.injEq] at heq
        exact hfirst before' rest' heq.2

/-- A fragment that is not found is not there. -/
theorem cutAfter_none {fragment s : GoString} (h : cutAfter fragment s = none) :
    ¬ fragment <:+: s := by
  induction s with
  | nil =>
    rw [cutAfter] at h
    split at h
    · cases h
    · next hne => exact fun hinfix => hne (List.eq_nil_of_infix_nil hinfix)
  | cons b s ih =>
    rw [cutAfter] at h
    split at h
    · cases h
    · next hprefix =>
      intro hinfix
      rcases List.infix_cons_iff.1 hinfix with hp | hi
      · exact hprefix hp
      · exact ih h hi

/-! ## The parts of a filter -/

/-- The first part with the tag. -/
def partOf (tag : Nat) (parts : List Packet) : Option GoString :=
  (parts.find? fun part => part.tag = tag).map Packet.data

/-- The middle parts. -/
def middlesOf (parts : List Packet) : List GoString :=
  (parts.filter fun part => part.tag = 1).map Packet.data

section
variable {lib : DnLib} {tag : Nat} {part : Packet} {parts : List Packet}

theorem partOf_cons (h : part.tag = tag) : partOf tag (part :: parts) = some part.data := by
  rw [partOf, List.find?_cons_of_pos (by simpa using h), Option.map_some]

theorem partOf_cons_ne (h : part.tag ≠ tag) : partOf tag (part :: parts) = partOf tag parts := by
  rw [partOf, List.find?_cons_of_neg (by simpa using h), partOf]

theorem middlesOf_cons (h : part.tag = 1) :
    middlesOf (part :: parts) = part.data :: middlesOf parts := by
  rw [middlesOf, List.filter_cons_of_pos (by simpa using h), List.map_cons, middlesOf]

theorem middlesOf_cons_ne (h : part.tag ≠ 1) : middlesOf (part :: parts) = middlesOf parts := by
  rw [middlesOf, List.filter_cons_of_neg (by simpa using h), middlesOf]

/-- What one part of a valid filter can be. -/
theorem partsValid_cons {first : Bool} (h : partsValid first (part :: parts) = true) :
    partsValid false parts = true ∧
      ((part.tag = 0 ∧ first = true) ∨ part.tag = 1 ∨ (part.tag = 2 ∧ parts = [])) := by
  simp only [partsValid, Bool.and_eq_true, Bool.or_eq_true, decide_eq_true_eq, ne_eq,
    List.isEmpty_iff] at h
  obtain ⟨⟨⟨⟨⟨-, -⟩, hle⟩, hzero⟩, htwo⟩, hrest⟩ := h
  refine ⟨hrest, ?_⟩
  rcases (by omega : part.tag = 0 ∨ part.tag = 1 ∨ part.tag = 2) with htag | htag | htag
  · exact .inl ⟨htag, hzero.resolve_left (not_not.2 htag)⟩
  · exact .inr (.inl htag)
  · exact .inr (.inr ⟨htag, htwo.resolve_left (not_not.2 htag)⟩)

/-- After the first place there is no initial part. -/
theorem partsValid_rest (h : partsValid false (part :: parts) = true) :
    partsValid false parts = true ∧ (part.tag = 1 ∨ (part.tag = 2 ∧ parts = [])) := by
  obtain ⟨hrest, ⟨-, hfirst⟩ | htag⟩ := partsValid_cons h
  · cases hfirst
  · exact ⟨hrest, htag⟩

/-- A valid filter that does not start with an initial part has none. -/
theorem partsValid_of_ne (h : partsValid true (part :: parts) = true) (hne : part.tag ≠ 0) :
    partsValid false (part :: parts) = true := by
  simpa [partsValid, hne] using h

/-- Parts without an initial one are the middle ones and then the final one. -/
theorem partsValid_tags (h : partsValid false parts = true) :
    partOf 0 parts = none ∧ parts.map (fun part => (part.tag, part.data)) =
      (middlesOf parts).map (1, ·) ++ ((partOf 2 parts).map (2, ·)).toList := by
  induction parts with
  | nil => exact ⟨rfl, rfl⟩
  | cons part parts ih =>
    obtain ⟨hrest, htag | ⟨htag, rfl⟩⟩ := partsValid_rest h
    · obtain ⟨hzero, hparts⟩ := ih hrest
      rw [partOf_cons_ne (by omega), partOf_cons_ne (by omega), middlesOf_cons htag, List.map_cons,
        hparts, htag]
      exact ⟨hzero, rfl⟩
    · rw [partOf_cons_ne (by omega), partOf_cons htag, middlesOf_cons_ne (by omega), List.map_cons,
        htag]
      exact ⟨rfl, rfl⟩

/-- The parts of a valid filter: an initial one perhaps, the middle ones, a final one perhaps. -/
theorem partsValid_shape (h : partsValid true parts = true) :
    parts.map (fun part => (part.tag, part.data)) =
      ((partOf 0 parts).map (0, ·)).toList ++ (middlesOf parts).map (1, ·) ++
        ((partOf 2 parts).map (2, ·)).toList := by
  cases parts with
  | nil => rfl
  | cons part parts =>
    obtain ⟨hrest, ⟨htag, -⟩ | htag⟩ := partsValid_cons h
    · rw [partOf_cons htag, partOf_cons_ne (by omega), middlesOf_cons_ne (by omega), List.map_cons,
        (partsValid_tags hrest).2, htag]
      rfl
    · obtain ⟨hzero, hparts⟩ := partsValid_tags (partsValid_of_ne h (by omega))
      rw [hzero, hparts]
      rfl

/-- The loop over parts without an initial one accepts what ends in the final part with the middle
parts before it. -/
theorem matchParts_ends (h : partsValid false parts = true) (s : GoString) :
    matchParts lib parts s = true ↔
      Ends ((middlesOf parts).map lib.lower) (((partOf 2 parts).map lib.lower).getD []) s := by
  induction parts generalizing s with
  | nil => exact iff_of_true rfl (ends_nil.2 List.nil_suffix)
  | cons part parts ih =>
    obtain ⟨hrest, htag | ⟨htag, rfl⟩⟩ := partsValid_rest h
    · rw [middlesOf_cons htag, partOf_cons_ne (by omega), List.map_cons, matchParts,
        if_neg (by omega), if_pos htag]
      -- the first occurrence of the part, if any
      cases hcut : cutAfter (lib.lower part.data) s with
      | none => exact iff_of_false Bool.false_ne_true (not_ends_of_absent (cutAfter_none hcut))
      | some rest => exact (ih hrest rest).trans (cutAfter_some hcut).ends_iff.symm
    · rw [middlesOf_cons_ne (by omega), partOf_cons htag, matchParts, if_neg (by omega),
        if_neg (by omega)]
      show (if _ then true else false) = true ↔ Ends [] _ s
      rw [ends_nil]
      simp

/-- The loop accepts what can be cut into the parts. -/
theorem matchParts_iff (h : partsValid true parts = true) (s : GoString) :
    matchParts lib parts s = true ↔ Decomposes ((partOf 0 parts).map lib.lower)
      ((middlesOf parts).map lib.lower) ((partOf 2 parts).map lib.lower) s := by
  cases parts with
  | nil => exact iff_of_true rfl (decomposes_none.2 (ends_nil.2 List.nil_suffix))
  | cons part parts =>
    obtain ⟨hrest, ⟨htag, -⟩ | htag⟩ := partsValid_cons h
    · rw [partOf_cons htag, partOf_cons_ne (by omega), middlesOf_cons_ne (by omega),
        Option.map_some, decomposes_initial, matchParts, if_pos htag]
      split
      · next hprefix => exact (matchParts_ends hrest _).trans (and_iff_right hprefix).symm
      · next hprefix => exact iff_of_false Bool.false_ne_true fun h => hprefix h.1
    · have hvalid := partsValid_of_ne h (by omega)
      rw [(partsValid_tags hvalid).1, Option.map_none, decomposes_none]
      exact matchParts_ends hvalid s

end

/-! ## Substring filters -/

/-- The values of the attribute are texts. -/
def stringAttribute (name : GoString) : Bool :=
  knownAttribute name && !dnAttribute name && !intAttribute name

/-- A substring filter is compiled from its children. -/
theorem compileFilter_substrings {lib : DnLib} {p : Packet} {f : EntryFilter}
    (htag : p.tag = filterSubstrings) (hf : compileFilter lib p = some f) :
    compileSubstrings lib p.children = some f := by
  obtain ⟨class', kind, tag, value, data, children⟩ := p
  obtain rfl : tag = filterSubstrings := htag
  rw [compileFilter] at hf
  split at hf
  · cases hf
  split at hf
  · next heq => cases heq
  split at hf
  · cases hf
  · exact hf

/-- What `compileSubstrings` accepts, and the function it returns. -/
theorem compileSubstrings_some {lib : DnLib} {children : List Packet} {f : EntryFilter}
    (h : compileSubstrings lib children = some f) :
    ∃ type sequence, children = [type, sequence] ∧ partsValid true sequence.children = true ∧
      (stringAttribute (toLower type.data) = true → ∀ e, f e =
        truth ((e.values lib (toLower type.data)).any fun value =>
          matchParts lib sequence.children (lib.lower value))) := by
  match children with
  | [] | [_] | _ :: _ :: _ :: _ => cases h
  | [type, sequence] =>
    simp only [compileSubstrings] at h
    split at h
    · cases h
    next hok =>
    cases h
    simp only [Bool.or_eq_true, not_or, Bool.not_eq_true, Bool.not_eq_false'] at hok
    refine ⟨type, sequence, rfl, hok.2, fun hstring e => if_neg ?_⟩
    simp only [stringAttribute, Bool.and_eq_true, Bool.not_eq_true'] at hstring
    simp [hstring]

/-- For every substring filter that is accepted, its parts are an initial one perhaps, any number of
middle ones and a final one perhaps; and if its attribute holds texts, the filter is true of an
entry with a value whose lower case can be cut into the lower case of the parts, in this order, with
gaps around the middle ones, and false of any other entry. -/
theorem substrings_exact {lib : DnLib} {p : Packet} {f : EntryFilter}
    (htag : p.tag = filterSubstrings) (hf : compileFilter lib p = some f) :
    ∃ type sequence, p.children = [type, sequence] ∧
      let parts := sequence.children
      let initial := partOf 0 parts
      let middles := middlesOf parts
      let final := partOf 2 parts
      parts.map (fun part => (part.tag, part.data)) =
        (initial.map (0, ·)).toList ++ middles.map (1, ·) ++ (final.map (2, ·)).toList ∧
      (stringAttribute (toLower type.data) = true → ∀ e,
        (f e = .isTrue ↔ ∃ value ∈ e.values lib (toLower type.data),
          Decomposes (initial.map lib.lower) (middles.map lib.lower) (final.map lib.lower)
            (lib.lower value)) ∧
        (f e = .isTrue ∨ f e = .isFalse)) := by
  obtain ⟨type, sequence, hchildren, hvalid, heval⟩ :=
    compileSubstrings_some (compileFilter_substrings htag hf)
  refine ⟨type, sequence, hchildren, partsValid_shape hvalid, fun hstring e => ?_⟩
  rw [heval hstring e]
  constructor
  · have htruth : ∀ b, truth b = .isTrue ↔ b = true := by decide
    rw [htruth, List.any_eq_true]
    exact exists_congr fun value => and_congr_right fun _ => matchParts_iff hvalid _
  · cases List.any _ _ with
    | true => exact .inl rfl
    | false => exact .inr rfl

/-- The filter `(cn=a*b*b)`: in a value with one `b` the middle part leaves nothing for the final
one, in a value with two it does. -/
theorem substrings_exact_overlap :
    let part := fun (tag : Nat) (text : String) =>
      Packet.mk .context .primitive tag .other (str text) []
    let p := constructed .context filterSubstrings [textPacket (str "cn"),
      constructed .universal tagSequence [part 0 "a", part 1 "b", part 2 "b"]]
    ∃ f, compileFilter sampleLib p = some f ∧
      ¬ Decomposes (some (str "a")) [str "b"] (some (str "b")) (str "acb") ∧
      Decomposes (some (str "a")) [str "b"] (some (str "b")) (str "acbb") := by
  intro part p
  let f : EntryFilter := fun e => truth ((e.values sampleLib (str "cn")).any fun value =>
    matchParts sampleLib [part 0 "a", part 1 "b", part 2 "b"] (toLower value))
  have hf : compileFilter sampleLib p = some f := rfl
  obtain ⟨type, sequence, hchildren, -, heval⟩ := substrings_exact rfl hf
  cases hchildren
  have heval := heval (by decide +kernel)
  let entry := fun value => newEntry sampleLib [] (attributes [("cn", [str value])])
  refine ⟨f, hf, fun h => ?_, ?_⟩
  · have htrue := (heval (entry "acb")).1.2 ⟨str "acb", by decide +kernel, h⟩
    exact absurd htrue (by decide +kernel)
  · obtain ⟨value, hmem, h⟩ := (heval (entry "acbb")).1.1 (by decide +kernel)
    obtain rfl : value = str "acbb" := by
      have hvalues : (entry "acbb").values sampleLib (str "cn") = [str "acbb"] := by decide +kernel
      exact List.mem_singleton.1 (hvalues ▸ hmem)
    exact h

end InfraBox.Ldap
