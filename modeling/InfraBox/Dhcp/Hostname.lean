import InfraBox.Lib.Bytes
import InfraBox.Lib.DomainName

/-!
# Client FQDN options

`clientHostname` and `fqdnReply` of `internal/dhcpserver/hostname.go`. An access outside the option
would make `clientHostname` return `none`. The decoder of the wire encoding accepts exactly
sequences of length-prefixed labels with an optional terminating zero (`decodeLabels_cases`), which
is the encoding `fqdnReply` writes.
-/

namespace InfraBox.Dhcp

/-- What the server reads of a `dhcpv4.DHCPv4` to name and to identify its sender. -/
structure Request where
  /-- option 81 -/
  fqdn : Option GoString
  /-- option 12, as `HostName` returns it -/
  hostName : GoString
  /-- option 61 -/
  clientIdentifier : Option GoString
  hwType : UInt16
  clientHWAddr : GoString

/-- The name that stands for an invalid one: it is not empty and no host name. -/
def rejected : GoString := [0]

/-- `strings.Join(labels, ".")`. -/
def joinLabels (labels : List GoString) : GoString := [dot].intercalate labels

/-- The loop over a name in wire encoding. -/
def decodeLabels (labels : List GoString) (remaining : GoString) : Option GoString :=
  match remaining with
  | [] => some []
  | n :: remaining =>
    if n = 0 then some (if remaining.length ≠ 0 then rejected else joinLabels labels)
    else if n > 63 ∨ n.toNat > remaining.length then some rejected
    else
      match slice remaining 0 n.toNat with
      | none => none
      | some label =>
        let labels := labels ++ [label]
        let remaining := remaining.drop n.toNat
        -- a partial name need not have a root label
        if remaining.length = 0 then some (joinLabels labels)
        else decodeLabels labels remaining
termination_by remaining.length
decreasing_by
  rw [List.length_drop, List.length_cons]
  omega

/-- `clientHostname`. -/
def clientHostname (request : Request) : Option GoString :=
  match request.fqdn with
  | none => some request.hostName
  | some raw =>
    if raw.length < 3 then some rejected
    else do
      let flags ← raw[0]?
      if flags &&& 0xf0 ≠ 0 ∨ flags &&& 8 ≠ 0 then some rejected
      else
        let name ← slice raw 3 raw.length
        if flags &&& 4 = 0 then some name
        else decodeLabels [] name

/-- The flags of a reply to a client with the flags `first`. -/
def replyFlags (first : UInt8) (hostname : GoString) : UInt8 :=
  -- the client's choice of the encoding is echoed
  let flags := first &&& 4
  let flags := if hostname = [] then flags ||| 8 else flags ||| 1
  if flags &&& 1 ≠ first &&& 1 then flags ||| 2 else flags

/-- A label in wire encoding. -/
def wireLabel (label : GoString) : GoString := UInt8.ofNat label.length :: label

/-- `fqdnReply`. -/
def fqdnReply (request : Request) (hostname : GoString) : Option GoString :=
  match request.fqdn.getD [] with
  | first :: _ :: _ :: _ =>
    let flags := replyFlags first hostname
    let name := trimSuffix hostname [dot]
    if flags &&& 4 = 0 then some ([flags, 0, 0] ++ name)
    else some ([flags, 0, 0] ++
      (if hostname ≠ [] then (name.splitOn dot).flatMap wireLabel else []) ++ [0])
  | _ => none

/-! ## Names in wire encoding -/

/-- Bytes that hold labels of 1 to 63 bytes, each behind its length, with an optional zero at the
end. -/
def WireName (labels : List GoString) (bytes : GoString) : Prop :=
  (∀ l ∈ labels, 1 ≤ l.length ∧ l.length ≤ 63) ∧
    ∃ root, (root = [] ∨ root = [0]) ∧ bytes = labels.flatMap wireLabel ++ root

section
variable {n : UInt8} {label rest remaining : GoString} {labels : List GoString}

theorem toNat_ofNat_label (h : label.length ≤ 63) :
    (UInt8.ofNat label.length).toNat = label.length := by
  rw [UInt8.toNat_ofNat']
  omega

theorem ofNat_label_ne_zero (h : 1 ≤ label.length ∧ label.length ≤ 63) :
    UInt8.ofNat label.length ≠ 0 := by
  intro hzero
  have hlen := toNat_ofNat_label h.2
  rw [hzero, UInt8.toNat_zero] at hlen
  omega

theorem wireName_nil : WireName [] [] := ⟨by simp, [], .inl rfl, rfl⟩

/-- A name that does not begin with a zero begins with a label, behind its length. -/
theorem WireName.cons_inv (h : WireName labels (n :: remaining)) (hn : n ≠ 0) :
    ∃ label labels' rest, labels = label :: labels' ∧ remaining = label ++ rest ∧
      label.length = n.toNat ∧ n ≤ 63 ∧ WireName labels' rest := by
  obtain ⟨hlabels, root, hroot, heq⟩ := h
  cases labels with
  | nil => rcases hroot with rfl | rfl <;> simp_all
  | cons label labels' =>
    have hle := (hlabels label (.head _)).2
    simp only [List.flatMap_cons, wireLabel, List.cons_append, List.append_assoc,
      List.cons.injEq] at heq
    obtain ⟨rfl, rfl⟩ := heq
    refine ⟨label, labels', _, rfl, rfl, (toNat_ofNat_label hle).symm, ?_,
      fun l hl => hlabels l (.tail _ hl), root, hroot, rfl⟩
    rw [UInt8.le_iff_toNat_le, toNat_ofNat_label hle]
    exact hle

/-- A zero stands at the end. -/
theorem WireName.zero_inv (h : WireName labels (0 :: rest)) : rest = [] := by
  obtain ⟨hlabels, root, hroot, heq⟩ := h
  cases labels with
  | nil => rcases hroot with rfl | rfl <;> simp_all
  | cons label labels' =>
    exact absurd (List.cons.inj heq).1.symm (ofNat_label_ne_zero (hlabels label (.head _)))

/-- Bytes hold one name at most. -/
theorem WireName.unique {bytes : GoString} {labels' : List GoString} (h : WireName labels bytes)
    (h' : WireName labels' bytes) : labels = labels' := by
  induction labels generalizing bytes labels' with
  | nil =>
    obtain ⟨-, root, hroot, rfl⟩ := h
    cases labels' with
    | nil => rfl
    | cons label ls =>
      obtain ⟨hlabels, root', -, heq⟩ := h'
      have hne := ofNat_label_ne_zero (hlabels label (.head _))
      rcases hroot with rfl | rfl
      · cases heq
      · exact absurd (List.cons.inj heq).1.symm hne
  | cons label labels ih =>
    obtain ⟨hlabels, root, hroot, rfl⟩ := h
    have hne := ofNat_label_ne_zero (hlabels label (.head _))
    rw [List.flatMap_cons, wireLabel, List.cons_append, List.cons_append, List.append_assoc] at h'
    obtain ⟨label', labels'', rest, rfl, heq, hlen, -, hrest⟩ := h'.cons_inv hne
    rw [toNat_ofNat_label (hlabels label (.head _)).2] at hlen
    obtain ⟨rfl, rfl⟩ := List.append_inj heq hlen.symm
    rw [ih ⟨fun l hl => hlabels l (.tail _ hl), root, hroot, rfl⟩ hrest]

/-- A label in front of a name. -/
theorem WireName.cons (h : WireName labels rest) (hlen : label.length = n.toNat) (hn : n ≠ 0)
    (hle : n ≤ 63) : WireName (label :: labels) (n :: (label ++ rest)) := by
  obtain ⟨hlabels, root, hroot, rfl⟩ := h
  have hpos : n.toNat ≠ 0 := fun hzero => hn (UInt8.toNat_inj.1 hzero)
  rw [UInt8.le_iff_toNat_le] at hle
  have hle' : n.toNat ≤ 63 := hle
  refine ⟨fun l hl => ?_, root, hroot, ?_⟩
  · rcases List.mem_cons.1 hl with rfl | hl
    · omega
    · exact hlabels l hl
  · rw [List.flatMap_cons, wireLabel, hlen, UInt8.ofNat_toNat]
    simp

/-- One round of the decoder takes one label. -/
theorem decodeLabels_label (hlen : label.length = n.toNat) (hn : n ≠ 0) (hle : n ≤ 63) :
    decodeLabels labels (n :: (label ++ rest)) =
      if rest.length = 0 then some (joinLabels (labels ++ [label]))
      else decodeLabels (labels ++ [label]) rest := by
  have hslice : slice (label ++ rest) 0 n.toNat = some label :=
    slice_eq_some.2 ⟨Nat.zero_le _, by omega, [], rest, rfl, rfl⟩
  have hdrop : (label ++ rest).drop n.toNat = rest := by rw [← hlen, List.drop_left]
  have hok : ¬ (n > 63 ∨ n.toNat > (label ++ rest).length) := by
    rw [not_or, UInt8.not_lt, Nat.not_lt, List.length_append]
    exact ⟨hle, by omega⟩
  rw [decodeLabels, if_neg hn, if_neg hok]
  simp only [hslice, hdrop]

/-- The decoder reads a name, or rejects the bytes because they are none. -/
theorem decodeLabels_cases (hne : remaining ≠ [] ∨ labels = []) :
    (∃ more, WireName more remaining ∧
      decodeLabels labels remaining = some (joinLabels (labels ++ more))) ∨
    ((∀ more, ¬ WireName more remaining) ∧ decodeLabels labels remaining = some rejected) := by
  -- what follows a label is shorter
  induction hlen : remaining.length using Nat.strong_induction_on generalizing remaining labels with
  | _ len ih =>
  cases remaining with
  | nil =>
    obtain rfl : labels = [] := hne.resolve_left (fun h => h rfl)
    exact .inl ⟨[], wireName_nil, by simp [decodeLabels, joinLabels]⟩
  | cons n remaining =>
    by_cases hzero : n = 0
    · subst hzero
      cases remaining with
      | nil => exact .inl ⟨[], ⟨by simp, [0], .inr rfl, rfl⟩, by simp [decodeLabels]⟩
      | cons b rest =>
        refine .inr ⟨fun more hmore => ?_, by simp [decodeLabels]⟩
        cases hmore.zero_inv
    by_cases hbad : n > 63 ∨ n.toNat > remaining.length
    · refine .inr ⟨fun more hmore => ?_, ?_⟩
      · obtain ⟨label, labels', rest, -, rfl, hlabel, hle, -⟩ := hmore.cons_inv hzero
        rcases hbad with hbig | hlong
        · exact absurd hbig (UInt8.not_lt.2 hle)
        · rw [List.length_append] at hlong
          omega
      · rw [decodeLabels, if_neg hzero, if_pos hbad]
    · rw [not_or, UInt8.not_lt, Nat.not_lt] at hbad
      obtain ⟨label, rest, rfl, hlabel⟩ : ∃ label rest, remaining = label ++ rest ∧
          label.length = n.toNat :=
        ⟨remaining.take n.toNat, remaining.drop n.toNat, (List.take_append_drop _ _).symm,
          List.length_take_of_le hbad.2⟩
      rw [decodeLabels_label hlabel hzero hbad.1]
      by_cases hend : rest.length = 0
      · rw [if_pos hend]
        obtain rfl : rest = [] := List.length_eq_zero_iff.1 hend
        exact .inl ⟨[label], wireName_nil.cons hlabel hzero hbad.1, rfl⟩
      · rw [if_neg hend]
        have hrest : rest ≠ [] ∨ labels ++ [label] = [] := .inl fun h => hend (by rw [h]; rfl)
        simp only [List.length_cons, List.length_append] at hlen
        rcases ih rest.length (by omega) hrest rfl with ⟨more, hmore, hdecode⟩ | ⟨hnone, hdecode⟩
        · refine .inl ⟨label :: more, hmore.cons hlabel hzero hbad.1, ?_⟩
          rw [hdecode, List.append_assoc]
          rfl
        · refine .inr ⟨fun more hmore => ?_, hdecode⟩
          obtain ⟨label', labels', rest', rfl, heq, hlabel', -, hrest'⟩ := hmore.cons_inv hzero
          obtain ⟨rfl, rfl⟩ := List.append_inj heq (hlabel.trans hlabel'.symm)
          exact hnone labels' hrest'

end

/-! ## Replies -/

/-- The flags of a reply with a name: no bit that would make a client's option invalid, and the
encoding the client asked for. -/
theorem replyFlags_bits (first : UInt8) {hostname : GoString} (h : hostname ≠ []) :
    replyFlags first hostname &&& 0xf0 = 0 ∧ replyFlags first hostname &&& 8 = 0 ∧
      replyFlags first hostname &&& 4 = first &&& 4 := by
  have hall : ∀ n < 256, let flags := UInt8.ofNat n &&& 4 ||| 1
      let flags := if flags &&& 1 ≠ UInt8.ofNat n &&& 1 then flags ||| 2 else flags
      flags &&& 0xf0 = 0 ∧ flags &&& 8 = 0 ∧ flags &&& 4 = UInt8.ofNat n &&& 4 := by
    decide +kernel
  have hbits := hall first.toNat first.toNat_lt
  rw [UInt8.ofNat_toNat] at hbits
  simpa only [replyFlags, if_neg h] using hbits

/-- A host name in canonical form: labels of 1 to 63 bytes, separated by dots, and a dot. -/
def CanonicalHostname (hostname : GoString) : Prop :=
  ∃ name, hostname = name ++ [dot] ∧ ∀ l ∈ name.splitOn dot, 1 ≤ l.length ∧ l.length ≤ 63

theorem trimSuffix_concat_dot (name : GoString) : trimSuffix (name ++ [dot]) [dot] = name := by
  simp [trimSuffix]

/-- What the decoder makes of an option with valid flags. -/
theorem clientHostname_of_flags {request : Request} {flags a b : UInt8} {bytes : GoString}
    (h : request.fqdn = some (flags :: a :: b :: bytes))
    (hflags : flags &&& 0xf0 = 0 ∧ flags &&& 8 = 0) :
    clientHostname request = if flags &&& 4 = 0 then some bytes else decodeLabels [] bytes := by
  have hslice : slice (flags :: a :: b :: bytes) 3 (flags :: a :: b :: bytes).length = some bytes :=
    slice_eq_some.2 ⟨by simp, by simp, [flags, a, b], [], rfl, by simp⟩
  simp only [clientHostname, h]
  rw [if_neg (by simp), hslice]
  simp [hflags]

theorem decodeLabels_of_wireName {labels : List GoString} {bytes : GoString}
    (h : WireName labels bytes) : decodeLabels [] bytes = some (joinLabels labels) := by
  rcases @decodeLabels_cases bytes [] (.inr rfl) with ⟨more, hmore, hdecode⟩ | ⟨hnone, -⟩
  · rw [hdecode, h.unique hmore]
    rfl
  · exact absurd h (hnone labels)

/-- A reply is read back as the name it carries. -/
theorem clientHostname_fqdnReply {request request' : Request} {hostname raw : GoString}
    (hname : CanonicalHostname hostname) (hraw : request.fqdn = some raw) (hlen : 3 ≤ raw.length) :
    ∃ reply, fqdnReply request hostname = some reply ∧
      (request'.fqdn = some reply → clientHostname request' = some hostname.dropLast) := by
  obtain ⟨name, rfl, hlabels⟩ := hname
  obtain ⟨first, a, b, bytes, rfl⟩ : ∃ first a b bytes, raw = first :: a :: b :: bytes := by
    match raw, hlen with
    | first :: a :: b :: bytes, _ => exact ⟨first, a, b, bytes, rfl⟩
  have hne : name ++ [dot] ≠ [] := by simp
  obtain ⟨hhigh, hn, he⟩ := replyFlags_bits first hne
  simp only [fqdnReply, hraw, Option.getD_some, trimSuffix_concat_dot, List.dropLast_concat]
  by_cases hascii : replyFlags first (name ++ [dot]) &&& 4 = 0
  · rw [if_pos hascii]
    refine ⟨_, rfl, fun h => ?_⟩
    rw [clientHostname_of_flags h ⟨hhigh, hn⟩, if_pos hascii]
    rfl
  · rw [if_neg hascii, if_pos hne]
    refine ⟨_, rfl, fun h => ?_⟩
    simp only [List.cons_append, List.nil_append] at h
    rw [clientHostname_of_flags h ⟨hhigh, hn⟩, if_neg hascii]
    have hwire : WireName (name.splitOn dot) ((name.splitOn dot).flatMap wireLabel ++ [0]) :=
      ⟨hlabels, [0], .inr rfl, rfl⟩
    rw [decodeLabels_of_wireName hwire, joinLabels, List.intercalate_splitOn]

/-- No option makes the decoder read outside of it; a name it returns for one in wire encoding is
that of a sequence of labels. -/
theorem clientHostname_wire {request : Request} {raw : GoString} (h : request.fqdn = some raw) :
    ∃ name, clientHostname request = some name ∧
      (raw.headD 0 &&& 4 ≠ 0 → name ≠ rejected →
        ∃ labels, WireName labels (raw.drop 3) ∧ name = joinLabels labels) := by
  match raw with
  | [] | [_] | [_, _] => exact ⟨rejected, by simp [clientHostname, h], fun _ hne => absurd rfl hne⟩
  | flags :: a :: b :: bytes =>
    by_cases hflags : flags &&& 0xf0 = 0 ∧ flags &&& 8 = 0
    · rw [clientHostname_of_flags h hflags]
      by_cases hascii : flags &&& 4 = 0
      · exact ⟨bytes, if_pos hascii, fun hwire => absurd hascii hwire⟩
      · rw [if_neg hascii]
        rcases @decodeLabels_cases bytes [] (.inr rfl) with
          ⟨labels, hlabels, hdecode⟩ | ⟨-, hdecode⟩
        · exact ⟨_, hdecode, fun _ _ => ⟨labels, hlabels, rfl⟩⟩
        · exact ⟨_, hdecode, fun _ hne => absurd rfl hne⟩
    · have hbad : flags &&& 0xf0 ≠ 0 ∨ flags &&& 8 ≠ 0 := by
        by_contra hgood
        rw [not_or, not_not, not_not] at hgood
        exact hflags hgood
      refine ⟨rejected, ?_, fun _ hne => absurd rfl hne⟩
      simp only [clientHostname, h]
      rw [if_neg (by simp)]
      simp [hbad]

/-- The round trip of client FQDN options: a reply with a canonical host name is read back as that
name without its last dot, in both encodings. From an option in wire encoding a name is read only
where it holds a sequence of labels, and then it is those labels joined by dots. -/
theorem fqdn_round_trip (request : Request) (raw : GoString) (hraw : request.fqdn = some raw) :
    (∀ hostname, CanonicalHostname hostname → 3 ≤ raw.length →
      ∃ reply, fqdnReply request hostname = some reply ∧ ∀ request' : Request,
        request'.fqdn = some reply → clientHostname request' = some hostname.dropLast) ∧
    (∃ name, clientHostname request = some name ∧
      (raw.headD 0 &&& 4 ≠ 0 → name ≠ rejected →
        ∃ labels, WireName labels (raw.drop 3) ∧ name = joinLabels labels)) ∧
    ∀ labels, 3 ≤ raw.length → raw.headD 0 &&& 0xf0 = 0 → raw.headD 0 &&& 8 = 0 →
      raw.headD 0 &&& 4 ≠ 0 → WireName labels (raw.drop 3) →
      clientHostname request = some (joinLabels labels) := by
  refine ⟨fun hostname hname hlen => ?_, clientHostname_wire hraw, ?_⟩
  · obtain ⟨reply, hreply, -⟩ := @clientHostname_fqdnReply request request _ _ hname hraw hlen
    refine ⟨reply, hreply, fun request' hread => ?_⟩
    obtain ⟨reply', hreply', hback⟩ :=
      @clientHostname_fqdnReply request request' _ _ hname hraw hlen
    rw [hreply] at hreply'
    cases hreply'
    exact hback hread
  · intro labels hlen hhigh hn hwire hlabels
    match raw, hlen with
    | flags :: a :: b :: bytes, _ =>
      rw [List.headD_cons] at hhigh hn hwire
      rw [clientHostname_of_flags hraw ⟨hhigh, hn⟩, if_neg hwire]
      exact decodeLabels_of_wireName hlabels

/-- A request that asks for the name `a` in wire encoding. -/
def sampleRequest : Request where
  fqdn := some [4, 0, 0, 1, 97]
  hostName := []
  clientIdentifier := some [1, 2]
  hwType := 1
  clientHWAddr := [2, 0, 0, 0, 0, 1]

/-- A client that names itself twice. -/
theorem fqdn_round_trip_sample :
    (∃ reply, fqdnReply sampleRequest (str "ab.c.") = some reply ∧
      clientHostname { sampleRequest with fqdn := some reply } = some (str "ab.c")) ∧
    clientHostname sampleRequest = some (joinLabels [str "a"]) := by
  obtain ⟨hreply, -, hdecode⟩ := fqdn_round_trip sampleRequest _ rfl
  obtain ⟨reply, heq, hback⟩ := hreply (str "ab.c.") ⟨str "ab.c", rfl, by decide⟩ (by decide)
  refine ⟨⟨reply, heq, hback _ rfl⟩, ?_⟩
  exact hdecode [str "a"] (by decide) (by decide) (by decide) (by decide)
    ⟨by decide, [], .inl rfl, by decide⟩

end InfraBox.Dhcp
