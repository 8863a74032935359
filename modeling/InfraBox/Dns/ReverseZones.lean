import InfraBox.Dns.Lookup
import InfraBox.Dns.Reverse

/-!
# Reverse zones

Which zone `reverseAuthority` takes authority for. A zone is named by the first octets of the
addresses below it (`octetZone`); the loop tests a prefix length and one address (`Covers`), which
says that the subnet has every address of the zone (`covers_iff`). The zone chosen is the one with
the fewest octets among those at or above the name that pass the test (`reverseAuthority_cases`), so
it is also chosen for every name below.
-/

namespace InfraBox.Dns

open Leasing

variable {ns : List Nat}

variable {name zone label : GoString} {ip : Addr} {r : Response}

/-- One to four octets, the first ones of an address. -/
structure IsOctets (ns : List Nat) : Prop where
  ne_nil : ns ≠ []
  length_le : ns.length ≤ 4
  lt : ∀ n ∈ ns, n < 256

/-- The labels of the zone of the addresses that start with some octets. -/
def octetLabels (ns : List Nat) : List GoString := ns.reverse.map formatUint8 ++ arpa

/-- The zone of the addresses that start with some octets. -/
def octetZone (ns : List Nat) : GoString := render (octetLabels ns)

theorem reverseName_eq (a : BitVec 32) : reverseName (.v4 a) = octetZone (octets a) := rfl

theorem formatUint8_inj {n m : Nat} (hn : n < 256) (hm : m < 256)
    (h : formatUint8 n = formatUint8 m) : n = m := by
  have := congrArg canonicalOctet h
  rw [canonicalOctet_format hn, canonicalOctet_format hm] at this
  exact Option.some.inj this

theorem dot_not_mem_format (h : ∀ n ∈ ns, n < 256) :
    ∀ l ∈ ns.map formatUint8, dot ∉ l := by
  intro l hl hd
  obtain ⟨n, hn, rfl⟩ := List.mem_map.1 hl
  exact (nameByte_plain (validLabel_bytes (validLabel_format n (h n hn)) _ hd)).2.2.2.1 rfl

theorem dot_not_mem_arpa : ∀ l ∈ arpa, dot ∉ l := by decide

/-! ## The octets of a name -/

section
variable {ns ns' : List Nat}

/-- The octets a list of labels starts with are determined by their number. -/
theorem map_format_prefix_iff (h : ∀ n ∈ ns, n < 256) (h' : ∀ n ∈ ns', n < 256) :
    ns.map formatUint8 <+: ns'.map formatUint8 ↔ ns <+: ns' := by
  refine ⟨fun hp => ?_, fun hp => hp.map _⟩
  induction ns generalizing ns' with
  | nil => exact List.nil_prefix
  | cons n ns ih =>
    cases ns' with
    | nil => cases List.prefix_nil.1 hp
    | cons n' ns' =>
      rw [List.map_cons, List.map_cons, List.cons_prefix_cons] at hp
      obtain rfl := formatUint8_inj (h n (.head _)) (h' n' (.head _)) hp.1
      exact (List.prefix_cons_inj n).2
        (ih (fun m hm => h m (.tail _ hm)) (fun m hm => h' m (.tail _ hm)) hp.2)

/-- Labels under `in-addr.arpa.` end in those of a zone when the octets are the last ones. -/
theorem octetLabels_suffix_iff {labels : List GoString} :
    octetLabels ns <:+ labels ++ arpa ↔ ns.map formatUint8 <+: labels.reverse := by
  rw [octetLabels, ← List.reverse_prefix, List.reverse_append, List.reverse_append,
    List.prefix_append_right_inj, ← List.map_reverse, List.reverse_reverse]

theorem dot_not_mem_octetLabels (h : ∀ n ∈ ns, n < 256) : ∀ l ∈ octetLabels ns, dot ∉ l := by
  have hrev : ∀ n ∈ ns.reverse, n < 256 := fun n hn => h n (List.mem_reverse.1 hn)
  exact fun l hl => (List.mem_append.1 hl).elim (dot_not_mem_format hrev l) (dot_not_mem_arpa l)

/-- A name under `in-addr.arpa.` is at or below a zone when its last labels are the octets. -/
theorem atOrBelow_octetZone {labels : List GoString} (hl : ∀ l ∈ labels, dot ∉ l)
    (h : ∀ n ∈ ns, n < 256) :
    AtOrBelow (render (labels ++ arpa)) (octetZone ns) ↔
      ns.map formatUint8 <+: labels.reverse := by
  have hname : ∀ l ∈ labels ++ arpa, dot ∉ l := fun l hmem =>
    (List.mem_append.1 hmem).elim (hl l) (dot_not_mem_arpa l)
  rw [octetZone, atOrBelow_render_iff hname (dot_not_mem_octetLabels h), octetLabels_suffix_iff]

/-- Fewer of the first octets make a zone further up. -/
theorem octetLabels_suffix_octetLabels (h : ∀ n ∈ ns, n < 256) (h' : ∀ n ∈ ns', n < 256) :
    octetLabels ns <:+ octetLabels ns' ↔ ns <+: ns' := by
  show octetLabels ns <:+ ns'.reverse.map formatUint8 ++ arpa ↔ _
  rw [octetLabels_suffix_iff, ← List.map_reverse, List.reverse_reverse,
    map_format_prefix_iff h h']

/-- The zones above an address are those of its first octets. -/
theorem octetLabels_suffix_reverseLabels {a : BitVec 32} (h : ∀ n ∈ ns, n < 256) :
    octetLabels ns <:+ reverseLabels a ↔ ns <+: octets a :=
  octetLabels_suffix_octetLabels h (octets_lt a)

theorem octetZone_atOrBelow_iff (h : ∀ n ∈ ns, n < 256) (h' : ∀ n ∈ ns', n < 256) :
    AtOrBelow (octetZone ns) (octetZone ns') ↔ ns' <+: ns := by
  rw [octetZone, octetZone, atOrBelow_render_iff (dot_not_mem_octetLabels h)
    (dot_not_mem_octetLabels h'), octetLabels_suffix_octetLabels h' h]

/-- A name below `in-addr.arpa.`, cut at its dots. -/
theorem append_reverseSuffix (t : GoString) :
    t ++ dot :: reverseSuffix = render (t.splitOn dot ++ arpa) := by
  rw [render_append, render_splitOn, reverseSuffix_eq, List.append_cons]

/-- A name below a zone of octets lies below `in-addr.arpa.`. -/
theorem suffix_of_atOrBelow (h : AtOrBelow name (octetZone ns))
    (hne : ns ≠ []) : dot :: reverseSuffix <:+ name := by
  have hzone : dot :: reverseSuffix <:+ octetZone ns := by
    have hlabels : ns.reverse.map formatUint8 ≠ [] := by simpa using hne
    obtain ⟨t, ht⟩ := exists_render_eq hlabels
    refine ⟨t, ?_⟩
    rw [octetZone, octetLabels, render_append, ht, reverseSuffix_eq]
    simp
  rcases h with rfl | h
  · exact hzone
  · exact hzone.trans ((List.suffix_cons _ _).trans h)

end

/-! ## Zones inside the subnet -/

/-- Every address whose reverse name is at or below the zone is in the subnet. -/
def ZoneInside (subnet : Prefix) (ns : List Nat) : Prop :=
  ∀ a, octetLabels ns <:+ reverseLabels a → subnet.contains (.v4 a) = true

/-- The test of the loop: the octets determine the subnet's bits, and their first address is in it.
-/
def Covers (subnet : Prefix) (ns : List Nat) : Prop :=
  subnet.bits ≤ ns.length * 8 ∧ subnet.contains (.from4 ns) = true

/-- The addresses that start with some octets are those that agree with the first of them in the
octets' bits; all the other bits of that one are zero. -/
theorem IsOctets.exists_first (h : IsOctets ns) :
    ∃ v : BitVec 32, Addr.from4 ns = .v4 v ∧ v.toNat + 2 ^ (32 - ns.length * 8) ≤ 2 ^ 32 ∧
      v.toNat % 2 ^ (32 - ns.length * 8) = 0 ∧
      ∀ a : BitVec 32, ns <+: octets a ↔
        a.toNat / 2 ^ (32 - ns.length * 8) = v.toNat / 2 ^ (32 - ns.length * 8) := by
  obtain ⟨hne, hlen, hlt⟩ := h
  rcases ns with _ | ⟨n₀, _ | ⟨n₁, _ | ⟨n₂, _ | ⟨n₃, _ | ⟨n₄, ns⟩⟩⟩⟩⟩
  · exact absurd rfl hne
  on_goal 5 => simp only [List.length_cons] at hlen; omega
  -- for each number of octets the powers are numerals
  all_goals
    simp only [List.forall_mem_cons] at hlt
    refine ⟨_, rfl, ?_, ?_, fun a => ?_⟩
    · simp only [List.getD_cons_zero, List.getD_cons_succ, List.getD_nil, BitVec.toNat_ofNat,
        List.length_cons, List.length_nil]
      omega
    · simp only [List.getD_cons_zero, List.getD_cons_succ, List.getD_nil, BitVec.toNat_ofNat,
        List.length_cons, List.length_nil]
      omega
    · have := a.isLt
      simp only [List.getD_cons_zero, List.getD_cons_succ, List.getD_nil, BitVec.toNat_ofNat,
        List.length_cons, List.length_nil, octets, List.cons_prefix_cons, List.nil_prefix, and_true]
      omega

/-- Numbers that agree above some bits agree above more. -/
theorem div_pow_eq_of_le {a b k l : Nat} (h : a / 2 ^ k = b / 2 ^ k) (hkl : k ≤ l) :
    a / 2 ^ l = b / 2 ^ l := by
  obtain ⟨d, rfl⟩ := Nat.exists_eq_add_of_le hkl
  rw [Nat.pow_add, ← Nat.div_div_eq_div_mul, ← Nat.div_div_eq_div_mul, h]

/-- The test of the loop says that the zone lies inside the subnet. -/
theorem covers_iff {subnet : Prefix} {b : BitVec 32} (hb : subnet.addr = .v4 b)
    (hbits : subnet.bits ≤ 32) (h : IsOctets ns) :
    Covers subnet ns ↔ ZoneInside subnet ns := by
  obtain ⟨v, hv, hroom, hzero, hfirst⟩ := h.exists_first
  have hcontains : ∀ a : BitVec 32, subnet.contains (.v4 a) = true ↔
      b.toNat / 2 ^ (32 - subnet.bits) = a.toNat / 2 ^ (32 - subnet.bits) := fun a => by
    simp [Prefix.contains, hb]
  rw [Covers, hv]
  constructor
  · rintro ⟨hle, hc⟩ a ha
    rw [octetLabels_suffix_reverseLabels h.lt, hfirst] at ha
    rw [hcontains] at hc ⊢
    rw [hc]
    exact (div_pow_eq_of_le ha (by omega)).symm
  · intro hin
    have hself : subnet.contains (.v4 v) = true :=
      hin v ((octetLabels_suffix_reverseLabels h.lt).2 ((hfirst v).2 rfl))
    refine ⟨?_, hself⟩
    by_contra hlt
    -- the address with the first bit below the subnet's set lies in the zone, not in the subnet
    have hpow : 2 ^ (32 - subnet.bits) < 2 ^ (32 - ns.length * 8) :=
      Nat.pow_lt_pow_right (by decide) (by omega)
    have hval : (BitVec.ofNat 32 (v.toNat + 2 ^ (32 - subnet.bits))).toNat =
        v.toNat + 2 ^ (32 - subnet.bits) := by
      rw [BitVec.toNat_ofNat, Nat.mod_eq_of_lt (by omega)]
    have hzone : subnet.contains (.v4 (BitVec.ofNat 32 (v.toNat + 2 ^ (32 - subnet.bits)))) =
        true := by
      refine hin _ ((octetLabels_suffix_reverseLabels h.lt).2 ((hfirst _).2 ?_))
      obtain ⟨q, hq⟩ := Nat.dvd_of_mod_eq_zero hzero
      rw [hval, hq, Nat.mul_add_div (Nat.two_pow_pos _), Nat.div_eq_of_lt hpow,
        Nat.mul_div_cancel_left _ (Nat.two_pow_pos _), Nat.add_zero]
    rw [hcontains] at hself hzone
    rw [hself, hval, Nat.add_div_right _ (Nat.two_pow_pos _)] at hzone
    omega

/-! ## The zone that is chosen -/

section
variable {subnet : Prefix} {labels rest : List GoString} {octets : List Nat}

/-- A zone once chosen is kept. -/
theorem reverseScan_kept (hz : zone ≠ []) (i : Nat) :
    (reverseScan subnet labels rest i octets zone).1 = zone := by
  induction rest generalizing i octets with
  | nil => rfl
  | cons label rest ih =>
    rw [reverseScan]
    cases canonicalOctet label with
    | none => rfl
    | some n =>
      simp only [decide_eq_false hz, Bool.false_and, Bool.false_eq_true, if_false]
      split
      · rfl
      · exact ih _

/-- The octets that a scan of the labels `rest` after some octets can find. -/
structure Scanned (rest : List GoString) (ns : List Nat) : Prop where
  ne_nil : ns ≠ []
  lt : ∀ n ∈ ns, n < 256
  labels : ns.map formatUint8 <+: rest

/-- What a scan finds starts with the octet of the first label. -/
theorem Scanned.exists_head (h : Scanned (label :: rest) ns) :
    ∃ n ns', ns = n :: ns' ∧ canonicalOctet label = some n ∧ ns'.map formatUint8 <+: rest := by
  obtain ⟨hne, hlt, hlabels⟩ := h
  cases ns with
  | nil => exact absurd rfl hne
  | cons n ns' =>
    rw [List.map_cons, List.cons_prefix_cons] at hlabels
    exact ⟨n, ns', rfl, hlabels.1 ▸ canonicalOctet_format (hlt n (.head _)), hlabels.2⟩

/-- What else than the octet of the first label is found has that octet and one more. -/
theorem Scanned.exists_tail {n : Nat}
    (h : Scanned (label :: rest) ns) (hn : canonicalOctet label = some n) (hne : ns ≠ [n]) :
    ∃ ns', ns = n :: ns' ∧ Scanned rest ns' := by
  obtain ⟨n', ns', rfl, hn', hlabels⟩ := h.exists_head
  obtain rfl : n = n' := Option.some.inj (hn.symm.trans hn')
  refine ⟨ns', rfl, ?_, fun m hm => h.lt m (.tail _ hm), hlabels⟩
  rintro rfl
  exact hne rfl

theorem Scanned.cons {n : Nat} (h : Scanned rest ns)
    (hn : canonicalOctet label = some n) : Scanned (label :: rest) (n :: ns) := by
  obtain ⟨hlt, hfmt⟩ := canonicalOctet_eq_some hn
  refine ⟨List.cons_ne_nil n ns, List.forall_mem_cons.2 ⟨hlt, h.lt⟩, ?_⟩
  rw [List.map_cons, hfmt]
  exact (List.prefix_cons_inj label).2 h.labels

/-- The scan chooses the zone of the fewest octets that pass the test, if any do. -/
theorem reverseScan_cases (subnet : Prefix) (labels : List GoString)
    (hlen : octets.length + rest.length ≤ 4) :
    ((reverseScan subnet labels rest octets.length octets []).1 = [] ∧
      ∀ ns, Scanned rest ns → ¬ Covers subnet (octets ++ ns)) ∨
    ∃ ns, Scanned rest ns ∧ Covers subnet (octets ++ ns) ∧
      (∀ ns', Scanned rest ns' → Covers subnet (octets ++ ns') → ns.length ≤ ns'.length) ∧
      (reverseScan subnet labels rest octets.length octets []).1 =
        reverseZone labels (octets.length + ns.length - 1) := by
  induction rest generalizing octets with
  | nil =>
    refine .inl ⟨rfl, fun ns hns => absurd ?_ hns.ne_nil⟩
    simpa using hns.labels
  | cons label rest ih =>
    rw [reverseScan]
    cases hcan : canonicalOctet label with
    | none =>
      refine .inl ⟨rfl, fun ns hns => ?_⟩
      obtain ⟨n, -, -, hn, -⟩ := hns.exists_head
      rw [hcan] at hn
      cases hn
    | some n =>
    obtain ⟨hlt, hfmt⟩ := canonicalOctet_eq_some hcan
    have htest : (decide True && decide (subnet.bits ≤ (octets.length + 1) * 8) &&
        subnet.contains (.from4 (octets ++ [n]))) = true ↔ Covers subnet (octets ++ [n]) := by
      simp [Covers]
    by_cases hc : Covers subnet (octets ++ [n])
    · -- this octet completes a zone
      refine .inr ⟨[n], ⟨by simp, by simpa using hlt, by simp [hfmt]⟩, hc,
        fun ns' hns' _ => List.length_pos_iff.2 hns'.ne_nil, ?_⟩
      simp only [if_pos (htest.2 hc)]
      split
      · rfl
      · exact reverseScan_kept (reverseZone_ne_nil _) _
    · -- what passes the test has this octet and one more
      have htail : ∀ ns, Scanned (label :: rest) ns → Covers subnet (octets ++ ns) →
          ∃ ns', ns = n :: ns' ∧ Scanned rest ns' := by
        intro ns hns hcov
        refine hns.exists_tail hcan ?_
        rintro rfl
        exact hc hcov
      simp only [if_neg fun h => hc (htest.1 h)]
      split
      · next hend =>
        have hrest : rest = [] := by
          simp only [Bool.and_eq_true, decide_eq_true_eq] at hend
          rw [List.length_cons] at hlen
          exact List.length_eq_zero_iff.1 (by omega)
        refine .inl ⟨rfl, fun ns hns hcov => ?_⟩
        obtain ⟨ns', -, hns'⟩ := htail ns hns hcov
        exact hns'.ne_nil (by simpa [hrest] using hns'.labels)
      · have hlen' : (octets ++ [n]).length + rest.length ≤ 4 := by
          simp only [List.length_append, List.length_cons, List.length_nil] at hlen ⊢
          omega
        have hstep := ih hlen'
        simp only [List.append_assoc, List.cons_append, List.nil_append, List.length_append,
          List.length_cons, List.length_nil, Nat.zero_add] at hstep
        rcases hstep with ⟨hzone, hno⟩ | ⟨ns, hns, hcov, hmin, hzone⟩
        · refine .inl ⟨hzone, fun ns hns hcov => ?_⟩
          obtain ⟨ns', rfl, hns'⟩ := htail ns hns hcov
          exact hno ns' hns' hcov
        · refine .inr ⟨n :: ns, hns.cons hcan, hcov, fun ns' hns' hcov' => ?_, ?_⟩
          · obtain ⟨ns'', rfl, hns''⟩ := htail ns' hns' hcov'
            exact Nat.succ_le_succ (hmin ns'' hns'' hcov')
          · rw [hzone, List.length_cons]
            congr 1
            omega

/-- The zone of the last labels of a name is that of their octets. -/
theorem reverseZone_eq (hne : ns ≠ [])
    (h : ns.map formatUint8 <+: labels.reverse) :
    reverseZone labels (ns.length - 1) = octetZone ns := by
  obtain ⟨r, hr⟩ := h
  have hlabels : labels = r.reverse ++ ns.reverse.map formatUint8 := by
    rw [← List.reverse_reverse labels, ← hr, List.reverse_append, List.map_reverse]
  have hpos := List.length_pos_iff.2 hne
  have hdrop : labels.length - 1 - (ns.length - 1) = r.reverse.length := by
    simp only [hlabels, List.length_append, List.length_map, List.length_reverse]
    omega
  have hoctets : ns.reverse.map formatUint8 ≠ [] := by simpa using hne
  rw [reverseZone, hdrop, hlabels, List.drop_left, octetZone, octetLabels, render_append,
    render_eq_intercalate hoctets, reverseSuffix_eq, List.append_cons]

end

/-- `reverseAuthority` takes the zone with the fewest octets among those at or above the name that
pass the test, and none when there is none. -/
theorem reverseAuthority_cases (s : Server) (name : GoString) :
    (s.reverseAuthority name = none ∧ ∀ ns, IsOctets ns → AtOrBelow name (octetZone ns) →
      ¬ Covers s.config.subnet ns) ∨
    ∃ ns ip, IsOctets ns ∧ AtOrBelow name (octetZone ns) ∧ Covers s.config.subnet ns ∧
      (∀ ns', IsOctets ns' → AtOrBelow name (octetZone ns') → Covers s.config.subnet ns' →
        ns.length ≤ ns'.length) ∧
      s.reverseAuthority name = some (octetZone ns, ip) := by
  rw [Server.reverseAuthority]
  by_cases hsuf : dot :: reverseSuffix <:+ name
  swap
  · rw [if_pos hsuf]
    exact .inl ⟨rfl, fun ns hns hbelow _ => hsuf (suffix_of_atOrBelow hbelow hns.ne_nil)⟩
  rw [if_neg (not_not.2 hsuf)]
  obtain ⟨t, rfl⟩ := hsuf
  rw [trimSuffix_append, append_reverseSuffix]
  generalize hlabels : t.splitOn dot = labels
  have hdots : ∀ l ∈ labels, dot ∉ l := fun l hl => not_mem_of_mem_splitOn (hlabels ▸ hl)
  have hscanned : ∀ ns, Scanned (labels.reverse.take 4) ns ↔
      IsOctets ns ∧ AtOrBelow (render (labels ++ arpa)) (octetZone ns) := by
    intro ns
    constructor
    · rintro ⟨hne, hlt, hp⟩
      rw [List.prefix_take_iff, List.length_map] at hp
      exact ⟨⟨hne, hp.2, hlt⟩, (atOrBelow_octetZone hdots hlt).2 hp.1⟩
    · rintro ⟨⟨hne, hlen, hlt⟩, hbelow⟩
      refine ⟨hne, hlt, ?_⟩
      rw [List.prefix_take_iff, List.length_map]
      exact ⟨(atOrBelow_octetZone hdots hlt).1 hbelow, hlen⟩
  have hlen : ([] : List Nat).length + (labels.reverse.take 4).length ≤ 4 := by
    rw [List.length_nil, List.length_take]
    omega
  rcases reverseScan_cases s.config.subnet labels hlen with ⟨hzone, hno⟩ |
    ⟨ns, hns, hc, hmin, hzone⟩
  · refine .inl ⟨if_neg (not_not.2 hzone), fun ns hns hbelow => ?_⟩
    exact hno ns ((hscanned ns).2 ⟨hns, hbelow⟩)
  · obtain ⟨hoct, hbelow⟩ := (hscanned ns).1 hns
    rw [List.length_nil, Nat.zero_add,
      reverseZone_eq hns.ne_nil ((atOrBelow_octetZone hdots hns.lt).1 hbelow)] at hzone
    refine .inr ⟨ns, (reverseScan s.config.subnet labels (labels.reverse.take 4) 0 [] []).2, hoct,
      hbelow, hc, fun ns' hns' hbelow' => hmin ns' ((hscanned ns').2 ⟨hns', hbelow'⟩), ?_⟩
    have hne : (reverseScan s.config.subnet labels (labels.reverse.take 4) 0 [] []).1 ≠ [] :=
      hzone ▸ render_ne_nil (by simp [octetLabels, arpa])
    exact (if_pos hne).trans (congrArg (fun zone => some (zone, _)) hzone)

/-- Of two zones of octets above a name the one with fewer octets is above the other. -/
theorem prefix_of_atOrBelow {ns ns' : List Nat} (hns : IsOctets ns)
    (hns' : IsOctets ns') (h : AtOrBelow name (octetZone ns)) (h' : AtOrBelow name (octetZone ns'))
    (hlen : ns'.length ≤ ns.length) : ns' <+: ns := by
  obtain ⟨t, rfl⟩ := suffix_of_atOrBelow h hns.ne_nil
  have hdots : ∀ l ∈ t.splitOn dot, dot ∉ l := fun l hl => not_mem_of_mem_splitOn hl
  rw [append_reverseSuffix, atOrBelow_octetZone hdots hns.lt] at h
  rw [append_reverseSuffix, atOrBelow_octetZone hdots hns'.lt] at h'
  refine (map_format_prefix_iff hns'.lt hns.lt).1 (List.prefix_of_prefix_length_le h' h ?_)
  simpa using hlen

/-! ## Exactness -/

/-- What `reverseAuthority` is to make of a name: the zone is the one with the fewest octets that
lies inside the subnet and above the name, and the address the one whose reverse name it is. A name
without such a zone is not local. -/
def Server.ReverseExact (s : Server) (q : List GoString) : Prop :=
  match s.reverseAuthority (render q) with
  | some (zone, ip) =>
    (∃ ns, IsOctets ns ∧ zone = octetZone ns ∧ octetLabels ns <:+ q ∧
      ZoneInside s.config.subnet ns ∧ ∀ ns', IsOctets ns' → octetLabels ns' <:+ q →
        ZoneInside s.config.subnet ns' → ns.length ≤ ns'.length) ∧
    (ip.isValid = true → s.config.subnet.contains ip = true ∧
      ∃ a, ip = .v4 a ∧ q = reverseLabels a)
  | none => ∀ ns, IsOctets ns → octetLabels ns <:+ q → ¬ ZoneInside s.config.subnet ns

/-- A zone inside the subnet that has none above it. -/
structure ZoneCut (subnet : Prefix) (ns : List Nat) : Prop where
  octets : IsOctets ns
  inside : ZoneInside subnet ns
  top : ∀ ns', IsOctets ns' → ns' <+: ns → ZoneInside subnet ns' → ns' = ns

section
variable {s : Server} {b : BitVec 32} {q : List GoString}

/-- The text of a name is below the zone of its last labels. -/
theorem atOrBelow_of_suffix (h : octetLabels ns <:+ q) :
    AtOrBelow (render q) (octetZone ns) := by
  obtain ⟨pre, rfl⟩ := h
  exact atOrBelow_append pre _

/-- A name is placed rightly just if the zones whose text it ends with, and which have none inside
the subnet above them, are zones of its labels. -/
theorem reverseExact_iff (hb : s.config.subnet.addr = .v4 b) (hbits : s.config.subnet.bits ≤ 32)
    (hq : ∀ a, render q = reverseName (.v4 a) → q = reverseLabels a) :
    s.ReverseExact q ↔ ∀ ns, ZoneCut s.config.subnet ns → AtOrBelow (render q) (octetZone ns) →
      octetLabels ns <:+ q := by
  rw [Server.ReverseExact]
  rcases reverseAuthority_cases s (render q) with ⟨hnone, hno⟩ |
    ⟨ns, ip, hns, hbelow, hc, hmin, heq⟩
  · rw [hnone]
    refine iff_of_true (fun ns hns hsuf hin => ?_) fun ns hcut hbelow => ?_
    · exact hno ns hns (atOrBelow_of_suffix hsuf) ((covers_iff hb hbits hns).2 hin)
    · exact absurd ((covers_iff hb hbits hcut.octets).2 hcut.inside) (hno ns hcut.octets hbelow)
  · have hmin' : ∀ ns', IsOctets ns' → AtOrBelow (render q) (octetZone ns') →
        ZoneInside s.config.subnet ns' → ns.length ≤ ns'.length := fun ns' hns' hbelow' hin =>
      hmin ns' hns' hbelow' ((covers_iff hb hbits hns').2 hin)
    have hin : ZoneInside s.config.subnet ns := (covers_iff hb hbits hns).1 hc
    rw [heq]
    constructor
    · rintro ⟨⟨ns₁, hns₁, hzone, hsuf, -⟩, -⟩ ns' hcut hbelow'
      have hp : ns <+: ns' := prefix_of_atOrBelow hcut.octets hns hbelow' hbelow
        (hmin' ns' hcut.octets hbelow' hcut.inside)
      have hsame : ns₁ <+: ns :=
        (octetZone_atOrBelow_iff hns.lt hns₁.lt).1 (.inl hzone)
      have hsame' : ns <+: ns₁ :=
        (octetZone_atOrBelow_iff hns₁.lt hns.lt).1 (.inl hzone.symm)
      rw [← hcut.top ns hns hp hin, ← hsame.eq_of_length_le hsame'.length_le]
      exact hsuf
    · intro hcuts
      have hcut : ZoneCut s.config.subnet ns := ⟨hns, hin, fun ns' hns' hp hin' =>
        hp.eq_of_length_le (hmin' ns' hns'
          (hbelow.trans ((octetZone_atOrBelow_iff hns.lt hns'.lt).2 hp)) hin')⟩
      refine ⟨⟨ns, hns, rfl, hcuts ns hcut hbelow, hin, fun ns' hns' hsuf =>
        hmin' ns' hns' (atOrBelow_of_suffix hsuf)⟩, fun hip => ?_⟩
      obtain ⟨a, rfl, hname⟩ := reverseAuthority_ip heq hip
      obtain rfl := hq a hname
      exact ⟨hin a (hcuts ns hcut hbelow), a, rfl, rfl⟩

theorem dot_not_mem_reverseLabels (a : BitVec 32) : ∀ l ∈ reverseLabels a, dot ∉ l :=
  dot_not_mem_octetLabels (octets_lt a)

/-- A name without dots in its labels is placed rightly. -/
theorem reverseExact_of_plain (hb : s.config.subnet.addr = .v4 b)
    (hbits : s.config.subnet.bits ≤ 32) (hq : ∀ l ∈ q, dot ∉ l) : s.ReverseExact q := by
  refine (reverseExact_iff hb hbits fun a hname => ?_).2 fun ns hcut hbelow =>
    (atOrBelow_render_iff hq (dot_not_mem_octetLabels hcut.octets.lt)).1 hbelow
  have := congrArg (List.splitOn dot) hname
  rw [reverseName, splitOn_render hq, splitOn_render (dot_not_mem_reverseLabels a)] at this
  exact List.append_cancel_right this

/-- A name that is placed rightly and has no zone inside the subnet is not local. -/
theorem Server.ReverseExact.eq_none (h : s.ReverseExact q)
    (hno : ∀ ns, IsOctets ns → octetLabels ns <:+ q → ¬ ZoneInside s.config.subnet ns) :
    s.reverseAuthority (render q) = none := by
  rw [Server.ReverseExact] at h
  split at h
  · obtain ⟨⟨ns, hns, -, hsuf, hin, -⟩, -⟩ := h
    exact absurd hin (hno ns hns hsuf)
  · assumption

/-- Only the zones of the octets before a label that is no octet are above a name. -/
theorem prefix_of_octetLabels_suffix {ns ns' : List Nat} {pre : List GoString}
    (hns : ∀ n ∈ ns, n < 256) (hns' : ∀ n ∈ ns', n < 256) (hlabel : canonicalOctet label = none)
    (h : octetLabels ns' <:+ pre ++ label :: octetLabels ns) : ns' <+: ns := by
  have heq : pre ++ label :: octetLabels ns =
      (pre ++ label :: ns.reverse.map formatUint8) ++ arpa := by
    simp [octetLabels]
  rw [heq, octetLabels_suffix_iff] at h
  have hrev : (pre ++ label :: ns.reverse.map formatUint8).reverse =
      (ns.map formatUint8 ++ [label]) ++ pre.reverse := by
    simp
  rw [hrev] at h
  rcases List.prefix_or_prefix_of_prefix h (List.prefix_append _ _) with hp | hp
  · rcases List.prefix_concat_iff.1 hp with hall | hp
    · -- the label would be the text of the last octet
      have hmem : label ∈ ns'.map formatUint8 := by rw [hall]; simp
      obtain ⟨n, hn, rfl⟩ := List.mem_map.1 hmem
      rw [canonicalOctet_format (hns' n hn)] at hlabel
      cases hlabel
    · exact (map_format_prefix_iff hns' hns).1 hp
  · have hmem : label ∈ ns'.map formatUint8 := hp.subset (by simp)
    obtain ⟨n, hn, rfl⟩ := List.mem_map.1 hmem
    rw [canonicalOctet_format (hns' n hn)] at hlabel
    cases hlabel

end

/-- Over an IPv4 subnet: the reverse name of an address of the subnet is answered for it, in a zone
at or above it, and that of an address outside is not local. A name without escaped dots is placed
rightly, in particular one with a label that is no octet before a zone is reached is not local. A
name with escaped dots is placed rightly just if none of them makes its text end with that of a zone
of the subnet which is not above it. -/
theorem reverseAuthority_exact (s : Server) {b : BitVec 32} (hb : s.config.subnet.addr = .v4 b)
    (hbits : s.config.subnet.bits ≤ 32) :
    (∀ a, s.config.subnet.contains (.v4 a) = true → ∃ ns, octetLabels ns <:+ reverseLabels a ∧
      s.reverseAuthority (reverseName (.v4 a)) = some (octetZone ns, .v4 a)) ∧
    (∀ a, s.config.subnet.contains (.v4 a) = false →
      s.reverseAuthority (reverseName (.v4 a)) = none) ∧
    (∀ q, (∀ l ∈ q, dot ∉ l) → s.ReverseExact q) ∧
    (∀ pre label ns, (∀ l ∈ pre, dot ∉ l) → dot ∉ label → (∀ n ∈ ns, n < 256) →
      canonicalOctet label = none →
      (∀ ns', IsOctets ns' → ns' <+: ns → ¬ ZoneInside s.config.subnet ns') →
      s.reverseAuthority (render (pre ++ label :: octetLabels ns)) = none) ∧
    (∀ q, (∀ l ∈ q, isLabel l = true) → (s.ReverseExact q ↔ ∀ ns, ZoneCut s.config.subnet ns →
      AtOrBelow (render q) (octetZone ns) → octetLabels ns <:+ q)) := by
  have hexact : ∀ q, (∀ l ∈ q, dot ∉ l) → s.ReverseExact q := fun q hq =>
    reverseExact_of_plain hb hbits hq
  have hreverse : ∀ a, s.ReverseExact (reverseLabels a) := fun a =>
    hexact _ (dot_not_mem_reverseLabels a)
  refine ⟨fun a ha => ?_, fun a ha => ?_, hexact, ?_, fun q hq => ?_⟩
  · obtain ⟨zone, hz⟩ := reverseAuthority_reverseName hbits ha
    have h := hreverse a
    rw [Server.ReverseExact, ← reverseName, hz] at h
    obtain ⟨⟨ns, -, rfl, hsuf, -⟩, -⟩ := h
    exact ⟨ns, hsuf, hz⟩
  · refine (hreverse a).eq_none fun ns _ hsuf hin => ?_
    rw [hin a hsuf] at ha
    cases ha
  · intro pre label ns hpre hlabel hns hcan hno
    refine (hexact _ fun l hl => ?_).eq_none fun ns' hns' hsuf =>
      hno ns' hns' (prefix_of_octetLabels_suffix hns hns'.lt hcan hsuf)
    rcases List.mem_append.1 hl with hl | hl
    · exact hpre l hl
    · rcases List.mem_cons.1 hl with rfl | hl
      · exact hlabel
      · exact dot_not_mem_octetLabels hns l hl
  · refine reverseExact_iff hb hbits fun a hname => render_inj hq (fun l hl => ?_) hname
    have hv := validLabel_bytes (validLabel_reverseLabels a l hl)
    exact isLabel_of_plain (dot_not_mem_reverseLabels a l hl) fun hmem =>
      (nameByte_plain (hv _ hmem)).2.2.2.2.1 rfl

/-! The server of the sample network with a /8, and with a /16 in which it has another address. -/

def broadServer : Server :=
  build referenceLib { sampleDns with
    domain := str "lan.", subnet := ⟨.v4 0x0a000000, 8⟩, aRecords := FinMap.empty }

def wideServer : Server :=
  build referenceLib { sampleDns with
    domain := str "lan.", serverIP := .v4 0x0a000501, subnet := ⟨.v4 0x0a000000, 16⟩,
    aRecords := FinMap.empty }

theorem reverseAuthority_exact_wide :
    ∃ ns, octetLabels ns <:+ reverseLabels 0x0a000501 ∧
      wideServer.reverseAuthority (reverseName (.v4 0x0a000501)) =
        some (octetZone ns, .v4 0x0a000501) :=
  (reverseAuthority_exact wideServer rfl (by decide)).1 0x0a000501 (by decide)

/-- A label with an escaped dot is cut at the dot. This name has one label below `in-addr.arpa.`,
which is no octet, and yet it is placed in the zone of 10.0.0.0/8. -/
theorem reverseAuthority_escaped_dot :
    let q := str "5\\.10" :: arpa
    (∀ l ∈ q, isLabel l = true) ∧
      broadServer.reverseAuthority (render q) = some (octetZone [10], .invalid) ∧
      ∀ ns, IsOctets ns → ¬ octetLabels ns <:+ q := by
  intro q
  refine ⟨by decide, by decide +kernel, fun ns hns hsuf => ?_⟩
  have hcan : canonicalOctet (str "5\\.10") = none := by decide
  have hsuf : octetLabels ns <:+ [] ++ str "5\\.10" :: octetLabels [] := hsuf
  exact hns.ne_nil (List.prefix_nil.1
    (prefix_of_octetLabels_suffix (by simp) hns.lt hcan hsuf))

/-! ## Names that do not exist -/

section
variable {lib : NameLib} {s : Server} {registry : Manager} {now : Int}

/-- A local name and the local names below it have one zone. -/
theorem reverseAuthority_below {name name' zone zone' : GoString} {ip ip' : Addr}
    (h : s.reverseAuthority name = some (zone, ip)) (hbelow : AtOrBelow name' name)
    (h' : s.reverseAuthority name' = some (zone', ip')) :
    zone' = zone ∧ ∃ ns, IsOctets ns ∧ Covers s.config.subnet ns ∧ zone = octetZone ns ∧
      AtOrBelow name zone := by
  rcases reverseAuthority_cases s name with ⟨hnone, -⟩ | ⟨ns, i, hns, hb, hc, hmin, heq⟩
  · rw [h] at hnone
    cases hnone
  rcases reverseAuthority_cases s name' with ⟨hnone, -⟩ | ⟨ns', i', hns', hb', hc', hmin', heq'⟩
  · rw [h'] at hnone
    cases hnone
  rw [h, Option.some.injEq, Prod.mk.injEq] at heq
  rw [h', Option.some.injEq, Prod.mk.injEq] at heq'
  obtain ⟨rfl, -⟩ := heq
  obtain ⟨rfl, -⟩ := heq'
  refine ⟨?_, ns, hns, hc, rfl, hb⟩
  have hle : ns'.length ≤ ns.length := hmin' ns hns (hbelow.trans hb) hc
  have hp : ns' <+: ns := prefix_of_atOrBelow hns hns' (hbelow.trans hb) hb' hle
  have hge : ns.length ≤ ns'.length :=
    hmin ns' hns' (hb.trans ((octetZone_atOrBelow_iff hns.lt hns'.lt).2 hp)) hc'
  rw [hp.eq_of_length (by omega)]

/-- A name at or above the reverse name of an address, and below `in-addr.arpa.`, is that of the
address's first octets. -/
theorem eq_octetZone_of_above {a : BitVec 32}
    (h : AtOrBelow (reverseName (.v4 a)) name) (hsuf : dot :: reverseSuffix <:+ name) :
    ∃ ns, ns <+: octets a ∧ IsOctets ns ∧ name = octetZone ns := by
  obtain ⟨t, rfl⟩ := hsuf
  rw [append_reverseSuffix] at h ⊢
  have hne : t.splitOn dot ≠ [] := List.splitOn_ne_nil _ _
  generalize hlabels : t.splitOn dot = labels at h hne ⊢
  have hdots : ∀ l ∈ labels ++ arpa, dot ∉ l := fun l hl => (List.mem_append.1 hl).elim
    (fun hl => not_mem_of_mem_splitOn (hlabels ▸ hl)) (dot_not_mem_arpa l)
  rw [reverseName, atOrBelow_render_iff (dot_not_mem_reverseLabels a) hdots, reverseLabels,
    ← List.reverse_prefix, List.reverse_append, List.reverse_append, List.prefix_append_right_inj,
    ← List.map_reverse, List.reverse_reverse] at h
  obtain ⟨ns, hns, hmap⟩ : ∃ ns, ns <+: octets a ∧ labels.reverse = ns.map formatUint8 := by
    refine ⟨(octets a).take labels.length, List.take_prefix _ _, ?_⟩
    rw [List.map_take, ← List.length_reverse]
    exact List.prefix_iff_eq_take.1 h
  refine ⟨ns, hns, ⟨?_, ?_, fun n hn => octets_lt a n (hns.subset hn)⟩, ?_⟩
  · rintro rfl
    exact hne (List.reverse_eq_nil_iff.1 hmap)
  · exact hns.length_le
  · rw [octetZone, octetLabels, ← List.reverse_reverse labels, hmap, List.map_reverse]

/-- A name of a reverse zone does not exist when it is not the zone's and no pointer is found. -/
theorem answerLocal_nameError {name zone : GoString} {kind : Kind}
    (hz : zone ≠ s.config.domain) (h : s.answerLocal lib registry now name kind zone ip = some r)
    (hr : r.rcode = .nameError) :
    name ≠ zone ∧ (s.reverseAnswer registry now name kind ip).2 = false := by
  simp only [Server.answerLocal, if_neg hz, Option.map_some, Option.some.injEq] at h
  subst h
  simp only [Bool.or_eq_true, decide_eq_true_eq] at hr
  split at hr
  · cases hr
  · next hno =>
    rw [not_or, Bool.not_eq_true] at hno
    exact ⟨hno.2, hno.1⟩

/-- The address has a pointer: it is the server's, or that of a live lease with a name. -/
def Server.Pointed (s : Server) (registry : Manager) (now : Int) (ip : Addr) : Prop :=
  ip.isValid = true ∧ (ip = s.config.serverIP ∨
    ∃ l, (registry.lookupIP now ip).1 = some l ∧ l.hostname ≠ [] ∧ now < l.expiresAt)

/-- An address with a pointer is found by a query of any type, and a query for pointers gets it. -/
theorem Server.Pointed.reverseAnswer (h : s.Pointed registry now ip) (name : GoString)
    (kind : Kind) : (s.reverseAnswer registry now name kind ip).2 = true ∧
      (kind = .ptr → ∃ ttl target,
        (s.reverseAnswer registry now name kind ip).1 = [.ptr name ttl target]) := by
  obtain ⟨hv, hsource⟩ := h
  simp only [Server.reverseAnswer, hv, Bool.not_true, Bool.false_eq_true, if_false]
  by_cases hip : ip = s.config.serverIP
  · rw [if_pos hip]
    exact ⟨rfl, fun hkind => ⟨s.ttl, s.nsName, by simp [hkind]⟩⟩
  · obtain ⟨l, hl, hne, hlive⟩ := hsource.resolve_left hip
    have hnamed : (decide (l.hostname ≠ []) && decide (now < l.expiresAt)) = true := by
      simp [hne, hlive]
    rw [if_neg hip, hl]
    simp only [hnamed, if_true]
    exact ⟨trivial, fun hkind => ⟨s.leaseTTL now l, l.hostname, by simp [hkind]⟩⟩

/-- An address with a pointer is answered with it. -/
theorem Server.Pointed.answerLocal (h : s.Pointed registry now ip) (name : GoString)
    (hz : zone ≠ s.config.domain) :
    ∃ r ttl target, s.answerLocal lib registry now name .ptr zone ip = some r ∧
      .ptr name ttl target ∈ r.answer := by
  obtain ⟨ttl, target, hrecords⟩ := (h.reverseAnswer name .ptr).2 rfl
  simp only [Server.answerLocal, if_neg hz, Option.map_some]
  exact ⟨_, ttl, target, rfl, List.mem_append_right _ (hrecords ▸ .head _)⟩

/-- Only an address with a pointer is answered with one. -/
theorem pointed_of_answerLocal {name zone : GoString} {kind : Kind}
    {owner target : GoString} {ttl : Nat}
    (h : s.answerLocal lib registry now name kind zone ip = some r)
    (hptr : .ptr owner ttl target ∈ r.answer) :
    zone ≠ s.config.domain ∧ s.Pointed registry now ip := by
  have hnot : ∀ {zone}, .ptr owner ttl target ∉ (s.apexAnswer name kind zone).1 := by
    intro zone hmem
    rcases apexAnswer_cases hmem with ⟨_, _, _, _, heq⟩ | ⟨_, _, _, heq⟩ <;> cases heq
  have hz : zone ≠ s.config.domain := by
    rintro rfl
    rcases answerLocal_forward h hptr with hapex | ⟨_, _, _, _, _, heq⟩
    · exact hnot hapex
    · cases heq
  rcases answerLocal_reverse hz h hptr with hapex | ⟨hv, hsource⟩
  · exact absurd hapex hnot
  · exact ⟨hz, hv, hsource.imp And.left fun ⟨l, hl, hne, hlive, _⟩ => ⟨l, hl, hne, hlive⟩⟩

end

/-- No local name at or below the name gets a pointer, from any query. -/
def Server.NoPointer (lib : NameLib) (s : Server) (registry : Manager) (now : Int)
    (q : List GoString) : Prop :=
  ∀ pre kind zone ip r, s.reverseAuthority (render (pre ++ q)) = some (zone, ip) →
    s.answerLocal lib registry now (render (pre ++ q)) kind zone ip = some r →
    ∀ owner ttl target, .ptr owner ttl target ∉ r.answer

/-- When a local reverse name does not exist, no name at or below it gets a pointer, if the subnet
is longer than a /16 or the name is not that of one to three octets; and in a zone that is not the
forward one just if it is not that of one to three octets of an address with a pointer. -/
theorem reverse_nameError_sound (lib : NameLib) (s : Server) (registry : Manager)
    (now : Int) (q : List GoString) (kind : Kind)
    (hauth : s.reverseAuthority (render q) = some (zone, ip))
    (hans : s.answerLocal lib registry now (render q) kind zone ip = some r)
    (hr : r.rcode = .nameError) :
    (16 < s.config.subnet.bits ∨ (∀ ns, IsOctets ns → ns.length < 4 → render q ≠ octetZone ns) →
      s.NoPointer lib registry now q) ∧
    (zone ≠ s.config.domain → (s.NoPointer lib registry now q ↔
      ∀ ns a, IsOctets ns → ns.length < 4 → render q = octetZone ns → ns <+: octets a →
        s.reverseAuthority (reverseName (.v4 a)) = some (zone, .v4 a) →
        ¬ s.Pointed registry now (.v4 a))) := by
  -- a pointer below the name is that of an address of which it has some of the first octets
  have hptr : ∀ {pre kind' zone' ip' r'},
      s.reverseAuthority (render (pre ++ q)) = some (zone', ip') →
      s.answerLocal lib registry now (render (pre ++ q)) kind' zone' ip' = some r' →
      ∀ {owner ttl target}, .ptr owner ttl target ∈ r'.answer →
      ∃ ns a, IsOctets ns ∧ ns.length < 4 ∧ render q = octetZone ns ∧ ns <+: octets a ∧
        s.reverseAuthority (reverseName (.v4 a)) = some (zone, .v4 a) ∧
        s.Pointed registry now (.v4 a) ∧ s.config.subnet.bits ≤ 16 := by
    intro pre kind' zone' ip' r' hauth' hans' owner ttl target hptr
    have hbelow : AtOrBelow (render (pre ++ q)) (render q) := atOrBelow_append pre q
    obtain ⟨rfl, ns, hns, hc, rfl, habove⟩ := reverseAuthority_below hauth hbelow hauth'
    obtain ⟨hz, hpointed⟩ := pointed_of_answerLocal hans' hptr
    obtain ⟨hne, hnone⟩ := answerLocal_nameError hz hans hr
    obtain ⟨a, rfl, hname⟩ := reverseAuthority_ip hauth' hpointed.1
    rw [hname] at hbelow hauth'
    obtain ⟨ms, hms, hoct, hq⟩ :=
      eq_octetZone_of_above hbelow (suffix_of_atOrBelow habove hns.ne_nil)
    have hlen : ms.length ≤ 4 := hms.length_le
    have hshort : ms.length ≠ 4 := by
      -- otherwise the name is the reverse name itself
      intro hfull
      have hself : render q = reverseName (.v4 a) := by
        rw [hq, hms.eq_of_length hfull, reverseName_eq]
      rw [hself, hauth', Option.some.injEq, Prod.mk.injEq] at hauth
      rw [← hauth.2, (hpointed.reverseAnswer _ _).1] at hnone
      cases hnone
    refine ⟨ms, a, hoct, by omega, hq, hms, hauth', hpointed, ?_⟩
    -- otherwise the zone has at least three octets, so the name is the zone's
    by_contra hbits
    rw [hq, octetZone_atOrBelow_iff hoct.lt hns.lt] at habove
    have hcov := hc.1
    have hzone : ns = ms := habove.eq_of_length (by have := habove.length_le; omega)
    exact hne (hzone ▸ hq)
  refine ⟨fun hcond pre kind' zone' ip' r' hauth' hans' owner ttl target hmem => ?_,
    fun hz => ⟨fun hno ns a hns hlen hq hp hauth' hpointed => ?_,
      fun hno pre kind' zone' ip' r' hauth' hans' owner ttl target hmem => ?_⟩⟩
  · obtain ⟨ns, a, hns, hlen, hq, -, -, -, hbits⟩ := hptr hauth' hans' hmem
    rcases hcond with hcond | hcond
    · omega
    · exact hcond ns hns hlen hq
  · obtain ⟨pre, hpre⟩ := (octetLabels_suffix_reverseLabels hns.lt).2 hp
    have hname : render (pre ++ q) = reverseName (.v4 a) := by
      rw [render_append, hq, octetZone, ← render_append, hpre, reverseName]
    obtain ⟨r', ttl, target, hans', hmem⟩ := hpointed.answerLocal (reverseName (.v4 a)) hz
    exact hno pre .ptr zone (.v4 a) r' (hname ▸ hauth') (hname ▸ hans') _ ttl target hmem
  · obtain ⟨ns, a, hns, hlen, hq, hp, hauth'', hpointed, -⟩ := hptr hauth' hans' hmem
    exact hno ns a hns hlen hq hp hauth'' hpointed

/-- In a /24 the name of an address that nobody has does not exist. -/
theorem reverse_nameError_sound_sample :
    let q := reverseLabels 0x0a000007
    ∃ zone ip r, sampleServer.reverseAuthority (render q) = some (zone, ip) ∧
      sampleServer.answerLocal referenceLib sampleStart.sys.manager 3 (render q) .ptr zone ip =
        some r ∧
      r.rcode = .nameError ∧
      sampleServer.NoPointer referenceLib sampleStart.sys.manager 3 q := by
  intro q
  have hauth : sampleServer.reverseAuthority (render q) =
      some (octetZone [10, 0, 0], .v4 0x0a000007) := by decide +kernel
  have hans : sampleServer.answerLocal referenceLib sampleStart.sys.manager 3 (render q) .ptr
      (octetZone [10, 0, 0]) (.v4 0x0a000007) =
        some ⟨.nameError, true, [], [sampleServer.soa (octetZone [10, 0, 0]) 0], []⟩ := by
    decide +kernel
  exact ⟨_, _, _, hauth, hans, rfl, (reverse_nameError_sound referenceLib sampleServer
    sampleStart.sys.manager 3 q .ptr hauth hans rfl).1 (.inl (by decide))⟩

/-- In a /16 the name of the third octet lies between the zone and the server's own reverse name. It
does not exist, whatever the leases are, and the name below it has a pointer. -/
theorem reverse_nameError_unsound :
    new referenceLib ⟨fun _ _ => none, fun _ _ _ => false⟩
        { sampleDns with serverIP := .v4 0x0a000501, subnet := ⟨.v4 0x0a000000, 16⟩,
                         aRecords := FinMap.empty } = .ok wideServer ∧
      ∀ registry now, ∃ r r',
        wideServer.reverseAuthority (octetZone [10, 0, 5]) = some (octetZone [10, 0], .invalid) ∧
        wideServer.answerLocal referenceLib registry now (octetZone [10, 0, 5]) .ptr
          (octetZone [10, 0]) .invalid = some r ∧ r.rcode = .nameError ∧
        AtOrBelow (reverseName (.v4 0x0a000501)) (octetZone [10, 0, 5]) ∧
        wideServer.reverseAuthority (reverseName (.v4 0x0a000501)) =
          some (octetZone [10, 0], .v4 0x0a000501) ∧
        wideServer.answerLocal referenceLib registry now (reverseName (.v4 0x0a000501)) .ptr
          (octetZone [10, 0]) (.v4 0x0a000501) = some r' ∧
        r'.answer = [.ptr (reverseName (.v4 0x0a000501)) 60 (str "ns.lan.")] := by
  refine ⟨rfl, fun registry now => ⟨_, _, by decide +kernel, rfl, rfl,
    atOrBelow_append [str "1"] _, by decide +kernel, rfl, rfl⟩⟩

end InfraBox.Dns
