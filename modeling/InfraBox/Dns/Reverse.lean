import InfraBox.Dns.Server

/-!
# Reverse names

The reverse name of an IPv4 address, and what `reverseAuthority` makes of names: the reverse name of
an address of the subnet is answered for that address (`reverseAuthority_reverseName`), no other
name is (`reverseAuthority_ip`), and the zone it chooses lies below `in-addr.arpa.`.
-/

namespace InfraBox.Dns

variable {ip : Addr} {name zone : GoString} {rec : Record}

/-- The octets of an address, the first one first. -/
def octets (a : BitVec 32) : List Nat :=
  [a.toNat / 2 ^ 24, a.toNat / 2 ^ 16 % 256, a.toNat / 2 ^ 8 % 256, a.toNat % 256]

/-- The labels below which reverse names lie. -/
def arpa : List GoString := [str "in-addr", str "arpa"]

/-- The labels of the reverse name of an address. -/
def reverseLabels (a : BitVec 32) : List GoString := (octets a).reverse.map formatUint8 ++ arpa

/-- The reverse name of an address. -/
def reverseName : Addr → GoString
  | .v4 a => render (reverseLabels a)
  | _ => []

theorem from4_octets (a : BitVec 32) : Addr.from4 (octets a) = .v4 a := by
  have hlt := a.isLt
  simp only [Addr.from4, octets, List.getD_cons_zero, List.getD_cons_succ]
  refine congrArg Addr.v4 (BitVec.eq_of_toNat_eq ?_)
  rw [BitVec.toNat_ofNat]
  omega

theorem octets_lt (a : BitVec 32) : ∀ n ∈ octets a, n < 256 := by
  have hlt := a.isLt
  intro n hn
  simp only [octets, List.mem_cons, List.not_mem_nil, or_false] at hn
  omega

/-- Four octets are those of the address they make. -/
theorem octets_from4 {n₀ n₁ n₂ n₃ : Nat} (h₀ : n₀ < 256) (h₁ : n₁ < 256) (h₂ : n₂ < 256)
    (h₃ : n₃ < 256) : ∃ a, Addr.from4 [n₀, n₁, n₂, n₃] = .v4 a ∧ octets a = [n₀, n₁, n₂, n₃] := by
  refine ⟨_, rfl, ?_⟩
  simp only [octets, List.getD_cons_zero, List.getD_cons_succ, BitVec.toNat_ofNat, List.cons.injEq,
    and_true]
  omega

/-! ## Labels of reverse names -/

theorem canonicalOctet_format {n : Nat} (h : n < 256) :
    canonicalOctet (formatUint8 n) = some n := by
  simp [canonicalOctet, parseUint8_formatUint8 n h]

/-- An octet is written in one way only. -/
theorem canonicalOctet_eq_some {label : GoString} {n : Nat} (h : canonicalOctet label = some n) :
    n < 256 ∧ formatUint8 n = label := by
  simp only [canonicalOctet] at h
  split at h
  · next m hm =>
    split at h
    · next hf =>
      cases h
      refine ⟨?_, hf⟩
      simp only [parseUint8] at hm
      split at hm
      · split at hm
        · next hlt => cases hm; exact hlt
        · cases hm
      · cases hm
    · cases h
  · cases h

/-- The text of an octet is a valid label. -/
theorem validLabel_format : ∀ n < 256, validLabel (formatUint8 n) = true := by
  decide +kernel

theorem validLabel_reverseLabels (a : BitVec 32) : ∀ l ∈ reverseLabels a, validLabel l = true := by
  intro l hl
  rcases List.mem_append.1 hl with hl | hl
  · obtain ⟨n, hn, rfl⟩ := List.mem_map.1 hl
    exact validLabel_format n (octets_lt a n (List.mem_reverse.1 hn))
  · exact (by decide : ∀ l ∈ arpa, validLabel l = true) l hl

/-! ## The scan -/

section
variable {subnet : Prefix} {labels : List GoString}

theorem reverseZone_ne_nil (i : Nat) : reverseZone labels i ≠ [] := by simp [reverseZone]

/-- The scan keeps the zone it is given or chooses one of the name's own suffixes. -/
theorem reverseScan_zone (subnet : Prefix) (labels rest : List GoString) (i : Nat)
    (octets : List Nat) (zone : GoString) :
    (reverseScan subnet labels rest i octets zone).1 = zone ∨
      ∃ j, (reverseScan subnet labels rest i octets zone).1 = reverseZone labels j := by
  induction rest generalizing i octets zone with
  | nil => exact .inl rfl
  | cons label rest ih =>
    rw [reverseScan]
    split
    · exact .inl rfl
    next n _ =>
    -- the zone after this label
    have hzone : ∀ b : Bool, (if b then reverseZone labels i else zone) = zone ∨
        ∃ j, (if b then reverseZone labels i else zone) = reverseZone labels j := by
      rintro (_ | _)
      · exact .inl rfl
      · exact .inr ⟨i, rfl⟩
    split
    · exact hzone _
    · rcases ih _ _ _ with h | h
      · rw [h]
        exact hzone _
      · exact .inr h

/-- Only a name with exactly four labels before the suffix names an address. -/
theorem reverseScan_invalid (h : labels.length ≠ 4) {rest : List GoString} {i : Nat}
    {octets : List Nat} {zone : GoString} :
    (reverseScan subnet labels rest i octets zone).2 = .invalid := by
  induction rest generalizing i octets zone with
  | nil => rfl
  | cons label rest ih =>
    rw [reverseScan]
    split
    · rfl
    · rw [if_neg (by simp [h])]
      exact ih

/-- A canonical octet that is not the fourth one is scanned, and the zone may be chosen. -/
theorem reverseScan_step (subnet : Prefix) (labels : List GoString) {label : GoString}
    (rest : List GoString) {i n : Nat} (octets : List Nat) (zone : GoString)
    (h : canonicalOctet label = some n) (hi : i ≠ 3) :
    ∃ zone', reverseScan subnet labels (label :: rest) i octets zone =
      reverseScan subnet labels rest (i + 1) (octets ++ [n]) zone' := by
  rw [reverseScan, h]
  simp only [decide_eq_false hi, Bool.false_and, Bool.false_eq_true, if_false]
  exact ⟨_, rfl⟩

/-- The scan of four canonical octets names their address, and finds a zone for it when the subnet
contains it. -/
theorem reverseScan_four (subnet : Prefix) {l₃ l₂ l₁ l₀ : GoString} {n₀ n₁ n₂ n₃ : Nat}
    (h₀ : canonicalOctet l₀ = some n₀) (h₁ : canonicalOctet l₁ = some n₁)
    (h₂ : canonicalOctet l₂ = some n₂) (h₃ : canonicalOctet l₃ = some n₃) :
    (reverseScan subnet [l₃, l₂, l₁, l₀] [l₀, l₁, l₂, l₃] 0 [] []).2 = .from4 [n₀, n₁, n₂, n₃] ∧
      (subnet.bits ≤ 32 → subnet.contains (.from4 [n₀, n₁, n₂, n₃]) = true →
        (reverseScan subnet [l₃, l₂, l₁, l₀] [l₀, l₁, l₂, l₃] 0 [] []).1 ≠ []) := by
  obtain ⟨z₁, e₁⟩ := reverseScan_step subnet [l₃, l₂, l₁, l₀] [l₁, l₂, l₃] [] [] h₀
    (by decide : 0 ≠ 3)
  obtain ⟨z₂, e₂⟩ := reverseScan_step subnet [l₃, l₂, l₁, l₀] [l₂, l₃] [n₀] z₁ h₁
    (by decide : 1 ≠ 3)
  obtain ⟨z₃, e₃⟩ := reverseScan_step subnet [l₃, l₂, l₁, l₀] [l₃] [n₀, n₁] z₂ h₂
    (by decide : 2 ≠ 3)
  rw [e₁]
  simp only [List.nil_append, Nat.zero_add]
  rw [e₂]
  simp only [List.cons_append, List.nil_append, Nat.reduceAdd]
  rw [e₃]
  simp only [List.cons_append, List.nil_append, Nat.reduceAdd]
  rw [reverseScan, h₃]
  refine ⟨rfl, fun hbits hc => ?_⟩
  -- the zone so far is kept, or it is empty and the whole name is the zone
  show (if (z₃ = [] && subnet.bits ≤ (3 + 1) * 8 &&
    subnet.contains (.from4 [n₀, n₁, n₂, n₃])) = true then reverseZone _ 3 else z₃) ≠ []
  split
  · exact reverseZone_ne_nil 3
  · next hne =>
    rintro rfl
    simp [hc, hbits] at hne

end

/-! ## The authority -/

section
variable {s : Server}

theorem reverseSuffix_eq : reverseSuffix = render arpa := by decide

/-- A reverse zone lies below `in-addr.arpa.`. -/
theorem reverseAuthority_zone
    (h : s.reverseAuthority name = some (zone, ip)) : dot :: render arpa <:+ zone := by
  simp only [Server.reverseAuthority] at h
  split at h
  · cases h
  split at h
  · next hne =>
    cases h
    rcases reverseScan_zone s.config.subnet _ _ 0 [] [] with hz | ⟨j, hz⟩
    · exact absurd hz hne
    · rw [hz, ← reverseSuffix_eq]
      exact List.suffix_append _ _
  · cases h

/-- A name is answered for an address only if it is the reverse name of that address. -/
theorem reverseAuthority_ip
    (h : s.reverseAuthority name = some (zone, ip)) (hip : ip.isValid = true) :
    ∃ a, ip = .v4 a ∧ name = reverseName (.v4 a) := by
  simp only [Server.reverseAuthority] at h
  split at h
  · cases h
  next hsuf =>
  obtain ⟨t, rfl⟩ := not_not.1 hsuf
  rw [trimSuffix_append] at h
  split at h
  swap
  · cases h
  rw [Option.some.injEq, Prod.mk.injEq] at h
  obtain ⟨-, rfl⟩ := h
  generalize hlabels : t.splitOn dot = labels at hip ⊢
  have hlen : labels.length = 4 := by
    by_contra hne
    rw [reverseScan_invalid hne] at hip
    cases hip
  obtain ⟨l₃, l₂, l₁, l₀, rfl⟩ : ∃ l₃ l₂ l₁ l₀, labels = [l₃, l₂, l₁, l₀] := by
    match labels, hlen with
    | [l₃, l₂, l₁, l₀], _ => exact ⟨l₃, l₂, l₁, l₀, rfl⟩
  simp only [List.reverse_cons, List.reverse_nil, List.nil_append, List.cons_append,
    List.take_succ_cons, List.take_zero] at hip ⊢
  cases h₀ : canonicalOctet l₀ with
  | none => simp [reverseScan, h₀, Addr.isValid] at hip
  | some n₀ =>
  cases h₁ : canonicalOctet l₁ with
  | none => simp [reverseScan, h₀, h₁, Addr.isValid] at hip
  | some n₁ =>
  cases h₂ : canonicalOctet l₂ with
  | none => simp [reverseScan, h₀, h₁, h₂, Addr.isValid] at hip
  | some n₂ =>
  cases h₃ : canonicalOctet l₃ with
  | none => simp [reverseScan, h₀, h₁, h₂, h₃, Addr.isValid] at hip
  | some n₃ =>
  rw [(reverseScan_four _ h₀ h₁ h₂ h₃).1]
  obtain ⟨hlt₀, rfl⟩ := canonicalOctet_eq_some h₀
  obtain ⟨hlt₁, rfl⟩ := canonicalOctet_eq_some h₁
  obtain ⟨hlt₂, rfl⟩ := canonicalOctet_eq_some h₂
  obtain ⟨hlt₃, rfl⟩ := canonicalOctet_eq_some h₃
  obtain ⟨a, ha, hoct⟩ := octets_from4 hlt₀ hlt₁ hlt₂ hlt₃
  refine ⟨a, ha, ?_⟩
  rw [reverseName, reverseLabels, hoct, render_append, ← reverseSuffix_eq, List.append_cons,
    ← render_splitOn t, hlabels]
  rfl

/-- The reverse name of an address of the subnet is answered for that address. -/
theorem reverseAuthority_reverseName {a : BitVec 32} (hbits : s.config.subnet.bits ≤ 32)
    (hc : s.config.subnet.contains (.v4 a) = true) :
    ∃ zone, s.reverseAuthority (reverseName (.v4 a)) = some (zone, .v4 a) := by
  obtain ⟨hlt₀, hlt₁, hlt₂, hlt₃⟩ : a.toNat / 2 ^ 24 < 256 ∧ a.toNat / 2 ^ 16 % 256 < 256 ∧
      a.toNat / 2 ^ 8 % 256 < 256 ∧ a.toNat % 256 < 256 := by
    have := a.isLt
    omega
  have hlabels : ∀ l ∈ (octets a).reverse.map formatUint8, dot ∉ l := fun l hl => by
    have hv := validLabel_reverseLabels a l (List.mem_append_left _ hl)
    exact fun hd => (nameByte_plain (validLabel_bytes hv _ hd)).2.2.2.1 rfl
  have hne : (octets a).reverse.map formatUint8 ≠ [] := by simp [octets]
  obtain ⟨t, ht⟩ := exists_render_eq hne
  have hsplit : t.splitOn dot = (octets a).reverse.map formatUint8 := by
    have := splitOn_render hlabels
    rw [ht, List.splitOn_append_cons_self] at this
    exact List.append_cancel_right (this.trans rfl)
  have hname : reverseName (.v4 a) = t ++ dot :: reverseSuffix := by
    rw [reverseName, reverseLabels, render_append, ht, reverseSuffix_eq]
    simp
  obtain ⟨hip, hzone⟩ := reverseScan_four s.config.subnet (canonicalOctet_format hlt₀)
    (canonicalOctet_format hlt₁) (canonicalOctet_format hlt₂) (canonicalOctet_format hlt₃)
  rw [show [a.toNat / 2 ^ 24, a.toNat / 2 ^ 16 % 256, a.toNat / 2 ^ 8 % 256, a.toNat % 256] =
    octets a from rfl, from4_octets] at hip hzone
  simp only [Server.reverseAuthority]
  rw [if_neg (not_not.2 ⟨t, hname.symm⟩), hname, trimSuffix_append, hsplit]
  exact ⟨_, (if_pos (hzone hbits hc)).trans (congrArg (fun ip => some (_, ip)) hip)⟩

end

/-! ## The records of an answer -/

section
variable {lib : NameLib} {s : Server} {m : Leasing.Manager} {now : Int}

/-- At the apex there are no other records. -/
theorem apexAnswer_cases {kind : Kind}
    (h : rec ∈ (s.apexAnswer name kind zone).1) :
    (∃ o t n b, rec = .soa o t n b) ∨ ∃ o t n, rec = .ns o t n := by
  simp only [Server.apexAnswer] at h
  split at h
  · split at h
    · rw [List.mem_singleton.1 h]
      exact .inl ⟨_, _, _, _, rfl⟩
    · rw [List.mem_singleton.1 h]
      exact .inr ⟨_, _, _, rfl⟩
    · cases h
  · cases h

/-- The records of a forward answer: those of the apex, or the address that was looked up. -/
theorem answerLocal_forward {name : GoString} {kind : Kind} {r : Response}
    (h : s.answerLocal lib m now name kind s.config.domain ip = some r)
    (hrec : rec ∈ r.answer) :
    rec ∈ (s.apexAnswer name kind s.config.domain).1 ∨
      ∃ a ttl found, s.lookupLocalAddress lib m now name = some (a, ttl, found) ∧
        a.isValid = true ∧ rec = .a name ttl a := by
  simp only [Server.answerLocal, if_true, Server.forwardAnswer, Option.map_map,
    Option.map_eq_some_iff] at h
  obtain ⟨⟨a, ttl, found⟩, hlook, rfl⟩ := h
  rcases List.mem_append.1 hrec with hrec | hrec
  · exact .inl hrec
  · simp only at hrec
    split at hrec
    · next hv =>
      rw [Bool.and_eq_true] at hv
      exact .inr ⟨a, ttl, found, hlook, hv.1, List.mem_singleton.1 hrec⟩
    · cases hrec

/-- The records of a reverse answer: those of the apex, the server's pointer, or a lease's. -/
theorem answerLocal_reverse {kind : Kind} {r : Response}
    (hz : zone ≠ s.config.domain)
    (h : s.answerLocal lib m now name kind zone ip = some r) (hrec : rec ∈ r.answer) :
    rec ∈ (s.apexAnswer name kind zone).1 ∨ (ip.isValid = true ∧
      ((ip = s.config.serverIP ∧ rec = .ptr name s.ttl s.nsName) ∨
      ∃ l, (m.lookupIP now ip).1 = some l ∧ l.hostname ≠ [] ∧ now < l.expiresAt ∧
        rec = .ptr name (s.leaseTTL now l) l.hostname)) := by
  simp only [Server.answerLocal, if_neg hz, Option.map_some, Option.some.injEq] at h
  subst h
  rcases List.mem_append.1 hrec with hrec | hrec
  · exact .inl hrec
  · refine .inr ?_
    have hpointer : ∀ {ttl target}, rec ∈ (if (kind = .ptr || kind = .any) = true then
        [Record.ptr name ttl target] else []) → rec = .ptr name ttl target := by
      intro ttl target hmem
      split at hmem
      · exact List.mem_singleton.1 hmem
      · cases hmem
    simp only [Server.reverseAnswer] at hrec
    split at hrec
    · cases hrec
    next hv =>
    refine ⟨by simpa using hv, ?_⟩
    split at hrec
    · next hip => exact .inl ⟨hip, hpointer hrec⟩
    · split at hrec
      · next l hl =>
        split at hrec
        · next hlive =>
          simp only [Bool.and_eq_true, decide_eq_true_eq] at hlive
          exact .inr ⟨l, hl, hlive.1, hlive.2, hpointer hrec⟩
        · cases hrec
      · cases hrec

end

end InfraBox.Dns
