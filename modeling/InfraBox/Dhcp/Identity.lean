import Mathlib.Data.List.Basic
import InfraBox.Lib.Decimal
import InfraBox.Lib.Hex
import InfraBox.Lease.Hostname
import InfraBox.Dhcp.Hostname

/-!
# Client identities and generated names

`clientIdentifier` of `internal/dhcpserver/server.go` and `fallbackHostname` of
`internal/dhcpserver/hostname.go`. Both texts are one function of the identity, written with a
separator (`Identity.text`), and that function is injective for a separator that is no hexadecimal
digit (`Identity.text_injective`); a hashed name differs from every other by its sixth byte.
-/

namespace InfraBox.Dhcp

def colon : UInt8 := ':'.toUInt8

/-- `sha256.Sum256`: some function to 32 bytes. -/
structure Sha256 where
  sum256 : GoString → GoString
  length_sum256 : ∀ data, (sum256 data).length = 32

/-- `clientIdentifier`. -/
def clientIdentifier (request : Request) : GoString :=
  match request.clientIdentifier with
  | some id => if id.length < 2 ∨ id.length > 255 then [] else str "id:" ++ hexEncode id
  | none =>
    if request.clientHWAddr.length = 0 ∨ request.clientHWAddr.length > 16 then []
    else str "hw:" ++ formatNat request.hwType.toNat ++ str ":" ++ hexEncode request.clientHWAddr

/-- `strings.ReplaceAll(clientID, ":", "-")`. -/
def replaceColons (clientID : GoString) : GoString :=
  clientID.map fun b => if b = colon then hyphen else b

/-- `fallbackHostname`. -/
def fallbackHostname (sha : Sha256) (clientID : GoString) : GoString :=
  if clientID = [] then []
  else
    let name := str "host-" ++ replaceColons clientID
    if name.length ≤ 63 then name
    else str "host-sha256-" ++ hexEncode ((sha.sum256 clientID).take 24)

/-! ## Identities as text -/

/-- What identifies a client: the bytes of option 61, or its hardware type and address. -/
inductive Identity where
  | id (bytes : GoString)
  | hw (hwType : UInt16) (addr : GoString)
deriving DecidableEq

/-- The identity a request carries. -/
def Request.identity (request : Request) : Identity :=
  match request.clientIdentifier with
  | some id => .id id
  | none => .hw request.hwType request.clientHWAddr

/-- The part of an identity that is written last. -/
def Identity.lastPart : Identity → GoString
  | .id bytes => bytes
  | .hw _ addr => addr

/-- What stands before the last part, each part with a separator behind it. -/
def Identity.front (sep : UInt8) : Identity → GoString
  | .id _ => str "id" ++ [sep]
  | .hw hwType _ => str "hw" ++ sep :: (formatNat hwType.toNat ++ [sep])

/-- An identity written with a separator. -/
def Identity.text (sep : UInt8) (i : Identity) : GoString := i.front sep ++ hexEncode i.lastPart

/-- The two separators, neither a digit. -/
def Separator (sep : UInt8) : Prop := sep = colon ∨ sep = hyphen

section
variable {sep : UInt8}

theorem Separator.toNat (h : Separator sep) : sep.toNat = 58 ∨ sep.toNat = 45 := by
  rcases h with rfl | rfl
  · exact .inl rfl
  · exact .inr rfl

theorem toNat_of_isDigit {b : UInt8} (h : isDigit b = true) : 48 ≤ b.toNat ∧ b.toNat ≤ 57 := by
  simp only [isDigit, Bool.and_eq_true, decide_eq_true_eq, UInt8.le_iff_toNat_le] at h
  exact h

theorem Separator.notMem_formatNat (h : Separator sep) (n : Nat) : sep ∉ formatNat n := by
  intro hmem
  have hdigit := toNat_of_isDigit (isDigit_of_mem_formatNat hmem)
  have hsep := h.toNat
  omega

theorem Separator.notMem_hexEncode (h : Separator sep) (bytes : GoString) :
    sep ∉ hexEncode bytes := by
  intro hmem
  have hdigit := mem_hexEncode hmem
  have hsep := h.toNat
  omega

/-- Different identities have different texts. -/
theorem Identity.text_injective (h : Separator sep) : Function.Injective (Identity.text sep) := by
  intro i j htext
  simp only [Identity.text] at htext
  cases i with
  | id bytes =>
    cases j with
    | id bytes' =>
      obtain rfl : bytes = bytes' := hexEncode_injective (List.append_cancel_left htext)
      rfl
    | hw _ _ => exact absurd (List.cons.inj htext).1 (by decide)
  | hw hwType addr =>
    cases j with
    | id _ => exact absurd (List.cons.inj htext).1 (by decide)
    | hw hwType' addr' =>
      simp only [Identity.front, Identity.lastPart, List.append_assoc, List.cons_append,
        List.nil_append] at htext
      have hrest := (List.cons.inj (List.append_cancel_left htext)).2
      rw [List.append_cons_inj_of_notMem (h.notMem_formatNat _) (h.notMem_hexEncode _)] at hrest
      obtain ⟨htype, -, haddr⟩ := hrest
      rw [UInt16.toNat_inj.1 (formatNat_injective htype), hexEncode_injective haddr]

/-- A client ID is the identity written with colons, or there is none. -/
theorem clientIdentifier_cases (request : Request) :
    clientIdentifier request = [] ∨ clientIdentifier request = request.identity.text colon ∧
      request.identity.lastPart ≠ [] := by
  unfold clientIdentifier Request.identity
  cases request.clientIdentifier with
  | some id =>
    dsimp only
    split_ifs with hlen
    · exact .inl rfl
    · refine .inr ⟨rfl, ?_⟩
      rintro rfl
      exact hlen (.inl (by decide))
  | none =>
    dsimp only
    split_ifs with hlen
    · exact .inl rfl
    · refine .inr ⟨?_, fun hnil => hlen (.inl (List.length_eq_zero_iff.2 hnil))⟩
      simp [Identity.text, Identity.front, Identity.lastPart, str, colon]

theorem replaceColons_of_notMem {s : GoString} (h : colon ∉ s) : replaceColons s = s := by
  refine (List.map_congr_left fun b hb => if_neg ?_).trans (List.map_id s)
  rintro rfl
  exact h hb

/-- The replacement changes the separator only. -/
theorem replaceColons_text (i : Identity) : replaceColons (i.text colon) = i.text hyphen := by
  have hcolon : Separator colon := .inl rfl
  have happend (s t : GoString) : replaceColons (s ++ t) = replaceColons s ++ replaceColons t :=
    List.map_append
  have hcons (t : GoString) : replaceColons (colon :: t) = hyphen :: replaceColons t := rfl
  rw [Identity.text, happend, replaceColons_of_notMem (hcolon.notMem_hexEncode _), Identity.text]
  congr 1
  cases i with
  | id bytes => rfl
  | hw hwType addr =>
    rw [Identity.front, happend, hcons, happend,
      replaceColons_of_notMem (hcolon.notMem_formatNat _)]
    rfl

end

/-! ## Generated names -/

section
variable {sha : Sha256} {i : Identity}

/-- A text that ends in hexadecimal digits is a label, if what is before them begins like one. -/
theorem validLabel_hex {first : UInt8} {front bytes : GoString} (hbytes : bytes ≠ [])
    (hhead : front.head? = some first) (hfirst : first ≠ hyphen)
    (hfront : ∀ b ∈ front, nameRune b.toNat = true)
    (hlen : (front ++ hexEncode bytes).length ≤ 63) :
    validLabel (front ++ hexEncode bytes) = true := by
  have hhex : hexEncode bytes ≠ [] := by
    intro hnil
    have hzero := length_hexEncode bytes
    rw [hnil, List.length_nil] at hzero
    exact hbytes (List.length_eq_zero_iff.1 (by omega))
  have hlast : (front ++ hexEncode bytes).getLast? ≠ some hyphen := by
    rw [List.getLast?_append_of_ne_nil _ hhex]
    exact fun h => Separator.notMem_hexEncode (.inr rfl) bytes (List.mem_of_getLast? h)
  have hrunes : ∀ b ∈ front ++ hexEncode bytes, nameRune b.toNat = true := by
    intro b hb
    rcases List.mem_append.1 hb with hb | hb
    · exact hfront b hb
    · have hdigit := mem_hexEncode hb
      rw [nameRune_iff]
      omega
  rw [validLabel, Bool.and_eq_true, all_runes fun _ => nameRune_lt]
  refine ⟨?_, hrunes⟩
  simp only [Bool.not_eq_true', Bool.or_eq_false_iff, decide_eq_false_iff_not]
  refine ⟨⟨⟨?_, Nat.not_lt.2 hlen⟩, ?_⟩, hlast⟩
  · simp [hbytes]
  · rw [List.head?_append, hhead]
    exact fun h => hfirst (Option.some.inj h)

/-- The bytes before the last part of a name. -/
theorem nameRune_front {b : UInt8} (h : b ∈ str "host-" ++ i.front hyphen) :
    nameRune b.toNat = true := by
  have hlit : ∀ b ∈ str "host-" ++ str "id" ++ str "hw" ++ [hyphen], nameRune b.toNat = true := by
    decide +kernel
  cases i with
  | id bytes =>
    apply hlit
    simp only [Identity.front, List.mem_append] at h ⊢
    rcases h with hhost | hid | hsep
    · exact .inl (.inl (.inl hhost))
    · exact .inl (.inl (.inr hid))
    · exact .inr hsep
  | hw hwType addr =>
    by_cases hdigit : b ∈ formatNat hwType.toNat
    · have hrange := toNat_of_isDigit (isDigit_of_mem_formatNat hdigit)
      rw [nameRune_iff]
      omega
    · apply hlit
      simp only [Identity.front, List.mem_append, List.mem_cons] at h ⊢
      rcases h with hhost | hhw | hsep | hin | hlast
      · exact .inl (.inl (.inl hhost))
      · exact .inl (.inr hhw)
      · exact .inr (.inl hsep)
      · exact absurd hin hdigit
      · exact .inr hlast

/-- The name of an identity: itself with hyphens, or its hash where that is too long. -/
theorem fallbackHostname_text (sha : Sha256) (i : Identity) :
    fallbackHostname sha (i.text colon) =
      if (str "host-" ++ i.text hyphen).length ≤ 63 then str "host-" ++ i.text hyphen
      else str "host-sha256-" ++ hexEncode ((sha.sum256 (i.text colon)).take 24) := by
  have hne : i.text colon ≠ [] := by
    cases i with
    | id bytes | hw hwType addr => exact List.cons_ne_nil _ _
  rw [fallbackHostname, if_neg hne, replaceColons_text]

/-- A fallback name is a label, whatever the hash is. -/
theorem validLabel_fallbackHostname (sha : Sha256) (hlast : i.lastPart ≠ []) :
    validLabel (fallbackHostname sha (i.text colon)) = true := by
  rw [fallbackHostname_text]
  split_ifs with hlen
  · rw [Identity.text, ← List.append_assoc] at hlen ⊢
    exact validLabel_hex hlast rfl (by decide) (fun _ => nameRune_front) hlen
  · have hdigest : ((sha.sum256 (i.text colon)).take 24).length = 24 := by
      rw [List.length_take, sha.length_sum256]
      rfl
    have hname : (str "host-sha256-").length = 12 := rfl
    refine validLabel_hex (List.ne_nil_of_length_pos (by omega)) rfl (by decide)
      (by decide +kernel) ?_
    rw [List.length_append, length_hexEncode, hdigest, hname]
    decide

/-- Names differ for different identities, unless the hashes of their texts collide. -/
theorem fallbackHostname_ne {j : Identity} (hne : i ≠ j)
    (hcollision : (sha.sum256 (i.text colon)).take 24 ≠ (sha.sum256 (j.text colon)).take 24) :
    fallbackHostname sha (i.text colon) ≠ fallbackHostname sha (j.text colon) := by
  -- the sixth byte of a hashed name is an `s`, that of any other an `i` or an `h`
  have hformat (i : Identity) (digest : GoString) :
      str "host-" ++ i.text hyphen ≠ str "host-sha256-" ++ digest := by
    intro heq
    have hrest : i.text hyphen = str "sha256-" ++ digest :=
      List.append_cancel_left (heq.trans (List.append_assoc (str "host-") (str "sha256-") digest))
    cases i with
    | id bytes | hw hwType addr => exact absurd (List.cons.inj hrest).1 (by decide)
  rw [fallbackHostname_text, fallbackHostname_text]
  split_ifs
  · exact fun h => hne (Identity.text_injective (.inr rfl) (List.append_cancel_left h))
  · exact hformat i _
  · exact (hformat j _).symm
  · exact fun h => hcollision (hexEncode_injective (List.append_cancel_left h))

end

/-- Generated names are labels and tell clients apart. -/
theorem generated_names (sha : Sha256) (request : Request) :
    (clientIdentifier request = [] ∧ fallbackHostname sha (clientIdentifier request) = [] ∨
      clientIdentifier request ≠ [] ∧
        validLabel (fallbackHostname sha (clientIdentifier request)) = true ∧
        (fallbackHostname sha (clientIdentifier request)).length ≤ 63) ∧
    ∀ request' : Request, clientIdentifier request ≠ [] → clientIdentifier request' ≠ [] →
      request.identity ≠ request'.identity →
      clientIdentifier request ≠ clientIdentifier request' ∧
        ((sha.sum256 (clientIdentifier request)).take 24 ≠
            (sha.sum256 (clientIdentifier request')).take 24 →
          fallbackHostname sha (clientIdentifier request) ≠
            fallbackHostname sha (clientIdentifier request')) := by
  constructor
  · rcases clientIdentifier_cases request with hnil | ⟨htext, hlast⟩
    · exact .inl ⟨hnil, by rw [hnil]; rfl⟩
    · have hlabel : validLabel (fallbackHostname sha (clientIdentifier request)) = true := by
        rw [htext]
        exact validLabel_fallbackHostname sha hlast
      refine .inr ⟨?_, hlabel, validLabel_length hlabel⟩
      intro hnil
      rw [hnil] at hlabel
      exact validLabel_ne_nil hlabel rfl
  · intro request' hid hid' hne
    obtain ⟨htext, -⟩ := (clientIdentifier_cases request).resolve_left hid
    obtain ⟨htext', -⟩ := (clientIdentifier_cases request').resolve_left hid'
    rw [htext, htext']
    exact ⟨fun h => hne (Identity.text_injective (.inl rfl) h), fallbackHostname_ne hne⟩

/-- A digest for tests: the first 32 bytes, filled with zeros. -/
def sampleSha : Sha256 where
  sum256 data := (data ++ List.replicate 32 0).take 32
  length_sum256 data := by simp

/-- Two identities of one packet. -/
theorem generated_names_sample :
    clientIdentifier sampleRequest ≠
        clientIdentifier { sampleRequest with clientIdentifier := none } ∧
      fallbackHostname sampleSha (clientIdentifier sampleRequest) ≠
        fallbackHostname sampleSha
          (clientIdentifier { sampleRequest with clientIdentifier := none }) := by
  obtain ⟨hid, hlabel⟩ := (generated_names sampleSha sampleRequest).2
    { sampleRequest with clientIdentifier := none } (by decide) (by decide) (by decide)
  exact ⟨hid, hlabel (by decide)⟩

end InfraBox.Dhcp
