import InfraBox.Lib.Text

/-!
# Hexadecimal text

`hex.EncodeToString`: two digits a byte, so that texts of different bytes differ
(`hexEncode_injective`), and no other bytes than digits and the letters `a` to `f`.
-/

namespace InfraBox

/-- The digit of a number below sixteen. -/
def lowerHex (n : Nat) : UInt8 :=
  if n < 10 then UInt8.ofNat (48 + n) else UInt8.ofNat (87 + n)

/-- The two digits of a byte. -/
def hexByte (b : UInt8) : GoString := [lowerHex (b.toNat / 16), lowerHex (b.toNat % 16)]

/-- `hex.EncodeToString`. -/
def hexEncode (bytes : List UInt8) : GoString := bytes.flatMap hexByte

theorem toNat_lowerHex {n : Nat} (h : n < 16) :
    (lowerHex n).toNat = if n < 10 then 48 + n else 87 + n := by
  unfold lowerHex
  split_ifs <;> rw [UInt8.toNat_ofNat'] <;> omega

theorem lowerHex_inj {m n : Nat} (hm : m < 16) (hn : n < 16) (h : lowerHex m = lowerHex n) :
    m = n := by
  have hval := congrArg UInt8.toNat h
  rw [toNat_lowerHex hm, toNat_lowerHex hn] at hval
  split_ifs at hval <;> omega

/-- Two digits determine the byte. -/
theorem hexByte_injective : Function.Injective hexByte := by
  intro a b h
  simp only [hexByte, List.cons.injEq, and_true] at h
  have ha := a.toNat_lt
  have hb := b.toNat_lt
  have hhigh := lowerHex_inj (by omega) (by omega) h.1
  have hlow := lowerHex_inj (by omega) (by omega) h.2
  apply UInt8.toNat_inj.1
  omega

@[simp] theorem hexEncode_nil : hexEncode [] = [] := rfl

theorem hexEncode_cons (b : UInt8) (bytes : List UInt8) :
    hexEncode (b :: bytes) = hexByte b ++ hexEncode bytes := List.flatMap_cons

@[simp] theorem length_hexEncode (bytes : List UInt8) :
    (hexEncode bytes).length = 2 * bytes.length := by
  induction bytes with
  | nil => rfl
  | cons b bytes ih =>
    rw [hexEncode_cons, List.length_append, ih, List.length_cons]
    simp only [hexByte, List.length_cons, List.length_nil]
    omega

/-- The digits determine the bytes. -/
theorem hexEncode_injective : Function.Injective hexEncode := by
  intro s
  induction s with
  | nil =>
    intro t h
    cases t with
    | nil => rfl
    | cons c t => simp [hexEncode_cons, hexByte] at h
  | cons b s ih =>
    intro t h
    cases t with
    | nil => simp [hexEncode_cons, hexByte] at h
    | cons c t =>
      rw [hexEncode_cons, hexEncode_cons] at h
      obtain ⟨hbyte, hrest⟩ := List.append_inj h rfl
      rw [hexByte_injective hbyte, ih hrest]

/-- The bytes of a hexadecimal text. -/
theorem mem_hexEncode {c : UInt8} {bytes : List UInt8} (h : c ∈ hexEncode bytes) :
    48 ≤ c.toNat ∧ c.toNat ≤ 57 ∨ 97 ≤ c.toNat ∧ c.toNat ≤ 102 := by
  obtain ⟨b, -, hb⟩ := List.mem_flatMap.1 h
  obtain ⟨n, hn, rfl⟩ : ∃ n < 16, c = lowerHex n := by
    have hlt := b.toNat_lt
    simp only [hexByte, List.mem_cons, List.not_mem_nil, or_false] at hb
    rcases hb with rfl | rfl
    · exact ⟨_, by omega, rfl⟩
    · exact ⟨_, by omega, rfl⟩
  rw [toNat_lowerHex hn]
  split_ifs <;> omega

end InfraBox
