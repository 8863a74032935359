import InfraBox.Lib.Text

/-!
# Decimal numbers

`big.Int.String` and `big.Int.SetString` in base ten. A number read back from its text is the
number (`parseInt_formatInt`).
-/

namespace InfraBox

/-- The decimal digits of a number. -/
def formatNat (n : Nat) : GoString := (Nat.toDigits 10 n).map Char.toUInt8

/-- `big.Int.String`. -/
def formatInt (z : Int) : GoString :=
  if z < 0 then hyphen :: formatNat z.natAbs else formatNat z.natAbs

/-- The value of a nonempty sequence of digits. -/
def parseNat (s : GoString) : Option Nat :=
  if s ≠ [] ∧ s.all isDigit = true then some (s.foldl (fun n b => 10 * n + (b.toNat - 48)) 0)
  else none

/-- `strconv.ParseUint` in base ten. -/
def parseUint (bits : Nat) (s : GoString) : Option Nat := (parseNat s).filter (· < 2 ^ bits)

/-- `big.Int.SetString` in base ten: digits after an optional sign. -/
def parseInt : GoString → Option Int
  | [] => none
  | b :: s =>
    if b = hyphen then (parseNat s).map fun n : Nat => -(n : Int)
    else if b = '+'.toUInt8 then (parseNat s).map Int.ofNat
    else (parseNat (b :: s)).map Int.ofNat

/-- A digit is a byte with its own code. -/
theorem digit_byte {c : Char} (h : c.isDigit = true) :
    isDigit c.toUInt8 = true ∧ c.toUInt8.toNat = c.toNat := by
  have hc : 48 ≤ c.toNat ∧ c.toNat ≤ 57 := by
    simp only [Char.isDigit, Bool.and_eq_true, decide_eq_true_eq, ge_iff_le,
      UInt32.le_iff_toNat_le] at h
    exact h
  have hval : c.toUInt8.toNat = c.toNat := by
    simp only [Char.toUInt8, Char.toNat, UInt32.toNat_toUInt8] at hc ⊢
    omega
  refine ⟨?_, hval⟩
  simp only [isDigit, Bool.and_eq_true, decide_eq_true_eq, UInt8.le_iff_toNat_le, hval]
  exact hc

/-- The first byte of a number is no sign. -/
theorem formatNat_cons (n : Nat) :
    ∃ b s, formatNat n = b :: s ∧ b ≠ hyphen ∧ b ≠ '+'.toUInt8 := by
  cases h : Nat.toDigits 10 n with
  | nil => exact absurd h Nat.toDigits_ne_nil
  | cons c cs =>
    have hc : c ∈ Nat.toDigits 10 n := by simp [h]
    have hd := (digit_byte (Nat.isDigit_of_mem_toDigits (by decide) (by decide) hc)).1
    refine ⟨c.toUInt8, cs.map Char.toUInt8, by simp [formatNat, h], ?_, ?_⟩ <;>
    · intro heq
      rw [heq] at hd
      revert hd
      decide

theorem isDigit_of_mem_formatNat {n : Nat} {b : UInt8} (h : b ∈ formatNat n) :
    isDigit b = true := by
  obtain ⟨c, hc, rfl⟩ := List.mem_map.1 h
  exact (digit_byte (Nat.isDigit_of_mem_toDigits (by decide) (by decide) hc)).1

/-- Decimal digits are read back. -/
theorem parseNat_formatNat (n : Nat) : parseNat (formatNat n) = some n := by
  have hdigit : ∀ c ∈ Nat.toDigits 10 n, c.isDigit = true := fun c hc =>
    Nat.isDigit_of_mem_toDigits (by decide) (by decide) hc
  have hall : (formatNat n).all isDigit = true :=
    List.all_eq_true.2 fun _ => isDigit_of_mem_formatNat
  have hfold : ∀ (l : List Char) (init : Nat), (∀ c ∈ l, c.isDigit = true) →
      (l.map Char.toUInt8).foldl (fun n b => 10 * n + (b.toNat - 48)) init =
        Nat.ofDigitChars 10 l init := by
    intro l
    induction l with
    | nil => intro init _; rfl
    | cons c l ih =>
      intro init hl
      simp only [List.map_cons, List.foldl_cons, Nat.ofDigitChars,
        (digit_byte (hl c (by simp))).2]
      exact ih _ fun d hd => hl d (by simp [hd])
  obtain ⟨b, s, hs, -⟩ := formatNat_cons n
  rw [parseNat, if_pos ⟨by rw [hs]; exact List.cons_ne_nil _ _, hall⟩, formatNat, hfold _ _ hdigit,
    Nat.ofDigitChars_ten_toDigits]

theorem formatNat_injective : Function.Injective formatNat := by
  intro m n h
  have hm := parseNat_formatNat m
  rw [h, parseNat_formatNat] at hm
  exact (Option.some.inj hm).symm

/-- A number read back from its text. -/
@[simp] theorem parseInt_formatInt (z : Int) : parseInt (formatInt z) = some z := by
  rcases Int.lt_or_le z 0 with hz | hz
  · rw [formatInt, if_pos hz, parseInt, if_pos rfl, parseNat_formatNat, Option.map_some,
      Option.some.injEq]
    omega
  · obtain ⟨b, s, hs, hm, hp⟩ := formatNat_cons z.natAbs
    rw [formatInt, if_neg (Int.not_lt.2 hz), hs, parseInt, if_neg hm, if_neg hp, ← hs,
      parseNat_formatNat, Option.map_some, Option.some.injEq]
    simp only [Int.ofNat_eq_natCast]
    omega

end InfraBox
