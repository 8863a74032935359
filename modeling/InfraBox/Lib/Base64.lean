import InfraBox.Lib.Text

/-!
# Base64url

`base64.RawURLEncoding.EncodeToString`: every three bytes become four characters of the URL
alphabet, without padding. What the rest of the development uses is the shape of the result.
-/

namespace InfraBox

/-- The URL alphabet. -/
def base64Alphabet : GoString :=
  str "ABCDEFGHIJKLMNOPQRSTUVWXYZabcdefghijklmnopqrstuvwxyz0123456789-_"

/-- The character of a value below 64. -/
def base64Char (n : Nat) : UInt8 := base64Alphabet.get ⟨n % 64, Nat.mod_lt n (by decide)⟩

/-- `base64.RawURLEncoding.EncodeToString`. -/
def base64Encode : GoString → GoString
  | [] => []
  | [a] => [base64Char (a.toNat / 4), base64Char (a.toNat * 16)]
  | [a, b] =>
    let n := a.toNat * 256 + b.toNat
    [base64Char (n / 1024), base64Char (n / 16), base64Char (n * 4)]
  | a :: b :: c :: s =>
    let n := a.toNat * 65536 + b.toNat * 256 + c.toNat
    base64Char (n / 262144) :: base64Char (n / 4096) :: base64Char (n / 64) :: base64Char n ::
      base64Encode s

theorem base64Char_mem (n : Nat) : base64Char n ∈ base64Alphabet :=
  List.get_mem _ _

theorem mem_base64Encode {s : GoString} : ∀ b ∈ base64Encode s, b ∈ base64Alphabet := by
  fun_induction base64Encode s with
  | case1 => simp
  | case2 => simp [base64Char_mem]
  | case3 => simp [base64Char_mem]
  | case4 a b c s n ih => simpa [base64Char_mem] using ih

/-- Whole groups of three bytes become groups of four characters. -/
theorem length_base64Encode {s : GoString} {n : Nat} (h : s.length = 3 * n) :
    (base64Encode s).length = 4 * n := by
  induction n generalizing s with
  | zero => rw [List.length_eq_zero_iff.1 h]; rfl
  | succ n ih =>
    match s, h with
    | a :: b :: c :: s, h =>
      have hs : s.length = 3 * n := by simp only [List.length_cons] at h; omega
      simp only [base64Encode, List.length_cons, ih hs]
      omega

example : base64Encode (str "foobar") = str "Zm9vYmFy" := by decide

end InfraBox
