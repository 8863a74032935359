import Mathlib.Data.Nat.Bitwise
import Mathlib.Order.Bounds.Basic

/-!
# Aligned blocks

The numbers that agree with `a` in all but their `k` lowest bits are a block of `2 ^ k` consecutive
ones. It contains what lies between two of its numbers, the least has these bits zero and the
greatest has them set.
-/

namespace InfraBox

variable {a k lo hi x : Nat}

/-- A block is an interval. -/
theorem div_eq_of_between {c : Nat} (hlo : lo / c = a / c) (hhi : hi / c = a / c) (hle : lo ≤ x)
    (hge : x ≤ hi) : x / c = a / c := by
  have hfrom := Nat.div_le_div_right (c := c) hle
  have hto := Nat.div_le_div_right (c := c) hge
  omega

/-- Setting the low bits keeps the others. -/
theorem or_low_bits (a k : Nat) : a ||| (2 ^ k - 1) = a / 2 ^ k * 2 ^ k + (2 ^ k - 1) := by
  have hpos : 0 < 2 ^ k := Nat.two_pow_pos k
  have hones : 2 ^ k - 1 < 2 ^ k := Nat.sub_lt hpos Nat.one_pos
  have hdiv : (a ||| (2 ^ k - 1)) / 2 ^ k = a / 2 ^ k := by
    rw [Nat.or_div_two_pow, Nat.div_eq_of_lt hones, Nat.or_zero]
  have hmod : (a ||| (2 ^ k - 1)) % 2 ^ k = 2 ^ k - 1 := by
    rw [Nat.or_mod_two_pow, Nat.mod_eq_of_lt hones]
    have hlt := Nat.or_lt_two_pow (Nat.mod_lt a hpos) hones
    have hge : 2 ^ k - 1 ≤ a % 2 ^ k ||| (2 ^ k - 1) := Nat.right_le_or
    omega
  rw [← Nat.div_add_mod (a ||| (2 ^ k - 1)) (2 ^ k), hdiv, hmod, Nat.mul_comm]

theorem isLeast_block (a k : Nat) : IsLeast {x | x / 2 ^ k = a / 2 ^ k} (a / 2 ^ k * 2 ^ k) := by
  refine ⟨Nat.mul_div_cancel _ (Nat.two_pow_pos k), fun x (hx : x / 2 ^ k = a / 2 ^ k) => ?_⟩
  rw [← hx]
  exact Nat.div_mul_le_self x _

/-- The last number of a block. -/
theorem isGreatest_block (a k : Nat) :
    IsGreatest {x | x / 2 ^ k = a / 2 ^ k} (a ||| (2 ^ k - 1)) := by
  have hpos : 0 < 2 ^ k := Nat.two_pow_pos k
  have hones : 2 ^ k - 1 < 2 ^ k := Nat.sub_lt hpos Nat.one_pos
  rw [or_low_bits]
  refine ⟨?_, fun x (hx : x / 2 ^ k = a / 2 ^ k) => ?_⟩
  · show (a / 2 ^ k * 2 ^ k + (2 ^ k - 1)) / 2 ^ k = a / 2 ^ k
    rw [Nat.mul_comm, Nat.mul_add_div hpos, Nat.div_eq_of_lt hones, Nat.add_zero]
  · have hsplit := Nat.div_add_mod x (2 ^ k)
    have hlt := Nat.mod_lt x hpos
    rw [hx, Nat.mul_comm] at hsplit
    omega

/-- The `k` low bits of a word of `w` bits, as the word of all ones shifted to the right. -/
theorem ones_shiftRight {w : Nat} (h : k ≤ w) : (2 ^ w - 1) >>> (w - k) = 2 ^ k - 1 := by
  have hpow : 2 ^ w = 2 ^ k * 2 ^ (w - k) := by rw [← Nat.pow_add, Nat.add_sub_cancel' h]
  have hpos : 0 < 2 ^ (w - k) := Nat.two_pow_pos _
  have hpos' : 0 < 2 ^ k := Nat.two_pow_pos _
  rw [Nat.shiftRight_eq_div_pow, hpow]
  refine Nat.div_eq_of_lt_le ?_ ?_
  · rw [Nat.sub_mul, Nat.one_mul]
    omega
  · rw [Nat.sub_add_cancel hpos']
    exact Nat.sub_lt (Nat.mul_pos hpos' hpos) Nat.one_pos

end InfraBox
