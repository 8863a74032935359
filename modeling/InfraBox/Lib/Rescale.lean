import Mathlib.Data.Rat.Floor
import Mathlib.Tactic.Linarith

/-!
# Fractions in another unit

The fraction `n / d` in units of `1 / r`, rounded down. If the new unit is not the larger one,
rounding loses nothing: different numerators stay different and in order, and rounding up on the way
back gives the numerator again.
-/

namespace InfraBox

/-- `n / d` in units of `1 / r`. -/
def rescale (d r n : Nat) : Nat := n * r / d

variable {d r n m : Nat}

theorem rescale_lt (hr : 0 < r) (h : n < d) : rescale d r n < r :=
  Nat.div_lt_of_lt_mul ((Nat.mul_lt_mul_right hr).2 h)

/-- Numerators that differ stay apart. -/
theorem rescale_lt_rescale (hd : 0 < d) (hle : d ≤ r) (h : n < m) :
    rescale d r n < rescale d r m := by
  have hstep : n * r + d ≤ m * r := by
    calc n * r + d ≤ n * r + r := Nat.add_le_add_left hle _
      _ = (n + 1) * r := (Nat.succ_mul n r).symm
      _ ≤ m * r := Nat.mul_le_mul_right r h
  calc n * r / d < n * r / d + 1 := Nat.lt_succ_self _
    _ = (n * r + d) / d := (Nat.add_div_right _ hd).symm
    _ ≤ m * r / d := Nat.div_le_div_right hstep

/-- The numerator is recovered by rounding up. -/
theorem ceil_rescale (hd : 0 < d) (hle : d ≤ r) : ⌈(rescale d r n * d : ℚ) / r⌉ = (n : ℤ) := by
  have hr : (0 : ℚ) < r := by exact_mod_cast hd.trans_le hle
  have hfloor : rescale d r n * d ≤ n * r := Nat.div_mul_le_self _ _
  have hnext : n * r < rescale d r n * d + r := by
    have hlt := Nat.lt_div_mul_add (a := n * r) hd
    exact hlt.trans_le (Nat.add_le_add_left hle _)
  have hfloorQ : (rescale d r n * d : ℚ) ≤ n * r := by exact_mod_cast hfloor
  have hnextQ : (n * r : ℚ) < rescale d r n * d + r := by exact_mod_cast hnext
  rw [Int.ceil_eq_iff, lt_div_iff₀ hr, div_le_iff₀ hr, Int.cast_natCast]
  constructor
  · linarith
  · exact hfloorQ

end InfraBox
