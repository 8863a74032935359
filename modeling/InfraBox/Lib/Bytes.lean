import InfraBox.Lib.Text
import Mathlib.Data.List.Induction
import Mathlib.Data.Nat.Bitwise

/-!
# Numbers as bytes, and byte streams

A number is written in a fixed number of bytes, the most significant first, and read back from them.
A stream is what a reader still delivers, with the error it ends in; `io.ReadFull` takes a given
number of bytes from it or fails, and what it takes is what the stream delivers first, whatever
follows (`readFull_prepend`, `readFull_ok`).
-/

namespace InfraBox

/-! ## Big-endian numbers -/

/-- The number that bytes stand for, the most significant one first. -/
def beNat (bs : GoString) : Nat := bs.foldl (fun n b => n <<< 8 ||| b.toNat) 0

/-- The last `width` bytes of a number, the most significant one first. -/
def beBytes : (width : Nat) → Nat → GoString
  | 0, _ => []
  | width + 1, n => beBytes width (n / 256) ++ [UInt8.ofNat n]

@[simp] theorem beNat_nil : beNat [] = 0 := rfl

@[simp] theorem beNat_concat (bs : GoString) (b : UInt8) :
    beNat (bs ++ [b]) = beNat bs * 256 + b.toNat := by
  rw [beNat, List.foldl_append, ← beNat]
  simp only [List.foldl_cons, List.foldl_nil]
  rw [← Nat.shiftLeft_add_eq_or_of_lt b.toNat_lt, Nat.shiftLeft_eq]

/-- Digits in base 256. -/
theorem beNat_append (bs cs : GoString) :
    beNat (bs ++ cs) = beNat bs * 256 ^ cs.length + beNat cs := by
  induction cs using List.reverseRecOn with
  | nil => simp
  | append_singleton cs c ih =>
    have hpow : 256 ^ (cs ++ [c]).length = 256 ^ cs.length * 256 := by
      rw [List.length_append, List.length_singleton, Nat.pow_succ]
    rw [← List.append_assoc, beNat_concat, beNat_concat, ih, hpow]
    grind

@[simp] theorem length_beBytes (width n : Nat) : (beBytes width n).length = width := by
  induction width generalizing n with
  | zero => rfl
  | succ width ih => simp [beBytes, ih]

theorem beNat_beBytes (width n : Nat) : beNat (beBytes width n) = n % 256 ^ width := by
  induction width generalizing n with
  | zero => simp [beBytes, Nat.mod_one]
  | succ width ih =>
    have hpow : 256 ^ (width + 1) = 256 * 256 ^ width := by rw [Nat.pow_succ, Nat.mul_comm]
    rw [beBytes, beNat_concat, ih, UInt8.toNat_ofNat', hpow, Nat.mod_mul]
    omega

/-- `binary.BigEndian.Uint32`; callers give it four bytes. -/
def uint32 (bs : GoString) : UInt32 := UInt32.ofNat (beNat bs)

/-- `binary.BigEndian.PutUint32`. -/
def putUint32 (n : UInt32) : GoString := beBytes 4 n.toNat

@[simp] theorem length_putUint32 (n : UInt32) : (putUint32 n).length = 4 := length_beBytes 4 _

theorem beNat_putUint32 (n : UInt32) : beNat (putUint32 n) = n.toNat := by
  have hn : n.toNat < 256 ^ 4 := n.toNat_lt
  rw [putUint32, beNat_beBytes, Nat.mod_eq_of_lt hn]

@[simp] theorem uint32_putUint32 (n : UInt32) : uint32 (putUint32 n) = n := by
  rw [uint32, beNat_putUint32, UInt32.ofNat_toNat]

/-- The top bit of a word is set when the word is large. -/
theorem and_top_bit_ne_zero {n k : Nat} (h : n < 2 ^ (k + 1)) : n &&& 2 ^ k ≠ 0 ↔ 2 ^ k ≤ n := by
  have hpos : 0 < 2 ^ k := Nat.two_pow_pos k
  have hquot : n / 2 ^ k < 2 := Nat.div_lt_of_lt_mul (by rwa [← Nat.pow_succ])
  rw [Nat.and_two_pow, Nat.toNat_testBit, Nat.mod_eq_of_lt hquot, ne_eq, Nat.mul_eq_zero,
    not_or, ← ne_eq, Nat.div_ne_zero_iff]
  omega

/-! ## Slices -/

/-- `data[lo:hi]`; `none` where it reaches outside the data. -/
def slice (data : GoString) (lo hi : Nat) : Option GoString :=
  if lo ≤ hi ∧ hi ≤ data.length then some ((data.take hi).drop lo) else none

/-- What a slice is. -/
theorem slice_eq_some {data part : GoString} {lo hi : Nat} :
    slice data lo hi = some part ↔ lo ≤ hi ∧ part.length = hi - lo ∧
      ∃ before after, before.length = lo ∧ data = before ++ (part ++ after) := by
  unfold slice
  constructor
  · intro h
    split_ifs at h with hin
    cases h
    refine ⟨hin.1, by simp [hin.2], data.take lo, data.drop hi, by simp; omega, ?_⟩
    have htake : data.take lo = (data.take hi).take lo := by simp [List.take_take, hin.1]
    rw [htake, ← List.append_assoc, List.take_append_drop, List.take_append_drop]
  · rintro ⟨hle, hpart, before, after, rfl, rfl⟩
    have hhi : hi = before.length + part.length := by omega
    subst hhi
    simp [List.take_append]

theorem slice_of_le {data : GoString} {lo hi : Nat} (h : lo ≤ hi) (hhi : hi ≤ data.length) :
    ∃ part, slice data lo hi = some part := ⟨_, if_pos ⟨h, hhi⟩⟩

/-- An error of reading: `io.EOF`, `io.ErrUnexpectedEOF` or another one. -/
inductive ReadError where
  | eof
  | unexpectedEOF
  | other (text : GoString)
deriving DecidableEq

/-- What a reader still delivers: bytes, and then an error. -/
structure Stream where
  bytes : GoString
  err : ReadError
deriving DecidableEq

/-- The stream that delivers some bytes first. -/
def Stream.prepend (data : GoString) (s : Stream) : Stream := { s with bytes := data ++ s.bytes }

@[simp] theorem prepend_nil (s : Stream) : s.prepend [] = s := rfl

theorem prepend_append (data data' : GoString) (s : Stream) :
    s.prepend (data ++ data') = (s.prepend data').prepend data := by
  simp [Stream.prepend]

/-- `io.ReadFull`: exactly `n` bytes, or the error the stream ends in. -/
def Stream.readFull (s : Stream) (n : Nat) : Except ReadError GoString × Stream :=
  if n ≤ s.bytes.length then (.ok (s.bytes.take n), { s with bytes := s.bytes.drop n })
  else
    let err := if s.bytes ≠ [] ∧ s.err = .eof then .unexpectedEOF else s.err
    (.error err, { s with bytes := [] })

theorem readFull_prepend {data : GoString} {n : Nat} (h : data.length = n) (s : Stream) :
    (s.prepend data).readFull n = (.ok data, s) := by
  subst h
  simp [Stream.readFull, Stream.prepend]

theorem readFull_ok {s s' : Stream} {n : Nat} {data : GoString}
    (h : s.readFull n = (.ok data, s')) : s = s'.prepend data ∧ data.length = n := by
  unfold Stream.readFull at h
  split_ifs at h with hn
  · cases h
    exact ⟨by simp [Stream.prepend], by simp [hn]⟩
  · cases h
  · cases h

end InfraBox
