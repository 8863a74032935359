import InfraBox.Lib.Bytes
import InfraBox.Lib.Rescale

/-!
# NTP timestamps

`putTimestamp` of `internal/ntpserver/protocol.go`. A timestamp has 32 bits of seconds, which wrap
at the ends of the NTP eras, and 32 bits of a fraction. The shift that makes the fraction has room
for every nanosecond (`toNat_fraction`), and one nanosecond is more than four units of it, so a
timestamp determines the nanoseconds and, within an era, the order of instants (`timestamp_lt`).
-/

namespace InfraBox.Ntp

/-- What `putTimestamp` reads of an instant: `t.Unix()` and `t.Nanosecond()`. -/
structure Instant where
  unix : Int64
  nanosecond : Nat
  nanosecond_lt : nanosecond < 1000000000

/-- Seconds from 1900-01-01 to the Unix epoch. -/
def epochOffset : Int64 := 2208988800

/-- `uint32(t.Unix()+epochOffset)`. -/
def Instant.seconds (t : Instant) : UInt32 := (t.unix + epochOffset).toUInt64.toUInt32

/-- `(uint64(t.Nanosecond()) << 32) / 1_000_000_000`. -/
def Instant.fraction (t : Instant) : UInt64 := (UInt64.ofNat t.nanosecond <<< 32) / 1000000000

/-- The eight bytes that `putTimestamp` writes. -/
def putTimestamp (t : Instant) : GoString := putUint32 t.seconds ++ putUint32 t.fraction.toUInt32

/-- A timestamp as a number of 64 bits: `binary.BigEndian.Uint64` of its bytes. -/
def timestamp (t : Instant) : Nat := beNat (putTimestamp t)

/-- The nanoseconds since the Unix epoch. -/
def Instant.nanos (t : Instant) : Int := t.unix.toInt * 1000000000 + t.nanosecond

/-- The NTP era of an instant. -/
def Instant.era (t : Instant) : Int := (t.unix.toInt + 2208988800) / 2 ^ 32

section
variable {t t' : Instant}

@[simp] theorem length_putTimestamp (t : Instant) : (putTimestamp t).length = 8 := by
  simp [putTimestamp]

/-- The low 32 bits of a signed word. -/
theorem toNat_toUInt32 (x : Int64) : (x.toUInt64.toUInt32.toNat : Int) = x.toInt % 2 ^ 32 := by
  have hint : x.toInt = Int.bmod x.toUInt64.toNat (2 ^ 64) := BitVec.toInt_eq_toNat_bmod _
  rw [UInt64.toNat_toUInt32, hint, Int.bmod]
  split <;> omega

/-- An overflow of the sum does not reach its low 32 bits. -/
theorem toNat_seconds (t : Instant) :
    (t.seconds.toNat : Int) = (t.unix.toInt + 2208988800) % 2 ^ 32 := by
  have hoffset : epochOffset.toInt = 2208988800 := by decide
  rw [Instant.seconds, toNat_toUInt32, Int64.toInt_add, hoffset, Int.bmod]
  split <;> omega

/-- The shift does not overflow. -/
theorem toNat_shifted (t : Instant) :
    (UInt64.ofNat t.nanosecond <<< 32).toNat = t.nanosecond * 2 ^ 32 := by
  have hlt := t.nanosecond_lt
  have hnano : (UInt64.ofNat t.nanosecond).toNat = t.nanosecond :=
    UInt64.toNat_ofNat_of_lt' (hlt.trans (by decide))
  rw [UInt64.toNat_shiftLeft, hnano, Nat.shiftLeft_eq]
  exact Nat.mod_eq_of_lt (by simp; omega)

theorem toNat_fraction (t : Instant) :
    t.fraction.toNat = rescale 1000000000 (2 ^ 32) t.nanosecond := by
  rw [Instant.fraction, UInt64.toNat_div, toNat_shifted]
  rfl

theorem fraction_lt (t : Instant) : t.fraction.toNat < 2 ^ 32 := by
  rw [toNat_fraction]
  exact rescale_lt (by decide) t.nanosecond_lt

/-- The conversion to 32 bits drops nothing. -/
theorem toNat_fraction32 (t : Instant) : t.fraction.toUInt32.toNat = t.fraction.toNat := by
  rw [UInt64.toNat_toUInt32, Nat.mod_eq_of_lt (fraction_lt t)]

theorem timestamp_eq (t : Instant) :
    timestamp t = t.seconds.toNat * 2 ^ 32 + t.fraction.toNat := by
  rw [timestamp, putTimestamp, beNat_append, beNat_putUint32, beNat_putUint32, length_putUint32,
    toNat_fraction32, show 256 ^ 4 = 2 ^ 32 from rfl]

/-- Timestamps of one era are ordered as their instants. -/
theorem timestamp_lt (hera : t.era = t'.era) (h : t.nanos < t'.nanos) :
    timestamp t < timestamp t' := by
  have hn := t.nanosecond_lt
  have hn' := t'.nanosecond_lt
  have hs := toNat_seconds t
  have hs' := toNat_seconds t'
  have hf := fraction_lt t
  simp only [Instant.era, Instant.nanos] at hera h
  rw [timestamp_eq, timestamp_eq]
  rcases lt_or_ge t.unix.toInt t'.unix.toInt with hlt | hge
  · have hseconds : t.seconds.toNat < t'.seconds.toNat := by omega
    omega
  · have hunix : t.unix.toInt = t'.unix.toInt := by omega
    have hnanos : t.nanosecond < t'.nanosecond := by omega
    have hfraction : t.fraction.toNat < t'.fraction.toNat := by
      rw [toNat_fraction, toNat_fraction]
      exact rescale_lt_rescale (by decide) (by decide) hnanos
    have hseconds : t.seconds.toNat = t'.seconds.toNat := by omega
    omega

end

/-- The bytes keep the instant: they have its seconds since 1900 modulo `2 ^ 32`, and a fraction of
the second, computed without an overflow, from which the nanoseconds are recovered. -/
structure Encodes (bytes : GoString) (t : Instant) : Prop where
  length : bytes.length = 8
  seconds : ((uint32 (bytes.take 4)).toNat : Int) = (t.unix.toInt + 2208988800) % 2 ^ 32
  shifted : (UInt64.ofNat t.nanosecond <<< 32).toNat = t.nanosecond * 2 ^ 32
  fits : t.fraction.toNat < 2 ^ 32
  fraction : (uint32 (bytes.drop 4)).toNat = t.nanosecond * 2 ^ 32 / 1000000000
  nanosecond : ⌈((uint32 (bytes.drop 4)).toNat * 1000000000 : ℚ) / 2 ^ 32⌉ = t.nanosecond

/-- The eight bytes of an instant. -/
theorem putTimestamp_encodes (t : Instant) : Encodes (putTimestamp t) t := by
  have htake : (putTimestamp t).take 4 = putUint32 t.seconds := List.take_left' (by simp)
  have hdrop : (putTimestamp t).drop 4 = putUint32 t.fraction.toUInt32 := List.drop_left' (by simp)
  have hfraction : (uint32 ((putTimestamp t).drop 4)).toNat =
      rescale 1000000000 (2 ^ 32) t.nanosecond := by
    rw [hdrop, uint32_putUint32, toNat_fraction32, toNat_fraction]
  refine ⟨length_putTimestamp t, ?_, toNat_shifted t, fraction_lt t, hfraction, ?_⟩
  · rw [htake, uint32_putUint32, toNat_seconds]
  · rw [hfraction]
    exact_mod_cast ceil_rescale (n := t.nanosecond) (by decide : 0 < 1000000000)
      (by decide : 1000000000 ≤ 2 ^ 32)

/-- Timestamps are lossless and in order: every instant is encoded, and of two instants of one era
that differ by at least a nanosecond the later has the greater timestamp. -/
theorem timestamps_lossless :
    (∀ t, Encodes (putTimestamp t) t) ∧
    ∀ t t' : Instant, t.era = t'.era → t.nanos + 1 ≤ t'.nanos → timestamp t < timestamp t' :=
  ⟨putTimestamp_encodes, fun _ _ hera h => timestamp_lt hera (by omega)⟩

/-- The theorem at the last two nanoseconds of the first era; the next era starts at zero. -/
theorem timestamps_lossless_rollover :
    let t : Instant := ⟨2085978495, 999999998, by decide⟩
    let t' : Instant := ⟨2085978495, 999999999, by decide⟩
    timestamp t < timestamp t' ∧ timestamp t' = 0xfffffffffffffffb ∧
      timestamp ⟨2085978496, 0, by decide⟩ = 0 := by
  intro t t'
  exact ⟨timestamps_lossless.2 t t' (by decide +kernel) (by decide +kernel), by decide +kernel,
    by decide +kernel⟩

end InfraBox.Ntp
