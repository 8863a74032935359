import InfraBox.Lib.Block
import InfraBox.Lib.Text
import Mathlib.Data.Prod.Lex
import Mathlib.Order.Basic

/-!
# IP addresses

`netip.Addr`: the zero `Addr`, an IPv4 address, or an IPv6 address with a zone. `Addr`'s order is
that of `Addr.Compare` (length, then value, then zone), so `a.Compare(b) <= 0` is `a ≤ b`.
-/

namespace InfraBox

/-- `netip.Addr`. -/
inductive Addr where
  | invalid
  | v4 (a : BitVec 32)
  | v6 (a : BitVec 128) (zone : GoString)
deriving DecidableEq, Inhabited

namespace Addr

/-- What `Addr.Compare` compares: bit length, then value, then zone. -/
def rank : Addr → ℕ ×ₗ ℕ ×ₗ GoString
  | .invalid => toLex (0, toLex (0, []))
  | .v4 a => toLex (32, toLex (a.toNat, []))
  | .v6 a z => toLex (128, toLex (a.toNat, z))

theorem rank_injective : Function.Injective rank := by
  intro a b h
  cases a <;> cases b <;> simp_all [rank, BitVec.toNat_inj]

instance : LinearOrder Addr := LinearOrder.lift' rank rank_injective

/-- On IPv4 addresses the order is that of the numbers. -/
theorem v4_le_v4 {a b : BitVec 32} : v4 a ≤ v4 b ↔ a.toNat ≤ b.toNat := by
  show rank (v4 a) ≤ rank (v4 b) ↔ _
  simp only [rank, Prod.Lex.toLex_le_toLex, lt_self_iff_false, true_and, false_or, le_refl,
    and_true]
  omega

/-- Between two IPv4 addresses there are only IPv4 addresses. -/
theorem v4_between {a b : BitVec 32} {x : Addr} (ha : v4 a ≤ x) (hb : x ≤ v4 b) :
    ∃ c, x = v4 c := by
  change rank (v4 a) ≤ rank x at ha
  change rank x ≤ rank (v4 b) at hb
  cases x with
  | invalid => simp [rank, Prod.Lex.toLex_le_toLex] at ha
  | v4 c => exact ⟨c, rfl⟩
  | v6 c zone => simp [rank, Prod.Lex.toLex_le_toLex] at hb

/-- `Addr.IsValid`. -/
def isValid : Addr → Bool
  | .invalid => false
  | _ => true

/-- `Addr.Is4`. -/
def is4 : Addr → Bool
  | .v4 _ => true
  | _ => false

/-- `Addr.Unmap`: an IPv4-mapped IPv6 address becomes the IPv4 address, and loses its zone. -/
def unmap : Addr → Addr
  | .v6 a z => if a.toNat / 2 ^ 32 = 0xffff then .v4 (BitVec.ofNat 32 a.toNat) else .v6 a z
  | a => a

/-- `Addr.Next`; the zero `Addr` when there is none. -/
def next : Addr → Addr
  | .invalid => .invalid
  | .v4 a => if a = BitVec.allOnes 32 then .invalid else .v4 (a + 1)
  | .v6 a z => if a = BitVec.allOnes 128 then .invalid else .v6 (a + 1) z

/-- `Addr.IsLoopback`. -/
def isLoopback (ip : Addr) : Bool :=
  match ip.unmap with
  | .invalid => false
  | .v4 a => a.toNat / 2 ^ 24 = 127
  | .v6 a _ => a = 1

/-- `Addr.IsMulticast`. -/
def isMulticast (ip : Addr) : Bool :=
  match ip.unmap with
  | .invalid => false
  | .v4 a => a.toNat / 2 ^ 28 = 0xe
  | .v6 a _ => a.toNat / 2 ^ 120 = 0xff

/-- `Addr.IsLinkLocalUnicast`. -/
def isLinkLocalUnicast (ip : Addr) : Bool :=
  match ip.unmap with
  | .invalid => false
  | .v4 a => a.toNat / 2 ^ 16 = 0xa9fe
  | .v6 a _ => a.toNat / 2 ^ 118 = 0x3fa

/-- `Addr.IsGlobalUnicast`. -/
def isGlobalUnicast (ip : Addr) : Bool :=
  ip.isValid && ip ≠ .v4 0 && ip ≠ .v4 (BitVec.allOnes 32) && ip ≠ .v6 0 [] && !ip.isLoopback &&
    !ip.isMulticast && !ip.isLinkLocalUnicast

/-- `Addr.IsUnspecified`. -/
def isUnspecified (ip : Addr) : Bool := ip = .v4 0 || ip = .v6 0 []

/-- `Addr.Zone`. -/
def zone : Addr → GoString
  | .v6 _ zone => zone
  | _ => []

/-- `netip.AddrFrom4` of the octets given, the missing ones being zero. -/
def from4 (octets : List Nat) : Addr :=
  .v4 (BitVec.ofNat 32 (((octets.getD 0 0 * 256 + octets.getD 1 0) * 256 + octets.getD 2 0) * 256 +
    octets.getD 3 0))

@[simp] theorem is4_v4 (a : BitVec 32) : (v4 a).is4 = true := rfl

theorem is4_iff {a : Addr} : a.is4 = true ↔ ∃ b, a = v4 b := by
  cases a <;> simp [is4]

@[simp] theorem unmap_v4 (a : BitVec 32) : (v4 a).unmap = v4 a := rfl

end Addr

/-- `netip.Prefix`; the zero `Prefix` has the zero `Addr`. -/
structure Prefix where
  addr : Addr
  bits : Nat
deriving DecidableEq, Inhabited

namespace Prefix

/-- `Prefix.IsValid`. -/
def isValid (p : Prefix) : Bool := p.addr.isValid

/-- `Prefix.Contains`. -/
def contains (p : Prefix) (ip : Addr) : Bool :=
  match p.addr, ip with
  | .v4 a, .v4 b => a.toNat / 2 ^ (32 - p.bits) = b.toNat / 2 ^ (32 - p.bits)
  | .v6 a _, .v6 b zone => zone = [] && a.toNat / 2 ^ (128 - p.bits) = b.toNat / 2 ^ (128 - p.bits)
  | _, _ => false

/-- `Prefix.Masked`: the host bits of the address are zero. -/
def masked (p : Prefix) : Prefix :=
  match p.addr with
  | .invalid => default
  | .v4 a => ⟨.v4 (BitVec.ofNat 32 (a.toNat / 2 ^ (32 - p.bits) * 2 ^ (32 - p.bits))), p.bits⟩
  | .v6 a zone =>
    ⟨.v6 (BitVec.ofNat 128 (a.toNat / 2 ^ (128 - p.bits) * 2 ^ (128 - p.bits))) zone, p.bits⟩

/-- What an IPv4 prefix contains. -/
theorem contains_v4 {net : BitVec 32} {bits : Nat} {x : Addr} :
    (Prefix.mk (.v4 net) bits).contains x = true ↔
      ∃ a, x = .v4 a ∧ a.toNat / 2 ^ (32 - bits) = net.toNat / 2 ^ (32 - bits) := by
  cases x with
  | v4 a => simp [contains, eq_comm]
  | invalid | v6 => simp [contains]

/-- An IPv4 prefix contains what lies between two of its addresses. -/
theorem contains_between {p : Prefix} (h4 : p.addr.is4 = true) {lo hi x : Addr}
    (hlo : p.contains lo = true) (hhi : p.contains hi = true) (hle : lo ≤ x) (hge : x ≤ hi) :
    p.contains x = true := by
  obtain ⟨addr, bits⟩ := p
  obtain ⟨net, rfl⟩ := Addr.is4_iff.1 h4
  obtain ⟨a, rfl, ha⟩ := contains_v4.1 hlo
  obtain ⟨b, rfl, hb⟩ := contains_v4.1 hhi
  obtain ⟨c, rfl⟩ := Addr.v4_between hle hge
  exact contains_v4.2 ⟨c, rfl, div_eq_of_between ha hb (Addr.v4_le_v4.1 hle) (Addr.v4_le_v4.1 hge)⟩

end Prefix

end InfraBox
