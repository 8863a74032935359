import InfraBox.Acme.Identifiers
import InfraBox.Config.Accepted

/-!
# The address pool

`validateNetwork` checks the ends of the pool only. The addresses of a subnet are an interval from
the network address to the broadcast address, so what lies between two of its hosts is a host
(`Network.usable_of_inPool`). The broadcast address, made by setting the host bits, is the greatest
address for every prefix length; `acmevalidate.New` makes the same one byte by byte.
-/

namespace InfraBox.Config

/-! ## The ends of a subnet -/

/-- All host bits set give the greatest address. -/
theorem isGreatest_broadcast (net : BitVec 32) {bits : Nat} (h : bits ≤ 32) :
    IsGreatest {a | (Prefix.mk (.v4 net) bits).contains a = true} (broadcast ⟨.v4 net, bits⟩) := by
  have hmask : (net ||| BitVec.allOnes 32 >>> bits).toNat =
      net.toNat ||| (2 ^ (32 - bits) - 1) := by
    have hones := ones_shiftRight (Nat.sub_le 32 bits)
    rw [Nat.sub_sub_self h] at hones
    rw [BitVec.toNat_or, BitVec.toNat_ushiftRight, BitVec.toNat_allOnes, hones]
  obtain ⟨hmem, hub⟩ := isGreatest_block net.toNat (32 - bits)
  rw [← hmask] at hmem hub
  refine ⟨Prefix.contains_v4.2 ⟨_, rfl, hmem⟩, fun x hx => ?_⟩
  obtain ⟨a, rfl, ha⟩ := Prefix.contains_v4.1 hx
  exact Addr.v4_le_v4.2 (hub ha)

section
variable {subnet : Prefix}

/-- The address of a canonical subnet is its least. -/
theorem IsSubnet.isLeast (h : IsSubnet subnet) :
    IsLeast {a | subnet.contains a = true} subnet.addr := by
  obtain ⟨addr, bits⟩ := subnet
  obtain ⟨net, rfl⟩ := Addr.is4_iff.1 h.is4
  have hnet : net.toNat = net.toNat / 2 ^ (32 - bits) * 2 ^ (32 - bits) := by
    have hcanonical := h.canonical
    simp only [Prefix.masked, Prefix.mk.injEq, Addr.v4.injEq, and_true] at hcanonical
    have hlt := (Nat.div_mul_le_self net.toNat (2 ^ (32 - bits))).trans_lt net.isLt
    have hnat := congrArg BitVec.toNat hcanonical
    rwa [BitVec.toNat_ofNat, Nat.mod_eq_of_lt hlt] at hnat
  refine ⟨Prefix.contains_v4.2 ⟨net, rfl, rfl⟩, fun x hx => ?_⟩
  obtain ⟨a, rfl, ha⟩ := Prefix.contains_v4.1 hx
  rw [Addr.v4_le_v4, hnet]
  exact (isLeast_block net.toNat (32 - bits)).2 ha

theorem IsSubnet.isGreatest (h : IsSubnet subnet) :
    IsGreatest {a | subnet.contains a = true} (broadcast subnet) := by
  obtain ⟨addr, bits⟩ := subnet
  obtain ⟨net, rfl⟩ := Addr.is4_iff.1 h.is4
  exact isGreatest_broadcast net (h.bits.trans (by decide))

end

/-! ## The pool -/

/-- An address the server may lease. -/
structure Network.Usable (n : Network) (a : Addr) : Prop extends HostAddress n.subnet a where
  ne_server : a ≠ n.serverIP
  ne_router : a ≠ n.router

/-- Every address of a validated pool is usable. -/
theorem Network.usable_of_inPool {n : Network} (hs : IsSubnet n.subnet)
    (hvalid : n.validate = .ok ()) {a : Addr} (hin : n.inPool a = true) : n.Usable a := by
  obtain ⟨-, hstart, hend, -, hserver, hrouter⟩ := Network.validate_ok hvalid
  have hbetween := hin
  simp only [Network.inPool, Bool.and_eq_true, decide_eq_true_eq] at hbetween
  have hcontained :=
    Prefix.contains_between hs.is4 hstart.contained hend.contained hbetween.1 hbetween.2
  refine ⟨⟨hcontained, ?_, ?_⟩, ?_, ?_⟩
  · rintro rfl
    exact hstart.ne_network (le_antisymm hbetween.1 (hs.isLeast.2 hstart.contained))
  · rintro rfl
    exact hend.ne_broadcast (le_antisymm (hs.isGreatest.2 hend.contained) hbetween.2)
  · rintro rfl
    exact Bool.false_ne_true (hserver.symm.trans hin)
  · -- without a router `n.router` is the zero address, which is in no subnet
    rintro rfl
    cases hv : n.router.isValid with
    | true => exact Bool.false_ne_true ((hrouter hv).2.symm.trans hin)
    | false =>
      rw [show n.router = .invalid by cases hr : n.router <;> simp_all [Addr.isValid]] at hcontained
      simp [Prefix.contains] at hcontained

/-! ## The validator's broadcast address -/

/-- The address of the four bytes of a word. -/
theorem from4_putUint32 (n : UInt32) :
    Addr.from4 ((putUint32 n).map UInt8.toNat) = .v4 n.toBitVec := by
  have hlt : n.toNat < 2 ^ 32 := n.toNat_lt
  have hdigits : ((n.toNat / 256 / 256 / 256 % 256 * 256 + n.toNat / 256 / 256 % 256) * 256 +
      n.toNat / 256 % 256) * 256 + n.toNat % 256 = n.toNat := by omega
  simp only [putUint32, beBytes, List.nil_append, List.cons_append, List.map_cons, List.map_nil,
    Addr.from4, List.getD_cons_zero, List.getD_cons_succ, UInt8.toNat_ofNat']
  rw [show 2 ^ 8 = 256 from rfl, hdigits]
  congr 1
  exact BitVec.eq_of_toNat_eq (by simp)

/-- The two computations of the broadcast address agree. -/
theorem validatorBroadcast_eq (subnet : Prefix) :
    Acme.validatorBroadcast subnet = broadcast subnet := by
  unfold Acme.validatorBroadcast broadcast
  cases subnet.addr with
  | invalid | v6 => rfl
  | v4 a =>
    dsimp only
    rw [uint32_putUint32, from4_putUint32, UInt32.toBitVec_or]

theorem newValidator_broadcast {domain : GoString} {subnet : Prefix} {v : Acme.Validator}
    (h : Acme.newValidator domain subnet = .ok v) : v.broadcast = broadcast subnet := by
  rw [Acme.newValidator_ok h, validatorBroadcast_eq]

/-- An accepted network leaves a sound pool: every address from its start to its end is in the
subnet and is neither the network nor the broadcast address, nor the server's or the router's. The
broadcast address is the greatest address of the subnet, for every prefix length, and it is the one
the validator uses. -/
theorem accepted_pool_sound {n : Network} (hs : IsSubnet n.subnet) (hvalid : n.validate = .ok ()) :
    (∀ a, n.poolStart ≤ a → a ≤ n.poolEnd →
      n.subnet.contains a = true ∧ a ≠ n.subnet.addr ∧ a ≠ broadcast n.subnet ∧
        a ≠ n.serverIP ∧ a ≠ n.router) ∧
    (∀ net bits, bits ≤ 32 →
      IsGreatest {a | (Prefix.mk (.v4 net) bits).contains a = true} (broadcast ⟨.v4 net, bits⟩)) ∧
    ∀ domain subnet v, Acme.newValidator domain subnet = .ok v →
      v.broadcast = broadcast subnet := by
  refine ⟨fun a hle hge => ?_, fun net bits => isGreatest_broadcast net,
    fun domain subnet v => newValidator_broadcast⟩
  have h := Network.usable_of_inPool hs hvalid (a := a) (by simp [Network.inPool, hle, hge])
  exact ⟨h.contained, h.ne_network, h.ne_broadcast, h.ne_server, h.ne_router⟩

/-- The theorem at the widest subnet: the pool starts after its network address. -/
theorem accepted_pool_sound_whole :
    let n : Network := ⟨.v4 0x0a000001, ⟨.v4 0, 0⟩, .v4 0x0a000002, .v4 0xfffffffe, .invalid⟩
    n.validate = .ok () ∧ broadcast n.subnet = .v4 0xffffffff ∧
      .v4 0xc0a80001 ≠ broadcast n.subnet := by
  intro n
  have h := @accepted_pool_sound n ⟨rfl, by decide, by decide⟩ (by decide)
  exact ⟨by decide, by decide, (h.1 (.v4 0xc0a80001) (by decide) (by decide)).2.2.1⟩

end InfraBox.Config
