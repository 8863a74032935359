import InfraBox.Dhcp.Server

/-!
# What a reply says

What the results about exchanges use of a reply: its type, the server it names, the address, the
time and the name of a lease, and what a reply without a lease leaves out. `Server.reply` gives the
library at most one modifier for each part of a reply (`Server.parts_sublist`), so every modifier
holds of the reply (`Server.holds_reply`), whatever the library does besides.
-/

namespace InfraBox.Dhcp

open Leasing
open scoped List

variable {allocation : Option Lease}

/-! ## Parts -/

/-- The parts that `networkModifiers` sets. -/
def networkParts : List Part := [.clientIP, .option optSubnetMask, .option optDNS,
  .option optNTPServers, .option optVendorSpecific, .option optDomainName, .option optDomainSearch,
  .option optRouter]

/-- The parts that `leaseModifiers` sets, for a lease with or without a name. -/
def leaseParts (named : Bool) : List Part :=
  [.serverIP, .option optTFTPServerName, .option optBootFileName, .option optArchitecture,
    .bootFileName] ++ [.yourIP] ++
  [.option optLeaseTime, .option optRenewTime, .option optRebindingTime] ++
  (if named then [.option optHostName] else []) ++ [.option optFQDN]

/-- The parts that `reply` sets, if there is a lease for one with or without a name. -/
def replyParts (kind : MessageType) (named : Option Bool) : List Part :=
  [.option optMessageType, .option optServerIdentifier] ++
  if kind = .nak then [.flags]
  else networkParts ++ (named.map leaseParts).getD [] ++ [.flags]

/-- No part is set twice. -/
theorem nodup_replyParts (kind : MessageType) (named : Option Bool) :
    (replyParts kind named).Nodup := by
  rcases named with _ | _ | _ <;> cases kind <;> decide

section
variable {lib : DhcpLib} {s : Server} {request : Packet} {kind : MessageType}

theorem networkParts_sublist : (s.networkModifiers request).map Modifier.part <+ networkParts := by
  rw [Server.networkModifiers, List.map_append, ← networkParts.take_append_drop 7]
  refine List.Sublist.append (List.Sublist.refl _) ?_
  split
  · exact List.Sublist.refl _
  · exact List.nil_sublist _

/-- The boot options, in their order. -/
theorem bootParts_sublist : (s.bootOptions request).map Modifier.part <+
    [.serverIP, .option optTFTPServerName, .option optBootFileName, .option optArchitecture,
      .bootFileName] := by
  simp only [Server.bootOptions]
  split
  · exact List.nil_sublist _
  split
  · exact List.nil_sublist _
  · exact List.Sublist.refl _

/-- The options of a lease, in their order. -/
theorem leaseParts_sublist (allocation : Lease) :
    (s.leaseModifiers request allocation).map Modifier.part <+
      leaseParts (allocation.hostname ≠ []) := by
  simp only [Server.leaseModifiers, List.map_append]
  refine (((bootParts_sublist.append ?_).append (List.Sublist.refl _)).append ?_).append ?_
  · split
    · exact List.Sublist.refl _
    · exact List.nil_sublist _
  · by_cases h : allocation.hostname = []
    · simp [h]
    · simp [h, Modifier.part]
  · split
    · exact List.Sublist.refl _
    · exact List.nil_sublist _

/-- The modifiers of a reply set its parts in one order, each at most once. -/
theorem Server.parts_sublist (allocation : Option Lease) :
    (s.modifiers request kind allocation).map Modifier.part <+
      replyParts kind (allocation.map fun l => decide (l.hostname ≠ [])) := by
  unfold Server.modifiers
  rw [List.map_append, replyParts]
  refine List.Sublist.append (List.Sublist.refl _) ?_
  split
  · exact List.Sublist.refl _
  simp only [List.map_append]
  refine (networkParts_sublist.append ?_).append ?_
  · cases allocation with
    | none => exact List.nil_sublist _
    | some l => exact leaseParts_sublist l
  · split
    · exact List.Sublist.refl _
    · exact List.nil_sublist _

/-- A part that a reply does not have is set by no modifier. -/
theorem Server.part_ne {part : Part}
    (h : part ∉ replyParts kind (allocation.map fun l => decide (l.hostname ≠ []))) :
    ∀ m ∈ s.modifiers request kind allocation, m.part ≠ part := by
  rintro m hm rfl
  exact h ((Server.parts_sublist allocation).subset (List.mem_map_of_mem hm))

/-- Every modifier holds of the reply. -/
theorem Server.holds_reply (hlib : lib.Documented) {m : Modifier}
    (hm : m ∈ s.modifiers request kind allocation) :
    m.Holds (s.reply lib request kind allocation) := by
  have hnodup : ((s.modifiers request kind allocation).map Modifier.part).Nodup :=
    (nodup_replyParts kind _).sublist (Server.parts_sublist allocation)
  rw [Server.reply]
  obtain ⟨before, after, hsplit⟩ := List.append_of_mem hm
  rw [hsplit] at hnodup ⊢
  refine hlib.set request before m after fun m' hm' heq => ?_
  rw [List.map_append, List.map_cons, List.nodup_append, List.nodup_cons] at hnodup
  exact hnodup.2.1.1 (heq ▸ List.mem_map_of_mem hm')

/-! ## Contents -/

/-- A reply has the type it was made with. -/
theorem Server.kind_reply (hlib : lib.Documented) :
    (s.reply lib request kind allocation).kind = some kind :=
  Server.holds_reply hlib (m := .messageType kind) (List.mem_append_left _ (.head _))

/-- A reply names the server. -/
theorem Server.serverIdentifier_reply (hlib : lib.Documented) :
    (s.reply lib request kind allocation).serverIdentifier = some s.serverIP :=
  Server.holds_reply hlib (m := .serverIdentifier s.serverIP)
    (List.mem_append_left _ (.tail _ (.head _)))

/-- A refusal is broadcast. -/
theorem Server.broadcast_nak (hlib : lib.Documented) :
    (s.reply lib request .nak allocation).broadcast = true :=
  Server.holds_reply hlib (m := .broadcast) (List.mem_append_right _ (.head _))

section
variable {allocation : Lease}

theorem Server.mem_leaseModifiers_reply {m : Modifier} (hkind : kind ≠ .nak)
    (h : m ∈ s.leaseModifiers request allocation) :
    m ∈ s.modifiers request kind (some allocation) := by
  unfold Server.modifiers
  rw [if_neg hkind]
  simp only [List.mem_append]
  exact .inr (.inl (.inr h))

/-- A reply gives the client the address of its lease. -/
theorem Server.yourIPAddr_reply (hlib : lib.Documented) {ip : BitVec 32} (hkind : kind ≠ .nak)
    (hip : allocation.ip = .v4 ip) :
    (s.reply lib request kind (some allocation)).yourIPAddr = ip := by
  refine Server.holds_reply hlib (m := .yourIP ip) (Server.mem_leaseModifiers_reply hkind ?_)
  simp only [Server.leaseModifiers, List.mem_append]
  exact .inl (.inl (.inl (.inr (by rw [hip]; exact .head _))))

/-- A reply names the whole seconds of the lease. -/
theorem Server.leaseTime_reply (hlib : lib.Documented) (hkind : kind ≠ .nak) :
    (s.reply lib request kind (some allocation)).leaseTime =
      some (s.leaseDuration / second).toNat := by
  refine Server.holds_reply hlib (m := .leaseTime s.leaseDuration)
    (Server.mem_leaseModifiers_reply hkind ?_) ?_ s.leaseDuration_max
  · simp only [Server.leaseModifiers, List.mem_append]
    exact .inl (.inl (.inr (.head _)))
  · exact le_trans (by decide) s.leaseDuration_min

/-- The name of a lease is in the reply without its final dot. -/
theorem Server.hostName_reply (hlib : lib.Documented) (hkind : kind ≠ .nak)
    (hname : allocation.hostname ≠ []) :
    (s.reply lib request kind (some allocation)).hostName =
      some (trimSuffix allocation.hostname [dot]) := by
  refine Server.holds_reply hlib (m := .hostName (trimSuffix allocation.hostname [dot]))
    (Server.mem_leaseModifiers_reply hkind ?_)
  simp only [Server.leaseModifiers, List.mem_append]
  exact .inl (.inr (by rw [if_pos hname]; exact .head _))

end

/-- A reply without a lease gives the client no address. -/
theorem Server.yourIPAddr_reply_none (hlib : lib.Documented) :
    (s.reply lib request kind none).yourIPAddr = 0 :=
  hlib.yourIPAddr _ _ (Server.part_ne (by cases kind <;> decide))

/-- A reply without a lease names no time. -/
theorem Server.leaseTime_reply_none (hlib : lib.Documented) :
    (s.reply lib request kind none).leaseTime = none :=
  hlib.leaseTime _ _ (Server.part_ne (by cases kind <;> decide))

/-- A reply with a name is one with a lease that has it. -/
theorem Server.named_of_hostName (hlib : lib.Documented)
    {name : GoString} (h : (s.reply lib request kind allocation).hostName = some name) :
    ∃ l, allocation = some l ∧ l.hostname ≠ [] ∧ name = trimSuffix l.hostname [dot] := by
  have hnone : .option optHostName ∈
      replyParts kind (allocation.map fun l => decide (l.hostname ≠ [])) := by
    by_contra hnot
    rw [Server.reply, hlib.hostName _ _ (Server.part_ne hnot)] at h
    cases h
  cases allocation with
  | none => exact absurd hnone (by cases kind <;> decide)
  | some l =>
    by_cases hname : l.hostname = []
    · rw [Option.map_some, hname] at hnone
      exact absurd hnone (by cases kind <;> decide)
    · have hkind : kind ≠ .nak := by
        rintro rfl
        rw [Option.map_some, decide_eq_true hname] at hnone
        exact absurd hnone (by decide)
      rw [Server.hostName_reply hlib hkind hname] at h
      exact ⟨l, rfl, hname, (Option.some.inj h).symm⟩

end

/-! ## A library -/

/-- What a modifier does to the parts that are read. -/
def Modifier.apply (reply : Reply) : Modifier → Reply
  | .messageType kind => { reply with kind := some kind }
  | .serverIdentifier ip => { reply with serverIdentifier := some ip }
  | .broadcast => { reply with broadcast := true }
  | .yourIP ip => { reply with yourIPAddr := ip }
  | .leaseTime d => { reply with leaseTime := some (d / second).toNat }
  | .hostName name => { reply with hostName := some name }
  | _ => reply

/-- A library that applies the modifiers in order. -/
def sampleLib : DhcpLib :=
  ⟨fun _ ms => ms.foldl Modifier.apply ⟨none, none, 0, none, none, false⟩⟩

theorem Modifier.holds_apply (m : Modifier) (reply : Reply) : m.Holds (m.apply reply) := by
  cases m <;> first | trivial | exact fun _ _ => rfl

/-- A modifier of another part leaves a part as it is. -/
theorem Modifier.Holds.apply {m m' : Modifier} {reply : Reply} (h : m.Holds reply)
    (hne : m'.part ≠ m.part) : m.Holds (m'.apply reply) := by
  cases m with
  | messageType | serverIdentifier | broadcast | yourIP | leaseTime | hostName =>
    cases m' <;> first | exact h | exact absurd rfl hne
  | _ => trivial

/-- What is read of a part that no modifier sets stays as it was. -/
theorem foldl_apply_of_ne {α : Type} {part : Part} (read : Reply → α)
    (hread : ∀ (m : Modifier) r, m.part ≠ part → read (m.apply r) = read r) :
    ∀ (ms : List Modifier) (r : Reply), (∀ m ∈ ms, m.part ≠ part) →
      read (ms.foldl Modifier.apply r) = read r
  | [], _, _ => rfl
  | m :: ms, r, h => (foldl_apply_of_ne read hread ms _ fun m' hm' => h m' (.tail _ hm')).trans
      (hread m r (h m (.head _)))

/-- Each modifier sets its own part. -/
theorem sampleLib_documented : sampleLib.Documented where
  set request before m after h := by
    simp only [sampleLib, List.foldl_append, List.foldl_cons]
    have hm := m.holds_apply (before.foldl Modifier.apply ⟨none, none, 0, none, none, false⟩)
    generalize m.apply _ = reply at hm
    induction after generalizing reply with
    | nil => exact hm
    | cons m' after ih =>
      exact ih (fun m'' hm'' => h m'' (.tail _ hm'')) _ (hm.apply (h m' (.head _)))
  yourIPAddr _ ms h := foldl_apply_of_ne Reply.yourIPAddr
    (fun m r hne => by cases m <;> first | rfl | exact absurd rfl hne) ms _ h
  leaseTime _ ms h := foldl_apply_of_ne Reply.leaseTime
    (fun m r hne => by cases m <;> first | rfl | exact absurd rfl hne) ms _ h
  hostName _ ms h := foldl_apply_of_ne Reply.hostName
    (fun m r hne => by cases m <;> first | rfl | exact absurd rfl hne) ms _ h

end InfraBox.Dhcp
