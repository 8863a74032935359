import InfraBox.Dns.Agreement
import InfraBox.Dhcp.Exchange

/-!
# What clients are told

A reply says nothing that the server has not recorded (`reply_recorded`). And what a client is told,
others are told too: until the time in an acknowledgement has passed its name resolves to its
address, and the address to the name (`acknowledged_resolves`).
-/

namespace InfraBox.Dhcp

open Leasing InfraBox.Config

variable {sha : Sha256} {s : Server} {lib : DhcpLib} {request : Packet} {name : GoString}
  {reply : Reply}

/-! ## Replies and the lease table -/

/-- What is behind a reply, by the type of the request. -/
inductive Recorded (config : Leasing.Config) (pre post : Process) (env : Env) (request : Packet)
    (reply : Reply) : Prop
  /-- The address of an offer is held for the client. -/
  | offered {o : Lease} : request.kind = some .discover → reply.kind = some .offer →
      post.sys.manager.state.offers.get (clientIdentifier request.toRequest) = some o →
      o.ip = .v4 reply.yourIPAddr → Recorded config pre post env request reply
  /-- The lease is the one asked for, lasts as long as the reply says and survives a restart. -/
  | acknowledged {l : Lease} {time : Nat} : request.kind = some .request →
      reply.kind = some .ack → reply.leaseTime = some time → request.wanted = l.ip →
      l.ip = .v4 reply.yourIPAddr → env.now + time * second ≤ l.expiresAt →
      post.sys.manager.state.leases.get (clientIdentifier request.toRequest) = some l →
      (config.file ≠ [] → ∀ now m', env.now ≤ now → now < l.expiresAt →
        newManager config now post.sys.disk = .ok m' →
        m'.state.leases.get (clientIdentifier request.toRequest) = some l) →
      Recorded config pre post env request reply
  /-- A refusal promises nothing, and only drops expired entries. -/
  | refused : request.kind = some .request → reply.kind = some .nak → reply.yourIPAddr = 0 →
      reply.leaseTime = none → reply.broadcast = true →
      post.sys = pre.sys.expire env.now → Recorded config pre post env request reply
  | informed : request.kind = some .inform → reply.kind = some .ack → reply.yourIPAddr = 0 →
      reply.leaseTime = none → post = pre → Recorded config pre post env request reply

section
variable {lib : DhcpLib} {config : Leasing.Config} {sha : Sha256} {s : Server}
  {t : Transition Process Event} {env : Env} {request : Packet} {reply : Reply}

/-- The lease of an acknowledgement is in the tables, and in the file. -/
theorem Step.recorded (hlib : lib.Documented) (hinv : t.pre.Inv config)
    (h : Step lib config sha s t.pre t.label t.post)
    (hdur : t.pre.sys.manager.cfg.leaseDuration = s.leaseDuration)
    (hlabel : t.label = .packet env request (.ok (some reply))) :
    Recorded config t.pre t.post env request reply := by
  cases h.sent hlabel with
  | @offer requested hostname fallback o hkind hlower =>
    have hcall := h.lower_eq hlower
    obtain ⟨-, -, o', ho, hip, -⟩ := hcall.offered_inv ⟨_, _, _, _, o, (rfl : o.ip = o.ip), rfl⟩
    have hpost := hinv.step hcall
    obtain ⟨a, ha⟩ := Settings.inPool_v4 (hpost.wf.offer ho).1
    refine .offered hkind (Server.kind_reply hlib) ho ?_
    rw [ha, Server.yourIPAddr_reply hlib (by decide) (hip ▸ ha)]
  | @ack hostname fallback l hkind hlower =>
    have hcall := h.lower_eq hlower
    have hpost := hinv.step hcall
    obtain ⟨-, hexp, hpool, -, hclock, -, hl⟩ := hcall.committed_inv
    obtain ⟨a, ha⟩ := Settings.inPool_v4 hpool
    refine .acknowledged (l := l) hkind (Server.kind_reply hlib)
      (Server.leaseTime_reply hlib (by decide)) ?_ ?_ ?_ hl fun hf now m' hle hlt hm => ?_
    · exact (hcall.committed_address.trans Packet.unmap_wanted).symm
    · rw [ha, Server.yourIPAddr_reply hlib (by decide) ha]
    · have := Server.leaseTime_le (s := s) rfl
      rw [hexp, hdur]
      omega
    · have hstate := hpost.restart_state (hclock.trans_le hle) hf hm
      simp only [hstate, State.durable, State.expire_leases]
      exact ⟨hl, hlt⟩
  | nak hkind hlower =>
    refine .refused hkind (Server.kind_reply hlib) (Server.yourIPAddr_reply_none hlib)
      (Server.leaseTime_reply_none hlib) (Server.broadcast_nak hlib) ?_
    have hcall := h.lower_eq hlower
    generalize t.post = post at hcall
    cases hcall with
    | call _ hexec => exact (System.exec_effect hexec).failed rfl
  | inform hkind hpost =>
    exact .informed hkind (Server.kind_reply hlib) (Server.yourIPAddr_reply_none hlib)
      (Server.leaseTime_reply_none hlib) hpost

end

/-- Every reply the server sends in a run names the server, and what it says has been recorded
before it is sent. -/
theorem reply_recorded {cfg : BoxConfig}
    {disk : LeaseFile} {start : Int} {m : Manager} {p : Process}
    {tr : Trace Process Event} (hlib : lib.Documented) (hstart : 0 < start)
    (hs : new (ofConfig cfg) = .ok s) (hm : newManager cfg.leases start disk = .ok m)
    (hrun : Run (Step lib cfg.leases sha s) ⟨⟨m, disk⟩, start⟩ tr p) :
    ∀ t ∈ tr, ∀ env request reply, t.label = .packet env request (.ok (some reply)) →
      reply.serverIdentifier = some s.serverIP ∧
        Recorded cfg.leases t.pre t.post env request reply := by
  intro t ht env request reply hlabel
  have h₀ : Process.Inv cfg.leases ⟨⟨m, disk⟩, start⟩ := .start hstart hm
  obtain ⟨before, after, rfl, hbefore, hstep, -⟩ := hrun.mem_inv ht
  have hpre := h₀.run (Server.lower_run hbefore)
  have hdur : t.pre.sys.manager.cfg.leaseDuration = s.leaseDuration := by
    rw [h₀.cfg_eq hpre]
    exact leaseDuration_eq hs hm
  refine ⟨?_, hstep.recorded hlib hpre hdur hlabel⟩
  cases hstep.sent hlabel <;> exact Server.serverIdentifier_reply hlib

/-- An acknowledgement of the sample network. -/
theorem reply_recorded_ack :
    let p := receive ⟨⟨Dns.sampleManager, .absent⟩, 1⟩ ⟨2, true, true⟩ (samplePacket .request 1)
    let reply := sampleServer.reply sampleLib (samplePacket .request 1) .ack
      (some ⟨clientIdentifier (samplePacket .request 1).toRequest, .v4 0x0a00000a, str "x.lan.",
        2 + hour⟩)
    Recorded sampleAccepted.leases ⟨⟨Dns.sampleManager, .absent⟩, 1⟩ p ⟨2, true, true⟩
      (samplePacket .request 1) reply := by
  intro p reply
  have hrun : Run (Step sampleLib sampleAccepted.leases sampleSha sampleServer)
      ⟨⟨Dns.sampleManager, .absent⟩, 1⟩ _ p :=
    .cons (.receive _ ⟨2, true, true⟩ (samplePacket .request 1) rfl (by decide)) (.nil _)
  exact (reply_recorded sampleLib_documented (by decide) new_sample rfl hrun _ (.head _) _ _ reply
    rfl).2

/-! ## Names -/

/-- A packet of the client that may change its lease. -/
def Event.Alters (e : Event) (c : GoString) : Prop :=
  ∃ env request answer kind, e = .packet env request answer ∧
    clientIdentifier request.toRequest = c ∧ request.kind = some kind ∧
    kind ∈ [.request, .release, .decline]

section
variable {lib : DhcpLib} {config : Leasing.Config} {sha : Sha256} {s : Server} {c : GoString}
  {l : Lease}

/-- A lease lasts along a run without such packets. -/
theorem Server.has_of_run {p p' : Process} {tr : Trace Process Event}
    (h : p.Has config c l) (hrun : Run (Step lib config sha s) p tr p')
    (hkept : ∀ t ∈ tr, ¬ t.label.Alters c) : p'.Has config c l := by
  refine hrun.invariant_mem h fun t ht hs hhas => ?_
  refine hs.lower.invariant_mem hhas fun u hu hcall hu' => (hu'.step hcall).resolve_right ?_
  rintro ⟨now, written, op, reply, hlabel, hop⟩
  refine hkept t ht ?_
  rcases hs.mem_lower hu with ⟨_, hl, -⟩ | ⟨_, _, _, hl, hclient⟩ |
    ⟨env, request, _, r, hl, hop', rfl⟩
  · rw [hlabel] at hl
    cases hl
  · cases hlabel.symm.trans hl
    rw [Op.client_of_alters hop] at hclient
    cases hclient
  · cases hlabel
    cases Server.operation_calls hop' with
    | offer => cases hop
    | commit hkind | release hkind | decline hkind =>
      exact ⟨env, request, _, _, hl, Option.some.inj hop, hkind, by decide⟩

end

/-- The name a reply gives to the client, as it stands in DNS. -/
def Reply.hostname (reply : Reply) : Option GoString :=
  reply.hostName.map (· ++ [dot])

/-- The lease behind an acknowledgement, with the name and the address of the reply. -/
theorem Step.named {config : Leasing.Config}
    {t : Transition Process Event} {env : Env} {time : Nat}
    (hlib : lib.Documented) (hinv : t.pre.Inv config)
    (h : Step lib config sha s t.pre t.label t.post)
    (hlabel : t.label = .packet env request (.ok (some reply))) (hkind : reply.kind = some .ack)
    (htime : reply.leaseTime = some time) (hname : reply.hostname = some name) :
    ∃ l, t.post.Has config (clientIdentifier request.toRequest) l ∧ l.ip = .v4 reply.yourIPAddr ∧
      l.expiresAt = env.now + t.pre.sys.manager.cfg.leaseDuration ∧
      time * second ≤ s.leaseDuration ∧ l.hostname ≠ [] ∧ name = l.hostname := by
  cases h.sent hlabel with
  | offer | nak => rw [Server.kind_reply hlib] at hkind; cases hkind
  | inform => rw [Server.leaseTime_reply_none hlib] at htime; cases htime
  | @ack hostname fallback l _ hlower =>
    have hcall := h.lower_eq hlower
    have hpost := hinv.step hcall
    obtain ⟨-, hexp, hpool, -, -, -, hl⟩ := hcall.committed_inv
    obtain ⟨a, ha⟩ := Settings.inPool_v4 hpool
    rw [Server.leaseTime_reply hlib (by decide), Option.some.injEq] at htime
    obtain ⟨value, hget, rfl⟩ := Option.map_eq_some_iff.1 hname
    obtain ⟨l', heq, hne, rfl⟩ := Server.named_of_hostName hlib hget
    cases heq
    refine ⟨l, ⟨hpost, fun _ => hl⟩, ?_, hexp, Server.leaseTime_le htime.symm, hne, ?_⟩
    · rw [ha, Server.yourIPAddr_reply hlib (by decide) ha]
    · obtain ⟨n, hn, -⟩ := (hpost.wf.lease hl).name.resolve_left hne
      rw [hn, trimSuffix_concat_dot]

/-- The lease behind an acknowledgement is there until the time in the reply has passed, unless the
client itself changes it. -/
theorem Server.acknowledged_lease {config : Leasing.Config}
    {before after : Trace Process Event} {x : Transition Process Event}
    {p₀ p : Process} {env : Env} {time : Nat}
    (hlib : lib.Documented) (h₀ : p₀.Inv config)
    (hdur : p₀.sys.manager.cfg.leaseDuration = s.leaseDuration)
    (hrun : Run (Step lib config sha s) p₀ (before ++ x :: after) p)
    (hx : x.label = .packet env request (.ok (some reply))) (hkind : reply.kind = some .ack)
    (htime : reply.leaseTime = some time) (hname : reply.hostname = some name)
    (hkept : ∀ t ∈ after, ¬ t.label.Alters (clientIdentifier request.toRequest))
    (hclock : p.clock < env.now + time * second) :
    ∃ l, p.sys.manager.state.leases.get (clientIdentifier request.toRequest) = some l ∧
      l.ip = .v4 reply.yourIPAddr ∧ l.expiresAt = env.now + s.leaseDuration ∧
      time * second ≤ s.leaseDuration ∧ l.hostname ≠ [] ∧ name = l.hostname := by
  obtain ⟨hbefore, hstep, hafter⟩ := hrun.mid_inv
  have hpre := h₀.run (Server.lower_run hbefore)
  obtain ⟨l, hl, hip, hexp, hle, hname⟩ := hstep.named hlib hpre hx hkind htime hname
  rw [h₀.cfg_eq hpre, hdur] at hexp
  exact ⟨l, (Server.has_of_run hl hafter hkept).leased (by omega), hip, hexp, hle, hname⟩

/-- From the acknowledgement of a name and an address on, and until the time it names has passed,
the DNS server built from the same configuration answers the name with exactly that address and the
address with exactly that name, unless the client asks again, releases or declines. -/
theorem acknowledged_resolves (before after : Trace Process Event)
    {names : Dns.NameLib} {net : Dns.ListenerLib} {parsers : Parsers}
    {f : FileSettings} {cfg : BoxConfig} {address : GoString} {d : Dns.Server}
    {disk : LeaseFile} {start : Int} {m : Manager} {p : Process}
    {x : Transition Process Event} {env : Env} {time : Nat}
    (hlib : lib.Documented) (hnames : names.Documented)
    (hcfg : f.config parsers = .ok cfg) (habove : ¬ labelsOf (cfg.domain ++ [dot]) <:+ Dns.arpa)
    (hbelow : ¬ Dns.arpa <:+ labelsOf (cfg.domain ++ [dot]))
    (hd : Dns.new names net (cfg.dns address) = .ok d) (hstart : 0 < start)
    (hs : new (ofConfig cfg) = .ok s) (hm : newManager cfg.leases start disk = .ok m)
    (hrun : Run (Step lib cfg.leases sha s) ⟨⟨m, disk⟩, start⟩ (before ++ x :: after) p)
    (hx : x.label = .packet env request (.ok (some reply))) (hkind : reply.kind = some .ack)
    (htime : reply.leaseTime = some time) (hname : reply.hostname = some name)
    (hkept : ∀ t ∈ after, ¬ t.label.Alters (clientIdentifier request.toRequest)) (now : Int)
    (hnow : p.clock ≤ now) (hlt : now < env.now + time * second) :
    (∀ req : Dns.Request, req.Asks names name .a →
      ∃ r ttl, d.serveDNS names p.sys.manager now req = some (.reply r) ∧
        r.answer = [.a name ttl (.v4 reply.yourIPAddr)] ∧
        now + ttl * second ≤ env.now + s.leaseDuration) ∧
    (∀ req : Dns.Request, req.Asks names (Dns.reverseName (.v4 reply.yourIPAddr)) .ptr →
      ∃ r ttl, d.serveDNS names p.sys.manager now req = some (.reply r) ∧
        r.answer = [.ptr (Dns.reverseName (.v4 reply.yourIPAddr)) ttl name] ∧
        now + ttl * second ≤ env.now + s.leaseDuration) := by
  have hdeploy : Dns.Deployment names cfg d p.sys.manager :=
    .reached hnames hcfg habove hbelow hd hstart hm (Server.lower_run hrun)
  obtain ⟨l, hl, hip, hexp, hle, hne, rfl⟩ := Server.acknowledged_lease hlib (.start hstart hm)
    (leaseDuration_eq hs hm) hrun hx hkind htime hname hkept (by omega)
  have hlive : Dns.LiveName p.sys.manager now l := ⟨⟨_, hl⟩, by omega, hne⟩
  have httl := (hdeploy.ttl_le hlive.2.1).1
  refine ⟨fun req hreq => ?_, fun req hreq => ?_⟩
  · obtain ⟨r, hserve, hanswer⟩ := hdeploy.forward hlive req.recursionDesired
    rw [hreq.serve ⟨by decide, by decide⟩, hserve]
    exact ⟨r, _, rfl, hip ▸ hanswer, by omega⟩
  · obtain ⟨r, hserve, hanswer⟩ := hdeploy.reverse hlive req.recursionDesired
    rw [hreq.serve ⟨by decide, by decide⟩, ← hip, hserve]
    exact ⟨r, _, rfl, hanswer, by omega⟩

/-- In the sample network another client asks for the address of one that has a name. -/
theorem acknowledged_sample : ∃ x after,
    Run (Step sampleLib sampleAccepted.leases sampleSha sampleServer)
      ⟨⟨Dns.sampleManager, .absent⟩, 1⟩
      ([] ++ x :: after) (receive (receive ⟨⟨Dns.sampleManager, .absent⟩, 1⟩ ⟨2, true, true⟩
        (samplePacket .request 1)) ⟨3, true, true⟩ (samplePacket .request 2)) ∧
    x.label = .packet ⟨2, true, true⟩ (samplePacket .request 1) (.ok (some
      (sampleServer.reply sampleLib (samplePacket .request 1) .ack
        (some ⟨clientIdentifier (samplePacket .request 1).toRequest, .v4 0x0a00000a,
          str "x.lan.", 2 + hour⟩)))) ∧
    ∀ t ∈ after, ¬ t.label.Alters (clientIdentifier (samplePacket .request 1).toRequest) := by
  refine ⟨_, _, .cons (.receive _ ⟨2, true, true⟩ (samplePacket .request 1) rfl (by decide)) <|
    .cons (.receive _ ⟨3, true, true⟩ (samplePacket .request 2) rfl (by decide)) (.nil _), rfl,
    List.forall_mem_singleton.2 ?_⟩
  rintro ⟨env, request, answer, kind, heq, hid, -⟩
  cases heq
  exact absurd hid (by decide)

/-- The name of a client of the sample network, after another client has asked for its address. -/
theorem acknowledged_resolves_sample :
    let p₁ := receive ⟨⟨Dns.sampleManager, .absent⟩, 1⟩ ⟨2, true, true⟩ (samplePacket .request 1)
    let p₂ := receive p₁ ⟨3, true, true⟩ (samplePacket .request 2)
    let d := Dns.build Dns.referenceLib { sampleAccepted.dns (str "10.0.0.1:53") with
      domain := str "lan." }
    ∃ r ttl, d.serveDNS Dns.referenceLib p₂.sys.manager 4
        ⟨false, none, true, 1, str "X.lan", .a, true, false, false⟩ = some (.reply r) ∧
      r.answer = [.a (str "x.lan.") ttl (.v4 0x0a00000a)] ∧ 4 + ttl * second ≤ 2 + hour := by
  intro p₁ p₂ d
  obtain ⟨x, after, hrun, hx, hkept⟩ := acknowledged_sample
  have hd : Dns.new Dns.referenceLib ⟨fun _ _ => none, fun _ _ _ => false⟩
      (sampleAccepted.dns (str "10.0.0.1:53")) = .ok d := rfl
  have h := acknowledged_resolves [] after sampleLib_documented Dns.referenceLib_documented
    sampleFile_config (by decide) (by decide) hd (by decide) new_sample rfl hrun hx rfl rfl rfl
    hkept 4 (by decide) (by decide)
  exact h.1 _ ⟨rfl, rfl, rfl, rfl, rfl, rfl, by decide +kernel, rfl⟩

end InfraBox.Dhcp
