import InfraBox.Lease.Isolation
import InfraBox.Dns.Agreement
import InfraBox.Dhcp.Replies

/-!
# Exchanges with clients

The server as a transition system: packets of any clients, each with its own outcome of writing the
lease file and of building the reply, lookups by the other services, and restarts from the file.
A packet is at most one call of the lease manager (`Server.operation`), and its answer is a function
of what that call returns (`Server.handle_eq`); so a run of the server is a run of the manager
(`Server.lower_run`), and what holds of the manager's calls carries over to packets.

Two results about packets follow: an acknowledged address has one owner (`acknowledged_exclusive`),
and a client that asks for what it was promised is not refused (`exchange_completes`).
-/

namespace InfraBox.Dhcp

open Leasing InfraBox.Config

/-! ## One packet -/

/-- The address a request asks for. -/
def Packet.wanted (request : Packet) : Addr :=
  if (ipv4 request.clientIPAddr).isValid then ipv4 request.clientIPAddr
  else ipv4 (optionIP request.requestedIPAddress)

/-- The call of the lease manager that a packet leads to. -/
def Server.operation (sha : Sha256) (s : Server) (request : Packet) : Option Op :=
  let clientID := clientIdentifier request.toRequest
  let serverID := ipv4 (optionIP request.serverIdentifier)
  let requested := ipv4 (optionIP request.requestedIPAddress)
  let current := ipv4 request.clientIPAddr
  let hostname := hostnameOf request.toRequest
  let fallback := fallbackHostname sha clientID
  if s.ignores request then none
  else match request.kind with
    | some .discover =>
      if current.isValid || serverID.isValid then none
      else some (.offer clientID requested hostname fallback)
    | some .request =>
      if current.isValid && (requested.isValid || serverID.isValid) then none
      else if !current.isValid && !requested.isValid then none
      else some (.commit clientID request.wanted hostname fallback)
    | some .release =>
      if serverID ≠ .v4 s.serverIP || !current.isValid then none
      else some (.release clientID current)
    | some .decline =>
      if serverID ≠ .v4 s.serverIP || !requested.isValid || current.isValid then none
      else some (.decline clientID requested)
    | _ => none

/-- The answer to a packet, given what the manager returns. -/
def Server.answer (lib : DhcpLib) (s : Server) (env : Env) (request : Packet) :
    Op → Leasing.Reply → Except HandleError (Option Reply)
  | .offer .., .lease (.ok l) => s.build lib env request .offer (some l)
  | .offer .., .lease (.error .poolExhausted) => .ok none
  | .offer .., .lease (.error e) => .error (.offer e)
  | .commit .., .lease (.ok l) => s.build lib env request .ack (some l)
  | .commit .., .lease (.error .persist) => .error (.commit .persist)
  | .commit .., .lease (.error _) => s.build lib env request .nak none
  | .release .., .done (.error .unavailable) => .ok none
  | .release .., .done (.error e) => .error (.release e)
  | .decline .., .done (.error .unavailable) => .ok none
  | .decline .., .done (.error e) => .error (.decline e)
  | _, _ => .ok none

/-- The answer to a packet that does not reach the manager. -/
def Server.direct (lib : DhcpLib) (s : Server) (env : Env) (request : Packet) :
    Except HandleError (Option Reply) :=
  if s.ignores request then .ok none
  else if request.kind = some .inform then
    if !(ipv4 request.clientIPAddr).isValid || !s.subnet.contains (ipv4 request.clientIPAddr) then
      .ok none
    else s.build lib env request .ack none
  else .ok none

variable {request : Packet} {t x y : Transition Process Event} {u : Transition Process Label}
  {answer : Except HandleError (Option Reply)}

/-- A packet is its call of the manager and the answer to what the call returns. -/
theorem Server.handle_eq (lib : DhcpLib) (sha : Sha256) (s : Server) (env : Env)
    (request : Packet) (sys : System) :
    s.handle lib sha env request sys =
      match s.operation sha request with
      | some op => (s.answer lib env request op (sys.exec env.now env.written op).1,
          (sys.exec env.now env.written op).2)
      | none => (s.direct lib env request, sys) := by
  unfold Server.handle Server.operation Server.direct
  by_cases hig : s.ignores request = true
  · simp only [hig, if_true]
  simp only [hig, Bool.false_eq_true, if_false]
  cases hkind : request.kind with
  | none => simp
  | some kind =>
    cases kind with
    | discover =>
      dsimp only
      split
      · simp
      · simp only [System.exec]
        rcases sys.manager.offerWithFallback env.now _ _ _ _ with ⟨r, m⟩
        rcases r with (_ | _ | _) | l <;> rfl
    | request =>
      dsimp only
      split
      · simp
      split
      · simp
      · simp only [System.exec, Packet.wanted]
        rcases sys.commitWithFallback env.now env.written _ _ _ _ with ⟨r, sys'⟩
        rcases r with (_ | _ | _) | l <;> rfl
    | release =>
      dsimp only
      split
      · simp
      · simp only [System.exec]
        rcases sys.release env.now env.written _ _ with ⟨r, sys'⟩
        rcases r with (_ | _ | _) | l <;> rfl
    | decline =>
      dsimp only
      split
      · simp
      · simp only [System.exec]
        rcases sys.decline env.now env.written _ _ with ⟨r, sys'⟩
        rcases r with (_ | _ | _) | l <;> rfl
    | inform =>
      dsimp only
      split <;> simp [*]
    | offer | ack | nak => simp

/-- Which packets lead to which call. -/
inductive Server.Calls (sha : Sha256) (request : Packet) : Op → Prop
  | offer {requested : Addr} {hostname fallback : GoString} : request.kind = some .discover →
      Calls sha request (.offer (clientIdentifier request.toRequest) requested hostname fallback)
  | commit {hostname fallback : GoString} : request.kind = some .request →
      Calls sha request
        (.commit (clientIdentifier request.toRequest) request.wanted hostname fallback)
  | release : request.kind = some .release →
      Calls sha request
        (.release (clientIdentifier request.toRequest) (ipv4 request.clientIPAddr))
  | decline : request.kind = some .decline →
      Calls sha request (.decline (clientIdentifier request.toRequest)
        (ipv4 (optionIP request.requestedIPAddress)))

/-- The call that a packet leads to, by its type. -/
theorem Server.operation_calls {sha : Sha256} {s : Server} {op : Op}
    (h : s.operation sha request = some op) : Server.Calls sha request op := by
  simp only [Server.operation] at h
  split at h
  · cases h
  split at h
  · next hkind =>
    split at h
    · cases h
    · cases h
      exact .offer hkind
  · next hkind =>
    split at h
    · cases h
    split at h
    · cases h
    · cases h
      exact .commit hkind
  · next hkind =>
    split at h
    · cases h
    · cases h
      exact .release hkind
  · next hkind =>
    split at h
    · cases h
    · cases h
      exact .decline hkind
  · cases h

/-! ## Runs -/

/-- What happens to the server: a packet and its answer, a lookup by another service, a restart. -/
inductive Event where
  | packet (env : Env) (request : Packet) (answer : Except HandleError (Option Reply))
  | lookup (now : Int) (op : Op) (reply : Leasing.Reply)
  | restart (now : Int)

/-- One step of the server. The clock is read by the manager only, so a packet that does not reach
it leaves the time of the last reading. -/
inductive Step (lib : DhcpLib) (config : Leasing.Config) (sha : Sha256) (s : Server) :
    Process → Event → Process → Prop
  | call {p : Process} {env : Env} {request : Packet} {op : Op} {sys : System}
      {answer : Except HandleError (Option Reply)} :
      s.operation sha request = some op → p.clock ≤ env.now →
      s.handle lib sha env request p.sys = (answer, sys) →
      Step lib config sha s p (.packet env request answer) ⟨sys, env.now⟩
  | direct {p : Process} {env : Env} {request : Packet} {sys : System}
      {answer : Except HandleError (Option Reply)} :
      s.operation sha request = none → s.handle lib sha env request p.sys = (answer, sys) →
      Step lib config sha s p (.packet env request answer) ⟨sys, p.clock⟩
  | lookup {p : Process} {now : Int} {op : Op} {reply : Leasing.Reply} {sys : System} :
      op.client = none → p.clock ≤ now → p.sys.exec now false op = (reply, sys) →
      Step lib config sha s p (.lookup now op reply) ⟨sys, now⟩
  | restart {p : Process} {now : Int} {m : Manager} : p.clock ≤ now → config.file ≠ [] →
      newManager config now p.sys.disk = .ok m →
      Step lib config sha s p (.restart now) ⟨⟨m, p.sys.disk⟩, now⟩

/-- The calls of the manager in a step. -/
def Server.lower (sha : Sha256) (s : Server) (t : Transition Process Event) :
    Trace Process Label :=
  match t.label with
  | .packet env request _ =>
    match s.operation sha request with
    | some op =>
      [⟨t.pre, .call env.now env.written op (t.pre.sys.exec env.now env.written op).1, t.post⟩]
    | none => []
  | .lookup now op reply => [⟨t.pre, .call now false op reply, t.post⟩]
  | .restart now => [⟨t.pre, .restart now, t.post⟩]

section
variable {lib : DhcpLib} {config : Leasing.Config} {sha : Sha256} {s : Server}

/-- The manager makes the calls of a step. -/
theorem Step.lower (h : Step lib config sha s t.pre t.label t.post) :
    Run (Leasing.Step config) t.pre (s.lower sha t) t.post := by
  obtain ⟨pre, label, post⟩ := t
  change Step lib config sha s pre label post at h
  cases h with
  | @call env request op sys answer hop hle hh =>
    simp only [Server.handle_eq, hop, Prod.mk.injEq] at hh
    simp only [Server.lower, hop]
    exact .cons (.call hle (Prod.ext rfl hh.2)) (.nil _)
  | @direct env request sys answer hop hh =>
    simp only [Server.handle_eq, hop, Prod.mk.injEq] at hh
    simp only [Server.lower, hop, ← hh.2]
    exact .nil _
  | lookup _ hle hexec => exact .cons (.call hle hexec) (.nil _)
  | restart hle hf hm => exact .cons (.restart hle hf hm) (.nil _)

/-- A run of the server is a run of the manager. -/
theorem Server.lower_run {p p' : Process} {tr : Trace Process Event}
    (h : Run (Step lib config sha s) p tr p') :
    Run (Leasing.Step config) p (tr.flatMap (s.lower sha)) p' :=
  h.simulate (g := id) fun _ hs => hs.lower

theorem Step.lower_eq
    (h : Step lib config sha s t.pre t.label t.post) (hu : s.lower sha t = [u]) :
    Leasing.Step config u.pre u.label u.post := by
  have hrun := h.lower
  rw [hu] at hrun
  cases hrun with
  | cons hs _ => exact hs

/-- A packet that reaches the manager is a call of it, and the answer to what the call returns. -/
theorem Step.call_inv {env : Env}
    {op : Op}
    (h : Step lib config sha s t.pre t.label t.post) (hlabel : t.label = .packet env request answer)
    (hop : s.operation sha request = some op) :
    ∃ r, s.lower sha t = [⟨t.pre, .call env.now env.written op r, t.post⟩] ∧
      answer = s.answer lib env request op r := by
  refine ⟨(t.pre.sys.exec env.now env.written op).1, by simp only [Server.lower, hlabel, hop], ?_⟩
  rw [hlabel] at h
  generalize t.pre = pre at h ⊢
  generalize t.post = post at h
  cases h with
  | call _ _ hh =>
    simp only [Server.handle_eq, hop, Prod.mk.injEq] at hh
    exact hh.1.symm
  | direct hnone =>
    rw [hop] at hnone
    cases hnone

/-- A packet that does not reach the manager changes nothing. -/
theorem Step.direct_inv {env : Env}
    (h : Step lib config sha s t.pre t.label t.post) (hlabel : t.label = .packet env request answer)
    (hop : s.operation sha request = none) :
    s.lower sha t = [] ∧ t.post = t.pre ∧ answer = s.direct lib env request := by
  refine ⟨by simp only [Server.lower, hlabel, hop], ?_⟩
  rw [hlabel] at h
  generalize t.pre = pre at h ⊢
  generalize t.post = post at h ⊢
  cases h with
  | call hsome =>
    rw [hop] at hsome
    cases hsome
  | direct _ hh =>
    simp only [Server.handle_eq, hop, Prod.mk.injEq] at hh
    exact ⟨by rw [← hh.2], hh.1.symm⟩

/-- Where a step of the manager comes from. -/
theorem Step.mem_lower
    (h : Step lib config sha s t.pre t.label t.post) (hu : u ∈ s.lower sha t) :
    (∃ now, u.label = .restart now ∧ t.label = .restart now) ∨
    (∃ now op reply, u.label = .call now false op reply ∧ op.client = none) ∨
    (∃ env request op r, t.label = .packet env request (s.answer lib env request op r) ∧
      s.operation sha request = some op ∧
      u = ⟨t.pre, .call env.now env.written op r, t.post⟩) := by
  cases hlabel : t.label with
  | restart now =>
    simp only [Server.lower, hlabel, List.mem_singleton] at hu
    exact .inl ⟨now, by rw [hu], rfl⟩
  | lookup now op reply =>
    simp only [Server.lower, hlabel, List.mem_singleton] at hu
    refine .inr (.inl ⟨now, op, reply, by rw [hu], ?_⟩)
    rw [hlabel] at h
    generalize t.post = post at h
    cases h with
    | lookup hclient => exact hclient
  | packet env request answer =>
    cases hop : s.operation sha request with
    | none =>
      rw [(h.direct_inv hlabel hop).1] at hu
      cases hu
    | some op =>
      obtain ⟨r, hlower, rfl⟩ := h.call_inv hlabel hop
      rw [hlower, List.mem_singleton] at hu
      exact .inr (.inr ⟨env, request, op, r, rfl, hop, hu⟩)

/-- The run of the manager from one call to another. -/
theorem Server.lower_between {p p' : Process}
    {before between after : Trace Process Event}
    {u v : Transition Process Label}
    (h : Run (Step lib config sha s) p (before ++ x :: between ++ y :: after) p')
    (hx : s.lower sha x = [u]) (hy : s.lower sha y = [v]) :
    Run (Leasing.Step config) x.pre ([] ++ u :: between.flatMap (s.lower sha) ++ v :: [])
      y.post := by
  obtain ⟨-, hstep₁, hbetween, hstep₂, -⟩ := h.two_inv
  have h₁ := hstep₁.lower
  have h₂ := hstep₂.lower
  rw [hx] at h₁
  rw [hy] at h₂
  exact (h₁.append (Server.lower_run hbetween)).append h₂

end

/-! ## What is sent -/

/-- Why a reply is sent, with the manager's step behind it. -/
inductive Server.Sent (lib : DhcpLib) (sha : Sha256) (s : Server) (t : Transition Process Event)
    (env : Env) (request : Packet) : Reply → Prop
  | offer {requested : Addr} {hostname fallback : GoString} {o : Lease} :
      request.kind = some .discover →
      s.lower sha t = [⟨t.pre, .call env.now env.written
        (.offer (clientIdentifier request.toRequest) requested hostname fallback)
        (.lease (.ok o)), t.post⟩] →
      Sent lib sha s t env request (s.reply lib request .offer (some o))
  | ack {hostname fallback : GoString} {l : Lease} : request.kind = some .request →
      s.lower sha t = [⟨t.pre, .call env.now env.written
        (.commit (clientIdentifier request.toRequest) request.wanted hostname fallback)
        (.lease (.ok l)), t.post⟩] →
      Sent lib sha s t env request (s.reply lib request .ack (some l))
  | nak {hostname fallback : GoString} {e : Error} : request.kind = some .request →
      s.lower sha t = [⟨t.pre, .call env.now env.written
        (.commit (clientIdentifier request.toRequest) request.wanted hostname fallback)
        (.lease (.error e)), t.post⟩] → e ≠ .persist →
      Sent lib sha s t env request (s.reply lib request .nak none)
  | inform : request.kind = some .inform → t.post = t.pre →
      Sent lib sha s t env request (s.reply lib request .ack none)

section
variable {lib : DhcpLib} {config : Leasing.Config} {sha : Sha256} {s : Server} {env : Env}
  {request : Packet} {reply : Reply}

/-- A reply that was built. -/
theorem Server.build_ok {kind : MessageType} {allocation : Option Lease}
    (h : s.build lib env request kind allocation = .ok (some reply)) :
    reply = s.reply lib request kind allocation := by
  unfold Server.build at h
  split at h
  · cases h
    rfl
  · cases h

/-- An offer is answered for a lease only. -/
theorem Server.answer_offer {c hostname fallback : GoString} {requested : Addr} {r : Leasing.Reply}
    (h : s.answer lib env request (.offer c requested hostname fallback) r = .ok (some reply)) :
    ∃ o, r = .lease (.ok o) ∧ reply = s.reply lib request .offer (some o) := by
  cases r with
  | lease r =>
    cases r with
    | ok o => exact ⟨o, rfl, Server.build_ok h⟩
    | error e => cases e <;> cases h
  | done | found | known => cases h

/-- A commit is acknowledged or refused. -/
theorem Server.answer_commit {c hostname fallback : GoString} {ip : Addr} {r : Leasing.Reply}
    (h : s.answer lib env request (.commit c ip hostname fallback) r = .ok (some reply)) :
    (∃ l, r = .lease (.ok l) ∧ reply = s.reply lib request .ack (some l)) ∨
      ∃ e, r = .lease (.error e) ∧ e ≠ .persist ∧ reply = s.reply lib request .nak none := by
  cases r with
  | lease r =>
    cases r with
    | ok l => exact .inl ⟨l, rfl, Server.build_ok h⟩
    | error e =>
      refine .inr ⟨e, rfl, ?_, ?_⟩
      · rintro rfl
        cases h
      · cases e with
        | persist => cases h
        | _ => exact Server.build_ok h
  | done | found | known => cases h

/-- What is given up is not answered. -/
theorem Server.answer_give {op : Op} {r : Leasing.Reply} (c : GoString) (ip : Addr)
    (hop : op = .release c ip ∨ op = .decline c ip) :
    s.answer lib env request op r ≠ .ok (some reply) := by
  intro h
  rcases hop with rfl | rfl
  all_goals
    cases r with
    | done r =>
      cases r with
      | ok => cases h
      | error e => cases e <;> cases h
    | lease | found | known => cases h

/-- A reply that was sent, with the call behind it. -/
theorem Step.sent (h : Step lib config sha s t.pre t.label t.post)
    (hlabel : t.label = .packet env request (.ok (some reply))) :
    s.Sent lib sha t env request reply := by
  cases hop : s.operation sha request with
  | some op =>
    obtain ⟨r, hlower, hanswer⟩ := h.call_inv hlabel hop
    cases Server.operation_calls hop with
    | offer hkind =>
      obtain ⟨o, rfl, rfl⟩ := Server.answer_offer hanswer.symm
      exact .offer hkind hlower
    | commit hkind =>
      rcases Server.answer_commit hanswer.symm with ⟨l, rfl, rfl⟩ | ⟨e, rfl, he, rfl⟩
      · exact .ack hkind hlower
      · exact .nak hkind hlower he
    | release => exact absurd hanswer.symm (Server.answer_give _ _ (.inl rfl))
    | decline => exact absurd hanswer.symm (Server.answer_give _ _ (.inr rfl))
  | none =>
    obtain ⟨-, hpost, hanswer⟩ := h.direct_inv hlabel hop
    unfold Server.direct at hanswer
    split at hanswer
    · cases hanswer
    split at hanswer
    · next hkind =>
      split at hanswer
      · cases hanswer
      · rw [Server.build_ok hanswer.symm]
        exact .inform hkind hpost
    · cases hanswer

end

/-! ## Promises -/

/-- The server sends the client a reply of this type with an address and a time in seconds. -/
def Event.Promises (e : Event) (kind : MessageType) (now : Int) (c : GoString) (ip : BitVec 32)
    (time : Nat) : Prop :=
  ∃ env request reply, e = .packet env request (.ok (some reply)) ∧ env.now = now ∧
    clientIdentifier request.toRequest = c ∧ reply.kind = some kind ∧ reply.yourIPAddr = ip ∧
    reply.leaseTime = some time

/-- The client gives the address up: it releases or declines it, or asks for another one and gets
it. The lease of the other one is recorded before the reply is built, so it also moves if the
library then fails. -/
inductive GivesUp (c : GoString) (ip : BitVec 32) (t : Transition Process Event) : Prop
  | released {env : Env} {request : Packet} : t.label = .packet env request (.ok none) →
      request.kind = some .release → clientIdentifier request.toRequest = c →
      request.clientIPAddr = ip → GivesUp c ip t
  | declined {env : Env} {request : Packet} : t.label = .packet env request (.ok none) →
      request.kind = some .decline → clientIdentifier request.toRequest = c →
      optionIP request.requestedIPAddress = ip → GivesUp c ip t
  | moved {env : Env} {request : Packet} {answer : Except HandleError (Option Reply)} {l : Lease} :
      t.label = .packet env request answer → request.kind = some .request →
      clientIdentifier request.toRequest = c → request.wanted ≠ .v4 ip →
      answer = .error .build ∨ (∃ reply, answer = .ok (some reply) ∧ reply.kind = some .ack) →
      t.post.sys.manager.state.leases.get c = some l → l.ip = request.wanted → GivesUp c ip t

theorem Settings.inPool_v4 {cfg : Settings} {ip : Addr} (h : cfg.inPool ip = true) :
    ∃ a, ip = .v4 a := by
  simp only [Settings.inPool, Bool.and_eq_true] at h
  exact Addr.is4_iff.1 h.1.1

theorem unmap_ipv4 (ip : BitVec 32) : (ipv4 ip).unmap = ipv4 ip := by
  unfold ipv4
  split <;> rfl

theorem Packet.unmap_wanted : request.wanted.unmap = request.wanted := by
  unfold Packet.wanted
  split <;> exact unmap_ipv4 _

theorem ipv4_eq {a ip : BitVec 32} (h : (ipv4 a).unmap = .v4 ip) : a = ip := by
  unfold ipv4 at h
  split at h
  · cases h
  · exact Addr.v4.inj h

section
variable {lib : DhcpLib} {config : Leasing.Config} {sha : Sha256} {s : Server}
  {t : Transition Process Event} {now : Int} {c : GoString} {ip : BitVec 32} {time : Nat}

/-- The time a reply names is not longer than the lease. -/
theorem Server.leaseTime_le (h : time = (s.leaseDuration / second).toNat) :
    (time : Int) * second ≤ s.leaseDuration := by
  have hsec : second = 1000000000 := rfl
  have hmin := s.leaseDuration_min
  rw [show minute = 60 * second from rfl, hsec] at hmin
  rw [hsec] at h ⊢
  omega

/-- Behind an acknowledgement of a lease is a commit. -/
theorem Step.acknowledged (hlib : lib.Documented)
    (hs : Step lib config sha s t.pre t.label t.post)
    (h : t.label.Promises .ack now c ip time) :
    ∃ label l, s.lower sha t = [⟨t.pre, label, t.post⟩] ∧ label.Commits now c l ∧ l.ip = .v4 ip ∧
      t.pre.sys.manager.cfg.inPool (.v4 ip) = true ∧
      time = (s.leaseDuration / second).toNat := by
  obtain ⟨env, request, reply, hlabel, rfl, rfl, hkind, hip, htime⟩ := h
  cases hs.sent hlabel with
  | offer | nak => rw [Server.kind_reply hlib] at hkind; cases hkind
  | inform => rw [Server.leaseTime_reply_none hlib] at htime; cases htime
  | @ack hostname fallback l _ hlower =>
    obtain ⟨-, -, hpool, -⟩ := (hs.lower_eq hlower).committed_inv
    obtain ⟨a, ha⟩ := Settings.inPool_v4 hpool
    rw [Server.yourIPAddr_reply hlib (by decide) ha] at hip
    rw [Server.leaseTime_reply hlib (by decide)] at htime
    rw [hip] at ha
    exact ⟨_, l, hlower, ⟨_, _, _, _, rfl⟩, ha, ha ▸ hpool, (Option.some.inj htime).symm⟩

/-- Behind an offer is an offer of the manager. -/
theorem Step.offered (hlib : lib.Documented) (hinv : t.pre.Inv config)
    (hs : Step lib config sha s t.pre t.label t.post)
    (h : t.label.Promises .offer now c ip time) :
    ∃ label, s.lower sha t = [⟨t.pre, label, t.post⟩] ∧ label.Offers now c (.v4 ip) ∧
      t.pre.sys.manager.cfg.inPool (.v4 ip) = true := by
  obtain ⟨env, request, reply, hlabel, rfl, rfl, hkind, hip, htime⟩ := h
  cases hs.sent hlabel with
  | ack | nak => rw [Server.kind_reply hlib] at hkind; cases hkind
  | inform => rw [Server.leaseTime_reply_none hlib] at htime; cases htime
  | @offer requested hostname fallback o _ hlower =>
    have hcall := hs.lower_eq hlower
    obtain ⟨-, -, o', ho, hip', -⟩ := hcall.offered_inv ⟨_, _, _, _, o, (rfl : o.ip = o.ip), rfl⟩
    have hpool := ((hinv.step hcall).wf.offer ho).1
    rw [hinv.cfg_eq (hinv.step hcall), hip'] at hpool
    obtain ⟨a, ha⟩ := Settings.inPool_v4 hpool
    rw [Server.yourIPAddr_reply hlib (by decide) ha] at hip
    rw [hip] at ha
    exact ⟨_, hlower, ⟨_, _, _, _, o, ha, rfl⟩, ha ▸ hpool⟩

/-- Only a packet of the client gives its address up. -/
theorem Step.givesUp (hlib : lib.Documented) (hs : Step lib config sha s t.pre t.label t.post)
    (hu : u ∈ s.lower sha t)
    (h : Leasing.GivesUp c (.v4 ip) u.label) : GivesUp c ip t := by
  rcases hs.mem_lower hu with ⟨now, hlabel, -⟩ | ⟨now, op, reply, hlabel, hclient⟩ |
    ⟨env, request, op, r, hlabel, hop, rfl⟩
  · rw [hlabel] at h
    cases h
  · rw [hlabel] at h
    rw [h.client] at hclient
    cases hclient
  obtain ⟨_, _, -, -, hcall, -⟩ := hs.lower.mem_inv hu
  cases Server.operation_calls hop with
  | offer => cases h
  | release hkind =>
    cases h with
    | released ha => exact .released hlabel hkind rfl (ipv4_eq ha)
  | decline hkind =>
    cases h with
    | declined ha => exact .declined hlabel hkind rfl (ipv4_eq ha)
  | commit hkind =>
    cases h with
    | moved hne =>
      have hip := hcall.committed_address.trans Packet.unmap_wanted
      obtain ⟨-, -, -, -, -, -, hl⟩ := hcall.committed_inv
      refine .moved hlabel hkind rfl (hip ▸ hne) ?_ hl hip
      simp only [Server.answer, Server.build]
      split
      · exact .inr ⟨_, rfl, Server.kind_reply hlib⟩
      · exact .inl rfl

end

section
variable {lib : DhcpLib} {config : Leasing.Config} {sha : Sha256} {s : Server} {p p' : Process}
  {tr : Trace Process Event} {c : GoString} {ip : BitVec 32}

/-- What is given up with the manager is given up on the wire. -/
theorem Server.givesUp_of_lower (hlib : lib.Documented)
    (hrun : Run (Step lib config sha s) p tr p') (hu : u ∈ tr.flatMap (s.lower sha))
    (h : Leasing.GivesUp c (.v4 ip) u.label) : ∃ t ∈ tr, GivesUp c ip t := by
  obtain ⟨t, ht, hut⟩ := List.mem_flatMap.1 hu
  obtain ⟨_, _, -, -, hstep, -⟩ := hrun.mem_inv ht
  exact ⟨t, ht, hstep.givesUp hlib hut h⟩

/-- Without a restart of the server there was none of the manager. -/
theorem Server.running_of_lower (hrun : Run (Step lib config sha s) p tr p')
    (h : ∀ t ∈ tr, ∀ now, t.label ≠ .restart now) :
    ∀ u ∈ tr.flatMap (s.lower sha), ∀ now, u.label ≠ .restart now := by
  intro u hu now heq
  obtain ⟨t, ht, hut⟩ := List.mem_flatMap.1 hu
  obtain ⟨_, _, -, -, hstep, -⟩ := hrun.mem_inv ht
  rcases hstep.mem_lower hut with ⟨_, -, hlabel⟩ | ⟨_, _, _, hlabel, -⟩ | ⟨_, _, _, _, -, -, rfl⟩
  · exact h t ht _ hlabel
  · rw [hlabel] at heq
    cases heq
  · cases heq

end

/-- The configuration `run` passes to `dhcpserver.New`. -/
def ofConfig (cfg : BoxConfig) : Config where
  serverIP := cfg.serverIP
  subnet := cfg.subnet
  router := cfg.router
  domain := cfg.domain
  leaseDuration := cfg.leaseDuration

/-- What `New` keeps of its configuration. -/
theorem new_ok {config : Config} {s : Server} (h : new config = .ok s) :
    config.serverIP = .v4 s.serverIP ∧ s.subnet = config.subnet ∧
      s.leaseDuration = config.leaseDuration := by
  unfold new at h
  split at h
  · next hip =>
    split at h
    · split at h
      · cases h
        exact ⟨hip, rfl, rfl⟩
      · cases h
    · cases h
  · cases h

section
variable {cfg : BoxConfig} {sha : Sha256} {s : Server} {disk : LeaseFile}
  {start : Int} {m : Manager} {p : Process} {tr : Trace Process Event}

/-- The manager grants leases for the time the server announces. -/
theorem leaseDuration_eq (hs : new (ofConfig cfg) = .ok s)
    (hm : newManager cfg.leases start disk = .ok m) : m.cfg.leaseDuration = s.leaseDuration :=
  (configure_durations (newManager_ok hm).1).1.trans (new_ok hs).2.2.symm

end

/-- An address has one owner at a time, as the clients see it: after the server has acknowledged it
to a client, it does not offer or acknowledge it to another one before the time in the first
acknowledgement has passed, unless a packet of the first client has given it up in between. This
holds in every run, through failures and restarts. -/
theorem acknowledged_exclusive (before between after : Trace Process Event)
    {lib : DhcpLib} {cfg : BoxConfig} {sha : Sha256} {s : Server} {disk : LeaseFile}
    {start : Int} {m : Manager} {p : Process} {n₁ n₂ : Int}
    {c₁ c₂ : GoString} {ip : BitVec 32} {time₁ time₂ : Nat} {kind : MessageType}
    (hlib : lib.Documented) (hstart : 0 < start) (hs : new (ofConfig cfg) = .ok s)
    (hm : newManager cfg.leases start disk = .ok m)
    (hrun : Run (Step lib cfg.leases sha s) ⟨⟨m, disk⟩, start⟩
      (before ++ x :: between ++ y :: after) p)
    (hx : x.label.Promises .ack n₁ c₁ ip time₁) (hy : y.label.Promises kind n₂ c₂ ip time₂)
    (hkind : kind = .offer ∨ kind = .ack) (hne : c₁ ≠ c₂) (hlt : n₂ < n₁ + time₁ * second) :
    ∃ t ∈ between, GivesUp c₁ ip t := by
  have h₀ : Process.Inv cfg.leases ⟨⟨m, disk⟩, start⟩ := .start hstart hm
  obtain ⟨hbefore, hstep₁, hbetween, hstep₂, -⟩ := hrun.two_inv
  have hxpre := h₀.run (Server.lower_run hbefore)
  have hypre := (hxpre.run hstep₁.lower).run (Server.lower_run hbetween)
  obtain ⟨label₁, l, hlower₁, hcommit, hip, -, htime⟩ := hstep₁.acknowledged hlib hx
  have hexp : n₂ < l.expiresAt := by
    have hexp := hcommit.expiresAt (hstep₁.lower_eq hlower₁)
    rw [h₀.cfg_eq hxpre, leaseDuration_eq hs hm] at hexp
    have := Server.leaseTime_le htime
    omega
  -- the second promise is a commit or an offer of the manager
  obtain ⟨label₂, hlower₂, hpromise⟩ : ∃ label, s.lower sha y = [⟨y.pre, label, y.post⟩] ∧
      ((∃ l', l'.ip = l.ip ∧ label.Commits n₂ c₂ l') ∨ label.Offers n₂ c₂ l.ip) := by
    rcases hkind with rfl | rfl
    · obtain ⟨label, hlower, hoffer, -⟩ := hstep₂.offered hlib hypre hy
      exact ⟨label, hlower, .inr (hip ▸ hoffer)⟩
    · obtain ⟨label, l', hlower, hcommit', hip', -⟩ := hstep₂.acknowledged hlib hy
      exact ⟨label, hlower, .inl ⟨l', hip'.trans hip.symm, hcommit'⟩⟩
  obtain ⟨u, hu, hgive⟩ := hxpre.unpromised (Server.lower_between hrun hlower₁ hlower₂) hcommit
    hpromise hne hexp
  exact Server.givesUp_of_lower hlib hbetween hu (hip ▸ hgive)

/-- The server of the sample network. -/
def sampleServer : Server where
  serverIP := 0x0a000001
  subnet := ⟨.v4 0x0a000000, 24⟩
  router := .invalid
  domain := str "lan"
  leaseDuration := hour
  contained := by decide
  leaseDuration_min := by decide
  leaseDuration_max := by decide

theorem new_sample : new (ofConfig sampleAccepted) = .ok sampleServer := rfl

/-- A packet of a client that asks for an address. -/
def samplePacket (kind : MessageType) (id : UInt8) : Packet where
  fqdn := none
  hostName := str "x"
  clientIdentifier := some [1, id]
  hwType := 1
  clientHWAddr := [2, 0, 0, 0, 0, 1]
  opCode := opBootRequest
  hopCount := 0
  clientIPAddr := 0
  gatewayIPAddr := 0
  requestedIPAddress := some (ipBytes 0x0a00000a)
  messageType := some [kind.code]
  serverIdentifier := none
  architectures := none

/-- The same client, which gives the address up. -/
def sampleRelease (id : UInt8) : Packet := { samplePacket .release id with
  clientIPAddr := 0x0a00000a
  requestedIPAddress := none
  serverIdentifier := some (ipBytes 0x0a000001) }

/-- The process after a packet of the sample network. -/
def receive (p : Process) (env : Env) (request : Packet) : Process :=
  ⟨(sampleServer.handle sampleLib sampleSha env request p.sys).2, env.now⟩

theorem Step.receive (p : Process) (env : Env) (request : Packet)
    (hop : (sampleServer.operation sampleSha request).isSome = true) (hle : p.clock ≤ env.now) :
    Step sampleLib sampleAccepted.leases sampleSha sampleServer p
      (.packet env request (sampleServer.handle sampleLib sampleSha env request p.sys).1)
      (receive p env request) :=
  .call (Option.some_get hop).symm hle rfl

theorem promises_sample {kind : MessageType} (hkind : kind ≠ .nak) {l : Lease}
    {e : Event} {now : Int} (hip : l.ip = .v4 0x0a00000a)
    (he : e = .packet ⟨now, true, true⟩ request
      (.ok (some (sampleServer.reply sampleLib request kind (some l))))) :
    e.Promises kind now (clientIdentifier request.toRequest) 0x0a00000a 3600 :=
  ⟨_, _, _, he, rfl, rfl, Server.kind_reply sampleLib_documented,
    Server.yourIPAddr_reply sampleLib_documented hkind hip,
    Server.leaseTime_reply sampleLib_documented hkind⟩

/-- An address handed from one client to another through a release. -/
theorem acknowledged_exclusive_release :
    let p₁ := receive ⟨⟨Dns.sampleManager, .absent⟩, 1⟩ ⟨2, true, true⟩ (samplePacket .request 1)
    let p₂ := receive p₁ ⟨3, true, true⟩ (sampleRelease 1)
    ∃ t ∈ [(⟨p₁, .packet ⟨3, true, true⟩ (sampleRelease 1) (.ok none), p₂⟩ :
      Transition Process Event)],
      GivesUp (clientIdentifier (samplePacket .request 1).toRequest) 0x0a00000a t := by
  intro p₁ p₂
  have hrun : Run (Step sampleLib sampleAccepted.leases sampleSha sampleServer)
      ⟨⟨Dns.sampleManager, .absent⟩, 1⟩ _ _ :=
    .cons (.receive _ ⟨2, true, true⟩ (samplePacket .request 1) rfl (by decide)) <|
    .cons (.receive _ ⟨3, true, true⟩ (sampleRelease 1) rfl (by decide)) <|
    .cons (.receive _ ⟨4, true, true⟩ (samplePacket .request 2) rfl (by decide)) (.nil _)
  exact acknowledged_exclusive [] [_] [] sampleLib_documented (by decide) new_sample rfl hrun
    (promises_sample (by decide) (l := ⟨_, .v4 0x0a00000a, str "x.lan.", 2 + hour⟩) rfl rfl)
    (promises_sample (by decide) (l := ⟨_, .v4 0x0a00000a, str "x.lan.", 4 + hour⟩) rfl rfl)
    (.inr rfl) (by decide) (by decide)

/-! ## Exchanges complete -/

/-- A request for an address as clients make them: one that answers an offer, or comes back after a
restart, names the address in option 50, and the server if it answers an offer; one that renews is
at the address. -/
structure Packet.AsksFor (s : Server) (ip : BitVec 32) (request : Packet) : Prop where
  opCode : request.opCode = opBootRequest
  hopCount : request.hopCount ≤ 16
  messageType : request.messageType = some [MessageType.request.code]
  relay : request.gatewayIPAddr = 0 ∨ s.subnet.contains (.v4 request.gatewayIPAddr) = true
  address : (request.clientIPAddr = 0 ∧ request.requestedIPAddress = some (ipBytes ip) ∧
      (request.serverIdentifier = none ∨
        request.serverIdentifier = some (ipBytes s.serverIP))) ∨
    (request.clientIPAddr = ip ∧ request.requestedIPAddress = none ∧
      request.serverIdentifier = none)

theorem optionIP_ipBytes (ip : BitVec 32) : optionIP (some (ipBytes ip)) = ip := by
  have hlt : ip.toNat < 256 ^ 4 := ip.isLt
  rw [optionIP, Option.getD_some, ipBytes, beNat_beBytes, Nat.mod_eq_of_lt hlt,
    BitVec.ofNat_toNat, BitVec.setWidth_eq]

@[simp] theorem length_ipBytes (ip : BitVec 32) : (ipBytes ip).length = 4 := length_beBytes 4 _

theorem ipv4_of_ne {ip : BitVec 32} (h : ip ≠ 0) : ipv4 ip = .v4 ip := if_neg h

section
variable {s : Server} {ip : BitVec 32} {request : Packet}

/-- Such a request is not ignored. -/
theorem Packet.AsksFor.accepted (h : request.AsksFor s ip)
    (hclient : clientIdentifier request.toRequest ≠ []) : s.ignores request = false := by
  have hrelay : ((ipv4 request.gatewayIPAddr).isValid &&
      !s.subnet.contains (ipv4 request.gatewayIPAddr)) = false := by
    rcases h.relay with h | h
    · rw [h]
      rfl
    · unfold ipv4
      split
      · rfl
      · simp [h]
  have hlengths : request.requestedIPAddress.any (fun raw => raw.length ≠ 4) = false ∧
      request.serverIdentifier.any (fun raw => raw.length ≠ 4) = false := by
    rcases h.address with ⟨-, hreq, hid | hid⟩ | ⟨-, hreq, hid⟩ <;> simp [hreq, hid]
  have hserver : ((ipv4 (optionIP request.serverIdentifier)).isValid &&
      decide (ipv4 (optionIP request.serverIdentifier) ≠ .v4 s.serverIP)) = false := by
    rcases h.address with ⟨-, -, hid | hid⟩ | ⟨-, -, hid⟩
    · rw [hid]; rfl
    · rw [hid, optionIP_ipBytes]
      unfold ipv4
      split
      · rfl
      · simp
    · rw [hid]; rfl
  have hhops : decide (16 < request.hopCount) = false := by
    simpa using h.hopCount
  simp only [Server.ignores, h.opCode, hhops, hlengths, hclient, hrelay, hserver, h.messageType]
  rfl

/-- It reaches the manager as a commit. -/
theorem Packet.AsksFor.operation (h : request.AsksFor s ip) (hip : ip ≠ 0)
    (hclient : clientIdentifier request.toRequest ≠ []) (sha : Sha256) :
    request.wanted = .v4 ip ∧ s.operation sha request =
      some (.commit (clientIdentifier request.toRequest) (.v4 ip) (hostnameOf request.toRequest)
        (fallbackHostname sha (clientIdentifier request.toRequest))) := by
  have hkind : request.kind = some .request := by
    rw [Packet.kind, h.messageType]
    rfl
  have hwanted : request.wanted = .v4 ip := by
    unfold Packet.wanted
    rcases h.address with ⟨hcur, hreq, -⟩ | ⟨hcur, -⟩
    · rw [hcur, hreq, optionIP_ipBytes, ipv4_of_ne hip]
      rfl
    · rw [hcur, ipv4_of_ne hip]
      rfl
  refine ⟨hwanted, ?_⟩
  simp only [Server.operation, h.accepted hclient, hkind, hwanted]
  rcases h.address with ⟨hcur, hreq, -⟩ | ⟨hcur, hreq, hid⟩
  · rw [hcur, hreq, optionIP_ipBytes, ipv4_of_ne hip]
    rfl
  · rw [hcur, hreq, hid, ipv4_of_ne hip]
    rfl

end

/-- The client gets the address, unless the file could not be written or the reply not be built. -/
def Granted (s : Server) (file : GoString) (env : Env) (ip : BitVec 32)
    (answer : Except HandleError (Option Reply)) : Prop :=
  (∃ reply, answer = .ok (some reply) ∧ reply.kind = some .ack ∧ reply.yourIPAddr = ip ∧
    reply.leaseTime = some (s.leaseDuration / second).toNat) ∨
  (answer = .error (.commit .persist) ∧ env.written = false ∧ file ≠ []) ∨
  (answer = .error .build ∧ env.built = false)

section
variable {lib : DhcpLib} {config : Leasing.Config} {sha : Sha256} {s : Server}
  {t : Transition Process Event} {env : Env} {request : Packet}
  {answer : Except HandleError (Option Reply)} {ip : BitVec 32}

/-- The answer to a request is that of the manager. -/
theorem Step.asked (hlib : lib.Documented) (hs : Step lib config sha s t.pre t.label t.post)
    (hlabel : t.label = .packet env request answer) (h : request.AsksFor s ip) (hip : ip ≠ 0)
    (hclient : clientIdentifier request.toRequest ≠ []) :
    ∃ label r, s.lower sha t = [⟨t.pre, label, t.post⟩] ∧
      label.Requests env.now (clientIdentifier request.toRequest) (.v4 ip) env.written r ∧
      ∀ file, r.Granted file env.written → Granted s file env ip answer := by
  obtain ⟨-, hop⟩ := h.operation hip hclient sha
  obtain ⟨r, hlower, rfl⟩ := hs.call_inv hlabel hop
  have hcall := hs.lower_eq hlower
  refine ⟨_, r, hlower, ⟨_, _, _, rfl, rfl⟩, fun file hr => ?_⟩
  rcases hr with ⟨l, rfl⟩ | ⟨rfl, hw, hfile⟩
  · simp only [Server.answer, Server.build]
    split
    · exact .inl ⟨_, rfl, Server.kind_reply hlib,
        Server.yourIPAddr_reply hlib (by decide) hcall.committed_address,
        Server.leaseTime_reply hlib (by decide)⟩
    · next hbuilt => exact .inr (.inr ⟨rfl, by simpa using hbuilt⟩)
  · exact .inr (.inl ⟨rfl, hw, hfile⟩)

end

/-- A client that asks for the address it was promised gets it: for one minute after an offer, if
the server has not restarted since, and for the time in an acknowledgement after that, across
restarts. What happens in between does not matter as long as the client has not given the address
up. The only other outcomes are those of the server's own failures. -/
theorem exchange_completes (before between after : Trace Process Event)
    {lib : DhcpLib} {parsers : Parsers} {f : FileSettings} {cfg : BoxConfig}
    {sha : Sha256} {s : Server} {disk : LeaseFile} {start : Int} {m : Manager} {p : Process}
    {n : Int} {c : GoString} {ip : BitVec 32} {time : Nat}
    {env : Env}
    (hlib : lib.Documented) (hcfg : f.config parsers = .ok cfg) (hstart : 0 < start)
    (hs : new (ofConfig cfg) = .ok s) (hm : newManager cfg.leases start disk = .ok m)
    (hrun : Run (Step lib cfg.leases sha s) ⟨⟨m, disk⟩, start⟩
      (before ++ x :: between ++ y :: after) p)
    (hx : (x.label.Promises .offer n c ip time ∧ env.now < n + minute ∧
        ∀ t ∈ between, ∀ now, t.label ≠ .restart now) ∨
      (x.label.Promises .ack n c ip time ∧ env.now < n + time * second))
    (hy : y.label = .packet env request answer) (hasks : request.AsksFor s ip)
    (hc : clientIdentifier request.toRequest = c)
    (hkept : ∀ t ∈ between, ¬ GivesUp c ip t) :
    Granted s cfg.leaseFile env ip answer := by
  subst hc
  have h₀ : Process.Inv cfg.leases ⟨⟨m, disk⟩, start⟩ := .start hstart hm
  have hfile : m.cfg.file = cfg.leaseFile := (configure_ok h₀.configured).2.2.2.1
  have hlease : m.cfg.leaseDuration = s.leaseDuration := leaseDuration_eq hs hm
  have hoffer : m.cfg.offerDuration = minute := (configure_durations h₀.configured).2
  obtain ⟨hbefore, hstep₁, hbetween, hstep₂, -⟩ := hrun.two_inv
  have hxpre := h₀.run (Server.lower_run hbefore)
  have hkept' : ∀ u ∈ between.flatMap (s.lower sha), ¬ Leasing.GivesUp _ (.v4 ip) u.label :=
    fun u hu hgive => by
      obtain ⟨t, ht, h⟩ := Server.givesUp_of_lower hlib hbetween hu hgive
      exact hkept t ht h
  have hcfgeq := h₀.cfg_eq hxpre
  have hpool : ∀ {ip}, m.cfg.inPool (.v4 ip) = true → ip ≠ 0 := fun {ip} hin => by
    obtain ⟨-, hpoolStart, -⟩ := (FileSettings.config_ok hcfg).leases_ok h₀.configured
    simp only [Settings.inPool, Bool.and_eq_true, decide_eq_true_eq] at hin
    exact FileSettings.config_pool_ne hcfg (hpoolStart ▸ hin.1.2)
  have hclient : ∀ {c}, validClientID c = true → c ≠ [] := fun {c} h => by
    rintro rfl
    cases h
  rw [← hfile, ← hcfgeq]
  rcases hx with ⟨hx, hlt, hrunning⟩ | ⟨hx, hlt⟩
  · obtain ⟨label₁, hlower₁, hoffers, hin⟩ := hstep₁.offered hlib hxpre hx
    obtain ⟨hvalid, -⟩ := (hstep₁.lower_eq hlower₁).offered_inv hoffers
    obtain ⟨label₂, r, hlower₂, hrequests, hgranted⟩ :=
      hstep₂.asked hlib hy hasks (hpool (hcfgeq ▸ hin)) (hclient hvalid)
    have hrunning' := Server.running_of_lower hbetween hrunning
    refine hgranted _ (hxpre.offer_kept (Server.lower_between hrun hlower₁ hlower₂) hoffers
      hrequests ?_ (fun u hu => ⟨hkept' u hu, hrunning' u hu⟩) (.inl ?_))
    · rw [hcfgeq, hoffer]
      exact hlt
    · rw [hcfgeq, hoffer, hlease]
      exact s.leaseDuration_min
  · obtain ⟨label₁, l, hlower₁, hcommit, hip, hin, htime⟩ := hstep₁.acknowledged hlib hx
    have hcall := hstep₁.lower_eq hlower₁
    obtain ⟨label₂, r, hlower₂, hrequests, hgranted⟩ :=
      hstep₂.asked hlib hy hasks (hpool (hcfgeq ▸ hin)) (hclient (hcall.committed_client hcommit))
    refine hgranted _ (hxpre.lease_kept (Server.lower_between hrun hlower₁ hlower₂) hcommit
      (hip ▸ hrequests) ?_ (hip ▸ hkept'))
    have hexp := hcommit.expiresAt hcall
    have := Server.leaseTime_le htime
    rw [hcfgeq, hlease] at hexp
    omega

/-- An offer that is taken up after another client has asked for its address in vain. -/
theorem exchange_completes_offer :
    let p₁ := receive ⟨⟨Dns.sampleManager, .absent⟩, 1⟩ ⟨2, true, true⟩ (samplePacket .discover 1)
    let p₂ := receive p₁ ⟨3, true, true⟩ (samplePacket .request 2)
    ∃ reply, (sampleServer.handle sampleLib sampleSha ⟨4, true, true⟩ (samplePacket .request 1)
        p₂.sys).1 = .ok (some reply) ∧
      reply.kind = some .ack ∧ reply.yourIPAddr = 0x0a00000a ∧ reply.leaseTime = some 3600 := by
  intro p₁ p₂
  have hrun : Run (Step sampleLib sampleAccepted.leases sampleSha sampleServer)
      ⟨⟨Dns.sampleManager, .absent⟩, 1⟩ _ _ :=
    .cons (.receive _ ⟨2, true, true⟩ (samplePacket .discover 1) rfl (by decide)) <|
    .cons (.receive _ ⟨3, true, true⟩ (samplePacket .request 2) rfl (by decide)) <|
    .cons (.receive _ ⟨4, true, true⟩ (samplePacket .request 1) rfl (by decide)) (.nil _)
  have hasks : (samplePacket .request 1).AsksFor sampleServer 0x0a00000a :=
    ⟨rfl, by decide, rfl, .inl rfl, .inl ⟨rfl, rfl, .inl rfl⟩⟩
  have hother : ∀ {pre post answer}, ¬ GivesUp
      (clientIdentifier (samplePacket .request 1).toRequest) 0x0a00000a
      ⟨pre, .packet ⟨3, true, true⟩ (samplePacket .request 2) answer, post⟩ := by
    intro pre post answer h
    cases h with
    | released hlabel _ hid | declined hlabel _ hid | moved hlabel _ hid =>
      cases hlabel
      exact absurd hid (by decide)
  have hgranted := exchange_completes [] [_] [] sampleLib_documented sampleFile_config (by decide)
    new_sample rfl hrun (.inl ⟨promises_sample (by decide)
      (l := ⟨_, .v4 0x0a00000a, str "x.lan.", 2 + minute⟩) rfl rfl, by decide,
      List.forall_mem_singleton.2 fun now => Event.noConfusion⟩) rfl hasks rfl
    (List.forall_mem_singleton.2 hother)
  -- nothing fails, so the outcome is the acknowledgement
  rcases hgranted with h | ⟨-, hwritten, -⟩ | ⟨-, hbuilt⟩
  · exact h
  · cases hwritten
  · cases hbuilt

end InfraBox.Dhcp
