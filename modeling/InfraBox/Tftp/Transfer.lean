import InfraBox.Net.Addr
import InfraBox.Tftp.Protocol

/-!
# A TFTP transfer

`internal/tftpserver/transfer.go`. A transfer is run against the events its socket reports, one for
each read: a datagram, with what becomes of an error reply to its sender, a timeout, or another
error. The results of the remaining calls are given by `Env`, by the number of the attempt or of the
block they are made for. The log records what is read and written, in order; a transfer whose events
run out is still waiting for the next one. The deadline only decides when the socket reports a
timeout, so it does not appear.

A datagram of another sender is answered with an error and otherwise skipped (`transfer_compared`),
except where that answer cannot be written: then the transfer of the peer is over.
-/

namespace InfraBox.Tftp

/-- `netip.AddrPort`. -/
structure AddrPort where
  addr : Addr
  port : UInt16
deriving DecidableEq

/-- An `error`: its text. -/
abbrev Failure := GoString

/-- What a read on the transfer socket reports. -/
inductive Event where
  /-- A datagram, and the error of writing a reply to its sender, if one is written. -/
  | packet (sender : AddrPort) (data : GoString) (reply : Option Failure)
  | timeout
  | failed (err : Failure)
deriving DecidableEq

/-- What a transfer does with its socket. -/
inductive Action where
  | sent (dest : AddrPort) (packet : GoString) (err : Option Failure)
  | read (event : Event)
deriving DecidableEq

/-- The results of the calls other than the reads of the socket. -/
structure Env where
  /-- `net.ListenUDP` -/
  listen : Option Failure
  /-- `ctx.Err()` before a block -/
  blockContext : Nat → Option Failure
  /-- `ctx.Err()` before an attempt -/
  context : Nat → Option Failure
  /-- `conn.SetDeadline` -/
  setDeadline : Nat → Option Failure
  /-- `conn.WriteToUDPAddrPort` to the peer -/
  write : Nat → Option Failure
  /-- `conn.SetWriteDeadline` in `sendError` -/
  setWriteDeadline : Option Failure
  /-- `conn.WriteToUDPAddrPort` in `sendError` -/
  writeError : Option Failure

/-- An open file: what `Stat` returns (whether it is regular, and its size), what can be read of it,
and the error of reading each block, if any. -/
structure File where
  stat : Except Failure (Bool × Nat)
  content : GoString
  read : Nat → Option Failure

/-- `fs.FS.Open`; an error is `fs.ErrNotExist` or not. -/
abbrev Files := GoString → Except (Bool × Failure) File

/-- Where a part of a transfer has come to: what it did, the events it has not read, and a value. -/
structure Progress (α : Type) where
  log : List Action
  rest : List Event
  value : α

/-- What was done before comes first. -/
def Progress.after {α : Type} (p : Progress α) (log : List Action) : Progress α :=
  { p with log := log ++ p.log }

/-! ## One packet -/

/-- What ends the inner loop of `exchange`. -/
inductive Reply where
  | acknowledged
  | timeout
  | failed (err : Failure)
  /-- no event is left -/
  | waiting
deriving DecidableEq

/-- The reply to a datagram of another sender. -/
def unknownTransfer : GoString := errorPacket 5 (str "unknown transfer ID")

/-- A datagram of another sender is answered, unless it is an error itself. -/
def answered (response : GoString) : Bool := 2 ≤ response.length && uint16 response ≠ opError

/-- The inner loop of `exchange`. -/
def await (peer : AddrPort) (block : UInt16) : List Event → Progress Reply
  | [] => ⟨[], [], .waiting⟩
  | .timeout :: rest => ⟨[.read .timeout], rest, .timeout⟩
  | .failed err :: rest => ⟨[.read (.failed err)], rest, .failed err⟩
  | .packet sender data reply :: rest =>
    let event := Action.read (.packet sender data reply)
    -- the buffer holds one byte more than a request may have
    let response := data.take (maxRequestSize + 1)
    if sender ≠ peer then
      if answered response then
        match reply with
        | some err => ⟨[event, .sent sender unknownTransfer (some err)], rest, .failed err⟩
        | none => (await peer block rest).after [event, .sent sender unknownTransfer none]
      else (await peer block rest).after [event]
    else if 4 ≤ response.length ∧ uint16 response = opError then
      ⟨[event], rest, .failed (str "client terminated transfer")⟩
    else if response.length = 4 ∧ uint16 response = opAck ∧ uint16 (response.drop 2) = block then
      ⟨[event], rest, .acknowledged⟩
    else (await peer block rest).after [event]

/-- The number of attempts made so far, and what was returned. -/
structure Status where
  attempts : Nat
  result : Option (Except Failure Unit)
deriving DecidableEq

/-- What follows a part that returned no error, from the attempts made and the events left. -/
def Progress.andThen (p : Progress Status) (next : Nat → List Event → Progress Status) :
    Progress Status :=
  match p.value.result with
  | some (.ok ()) => (next p.value.attempts p.rest).after p.log
  | _ => p

/-- `exchange` with `left` attempts left, after `k` attempts of the transfer. -/
def exchange (env : Env) (peer : AddrPort) (packet : GoString) (block : UInt16) :
    (left k : Nat) → List Event → Progress Status
  | 0, k, events => ⟨[], events, k, some (.error (str "TFTP acknowledgement timed out"))⟩
  | left + 1, k, events =>
    match env.context k with
    | some err => ⟨[], events, k, some (.error err)⟩
    | none =>
    match env.setDeadline k with
    | some err => ⟨[], events, k, some (.error err)⟩
    | none =>
    match env.write k with
    | some err => ⟨[.sent peer packet (some err)], events, k + 1, some (.error err)⟩
    | none =>
      let reply := await peer block events
      let log := .sent peer packet none :: reply.log
      match reply.value with
      | .timeout => (exchange env peer packet block left (k + 1) reply.rest).after log
      | .acknowledged => ⟨log, reply.rest, k + 1, some (.ok ())⟩
      | .failed err => ⟨log, reply.rest, k + 1, some (.error err)⟩
      | .waiting => ⟨log, reply.rest, k + 1, none⟩

/-! ## The transfer -/

/-- `Server.sendError`. -/
def sendError (env : Env) (peer : AddrPort) (code : UInt16) (message : GoString) : List Action :=
  match env.setWriteDeadline with
  | some _ => []
  | none => [.sent peer (errorPacket code message) env.writeError]

/-- The block loop of `transfer` from block `i + 1` on, when `data` is still to be sent. The block
number wraps around. -/
def sendBlocks (env : Env) (file : File) (peer : AddrPort) (blockSize : Nat) :
    (rounds i : Nat) → GoString → Nat → List Event → Progress Status
  | 0, _, _, k, events => ⟨[], events, k, none⟩
  | rounds + 1, i, data, k, events =>
    match env.blockContext i with
    | some err => ⟨[], events, k, some (.error err)⟩
    | none =>
    match file.read i with
    | some err => ⟨sendError env peer 0 (str "file read failed"), events, k, some (.error err)⟩
    | none =>
      let block := UInt16.ofNat (i + 1)
      let read := data.take blockSize
      (exchange env peer (dataPacket block read) block maxAttempts k events).andThen fun k events =>
        if read.length < blockSize then ⟨[], events, k, some (.ok ())⟩
        else sendBlocks env file peer blockSize rounds (i + 1) (data.drop blockSize) k events

/-- `Server.transfer`, once the file is open: `io.LimitReader` gives no more than the announced
size. A round of the block loop takes a full block or is the last. -/
def sendFile (env : Env) (file : File) (size : Nat) (peer : AddrPort) (request : ReadRequest)
    (events : List Event) : Progress Status :=
  let data := file.content.take size
  let rounds := data.length / request.blockSize + 1
  match request.optionAck size with
  | none => sendBlocks env file peer request.blockSize rounds 0 data 0 events
  | some packet =>
    (exchange env peer packet 0 maxAttempts 0 events).andThen fun k events =>
      sendBlocks env file peer request.blockSize rounds 0 data k events

/-- `Server.transfer`. -/
def transfer (env : Env) (files : Files) (peer : AddrPort) (request : ReadRequest)
    (events : List Event) : Progress Status :=
  match env.listen with
  | some err => ⟨[], events, 0, some (.error (str "open TFTP transfer socket: " ++ err))⟩
  | none =>
    match files request.filename with
    | .error (notExist, err) =>
      ⟨sendError env peer (if notExist then 1 else 2) (str "file unavailable"), events, 0,
        some (.error err)⟩
    | .ok file =>
      match file.stat with
      | .ok (true, size) => sendFile env file size peer request events
      | _ => ⟨sendError env peer 2 (str "only regular files can be downloaded"), events, 0,
          some (.error (str "TFTP requested a non-regular or unreadable file"))⟩

/-! ## Datagrams of other senders -/

section Strays

variable {env : Env} {file : File} {peer : AddrPort} {packet : GoString} {block : UInt16}
  {events : List Event}

/-- An event that is not a datagram of another sender. -/
def Event.ofPeer (peer : AddrPort) : Event → Bool
  | .packet sender _ _ => sender = peer
  | _ => true

/-- An action that has nothing to do with another sender. -/
def Action.ofPeer (peer : AddrPort) : Action → Bool
  | .sent dest _ _ => dest = peer
  | .read event => event.ofPeer peer

/-- The same progress, with the other senders left out. -/
def Progress.withoutStrays {α : Type} (peer : AddrPort) (p : Progress α) : Progress α :=
  ⟨p.log.filter (·.ofPeer peer), p.rest.filter (·.ofPeer peer), p.value⟩

/-- Not a failed write to another sender. -/
def Action.written (peer : AddrPort) : Action → Bool
  | .sent dest _ (some _) => dest = peer
  | _ => true

/-- Every error reply to another sender is written. -/
def RepliesWritten (peer : AddrPort) (log : List Action) : Prop :=
  log.all (·.written peer) = true

instance (peer : AddrPort) (log : List Action) : Decidable (RepliesWritten peer log) :=
  inferInstanceAs (Decidable (_ = true))

/-- A run that an unwritten reply has ended, while the run without the other senders goes on: it
waits, or has done more. -/
structure Ended {α : Type} (peer : AddrPort) (waits failed : α → Prop) (p p' : Progress α) :
    Prop where
  unwritten : ¬RepliesWritten peer p.log
  failed : failed p.value
  further : waits p'.value ∨ (p.log.filter (·.ofPeer peer)).length < p'.log.length

/-- The run without the other senders is the same, unless an unwritten reply has ended the run. -/
def Compared {α : Type} (peer : AddrPort) (waits failed : α → Prop) (p p' : Progress α) : Prop :=
  (RepliesWritten peer p.log ∧ p' = p.withoutStrays peer) ∨ Ended peer waits failed p p'

@[simp] theorem repliesWritten_nil : RepliesWritten peer [] := rfl

@[simp] theorem repliesWritten_cons {action : Action} {log : List Action} :
    RepliesWritten peer (action :: log) ↔ action.written peer = true ∧ RepliesWritten peer log := by
  simp [RepliesWritten]

theorem repliesWritten_append {log log' : List Action} :
    RepliesWritten peer (log ++ log') ↔ RepliesWritten peer log ∧ RepliesWritten peer log' := by
  simp [RepliesWritten]

@[simp] theorem withoutStrays_after {α : Type} (p : Progress α) (log : List Action) :
    (p.after log).withoutStrays peer =
      (p.withoutStrays peer).after (log.filter (·.ofPeer peer)) := by
  simp [Progress.withoutStrays, Progress.after]

/-- What was done before, with every reply written, comes first in both runs. -/
theorem Compared.after {α : Type} {waits failed : α → Prop} {p p' : Progress α}
    {log log' : List Action} (h : Compared peer waits failed p p') (hlog : RepliesWritten peer log)
    (hlog' : log.filter (·.ofPeer peer) = log') :
    Compared peer waits failed (p.after log) (p'.after log') := by
  subst hlog'
  rcases h with ⟨hwritten, rfl⟩ | h
  · exact .inl ⟨repliesWritten_append.2 ⟨hlog, hwritten⟩, (withoutStrays_after _ _).symm⟩
  · refine .inr ⟨fun hw => h.unwritten (repliesWritten_append.1 hw).2, h.failed,
      h.further.imp id ?_⟩
    intro hlt
    simpa [Progress.after] using hlt

/-- What was done with another sender alone is done in one run only. -/
theorem Compared.skip {α : Type} {waits failed : α → Prop} {p p' : Progress α} {log : List Action}
    (h : Compared peer waits failed p p') (hlog : RepliesWritten peer log)
    (hstray : log.filter (·.ofPeer peer) = []) : Compared peer waits failed (p.after log) p' :=
  h.after hlog hstray

/-- The inner loop waits only when it has read every event. -/
theorem await_reads (events : List Event) :
    (await peer block events).value = .waiting ∨ 0 < (await peer block events).log.length := by
  cases events with
  | nil => exact .inl rfl
  | cons event rest =>
    refine .inr ?_
    cases event with
    | timeout | failed err => exact Nat.one_pos
    | packet sender data reply =>
      simp only [await]
      split_ifs
      · cases reply <;> simp [Progress.after]
      all_goals simp [Progress.after]

/-- The inner loop with and without the other senders. -/
theorem await_compared (events : List Event) :
    Compared peer (· = .waiting) (∃ err, · = .failed err) (await peer block events)
      (await peer block (events.filter (·.ofPeer peer))) := by
  induction events with
  | nil => exact .inl ⟨rfl, rfl⟩
  | cons event rest ih =>
    cases event with
    | timeout | failed err => exact .inl ⟨rfl, rfl⟩
    | packet sender data reply =>
      by_cases hs : sender = peer
      · -- the peer's own datagram is read in both runs
        subst hs
        rw [List.filter_cons_of_pos (by simp [Event.ofPeer])]
        simp only [await, ne_eq, not_true, if_false]
        split_ifs
        · exact .inl ⟨by simp [Action.written],
            by simp [Progress.withoutStrays, Action.ofPeer, Event.ofPeer]⟩
        · exact .inl ⟨by simp [Action.written],
            by simp [Progress.withoutStrays, Action.ofPeer, Event.ofPeer]⟩
        · exact ih.after (by simp [Action.written]) (by simp [Action.ofPeer, Event.ofPeer])
      · -- the other's is read in one run only, which an unwritten reply ends
        rw [List.filter_cons_of_neg (by simp [Event.ofPeer, hs])]
        simp only [await, ne_eq, hs, not_false_eq_true, if_true]
        split_ifs
        · cases reply with
          | none =>
            exact ih.skip (by simp [Action.written]) (by simp [Action.ofPeer, Event.ofPeer, hs])
          | some err =>
            refine .inr ⟨by simp [Action.written, hs], ⟨err, rfl⟩, ?_⟩
            simpa [Action.ofPeer, Event.ofPeer, hs] using await_reads _
        · exact ih.skip (by simp [Action.written]) (by simp [Action.ofPeer, Event.ofPeer, hs])

/-- `Compared` for a part of a transfer. -/
abbrev ComparedStatus (peer : AddrPort) (p p' : Progress Status) : Prop :=
  Compared peer (·.result = none) (∃ err, ·.result = some (.error err)) p p'

/-- An exchange with and without the other senders. -/
theorem exchange_compared (left k : Nat) (events : List Event) :
    ComparedStatus peer (exchange env peer packet block left k events)
      (exchange env peer packet block left k (events.filter (·.ofPeer peer))) := by
  induction left generalizing k events with
  | zero => exact .inl ⟨rfl, rfl⟩
  | succ left ih =>
    have hawait : Compared peer (· = .waiting) (∃ err, · = .failed err) (await peer block events)
      (await peer block (events.filter (·.ofPeer peer))) := await_compared events
    unfold exchange
    cases env.context k with
    | some err => exact .inl ⟨rfl, rfl⟩
    | none =>
    cases env.setDeadline k with
    | some err => exact .inl ⟨rfl, rfl⟩
    | none =>
    cases env.write k with
    | some err =>
      exact .inl ⟨by simp [Action.written], by simp [Progress.withoutStrays, Action.ofPeer]⟩
    | none =>
      rcases hawait with ⟨hwritten, heq⟩ | ⟨hunwritten, ⟨err, hfailed⟩, hfurther⟩
      · have hsent : RepliesWritten peer
            (.sent peer packet none :: (await peer block events).log) :=
          repliesWritten_cons.2 ⟨rfl, hwritten⟩
        simp only [heq]
        cases hvalue : (await peer block events).value with
        | timeout =>
          simp only [Progress.withoutStrays, hvalue]
          exact (ih _ _).after hsent (by simp [Action.ofPeer])
        | acknowledged | failed | waiting =>
          simp only [Progress.withoutStrays, hvalue]
          exact .inl ⟨hsent, by simp [Progress.withoutStrays, Action.ofPeer]⟩
      · simp only [hfailed]
        refine .inr ⟨fun hw => hunwritten (repliesWritten_cons.1 hw).2, ⟨err, rfl⟩, ?_⟩
        rcases hfurther with hwaits | hlt
        · simp [hwaits]
        · refine .inr ?_
          rw [List.filter_cons_of_pos (by simp [Action.ofPeer])]
          cases (await peer block (events.filter (·.ofPeer peer))).value <;>
            simp only [Progress.after, List.length_append, List.length_cons] <;> omega

@[simp] theorem filter_sendError (code : UInt16) (message : GoString) :
    (sendError env peer code message).filter (·.ofPeer peer) = sendError env peer code message := by
  unfold sendError
  split
  · rfl
  · simp [Action.ofPeer]

/-- A part that only tells the peer of an error. -/
theorem sendError_compared (code : UInt16) (message : GoString) (events : List Event)
    (value : Status) :
    ComparedStatus peer ⟨sendError env peer code message, events, value⟩
      ⟨sendError env peer code message, events.filter (·.ofPeer peer), value⟩ := by
  refine .inl ⟨?_, by simp [Progress.withoutStrays]⟩
  unfold sendError
  split
  · rfl
  · cases env.writeError <;> simp [Action.written]

/-- What follows a part starts from the events it left. -/
theorem Compared.andThen {p p' : Progress Status} {next : Nat → List Event → Progress Status}
    (h : ComparedStatus peer p p')
    (hnext : ∀ k events, ComparedStatus peer (next k events)
      (next k (events.filter (·.ofPeer peer)))) :
    ComparedStatus peer (p.andThen next) (p'.andThen next) := by
  obtain ⟨log, rest, attempts, result⟩ := p
  rcases h with ⟨hwritten, rfl⟩ | ⟨hunwritten, ⟨err, hfailed⟩, hfurther⟩
  · match result with
    | some (.ok ()) => exact (hnext attempts rest).after hwritten rfl
    | some (.error err) => exact .inl ⟨hwritten, rfl⟩
    | none => exact .inl ⟨hwritten, rfl⟩
  · cases hfailed
    obtain ⟨log', rest', attempts', result'⟩ := p'
    refine .inr ⟨hunwritten, ⟨err, rfl⟩, ?_⟩
    match result' with
    | none => exact .inl rfl
    | some (.error err') => exact hfurther
    | some (.ok ()) =>
      refine .inr ?_
      have hlt : (log.filter (·.ofPeer peer)).length < log'.length :=
        hfurther.resolve_left (by simp)
      simp only [Progress.andThen, Progress.after, List.length_append]
      omega

/-- The two runs are the same just when every reply is written. -/
theorem Compared.same_iff {p p' : Progress Status} (h : ComparedStatus peer p p') :
    p' = p.withoutStrays peer ↔ RepliesWritten peer p.log := by
  rcases h with ⟨hwritten, heq⟩ | ⟨hunwritten, ⟨err, hfailed⟩, hfurther⟩
  · exact ⟨fun _ => hwritten, fun _ => heq⟩
  · refine ⟨?_, fun hwritten => absurd hwritten hunwritten⟩
    rintro rfl
    rcases hfurther with hwaits | hlt
    · exact absurd (hfailed.symm.trans hwaits) (by simp)
    · exact absurd hlt (Nat.lt_irrefl _)

/-- The block loop with and without the other senders. -/
theorem sendBlocks_compared (blockSize rounds i : Nat) (data : GoString) (k : Nat)
    (events : List Event) :
    ComparedStatus peer (sendBlocks env file peer blockSize rounds i data k events)
      (sendBlocks env file peer blockSize rounds i data k (events.filter (·.ofPeer peer))) := by
  induction rounds generalizing i data k events with
  | zero => exact .inl ⟨rfl, rfl⟩
  | succ rounds ih =>
    unfold sendBlocks
    cases env.blockContext i with
    | some err => exact .inl ⟨rfl, rfl⟩
    | none =>
    cases file.read i with
    | some err => exact sendError_compared _ _ _ _
    | none =>
      refine (exchange_compared _ _ _).andThen fun k events => ?_
      split_ifs
      · exact .inl ⟨rfl, rfl⟩
      · exact ih _ _ _ _

/-- A transfer runs as if nobody but the peer had sent to its socket, unless an unwritten reply has
ended it. -/
theorem transfer_compared (files : Files) (request : ReadRequest) (events : List Event) :
    ComparedStatus peer (transfer env files peer request events)
      (transfer env files peer request (events.filter (·.ofPeer peer))) := by
  unfold transfer
  cases env.listen with
  | some err => exact .inl ⟨rfl, rfl⟩
  | none =>
  match hfile : files request.filename with
  | .error (notExist, err) => exact sendError_compared _ _ _ _
  | .ok file =>
    match hstat : file.stat with
    | .error err | .ok (false, size) =>
      simp only [hstat]
      exact sendError_compared _ _ _ _
    | .ok (true, size) =>
      simp only [hstat, sendFile]
      cases request.optionAck size with
      | none => exact sendBlocks_compared _ _ _ _ _ _
      | some packet =>
        exact (exchange_compared _ _ _).andThen fun k events => sendBlocks_compared _ _ _ _ _ _

end Strays

/-- The packets written to an address, with the errors of the writes. -/
def packetsTo (dest : AddrPort) (log : List Action) : List (GoString × Option Failure) :=
  log.filterMap fun
    | .sent addr packet err => if addr = dest then some (packet, err) else none
    | .read _ => none

theorem packetsTo_filter (peer : AddrPort) (log : List Action) :
    packetsTo peer (log.filter (·.ofPeer peer)) = packetsTo peer log := by
  rw [packetsTo, packetsTo, List.filterMap_filter]
  congr 1
  funext action
  cases action with
  | sent addr packet err => by_cases haddr : addr = peer <;> simp [Action.ofPeer, haddr]
  | read event => simp

/-- If every error reply that is sent to another sender is written, the packets sent to the peer,
the attempts made and the result are those of the transfer in which the others have sent nothing. A
transfer with an unwritten one is over, while the other goes on, so the two runs are the same just
when every reply is written. -/
theorem strays_do_not_interfere (env : Env) (files : Files) (peer : AddrPort)
    (request : ReadRequest) (events : List Event) :
    let run := transfer env files peer request events
    let run' := transfer env files peer request (events.filter (·.ofPeer peer))
    (RepliesWritten peer run.log →
      packetsTo peer run.log = packetsTo peer run'.log ∧ run.value = run'.value) ∧
    (run' = run.withoutStrays peer ↔ RepliesWritten peer run.log) := by
  intro run run'
  have h : ComparedStatus peer run run' := transfer_compared files request events
  refine ⟨fun hwritten => ?_, h.same_iff⟩
  rw [h.same_iff.2 hwritten]
  exact ⟨(packetsTo_filter peer run.log).symm, rfl⟩

/-! A file of three bytes is sent to one client, while another one writes to the transfer's port. -/

def sampleEnv : Env where
  listen := none
  blockContext _ := none
  context _ := none
  setDeadline _ := none
  write _ := none
  setWriteDeadline := none
  writeError := none

def sampleFiles : Files := fun _ => .ok ⟨.ok (true, 3), [1, 2, 3], fun _ => none⟩

def samplePeer : AddrPort := ⟨.v4 0x0A000002, 2000⟩

def sampleRequest : ReadRequest where
  filename := str "snponly.efi"
  blockSize := 512
  timeout := 3 * second
  options := []
  le_blockSize := by decide
  blockSize_le := by decide

/-- The acknowledgement of block 1, from another client and then from the peer. -/
def sampleEvents (reply : Option Failure) : List Event :=
  [.packet ⟨.v4 0x0A000003, 3000⟩ [0, 4, 0, 1] reply, .packet samplePeer [0, 4, 0, 1] none]

theorem strays_do_not_interfere_sample :
    let run := transfer sampleEnv sampleFiles samplePeer sampleRequest (sampleEvents none)
    packetsTo samplePeer run.log = [(dataPacket 1 [1, 2, 3], none)] ∧
      run.value = ⟨1, some (.ok ())⟩ := by
  have h := strays_do_not_interfere sampleEnv sampleFiles samplePeer sampleRequest
    (sampleEvents none)
  have hrun := h.1 (by decide)
  exact ⟨hrun.1.trans (by decide), hrun.2.trans (by decide)⟩

/-- An error reply to another sender that cannot be written ends the transfer of the peer, who has
acknowledged the only block. -/
theorem stray_packet_ends_transfer :
    let events := sampleEvents (some (str "network is unreachable"))
    (transfer sampleEnv sampleFiles samplePeer sampleRequest events).value =
        ⟨1, some (.error (str "network is unreachable"))⟩ ∧
      (transfer sampleEnv sampleFiles samplePeer sampleRequest
        (events.filter (·.ofPeer samplePeer))).value = ⟨1, some (.ok ())⟩ := by
  decide

end InfraBox.Tftp
