import InfraBox.Tftp.Transfer

/-!
# The blocks of a transfer

The log of a transfer falls into the parts in which one packet is outstanding: the option
acknowledgement, if there is one, and then block 1, block 2 and so on of the file. In each part that
packet is the only one sent to the peer, at most five times, and the next part begins with the read
of its acknowledgement (`exchange_outstanding`, `sendBlocks_parts`). A transfer that succeeds has
come to the end of the last block, the first one shorter than the block size.
-/

namespace InfraBox.Tftp

theorem ReadRequest.blockSize_pos (r : ReadRequest) : 0 < r.blockSize :=
  Nat.lt_of_lt_of_le (by decide) r.le_blockSize

/-! ## The file in blocks -/

/-- Block `k` of a file, from 1 on. -/
def blockOf (content : GoString) (blockSize k : Nat) : GoString :=
  (content.drop ((k - 1) * blockSize)).take blockSize

/-- Its DATA packet on the wire. -/
def blockPacket (content : GoString) (blockSize k : Nat) : GoString :=
  [0, 3] ++ numberBytes k ++ blockOf content blockSize k

section
variable {content : GoString} {blockSize : Nat}

theorem length_blockOf (k : Nat) :
    (blockOf content blockSize k).length =
      min blockSize (content.length - (k - 1) * blockSize) := by
  simp [blockOf]

/-- The first block that is not full is the one after the last full one. -/
theorem length_blockOf_lt (hpos : 0 < blockSize) {k : Nat} (hk : 1 ≤ k) :
    (blockOf content blockSize k).length < blockSize ↔ content.length / blockSize < k := by
  obtain ⟨i, rfl⟩ : ∃ i, k = i + 1 := ⟨k - 1, by omega⟩
  have hdiv : content.length / blockSize < i + 1 ↔ content.length < (i + 1) * blockSize :=
    Nat.div_lt_iff_lt_mul hpos
  rw [length_blockOf, hdiv, Nat.add_sub_cancel, Nat.add_mul, Nat.one_mul]
  omega

/-- The blocks make up the file. -/
theorem flatMap_blockOf (hpos : 0 < blockSize) :
    (List.range (content.length / blockSize + 1)).flatMap
      (fun i => blockOf content blockSize (i + 1)) = content := by
  have hfront : ∀ n, (List.range n).flatMap (fun i => blockOf content blockSize (i + 1)) =
      content.take (n * blockSize) := by
    intro n
    induction n with
    | zero => simp
    | succ n ih =>
      rw [List.range_succ, List.flatMap_append, ih, List.flatMap_singleton, blockOf,
        Nat.add_sub_cancel, Nat.add_mul, Nat.one_mul, List.take_add]
  rw [hfront]
  exact List.take_of_length_le (Nat.le_of_lt ((Nat.div_lt_iff_lt_mul hpos).1 (Nat.lt_succ_self _)))

end

/-! ## One packet -/

/-- An acknowledgement of a block by the peer. -/
def Event.Acknowledges (peer : AddrPort) (block : Nat) : Event → Prop
  | .packet sender data _ => sender = peer ∧ data = [0, 4] ++ numberBytes block
  | _ => False

/-- A part of a log in which a packet is outstanding: it is the only one sent to the peer, at most
five times. -/
def Outstanding (peer : AddrPort) (packet : GoString) (log : List Action) : Prop :=
  ∃ n ≤ maxAttempts, (packetsTo peer log).map Prod.fst = List.replicate n packet

/-- A part of a log in which a packet is outstanding until its acknowledgement is read. -/
structure Acknowledged (peer : AddrPort) (packet : GoString) (block : Nat)
    (log : List Action) : Prop where
  outstanding : Outstanding peer packet log
  sent : packetsTo peer log ≠ []
  read : ∃ before event, log = before ++ [.read event] ∧ event.Acknowledges peer block

section
variable {env : Env} {peer : AddrPort} {packet : GoString} {block : Nat} {events : List Event}
  {log log' : List Action}

theorem packetsTo_append :
    packetsTo peer (log ++ log') = packetsTo peer log ++ packetsTo peer log' :=
  List.filterMap_append

theorem packetsTo_sent (err : Option Failure) (log : List Action) :
    packetsTo peer (.sent peer packet err :: log) = (packet, err) :: packetsTo peer log := by
  simp [packetsTo]

/-- Waiting for a reply sends nothing to the peer, and ends with the acknowledgement. -/
theorem await_log (events : List Event) :
    let reply := await peer (UInt16.ofNat block) events
    packetsTo peer reply.log = [] ∧ (reply.value = .acknowledged →
      ∃ before event, reply.log = before ++ [.read event] ∧ event.Acknowledges peer block) := by
  induction events with
  | nil => exact ⟨rfl, fun hack => (by cases hack)⟩
  | cons event rest ih =>
    -- what is read after a datagram that is skipped
    have hskip : ∀ log, packetsTo peer log = [] →
        let reply := (await peer (UInt16.ofNat block) rest).after log
        packetsTo peer reply.log = [] ∧ (reply.value = .acknowledged →
          ∃ before event, reply.log = before ++ [.read event] ∧ event.Acknowledges peer block) := by
      intro log hlog
      refine ⟨by rw [Progress.after, packetsTo_append, hlog, ih.1]; rfl, fun hack => ?_⟩
      obtain ⟨before, event, hbefore, hacks⟩ := ih.2 hack
      exact ⟨log ++ before, event, by simp [Progress.after, hbefore], hacks⟩
    cases event with
    | timeout | failed err => exact ⟨rfl, fun hack => (by cases hack)⟩
    | packet sender data reply =>
      simp only [await]
      split_ifs with hsender hanswered herror hack
      · have hstray : packetsTo peer [.read (.packet sender data reply),
            .sent sender unknownTransfer reply] = [] := by simp [packetsTo, hsender]
        cases reply with
        | some err => exact ⟨hstray, fun hack => (by cases hack)⟩
        | none => exact hskip _ hstray
      · exact hskip _ rfl
      · exact ⟨rfl, fun hack => (by cases hack)⟩
      · have hlen : data.length = 4 := by
          have := hack.1
          simp [maxRequestSize] at this
          omega
        have hdata : data.take (maxRequestSize + 1) = data :=
          List.take_of_length_le (by rw [hlen]; decide)
        rw [hdata] at hack
        exact ⟨rfl, fun _ => ⟨[], _, rfl, not_not.1 hsender, eq_ack hlen hack.2.1 hack.2.2⟩⟩
      · exact hskip _ rfl

/-- What an exchange with `left` attempts does: it sends its packet once for each attempt, and
succeeds with the read of the acknowledgement. -/
structure Exchanged (peer : AddrPort) (packet : GoString) (block : Nat) (left : Nat)
    (p : Progress Status) : Prop where
  packets : ∃ n ≤ left, (packetsTo peer p.log).map Prod.fst = List.replicate n packet
  ok : p.value.result = some (.ok ()) → packetsTo peer p.log ≠ [] ∧
    ∃ before event, p.log = before ++ [.read event] ∧ event.Acknowledges peer block

/-- One more attempt before an exchange. -/
theorem Exchanged.after {left : Nat} {p : Progress Status} (h : Exchanged peer packet block left p)
    (hlog : (packetsTo peer log).map Prod.fst = [packet]) :
    Exchanged peer packet block (left + 1) (p.after log) := by
  obtain ⟨n, hn, hpackets⟩ := h.packets
  refine ⟨⟨n + 1, by omega, ?_⟩, fun hresult => ?_⟩
  · rw [Progress.after, packetsTo_append, List.map_append, hlog, hpackets]
    rfl
  · obtain ⟨-, before, event, hbefore, hevent⟩ := h.ok hresult
    refine ⟨fun hnil => ?_, log ++ before, event, ?_, hevent⟩
    · rw [Progress.after, packetsTo_append, List.append_eq_nil_iff] at hnil
      rw [hnil.1] at hlog
      cases hlog
    · rw [Progress.after, hbefore, List.append_assoc]

/-- All attempts to have a packet acknowledged. -/
theorem exchange_exchanged (left k : Nat) (events : List Event) :
    Exchanged peer packet block left
      (exchange env peer packet (UInt16.ofNat block) left k events) := by
  induction left generalizing k events with
  | zero => exact ⟨⟨0, Nat.le_refl _, rfl⟩, fun hok => (by cases hok)⟩
  | succ left ih =>
    unfold exchange
    cases env.context k with
    | some err => exact ⟨⟨0, Nat.zero_le _, rfl⟩, fun hok => (by cases hok)⟩
    | none =>
    cases env.setDeadline k with
    | some err => exact ⟨⟨0, Nat.zero_le _, rfl⟩, fun hok => (by cases hok)⟩
    | none =>
    cases env.write k with
    | some err => exact ⟨⟨1, Nat.le_add_left _ _, by simp [packetsTo]⟩, fun hok => (by cases hok)⟩
    | none =>
      obtain ⟨hquiet, hacks⟩ := @await_log peer block events
      generalize await peer (UInt16.ofNat block) events = reply at hquiet hacks ⊢
      have hone : (packetsTo peer (.sent peer packet none :: reply.log)).map Prod.fst =
          [packet] := by
        rw [packetsTo_sent, hquiet]
        rfl
      dsimp only
      cases hreply : reply.value with
      | timeout => exact (ih (k + 1) _).after hone
      | acknowledged =>
        obtain ⟨before, event, hbefore, hevent⟩ := hacks hreply
        refine ⟨⟨1, by omega, hone⟩, fun _ => ⟨fun hnil => ?_, .sent peer packet none :: before,
          event, ?_, hevent⟩⟩
        · rw [hnil] at hone
          cases hone
        · rw [hbefore, List.cons_append]
      | failed err | waiting => exact ⟨⟨1, by omega, hone⟩, fun hok => (by cases hok)⟩

theorem Exchanged.acknowledged {p : Progress Status}
    (h : Exchanged peer packet block maxAttempts p) (hok : p.value.result = some (.ok ())) :
    Acknowledged peer packet block p.log :=
  ⟨h.packets, (h.ok hok).1, (h.ok hok).2⟩

end

/-! ## The block loop -/

/-- The last part of the log of a block loop after `k` acknowledged blocks: the next block is
outstanding, or its read has failed and the peer is told so. -/
def LastPart (peer : AddrPort) (content : GoString) (blockSize k : Nat) (log : List Action) :
    Prop :=
  log = [] ∨ k ≤ content.length / blockSize ∧
    (Outstanding peer (blockPacket content blockSize (k + 1)) log ∨
      ∃ err, log = [.sent peer ([0, 5, 0, 0] ++ str "file read failed" ++ [0]) err])

/-- The log of a block loop after `i` blocks: a part for each block that is acknowledged, in order,
and the last part. A loop that succeeds has come to the end of the file. -/
def InBlocks (peer : AddrPort) (content : GoString) (blockSize i : Nat)
    (run : Progress Status) : Prop :=
  ∃ (parts : List (List Action)) (last : List Action), run.log = parts.flatten ++ last ∧
    (∀ part k, (part, k) ∈ parts.zipIdx (i + 1) →
      Acknowledged peer (blockPacket content blockSize k) k part) ∧
    LastPart peer content blockSize (i + parts.length) last ∧
    (run.value.result = some (.ok ()) →
      i + parts.length = content.length / blockSize + 1 ∧ last = [])

section
variable {env : Env} {file : File} {peer : AddrPort} {content : GoString} {blockSize i : Nat}
  {run : Progress Status} {log : List Action}

/-- A loop that stops in a block. -/
theorem InBlocks.stopped (hlast : LastPart peer content blockSize i run.log)
    (hresult : run.value.result ≠ some (.ok ())) : InBlocks peer content blockSize i run :=
  ⟨[], run.log, rfl, by simp, hlast, fun hok => absurd hok hresult⟩

/-- A loop that goes on after an acknowledged block. -/
theorem InBlocks.after (h : InBlocks peer content blockSize (i + 1) run)
    (hpart : Acknowledged peer (blockPacket content blockSize (i + 1)) (i + 1) log) :
    InBlocks peer content blockSize i (run.after log) := by
  obtain ⟨parts, last, hlog, hparts, hlast, hok⟩ := h
  have hlen : i + (log :: parts).length = i + 1 + parts.length := by rw [List.length_cons]; omega
  refine ⟨log :: parts, last, ?_, ?_, ?_, ?_⟩
  · rw [Progress.after, hlog, List.flatten_cons, List.append_assoc]
  · intro part k hmem
    rw [List.zipIdx_cons] at hmem
    rcases List.mem_cons.1 hmem with heq | hmem
    · cases heq
      exact hpart
    · exact hparts part k hmem
  · rwa [hlen]
  · rwa [hlen]

theorem lastPart_sendError {k : Nat} (hk : k ≤ content.length / blockSize) :
    LastPart peer content blockSize k (sendError env peer 0 (str "file read failed")) := by
  unfold sendError
  cases env.setWriteDeadline with
  | some err => exact .inl rfl
  | none => exact .inr ⟨hk, .inr ⟨env.writeError, rfl⟩⟩

/-- The log of the block loop from block `i + 1` on. -/
theorem sendBlocks_inBlocks (hpos : 0 < blockSize) {rounds : Nat}
    (hrounds : i + rounds = content.length / blockSize + 1) (k : Nat) (events : List Event) :
    InBlocks peer content blockSize i
      (sendBlocks env file peer blockSize rounds i (content.drop (i * blockSize)) k events) := by
  induction rounds generalizing i k events with
  | zero => exact .stopped (.inl rfl) fun hok => (by cases hok)
  | succ rounds ih =>
    have hi : i ≤ content.length / blockSize := by omega
    unfold sendBlocks
    cases env.blockContext i with
    | some err => exact .stopped (.inl rfl) fun hok => (by cases hok)
    | none =>
    cases file.read i with
    | some err => exact .stopped (lastPart_sendError hi) fun hok => (by cases hok)
    | none =>
      have hblock : (content.drop (i * blockSize)).take blockSize =
          blockOf content blockSize (i + 1) := by rw [blockOf, Nat.add_sub_cancel]
      have hdrop : (content.drop (i * blockSize)).drop blockSize =
          content.drop ((i + 1) * blockSize) := by
        rw [List.drop_drop, Nat.add_mul, Nat.one_mul]
      dsimp only
      rw [hblock, hdrop, dataPacket_eq, ← blockPacket]
      have hsent : Exchanged peer (blockPacket content blockSize (i + 1)) (i + 1) maxAttempts
          (exchange env peer (blockPacket content blockSize (i + 1)) (UInt16.ofNat (i + 1))
            maxAttempts k events) := exchange_exchanged _ _ _
      generalize exchange env peer (blockPacket content blockSize (i + 1)) _ _ k events = sent
        at hsent ⊢
      obtain ⟨log, rest, attempts, result⟩ := sent
      rcases result with _ | err | _
      · exact .stopped (.inr ⟨hi, .inl hsent.packets⟩) fun hok => (by cases hok)
      · exact .stopped (.inr ⟨hi, .inl hsent.packets⟩) fun hok => (by cases hok)
      · have hacked := hsent.acknowledged rfl
        refine InBlocks.after ?_ hacked
        dsimp only
        split_ifs with hshort
        · -- the block was the last one
          rw [length_blockOf_lt hpos (Nat.le_add_left _ _)] at hshort
          exact ⟨[], [], rfl, by simp, .inl rfl, fun _ => ⟨by simp; omega, rfl⟩⟩
        · exact ih (by omega) _ _

/-- The log of a transfer: the option acknowledgement, if options were accepted, is outstanding
until it is acknowledged, and the blocks follow. -/
def InParts (peer : AddrPort) (content : GoString) (blockSize : Nat)
    (optionAck : Option GoString) (run : Progress Status) : Prop :=
  match optionAck with
  | none => InBlocks peer content blockSize 0 run
  | some packet =>
    (Outstanding peer packet run.log ∧ run.value.result ≠ some (.ok ())) ∨
    ∃ log blocks, Acknowledged peer packet 0 log ∧ InBlocks peer content blockSize 0 blocks ∧
      run = blocks.after log

/-- The whole transfer, with the option acknowledgement first. -/
theorem sendFile_inParts (request : ReadRequest) (size : Nat) (events : List Event) :
    InParts peer (file.content.take size) request.blockSize (optionBytes request.options size)
      (sendFile env file size peer request events) := by
  have hpos := request.blockSize_pos
  have hblocks : ∀ k events, InBlocks peer (file.content.take size) request.blockSize 0
      (sendBlocks env file peer request.blockSize
        ((file.content.take size).length / request.blockSize + 1) 0 (file.content.take size) k
        events) := by
    intro k events
    have h := @sendBlocks_inBlocks env file peer (file.content.take size) request.blockSize 0 hpos
      ((file.content.take size).length / request.blockSize + 1) (Nat.zero_add _) k events
    rwa [Nat.zero_mul, List.drop_zero] at h
  unfold sendFile InParts
  rw [request.optionAck_eq]
  cases optionBytes request.options size with
  | none => exact hblocks 0 events
  | some packet =>
    have hsent : Exchanged peer packet 0 maxAttempts
      (exchange env peer packet 0 maxAttempts 0 events) := exchange_exchanged _ _ _
    dsimp only
    generalize exchange env peer packet 0 maxAttempts 0 events = sent at hsent ⊢
    obtain ⟨log, rest, attempts, result⟩ := sent
    match result with
    | none | some (.error err) => exact .inl ⟨hsent.packets, fun hok => (by cases hok)⟩
    | some (.ok ()) => exact .inr ⟨log, _, hsent.acknowledged rfl, hblocks attempts rest, rfl⟩

end

/-! ## Waiting -/

section
variable {env : Env} {file : File} {peer : AddrPort} {packet : GoString} {block : UInt16}
  {events : List Event}

/-- A wait ends with the events only. -/
theorem await_waiting (h : (await peer block events).value = .waiting) :
    (await peer block events).rest = [] := by
  induction events with
  | nil => rfl
  | cons event rest ih =>
    cases event with
    | timeout => cases h
    | failed err => cases h
    | packet sender data reply =>
      simp only [await] at h ⊢
      split_ifs at h ⊢
      · cases reply with
        | some err => cases h
        | none => exact ih h
      · exact ih h
      · exact ih h

/-- So does an exchange. -/
theorem exchange_waiting {left k : Nat}
    (h : (exchange env peer packet block left k events).value.result = none) :
    (exchange env peer packet block left k events).rest = [] := by
  induction left generalizing k events with
  | zero => cases h
  | succ left ih =>
    unfold exchange at h ⊢
    cases hcontext : env.context k with
    | some err => simp [hcontext] at h
    | none =>
    cases hdeadline : env.setDeadline k with
    | some err => simp [hcontext, hdeadline] at h
    | none =>
    cases hwrite : env.write k with
    | some err => simp [hcontext, hdeadline, hwrite] at h
    | none =>
      simp only [hcontext, hdeadline, hwrite] at h ⊢
      cases hreply : (await peer block events).value with
      | timeout =>
        rw [hreply] at h
        exact ih h
      | acknowledged | failed err => rw [hreply] at h; cases h
      | waiting => exact await_waiting hreply

/-- What follows an exchange waits only if the exchange or the rest does. -/
theorem andThen_waiting {p : Progress Status} {next : Nat → List Event → Progress Status}
    (hp : p.value.result = none → p.rest = [])
    (hnext : ∀ k events, (next k events).value.result = none → (next k events).rest = [])
    (h : (p.andThen next).value.result = none) : (p.andThen next).rest = [] := by
  obtain ⟨log, rest, attempts, result⟩ := p
  match result with
  | none => exact hp rfl
  | some (.error err) => cases h
  | some (.ok ()) => exact hnext attempts rest h

/-- The rounds of the block loop are enough for the data. -/
theorem sendBlocks_waiting {blockSize rounds i k : Nat} {data : GoString} (hpos : 0 < blockSize)
    (hrounds : data.length / blockSize < rounds)
    (h : (sendBlocks env file peer blockSize rounds i data k events).value.result = none) :
    (sendBlocks env file peer blockSize rounds i data k events).rest = [] := by
  induction rounds generalizing i data k events with
  | zero => exact absurd hrounds (Nat.not_lt_zero _)
  | succ rounds ih =>
    unfold sendBlocks at h ⊢
    cases hcontext : env.blockContext i with
    | some err => simp [hcontext] at h
    | none =>
    cases hread : file.read i with
    | some err => simp [hcontext, hread] at h
    | none =>
      simp only [hcontext, hread] at h ⊢
      refine andThen_waiting exchange_waiting (fun k events hnext => ?_) h
      split_ifs at hnext ⊢ with hshort
      refine ih ?_ hnext
      have hlen : blockSize ≤ data.length := by simp at hshort; omega
      have hdiv : data.length / blockSize = (data.length - blockSize) / blockSize + 1 :=
        Nat.div_eq_sub_div hpos hlen
      rw [List.length_drop]
      omega

/-- A transfer that has not returned has read every event there was. -/
theorem transfer_waiting {files : Files} {request : ReadRequest}
    (h : (transfer env files peer request events).value.result = none) :
    (transfer env files peer request events).rest = [] := by
  have hpos := request.blockSize_pos
  unfold transfer at h ⊢
  cases hlisten : env.listen with
  | some err => simp [hlisten] at h
  | none =>
  match hopen : files request.filename with
  | .error (notExist, err) => simp [hlisten, hopen] at h
  | .ok file =>
    match hstat : file.stat with
    | .error err | .ok (false, size) => simp [hlisten, hopen, hstat] at h
    | .ok (true, size) =>
      simp only [hlisten, hopen, hstat, sendFile] at h ⊢
      cases hack : request.optionAck size with
      | none =>
        simp only [hack] at h
        exact sendBlocks_waiting hpos (Nat.lt_succ_self _) h
      | some packet =>
        simp only [hack] at h
        exact andThen_waiting exchange_waiting
          (fun k events => sendBlocks_waiting hpos (Nat.lt_succ_self _)) h

end

/-- A transfer sends exactly the file: its log is, after the exchange of the option acknowledgement,
one part for each of the blocks 1, 2 and so on, in which the bytes of that block's packet are all
that is sent to the peer, at most five times, and which another part follows only after the read of
its acknowledgement. It succeeds only when all blocks are acknowledged, and these make up the file.
-/
theorem transfer_sends_file (fold : Folding) (packet : GoString) (request : ReadRequest)
    (hrequest : parseRequest fold packet = .ok request) (env : Env) (files : Files) (file : File)
    (size : Nat) (hopen : files request.filename = .ok file) (hstat : file.stat = .ok (true, size))
    (peer : AddrPort) (events : List Event) :
    let content := file.content.take size
    let blockSize := request.blockSize
    Negotiated fold packet request ∧
    InParts peer content blockSize (optionBytes request.options size)
      (transfer env files peer request events) ∧
    (List.range (content.length / blockSize + 1)).flatMap
      (fun i => blockOf content blockSize (i + 1)) = content ∧
    ∀ k, 1 ≤ k → ((blockOf content blockSize k).length < blockSize ↔
      content.length / blockSize < k) := by
  have hpos := request.blockSize_pos
  refine ⟨parseRequest_negotiated hrequest, ?_, flatMap_blockOf hpos, fun k hk =>
    length_blockOf_lt hpos hk⟩
  cases hlisten : env.listen with
  | some err =>
    -- no socket: nothing is sent
    simp only [transfer, hlisten, InParts]
    cases optionBytes request.options size with
    | none => exact .stopped (.inl rfl) fun hok => (by cases hok)
    | some packet => exact .inl ⟨⟨0, Nat.zero_le _, rfl⟩, fun hok => (by cases hok)⟩
  | none =>
    simp only [transfer, hlisten, hopen, hstat]
    exact sendFile_inParts request size events

/-! A file of three bytes is asked for in blocks of eight; the first DATA packet is sent twice. -/

def sampleBlksizeRRQ : GoString := sampleRRQ ++ str "blksize" ++ [0] ++ str "8" ++ [0]

def sampleBlksizeRequest : ReadRequest where
  filename := str "a"
  blockSize := 8
  timeout := defaultTimeout
  options := [(str "blksize", str "8")]
  le_blockSize := Nat.le_refl 8
  blockSize_le := by decide

def sampleAcks : List Event :=
  [.packet samplePeer [0, 4, 0, 0] none, .timeout, .packet samplePeer [0, 4, 0, 1] none]

/-- Three bytes in blocks of eight. -/
theorem transfer_sends_file_sample :
    let run := transfer sampleEnv sampleFiles samplePeer sampleBlksizeRequest sampleAcks
    run.value = ⟨3, some (.ok ())⟩ ∧
    Negotiated sampleFolding sampleBlksizeRRQ sampleBlksizeRequest ∧
    InParts samplePeer [1, 2, 3] 8 (some ([0, 6] ++ str "blksize" ++ [0] ++ str "8" ++ [0]))
      run := by
  have h := transfer_sends_file sampleFolding sampleBlksizeRRQ sampleBlksizeRequest rfl sampleEnv
    sampleFiles ⟨.ok (true, 3), [1, 2, 3], fun _ => none⟩ 3 rfl rfl samplePeer sampleAcks
  exact ⟨by decide, h.1, h.2.1⟩

end InfraBox.Tftp
