import InfraBox.Lib.Run
import InfraBox.Lib.Tally
import InfraBox.Tftp.Transfer

/-!
# The request listener

`Server.Serve` of `internal/tftpserver/server.go`. The receive loop and the cleanup of each transfer
change the two maps under one lock, so a run is a sequence of those critical sections in any order.
Which transfers run is read off what happened: a transfer runs from the answer that starts it to its
cleanup (`running`). The maps are kept in step with the running transfers (`Serving.Inv`), which is
what the two limits rest on.
-/

namespace InfraBox.Tftp

def maxTransfers : Nat := 64
def maxClientTransfers : Int := 4

def AddrPort.rank (p : AddrPort) : Addr ×ₗ ℕ := toLex (p.addr, p.port.toNat)

theorem AddrPort.rank_injective : Function.Injective AddrPort.rank := by
  rintro ⟨a, p⟩ ⟨b, q⟩ h
  obtain ⟨haddr, hport⟩ := Prod.mk.inj (toLex.injective h)
  cases haddr
  cases UInt16.toNat_inj.1 hport
  rfl

instance instLinearOrderAddrPort : LinearOrder AddrPort :=
  LinearOrder.lift' AddrPort.rank AddrPort.rank_injective

/-- `active` and `clients`. -/
structure Serving where
  active : FinMap AddrPort Bool
  clients : FinMap Addr Int

def Serving.initial : Serving := ⟨.empty, .empty⟩

/-- What becomes of a datagram. -/
inductive Answer where
  | ignored
  | refused (err : ProtocolError)
  /-- the error for want of capacity -/
  | tooMany
  | started (request : ReadRequest)

/-- The section of the receive loop that admits a request. -/
def Serving.admit (st : Serving) (peer : AddrPort) (request : ReadRequest) : Answer × Serving :=
  -- the transfer that runs answers a repeated request by itself
  if st.active.get peer = some true then (.ignored, st)
  else if st.active.size ≥ maxTransfers ∨ st.clients.count peer.addr ≥ maxClientTransfers then
    (.tooMany, st)
  else (.started request, ⟨st.active.set peer true, st.clients.increment peer.addr⟩)

/-- One round of the receive loop. -/
def Serving.receive (fold : Folding) (st : Serving) (peer : AddrPort) (data : GoString) :
    Answer × Serving :=
  -- the buffer holds one byte more than a request may have
  let packet := data.take (maxRequestSize + 1)
  if packet.length < 2 then (.ignored, st)
  else if uint16 packet = opError then (.ignored, st)
  else if uint16 packet = opWrite then (.refused ⟨2, str "TFTP is read-only"⟩, st)
  else if uint16 packet ≠ opRead then (.refused ⟨4, str "expected read request"⟩, st)
  else
    match parseRequest fold packet with
    | .error err => (.refused err, st)
    | .ok request => st.admit peer request

/-- The cleanup of a transfer. -/
def Serving.finish (st : Serving) (peer : AddrPort) : Serving :=
  ⟨st.active.erase peer, st.clients.decrement peer.addr⟩

/-- What happens at the listener: a datagram is answered, or a transfer comes to its end. -/
inductive ServeEvent where
  | received (peer : AddrPort) (data : GoString) (answer : Answer)
  | finished (peer : AddrPort)

/-- The critical section of each event. -/
inductive ServeStep (fold : Folding) : Serving → ServeEvent → Serving → Prop
  | received {st st' : Serving} {peer : AddrPort} {data : GoString} {answer : Answer} :
      st.receive fold peer data = (answer, st') →
      ServeStep fold st (.received peer data answer) st'
  | finished {st : Serving} {peer : AddrPort} :
      ServeStep fold st (.finished peer) (st.finish peer)

/-! ## The transfers that run -/

/-- The transfers that run after an event, given those that ran before. -/
def ServeEvent.workers (workers : List AddrPort) : ServeEvent → List AddrPort
  | .received peer _ (.started _) => peer :: workers
  | .finished peer => workers.erase peer
  | _ => workers

/-- The peers of the transfers that were started in a run and have not come to their end. -/
def running (tr : Trace Serving ServeEvent) : List AddrPort :=
  tr.foldl (fun workers t => t.label.workers workers) []

/-- What comes to its end is a transfer that runs. -/
def EndsRunning (tr : Trace Serving ServeEvent) : Prop :=
  ∀ before t after peer, tr = before ++ t :: after → t.label = .finished peer →
    peer ∈ running before

theorem EndsRunning.of_append {tr tr' : Trace Serving ServeEvent}
    (h : EndsRunning (tr ++ tr')) : EndsRunning tr := by
  rintro before t after peer rfl hlabel
  exact h before t (after ++ tr') peer (by simp) hlabel

/-! ## The maps and the transfers -/

/-- The maps say which transfers run, and the limits are kept. -/
structure Serving.Inv (workers : List AddrPort) (st : Serving) : Prop where
  nodup : workers.Nodup
  active : ∀ p, st.active.get p = if p ∈ workers then some true else none
  clients : Tallies AddrPort.addr workers st.clients
  total : workers.length ≤ maxTransfers
  perClient : ∀ a, (countBy AddrPort.addr workers a : Int) ≤ maxClientTransfers

section
variable {st st' : Serving} {fold : Folding} {peer : AddrPort} {data : GoString} {answer : Answer}
  {request : ReadRequest} {workers : List AddrPort} {tr : Trace Serving ServeEvent}

theorem Serving.inv_initial : Serving.initial.Inv [] where
  nodup := .nil
  active p := rfl
  clients _ := rfl
  total := by decide
  perClient a := by simp [maxClientTransfers]

/-- The keys of `active` are the peers of the running transfers. -/
theorem Serving.Inv.keys_perm (h : st.Inv workers) : st.active.keys.Perm workers := by
  refine (List.perm_ext_iff_of_nodup st.active.sorted.nodup h.nodup).2 fun p => ?_
  rw [st.active.mem_keys, h.active p]
  split_ifs with hp <;> simp [hp]

theorem Serving.Inv.size_eq (h : st.Inv workers) : st.active.size = workers.length :=
  h.keys_perm.length_eq

/-- What admitting a request can do. -/
theorem Serving.admit_cases (h : st.admit peer request = (answer, st')) :
    (st' = st ∧ (answer = .ignored ∨
      answer = .tooMany ∧ (st.active.size ≥ maxTransfers ∨
        st.clients.count peer.addr ≥ maxClientTransfers))) ∨
    (answer = .started request ∧ st.active.get peer ≠ some true ∧
      st.active.size < maxTransfers ∧ st.clients.count peer.addr < maxClientTransfers ∧
      st' = ⟨st.active.set peer true, st.clients.increment peer.addr⟩) := by
  unfold Serving.admit at h
  split_ifs at h with hactive hfull
  · cases h
    exact .inl ⟨rfl, .inl rfl⟩
  · cases h
    exact .inl ⟨rfl, .inr ⟨rfl, hfull⟩⟩
  · cases h
    rw [not_or, Nat.not_le, Int.not_le] at hfull
    exact .inr ⟨rfl, hactive, hfull.1, hfull.2, rfl⟩

/-- A datagram changes the maps only where a request is admitted. -/
theorem Serving.receive_cases (h : st.receive fold peer data = (answer, st')) :
    (st' = st ∧ answer ≠ .tooMany ∧ ∀ request, answer ≠ .started request) ∨
      ∃ request, st.admit peer request = (answer, st') := by
  unfold Serving.receive at h
  dsimp only at h
  split_ifs at h
  case neg =>
    split at h
    · cases h
      exact .inl ⟨rfl, nofun, nofun⟩
    · exact .inr ⟨_, h⟩
  all_goals
    cases h
    exact .inl ⟨rfl, nofun, nofun⟩

/-- An admitted transfer is counted in both maps, within the limits. -/
theorem Serving.Inv.start (h : st.Inv workers) (hactive : st.active.get peer ≠ some true)
    (htotal : st.active.size < maxTransfers)
    (hclient : st.clients.count peer.addr < maxClientTransfers) :
    Serving.Inv (peer :: workers) ⟨st.active.set peer true, st.clients.increment peer.addr⟩ := by
  have hnew : peer ∉ workers := by
    intro hmem
    rw [h.active, if_pos hmem] at hactive
    exact hactive rfl
  refine ⟨List.nodup_cons.2 ⟨hnew, h.nodup⟩, fun p => ?_, h.clients.increment peer, ?_, fun a => ?_⟩
  · rw [FinMap.get_set, h.active]
    by_cases hp : p = peer
    · simp [hp]
    · simp [hp]
  · rw [h.size_eq] at htotal
    exact htotal
  · rw [h.clients.count_eq] at hclient
    have ha := h.perClient a
    rw [countBy_cons]
    split_ifs with heq
    · subst heq
      push_cast
      omega
    · exact ha

/-- The cleanup of a running transfer takes it out of both maps. -/
theorem Serving.Inv.finish (h : st.Inv workers) (hmem : peer ∈ workers) :
    (st.finish peer).Inv (workers.erase peer) := by
  refine ⟨h.nodup.erase peer, fun p => ?_, h.clients.decrement hmem, ?_, fun a => ?_⟩
  · simp only [Serving.finish, FinMap.get_erase, h.active, h.nodup.mem_erase_iff]
    by_cases hp : p = peer
    · simp [hp]
    · simp [hp]
  · exact (List.length_erase_le).trans h.total
  · have ha := h.perClient a
    rw [countBy_perm _ (List.perm_cons_erase hmem), countBy_cons] at ha
    omega

/-- Every event keeps the maps in step with the transfers. -/
theorem Serving.Inv.step (h : st.Inv workers) {e : ServeEvent} (hs : ServeStep fold st e st')
    (hends : ∀ peer, e = .finished peer → peer ∈ workers) : st'.Inv (e.workers workers) := by
  cases hs with
  | @received _ peer data answer hreceive =>
    rcases Serving.receive_cases hreceive with ⟨rfl, -, hnot⟩ | ⟨request, hadmit⟩
    · cases answer with
      | started request => exact absurd rfl (hnot request)
      | _ => exact h
    · rcases Serving.admit_cases hadmit with ⟨rfl, rfl | ⟨rfl, -⟩⟩ |
        ⟨rfl, hactive, htotal, hclient, rfl⟩
      · exact h
      · exact h
      · exact h.start hactive htotal hclient
  | finished => exact h.finish (hends _ rfl)

/-- So they are at every point of a run. -/
theorem Serving.inv_of_run (hrun : Run (ServeStep fold) .initial tr st) (hends : EndsRunning tr) :
    st.Inv (running tr) := by
  refine hrun.induction (P := fun tr st => EndsRunning tr → st.Inv (running tr))
    (fun _ => Serving.inv_initial) (fun tr st e st' _ ih hs hends => ?_) hends
  rw [running, List.foldl_append]
  exact (ih hends.of_append).step hs fun peer he => hends tr _ [] peer rfl he

/-- A request is refused for want of capacity where one of the limits is reached. -/
theorem Serving.Inv.tooMany (h : st.Inv workers)
    (hs : ServeStep fold st (.received peer data .tooMany) st') :
    maxTransfers ≤ workers.length ∨
      maxClientTransfers ≤ countBy AddrPort.addr workers peer.addr := by
  cases hs with
  | received hreceive =>
    rcases Serving.receive_cases hreceive with ⟨-, hne, -⟩ | ⟨request, hadmit⟩
    · exact absurd rfl hne
    · rcases Serving.admit_cases hadmit with ⟨-, hignored | ⟨-, hfull⟩⟩ | ⟨hstarted, -⟩
      · cases hignored
      · rwa [h.size_eq, h.clients.count_eq] at hfull
      · cases hstarted

end

/-- Along every run of the listener, in which transfers end once and after they were started:
`clients` holds the number of active peers of each address and no zero, the active peers are those
of the transfers that run, no peer has two, and a request is refused only where a limit is reached.
-/
theorem transfer_accounting {fold : Folding} {tr : Trace Serving ServeEvent}
    {st : Serving} (hrun : Run (ServeStep fold) Serving.initial tr st) (hends : EndsRunning tr) :
    (∀ a n, st.clients.get a = some n ↔
      n = countBy AddrPort.addr st.active.keys a ∧ n ≠ 0) ∧
    st.active.keys.Perm (running tr) ∧ (running tr).Nodup ∧ (running tr).length ≤ 64 ∧
    (∀ a, countBy AddrPort.addr (running tr) a ≤ 4) ∧
    ∀ before t after peer data, tr = before ++ t :: after → t.label = .received peer data .tooMany →
      64 ≤ (running before).length ∨ 4 ≤ countBy AddrPort.addr (running before) peer.addr := by
  have hinv := Serving.inv_of_run hrun hends
  refine ⟨fun a n => ?_, hinv.keys_perm, hinv.nodup, hinv.total, fun a => ?_, ?_⟩
  · rw [countBy_perm _ hinv.keys_perm]
    exact hinv.clients.get_eq_some
  · exact Int.ofNat_le.1 (hinv.perClient a)
  · rintro before t after peer data rfl hlabel
    obtain ⟨hbefore, hstep, -⟩ := hrun.mid_inv
    rw [hlabel] at hstep
    exact ((Serving.inv_of_run hbefore hends.of_append).tooMany hstep).imp id Int.ofNat_le.1

/-! A client asks for a file from four ports, and then from a fifth. -/

def sampleClient (port : UInt16) : AddrPort := ⟨.v4 0x0A000002, port⟩

def sampleServing : Nat → Serving
  | 0 => .initial
  | n + 1 => ((sampleServing n).receive sampleFolding (sampleClient (.ofNat n)) sampleRRQ).2

/-- The requests from the first ports. -/
def sampleRequests : Nat → Trace Serving ServeEvent
  | 0 => []
  | n + 1 => sampleRequests n ++ [⟨sampleServing n, .received (sampleClient (.ofNat n)) sampleRRQ
      ((sampleServing n).receive sampleFolding (sampleClient (.ofNat n)) sampleRRQ).1,
    sampleServing (n + 1)⟩]

theorem sampleRequests_run (n : Nat) :
    Run (ServeStep sampleFolding) .initial (sampleRequests n) (sampleServing n) := by
  induction n with
  | zero => exact .nil _
  | succ n ih => exact ih.append (.cons (.received rfl) (.nil _))

/-- No transfer ends here. -/
theorem sampleRequests_ends (n : Nat) : EndsRunning (sampleRequests n) := by
  have hreceived : ∀ t ∈ sampleRequests n, ∀ peer, t.label ≠ .finished peer := by
    induction n with
    | zero => exact fun _ ht => (by cases ht)
    | succ n ih =>
      intro t ht peer
      rcases List.mem_append.1 ht with ht | ht
      · exact ih t ht peer
      · rw [List.mem_singleton.1 ht]
        exact fun h => (by cases h)
  intro before t after peer heq hlabel
  exact absurd hlabel (hreceived t (heq ▸ List.mem_append_right _ (.head _)) peer)

/-- The fifth request is refused, since four transfers of the client run. -/
theorem transfer_accounting_sample :
    running (sampleRequests 4) = [sampleClient 3, sampleClient 2, sampleClient 1, sampleClient 0] ∧
    (sampleServing 4).receive sampleFolding (sampleClient 4) sampleRRQ =
      (.tooMany, sampleServing 4) ∧
    (64 ≤ (running (sampleRequests 4)).length ∨
      4 ≤ countBy AddrPort.addr (running (sampleRequests 4)) (.v4 0x0A000002)) :=
  ⟨rfl, rfl, (transfer_accounting (sampleRequests_run 5) (sampleRequests_ends 5)).2.2.2.2.2
    (sampleRequests 4) _ [] (sampleClient 4) sampleRRQ rfl rfl⟩

end InfraBox.Tftp
