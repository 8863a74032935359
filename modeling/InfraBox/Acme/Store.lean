import InfraBox.Acme.Types
import InfraBox.Lease.Hostname

/-!
# The ACME server: its store

`internal/acmeserver/store.go`: the check of a loaded snapshot, pruning, the commit of a snapshot
and the start of a server. A handler runs under the server's lock and commits at most once, so it
is described by an `Action`: an answer without a commit, or the snapshot to commit and the answer
once it is committed. `Server.perform` carries an action out, for every way the commit can end.
-/

namespace InfraBox.Acme

/-! ## Checks -/

/-- The characters of an identifier. -/
def idRune (c : Nat) : Bool :=
  ('a'.toNat ≤ c && c ≤ 'z'.toNat) || ('A'.toNat ≤ c && c ≤ 'Z'.toNat) ||
    ('0'.toNat ≤ c && c ≤ '9'.toNat) || c = '-'.toNat || c = '_'.toNat

/-- `validID`. -/
def validID (id : GoString) : Bool := id.length = 32 && (runes id).all idRune

/-- Random identifiers are valid. -/
theorem validID_base64Encode {data : GoString} (h : data.length = 24) :
    validID (base64Encode data) = true := by
  have hchar : ∀ b ∈ base64Alphabet, idRune b.toNat = true ∧ b < 0x80 := by decide +kernel
  have hmem := mem_base64Encode (s := data)
  have hruns : runes (base64Encode data) = (base64Encode data).map UInt8.toNat :=
    runes_of_ascii fun b hb => (hchar b (hmem b hb)).2
  have hlen : (base64Encode data).length = 4 * 8 := length_base64Encode h
  simp only [validID, hlen, hruns, List.all_map, Bool.and_eq_true, List.all_eq_true]
  exact ⟨by decide, fun b hb => (hchar b (hmem b hb)).1⟩

theorem validID_ne_nil {id : GoString} (h : validID id = true) : id ≠ [] := by
  rintro rfl
  revert h
  decide

/-- `Server.allowedName`. -/
def Config.allowedName (cfg : Config) (name : GoString) : Bool :=
  !((runes name).any fun c => 127 < c) && dot ∈ name &&
    name = trimSuffix (normalizeHostname name cfg.domain) [dot] &&
    name ≠ str "gateway." ++ cfg.domain && name ≠ str "ns." ++ cfg.domain

/-- `validRevocationReason`. -/
def validRevocationReason (reason : Int) : Bool :=
  (0 ≤ reason && reason ≤ 6) || reason = 9 || reason = 10

/-! ## `validateState` -/

section
variable (cfg : Config) (crypto : Crypto) (st : State)

/-- The loop body over `LeaseLimits`. -/
def limitError (source : GoString) (limit : LeaseLimit) : Option String :=
  if source = [] || maxLeaseAccounts < limit.accounts.length ||
      maxLeaseOrders < limit.orders.length then some "invalid source lease quota"
  else none

/-- The loop over the accounts; `keys` holds the thumbprints seen. -/
def accountsError : List (GoString × Account) → List GoString → Option String
  | [], _ => none
  | (id, a) :: rest, keys =>
    match crypto.thumbprint a.key with
    | none => some "invalid or duplicate account"
    | some thumb =>
      if !crypto.isPublic a.key || a.id ≠ id || !validID id || thumb ≠ a.thumbprint ||
          maxAccountOrders < a.recentOrders.length || thumb ∈ keys ||
          (a.status ≠ .valid && a.status ≠ .deactivated) then some "invalid or duplicate account"
      else accountsError rest (thumb :: keys)

/-- The loop over the identifiers of an order and their authorizations. -/
def identifiersError (id : GoString) (o : Order) :
    List (Identifier × GoString) → List GoString → Option String
  | [], _ => none
  | (name, authID) :: rest, seen =>
    if name.type ≠ str "dns" || !cfg.allowedName name.value || name.value ∈ seen then
      some "invalid order identifiers"
    else match st.authorizations.get authID with
      | none => some "order authorization mismatch"
      | some a =>
        if a.orderID ≠ id || a.accountID ≠ o.accountID || a.name ≠ name.value then
          some "order authorization mismatch"
        else identifiersError id o rest (name.value :: seen)

/-- The certificate of a valid order. -/
def orderCertificateError (id : GoString) (o : Order) : Option String :=
  if o.status = .valid then
    match st.certificates.get o.certificateID with
    | none => some "valid order lacks certificate"
    | some c => if c.orderID ≠ id || o.csr.length = 0 then some "valid order lacks certificate"
      else none
  else none

/-- The loop body over the orders. -/
def orderError (id : GoString) (o : Order) : Option String :=
  if id ≠ o.id || !validID id || o.expires = 0 || o.identifiers.length = 0 ||
      maxIdentifiers < o.identifiers.length || o.authIDs.length ≠ o.identifiers.length then
    some "invalid order"
  else if (st.accounts.get o.accountID).isNone then some "order references missing account"
  else if o.status ≠ .pending && o.status ≠ .ready && o.status ≠ .valid && o.status ≠ .invalid then
    some "invalid order status"
  else identifiersError cfg st id o (o.identifiers.zip o.authIDs) [] <|>
    orderCertificateError st id o

/-- The loop body over the authorizations. -/
def authorizationError (id : GoString) (a : Authorization) : Option String :=
  if id ≠ a.id || !validID id || !validID a.token || a.expires = 0 || !cfg.allowedName a.name then
    some "invalid authorization"
  else match st.orders.get a.orderID with
    | none => some "authorization references missing order"
    | some o =>
      if o.accountID ≠ a.accountID then some "authorization references missing order"
      else if a.status ≠ .pending && a.status ≠ .valid && a.status ≠ .invalid &&
          a.status ≠ .deactivated && a.status ≠ .expired then some "invalid authorization status"
      else if a.challengeStatus ≠ .pending && a.challengeStatus ≠ .processing &&
          a.challengeStatus ≠ .valid && a.challengeStatus ≠ .invalid then
        some "invalid challenge status"
      else if a.status = .valid && (a.validated.isNone || !a.target.ip.is4 ||
          a.target.clientID = [] || a.challengeStatus ≠ .valid) then
        some "valid authorization lacks proof"
      else none

/-- The loop over the certificates; `serials` holds the serial numbers seen. -/
def certificatesError : List (GoString × Certificate) → List GoString → Option String
  | [], _ => none
  | (id, c) :: rest, serials =>
    match crypto.parseLeaf c.pem with
    | none => some "invalid issued certificate"
    | some leaf =>
      if id ≠ c.id || !validID id || formatInt leaf.serialNumber ≠ c.serial || c.serial ∈ serials ||
          leaf.notAfter ≠ c.notAfter || leaf.isCA then some "invalid issued certificate"
      else if !crypto.leafSigned leaf then some "issued certificate is not signed by this CA"
      else match st.orders.get c.orderID with
        | none => some "certificate references wrong order"
        | some o =>
          if o.accountID ≠ c.accountID || o.certificateID ≠ id || o.status ≠ .valid then
            some "certificate references wrong order"
          else if c.revokedAt.isSome && !validRevocationReason c.reason then
            some "invalid revocation reason"
          else certificatesError rest (c.serial :: serials)

/-- The stored revocation list. -/
def crlError : Option String :=
  if st.crl.length ≠ 0 then
    match crypto.parseRevocationList st.crl with
    | none => some "invalid stored CRL"
    | some list =>
      if list.number ≠ some st.crlNumber || list.nextUpdate ≠ st.crlNextUpdate then
        some "invalid stored CRL"
      else if !crypto.listSigned list then some "invalid stored CRL signature"
      else none
  else none

/-- `Server.validateState`: the first error found. -/
def validateState : Option String :=
  if st.version ≠ 1 || st.domain ≠ cfg.domain || st.rootFingerprint ≠ cfg.rootFingerprint then
    some "state version, domain, or root CA does not match configuration"
  else if maxAccounts < st.accounts.size || maxRecords < st.orders.size ||
      maxRecords < st.authorizations.size || maxRecords < st.certificates.size then
    some "invalid or oversized state collections"
  else if maxRecords < st.leaseLimits.size then some "oversized source lease quotas"
  else st.leaseLimits.entries.findSome? (fun e => limitError e.1 e.2) <|>
    accountsError crypto st.accounts.entries [] <|>
    st.orders.entries.findSome? (fun e => orderError cfg st e.1 e.2) <|>
    st.authorizations.entries.findSome? (fun e => authorizationError cfg st e.1 e.2) <|>
    certificatesError crypto st st.certificates.entries [] <|>
    crlError crypto st

end

/-! ## Pruning -/

/-- `recentTimes`. -/
def recentTimes (times : List Int) (cutoff : Int) : List Int := times.filter fun t => cutoff < t

/-- An order that `prune` keeps. -/
def Order.live (now : Int) (o : Order) : Bool := o.status ≠ .invalid && now < o.expires

/-- The last activity of an account, with what is not persisted yet. -/
def Account.active (activity : FinMap GoString Int) (id : GoString) (a : Account) : Int :=
  if a.lastActive < (activity.get id).getD 0 then (activity.get id).getD 0 else a.lastActive

/-- What `prune` makes of an account. -/
def Account.prune (activity : FinMap GoString Int) (now : Int) (referenced : Bool) (id : GoString)
    (a : Account) : Option Account :=
  let lastActive := a.active activity id
  if lastActive ≠ 0 ∧ lastActive + accountIdleLifetime ≤ now ∧ referenced = false then none
  else some { a with lastActive, recentOrders := recentTimes a.recentOrders (now - orderLifetime) }

/-- What `prune` makes of a quota. -/
def LeaseLimit.prune (now : Int) (limit : LeaseLimit) : Option LeaseLimit :=
  let accounts := recentTimes limit.accounts (now - accountRateWindow)
  let orders := recentTimes limit.orders (now - orderRateWindow)
  if accounts.length = 0 ∧ orders.length = 0 then none else some { accounts, orders }

/-- `Server.prune`, given the server's activity map and the clock reading. -/
def State.prune (activity : FinMap GoString Int) (now : Int) (st : State) : State :=
  { st with
    orders := st.orders.filter fun _ o => o.live now
    authorizations := st.authorizations.filter fun id _ =>
      !st.orders.any fun _ o => !o.live now && id ∈ o.authIDs
    certificates := st.certificates.filter fun id _ =>
      !st.orders.any fun _ o => !o.live now && id = o.certificateID
    accounts := st.accounts.filterMap fun id a =>
      a.prune activity now (st.orders.any fun _ o => o.live now && o.accountID = id) id
    leaseLimits := st.leaseLimits.filterMap fun _ limit => limit.prune now }

section
variable {activity : FinMap GoString Int} {now : Int} {st : State} {id : GoString}

theorem Order.live_iff {o : Order} : o.live now = true ↔ o.status ≠ .invalid ∧ now < o.expires := by
  simp [Order.live]

theorem State.get_prune_orders {o : Order} :
    (st.prune activity now).orders.get id = some o ↔
      st.orders.get id = some o ∧ o.live now = true := by
  simp [State.prune]

theorem State.get_prune_authorizations {a : Authorization} :
    (st.prune activity now).authorizations.get id = some a ↔
      st.authorizations.get id = some a ∧
        ∀ k o, st.orders.get k = some o → o.live now = false → id ∉ o.authIDs := by
  simp only [State.prune, FinMap.get_filter_eq_some, Bool.not_eq_true', FinMap.any_eq_false,
    Bool.and_eq_false_imp, decide_eq_false_iff_not]

theorem State.get_prune_certificates {c : Certificate} :
    (st.prune activity now).certificates.get id = some c ↔
      st.certificates.get id = some c ∧
        ∀ k o, st.orders.get k = some o → o.live now = false → id ≠ o.certificateID := by
  simp only [State.prune, FinMap.get_filter_eq_some, Bool.not_eq_true', FinMap.any_eq_false,
    Bool.and_eq_false_imp, decide_eq_false_iff_not, ne_eq]

variable (activity now) in
/-- Pruning keeps an account as it is, but for its history, or drops it when it is idle and no
order that is kept refers to it. -/
theorem State.get_prune_accounts {a : Account} (h : st.accounts.get id = some a) :
    (st.prune activity now).accounts.get id = some { a with
        lastActive := a.active activity id
        recentOrders := recentTimes a.recentOrders (now - orderLifetime) } ∨
      ((st.prune activity now).accounts.get id = none ∧
        a.active activity id + accountIdleLifetime ≤ now ∧
        ∀ k o, st.orders.get k = some o → o.live now = true → o.accountID ≠ id) := by
  simp only [State.prune, FinMap.get_filterMap, h, Option.bind_some, Account.prune]
  split
  · next hidle =>
    refine .inr ⟨rfl, hidle.2.1, fun k o hk hl heq => ?_⟩
    have hany := FinMap.any_eq_false.1 hidle.2.2 k o hk
    simp [hl, heq] at hany
  · exact .inl rfl

/-- An account that is left was there before. -/
theorem State.of_prune_accounts {a' : Account}
    (h : (st.prune activity now).accounts.get id = some a') :
    ∃ a, st.accounts.get id = some a ∧ a' = { a with
      lastActive := a.active activity id
      recentOrders := recentTimes a.recentOrders (now - orderLifetime) } := by
  obtain ⟨a, ha, hp⟩ := Option.bind_eq_some_iff.1 h
  simp only [Account.prune] at hp
  split at hp
  · cases hp
  · exact ⟨a, ha, (Option.some.inj hp).symm⟩

variable (activity now) in
theorem State.get_prune_accounts_none (h : st.accounts.get id = none) :
    (st.prune activity now).accounts.get id = none := by
  simp [State.prune, h]

end

/-! ## The server and its commits -/

/-- A call of the validator that has not returned: the request that made it, and the name and the
token it was called with. -/
structure Ticket (crypto : Crypto) where
  signed : Request crypto
  accountID : GoString
  authID : GoString
  name : GoString
  token : GoString

/-- The third argument of the call. -/
def Ticket.keyAuthorization {crypto : Crypto} (t : Ticket crypto) : GoString :=
  t.token ++ dot :: t.signed.thumbprint

/-- The memory of a running server. -/
structure Server (crypto : Crypto) where
  state : State
  activity : FinMap GoString Int
  /-- The handlers that wait for the validator. -/
  validations : List (Ticket crypto)

/-- How a handler leaves the lock: with a response, or to call the validator. -/
inductive Answer (crypto : Crypto) where
  | respond (r : Response)
  | validate (t : Ticket crypto)

/-- The calls of the validator an answer starts. -/
def Answer.tickets {crypto : Crypto} : Answer crypto → List (Ticket crypto)
  | .respond _ => []
  | .validate t => [t]

/-- A commit of the snapshot `next`, pruned at the reading `now`, and what follows: the answer when
it succeeds; when it fails, the challenge of the authorization `retry` may be retried. -/
structure Commit (crypto : Crypto) where
  next : State
  now : Int
  answer : Answer crypto
  retry : Option GoString

/-- What a handler does with the lock held, and the activity map it leaves. -/
inductive Action (crypto : Crypto) where
  | reply (activity : FinMap GoString Int) (r : Response)
  | commit (activity : FinMap GoString Int) (c : Commit crypto)

/-- `Server.retryInterruptedChallenge`. -/
def retryInterruptedChallenge (id : GoString) (st : State) : State :=
  match st.authorizations.get id with
  | none => st
  | some a =>
    if a.status = .pending ∧ a.challengeStatus = .processing then
      { st with authorizations := st.authorizations.set id { a with challengeStatus := .pending } }
    else st

/-- What a failed commit leaves in memory. -/
def Commit.interrupted {crypto : Crypto} (c : Commit crypto) (st : State) : State :=
  match c.retry with
  | none => st
  | some id => retryInterruptedChallenge id st

/-- `json.Marshal` encodes the snapshot: it has no encoding for the zero key. -/
def State.encodable (st : State) : Bool := !st.accounts.any fun _ a => a.key = []

/-- Whether the commit of an action can end so: that of a snapshot that cannot be encoded fails
before the rename. -/
def Action.allows {crypto : Crypto} (outcome : Outcome) : Action crypto → Bool
  | .reply _ _ => true
  | .commit activity c => outcome = .failedBefore || (c.next.prune activity c.now).encodable

/-- Carries out an action: the answer, the memory and the file. `Server.commit` publishes the pruned
snapshot at the rename, where it also clears the activity map. -/
def Server.perform {crypto : Crypto} (srv : Server crypto) (disk : Option State)
    (outcome : Outcome) : Action crypto → Answer crypto × Server crypto × Option State
  | .reply activity r => (.respond r, { srv with activity }, disk)
  | .commit activity c =>
    let next := c.next.prune activity c.now
    match outcome with
    | .failedBefore =>
      (.respond internalError, { srv with state := c.interrupted srv.state, activity }, disk)
    | .failedAfter =>
      (.respond internalError, { srv with state := c.interrupted next, activity := .empty },
        some next)
    | .committed =>
      (c.answer, ⟨next, .empty, c.answer.tickets ++ srv.validations⟩, some next)

/-! ## Start -/

/-- The state of a server without a file. -/
def State.initial (cfg : Config) : State where
  leaseLimits := .empty
  version := 1
  domain := cfg.domain
  rootFingerprint := cfg.rootFingerprint
  accounts := .empty
  orders := .empty
  authorizations := .empty
  certificates := .empty
  crl := []
  crlNumber := 0
  crlNextUpdate := 0

/-- The loop of `restore` that gives accounts without activity times their orders' creation times.
The `i`-th iteration reads the clock at `now i`. -/
def legacyOrders (now : Nat → Int) :
    List (GoString × Order) → Nat → FinMap GoString Account → FinMap GoString Account
  | [], _, accounts => accounts
  | (_, o) :: rest, i, accounts =>
    let a := (accounts.get o.accountID).getD default
    let created := o.expires - orderLifetime
    legacyOrders now rest (i + 1) <|
      if a.lastActive = 0 ∧ o.status ≠ .valid ∧ now i - orderLifetime < created ∧
          a.recentOrders.length < maxAccountOrders then
        accounts.set o.accountID { a with recentOrders := a.recentOrders ++ [created] }
      else accounts

/-- An interrupted validation proves nothing. -/
def Authorization.reset (a : Authorization) : Authorization :=
  if a.challengeStatus = .processing then { a with challengeStatus := .pending } else a

/-- The processing challenges of a state become pending. -/
def State.reset (st : State) : State :=
  { st with authorizations := st.authorizations.mapVals fun _ a => a.reset }

/-- What `restore` makes of an accepted snapshot; `modTime` is the modification time of the file. -/
def State.recover (now : Nat → Int) (modTime : Int) (st : State) : State :=
  let accounts := legacyOrders now st.orders.entries 0 st.accounts
  { st.reset with
    accounts := accounts.mapVals fun _ a =>
      if a.lastActive = 0 then { a with lastActive := modTime } else a }

/-- `Server.restore`. -/
def restore (cfg : Config) (crypto : Crypto) (now : Nat → Int) (modTime : Int) :
    Option State → Except String State
  | none => .ok (.initial cfg)
  | some st =>
    match validateState cfg crypto st with
    | some e => .error e
    | none => .ok (st.recover now modTime)

/-- `New`: restores the state and commits it. The server, if it starts, and the file. -/
def newServer (cfg : Config) (crypto : Crypto) (env : Env) (modTime : Int) (disk : Option State) :
    Option (Server crypto) × Option State :=
  match restore cfg crypto (env.clock.read 0) modTime disk with
  | .error _ => (none, disk)
  | .ok st =>
    let next := st.prune .empty (env.clock.now 1)
    match env.outcome with
    | .failedBefore => (none, disk)
    | .failedAfter => (none, some next)
    | .committed => (some ⟨next, .empty, []⟩, some next)

end InfraBox.Acme
