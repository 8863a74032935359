import InfraBox.Acme.Store

/-!
# The ACME server: accounts

`internal/acmeserver/limits.go` and `accounts.go`: the creation quotas and the handlers of accounts.
-/

namespace InfraBox.Acme

/-! ## Quotas -/

/-- The history a kind of creation is counted in, its bound and its window. -/
def LeaseLimit.quota (limit : LeaseLimit) (accountCreation : Bool) : List Int × Nat × Int :=
  if accountCreation then (limit.accounts, maxLeaseAccounts, accountRateWindow)
  else (limit.orders, maxLeaseOrders, orderRateWindow)

/-- The number of quotas that are not expired; the `i`-th iteration reads the clock twice. -/
def liveLimits (now : Nat → Int) (limits : FinMap GoString LeaseLimit) : Nat :=
  limits.entries.zipIdx.countP fun e =>
    (recentTimes e.1.2.accounts (now (2 * e.2) - accountRateWindow)).length ≠ 0 ||
      (recentTimes e.1.2.orders (now (2 * e.2 + 1) - orderRateWindow)).length ≠ 0

/-- `Server.allowCreation`, from point `p` on: the response that refuses the creation. -/
def allowCreation (st : State) (clock : Clock) (p : Nat) (source : GoString)
    (accountCreation : Bool) : Option Response :=
  if source = [] then
    some (.problem (failure 403 "unauthorized" "creation requires a source DHCP lease"))
  else
    let (times, maximum, window) :=
      ((st.leaseLimits.get source).getD default).quota accountCreation
    let recent := recentTimes times (clock.now p - window)
    if maximum ≤ recent.length then
      some (rateLimited (recent.headD 0 + window - clock.now (p + 1))
        "too many creations from this DHCP lease")
    else if (st.leaseLimits.get source).isNone && maxRecords ≤ st.leaseLimits.size &&
        maxRecords ≤ liveLimits (clock.read (p + 2)) st.leaseLimits then
      some (rateLimited orderRateWindow "source lease quota capacity has been reached")
    else none

/-- `Server.recordCreation`, at points `p` and `p + 1`. -/
def State.recordCreation (st : State) (clock : Clock) (p : Nat) (source : GoString)
    (accountCreation : Bool) : State :=
  let limit := (st.leaseLimits.get source).getD default
  let limit : LeaseLimit :=
    if accountCreation then
      { limit with
        accounts := recentTimes limit.accounts (clock.now p - accountRateWindow) ++
          [clock.now (p + 1)] }
    else
      { limit with
        orders := recentTimes limit.orders (clock.now p - orderRateWindow) ++
          [clock.now (p + 1)] }
  { st with leaseLimits := st.leaseLimits.set source limit }

/-! ## Account handlers -/

section
variable (cfg : Config) {crypto : Crypto} (codec : Codec crypto)

/-- The URL of an account. -/
def Config.accountURL (id : GoString) : GoString := cfg.url (str "/account/" ++ id)

/-- `Server.accountView`. -/
def accountView (a : Account) : AccountView where
  status := a.status
  contact := a.contact
  orders := cfg.url (str "/orders/" ++ a.id)

/-- `Server.activeAccount`: the account, and the activity map with its reading. -/
def activeAccount (srv : Server crypto) (now : Int) (signed : Request crypto)
    (accountID : GoString) : Except Problem (Account × FinMap GoString Int) :=
  let unauthorized :=
    failure 403 "unauthorized" "account is not active or its key has changed"
  match srv.state.accounts.get accountID with
  | none => .error unauthorized
  | some a =>
    if a.status ≠ .valid ∨ a.thumbprint ≠ signed.thumbprint ∨
        signed.keyID ≠ cfg.accountURL accountID then .error unauthorized
    else .ok (a, srv.activity.set accountID now)

/-- The account is there, valid and has the key of the request. -/
theorem activeAccount_ok {srv : Server crypto} {now : Int} {signed : Request crypto}
    {accountID : GoString} {a : Account} {activity : FinMap GoString Int}
    (h : activeAccount cfg srv now signed accountID = .ok (a, activity)) :
    srv.state.accounts.get accountID = some a ∧ a.status = .valid ∧
      a.thumbprint = signed.thumbprint ∧ activity = srv.activity.set accountID now := by
  simp only [activeAccount] at h
  split at h
  · cases h
  next b hb =>
  split at h
  · cases h
  next hok =>
  cases h
  simp only [not_or, not_not] at hok
  exact ⟨hb, hok.1, hok.2.1, rfl⟩

/-- The loop body of `accountContacts`. -/
def contactError (value : GoString) : Option Problem :=
  match codec.parseURL value with
  | none => some (failure 400 "invalidContact" "invalid contact URL")
  | some u =>
    if 2048 < value.length ∨ trimSpace value ≠ value then
      some (failure 400 "invalidContact" "invalid contact URL")
    else if toLower u.scheme ≠ str "mailto" then
      some (failure 400 "unsupportedContact" "only mailto contact URLs are supported")
    else match codec.pathUnescape u.opaquePart with
      | none => some (failure 400 "invalidContact"
          "mailto contact must contain one email address and no headers")
      | some address =>
        if u.rawQuery ≠ [] ∨ u.forceQuery ∨ u.fragment ≠ [] ∨ u.host ≠ [] ∨ u.hasUser ∨
            (address.any fun b => b ∈ str "\r\n<>") ∨ trimSpace address ≠ address then
          some (failure 400 "invalidContact"
            "mailto contact must contain one email address and no headers")
        else if codec.mailName address ≠ some [] then
          some (failure 400 "invalidContact" "mailto contact must contain one valid email address")
        else none

/-- `accountContacts`. -/
def accountContacts (data : GoString) : Except Problem (List GoString) :=
  let invalid := failure 400 "invalidContact" "contact must be an array of at most 16 mailto URLs"
  if data.length = 0 then .ok []
  else if trimSpace data = str "null" then .error invalid
  else match codec.texts data with
    | none => .error invalid
    | some contact =>
      if 16 < contact.length then .error invalid
      else match contact.findSome? (contactError codec) with
        | some p => .error p
        | none => .ok contact

/-- `Server.newAccount`. -/
def newAccount (srv : Server crypto) (env : Env) (signed : Request crypto) (source : GoString) :
    Action crypto :=
  let stop (p : Problem) : Action crypto := .reply srv.activity (.problem p)
  if signed.keyID ≠ [] then
    stop (failure 400 "malformed" "new-account requires an embedded public JWK")
  else match decodePayload codec.accountInput signed.payload with
  | none => stop (failure 400 "malformed" "invalid account request")
  | some input =>
  match srv.state.accounts.find fun _ a => a.thumbprint = signed.thumbprint with
  | some (_, a) =>
    .reply (srv.activity.set a.id (env.clock.now 0))
      { status := 200, body := .account (accountView cfg a), location := cfg.accountURL a.id }
  | none =>
  if input.onlyReturnExisting then
    stop (failure 400 "accountDoesNotExist" "no account is registered with this key")
  else match accountContacts codec input.contact with
  | .error p => stop p
  | .ok contact =>
  match allowCreation srv.state env.clock 0 source true with
  | some r => .reply srv.activity r
  | none =>
  let next := srv.state.prune srv.activity (env.clock.now 3)
  if maxAccounts ≤ next.accounts.size then
    .reply srv.activity
      (rateLimited accountIdleLifetime "the certificate authority has reached its account limit")
  else match env.randomID 0 with
  | none => .reply srv.activity internalError
  | some id =>
  let a : Account := {
    id, contact
    key := signed.key
    thumbprint := signed.thumbprint
    status := .valid
    lastActive := env.clock.now 4
    recentOrders := [] }
  let next := next.recordCreation env.clock 5 source true
  .commit srv.activity {
    next := { next with accounts := next.accounts.set id a }
    now := env.clock.now 7
    answer := .respond
      { status := 201, body := .account (accountView cfg a), location := cfg.accountURL id }
    retry := none }

/-- The text of a new account status. -/
def accountStatus (raw : GoString) : Except Problem (Option Status) :=
  if raw.length = 0 then .ok none
  else match codec.text raw with
    | none => .error (failure 400 "malformed" "account status must be valid or deactivated")
    | some status =>
      if status = str "valid" then .ok (some .valid)
      else if status = str "deactivated" then .ok (some .deactivated)
      else .error (failure 400 "malformed" "account status must be valid or deactivated")

/-- The end of an order when its account is deactivated. -/
def Order.accountDeactivated (id : GoString) (o : Order) : Order :=
  if o.accountID = id ∧ (o.status = .pending ∨ o.status = .ready) then
    { o with
      status := .invalid
      error := failure 403 "unauthorized" "account was deactivated" }
  else o

/-- The end of an authorization when its account is deactivated. -/
def Authorization.accountDeactivated (id : GoString) (a : Authorization) : Authorization :=
  if a.accountID = id ∧ a.status = .pending then
    { a with
      status := .deactivated
      challengeStatus := .invalid
      error := failure 403 "unauthorized" "account was deactivated" }
  else a

/-- The loops of `account` over the orders and authorizations. -/
def State.deactivateAccount (st : State) (id : GoString) : State :=
  { st with
    orders := st.orders.mapVals fun _ o => o.accountDeactivated id
    authorizations := st.authorizations.mapVals fun _ auth => auth.accountDeactivated id }

/-- The snapshot `account` commits for the updated account `a`. -/
def State.updateAccount (st : State) (id : GoString) (a : Account) : State :=
  let next := { st with accounts := st.accounts.set id a }
  if a.status = .deactivated then next.deactivateAccount id else next

/-- `Server.account`. -/
def account (srv : Server crypto) (env : Env) (signed : Request crypto) (accountID id : GoString) :
    Action crypto :=
  let stop (p : Problem) : Action crypto := .reply srv.activity (.problem p)
  if id ≠ accountID then stop (failure 403 "unauthorized" "account belongs to another key")
  else match (if signed.payload.length ≠ 0 then decodePayload codec.accountInput signed.payload
    else some default) with
  | none => stop (failure 400 "malformed" "invalid account update")
  | some input =>
  match accountContacts codec input.contact with
  | .error p => stop p
  | .ok contact =>
  match accountStatus codec input.status with
  | .error p => stop p
  | .ok status =>
  match activeAccount cfg srv (env.clock.now 0) signed accountID with
  | .error p => stop p
  | .ok (a, activity) =>
  if input.contact.length ≠ 0 ∨ status.isSome then
    let a := { a with
      contact := if input.contact.length ≠ 0 then contact else a.contact
      status := status.getD a.status }
    .commit activity {
      next := srv.state.updateAccount id a
      now := env.clock.now 1
      answer := .respond { status := 200, body := .account (accountView cfg a) }
      retry := none }
  else .reply activity { status := 200, body := .account (accountView cfg a) }

/-- `Server.accountOrders`; the `i`-th iteration reads the clock at point 1. -/
def accountOrders (srv : Server crypto) (env : Env) (signed : Request crypto)
    (accountID id : GoString) : Action crypto :=
  let stop (p : Problem) : Action crypto := .reply srv.activity (.problem p)
  if signed.payload.length ≠ 0 then
    stop (failure 400 "malformed" "POST-as-GET requires an empty payload")
  else if accountID ≠ id then
    stop (failure 403 "unauthorized" "orders belong to another account")
  else match activeAccount cfg srv (env.clock.now 0) signed accountID with
  | .error p => stop p
  | .ok (_, activity) =>
  let orders := srv.state.orders.entries.zipIdx.filterMap fun ((_, o), i) =>
    if o.accountID = id ∧ o.status ≠ .invalid ∧
        (o.status = .valid ∨ env.clock.read 1 i < o.expires) then
      some (cfg.url (str "/order/" ++ o.id))
    else none
  .reply activity { status := 200, body := .accountOrders (orders.mergeSort (· ≤ ·)) }

/-- `Server.keyChange`. -/
def keyChange (srv : Server crypto) (env : Env) (signed : Request crypto) (accountID : GoString) :
    Action crypto :=
  let stop (p : Problem) : Action crypto := .reply srv.activity (.problem p)
  match codec.verifyKeyChange signed.payload (cfg.url (str "/key-change")) with
  | .error p => stop p
  | .ok inner =>
  match decodePayload codec.keyChangeInput inner.payload with
  | none => stop (failure 400 "malformed"
      "key-change must identify the current account and old public key")
  | some input =>
  if input.account ≠ signed.keyID then
    stop (failure 400 "malformed" "key-change must identify the current account and old public key")
  else if crypto.thumbprint input.oldKey ≠ some signed.thumbprint then
    stop (failure 400 "malformed" "key-change oldKey does not match the account key")
  else if inner.thumbprint = signed.thumbprint then
    stop (failure 400 "malformed" "key-change requires a different new key")
  else match activeAccount cfg srv (env.clock.now 0) signed accountID with
  | .error p => stop p
  | .ok (a, activity) =>
  match srv.state.accounts.find fun _ existing => existing.thumbprint = inner.thumbprint with
  | some (_, existing) =>
    .reply activity
      { Response.problem
          (failure 409 "malformed" "the new key is already associated with an account") with
        location := cfg.accountURL existing.id }
  | none =>
  let a := { a with key := inner.key, thumbprint := inner.thumbprint }
  .commit activity {
    next := { srv.state with accounts := srv.state.accounts.set accountID a }
    now := env.clock.now 1
    answer := .respond { status := 200, body := .account (accountView cfg a) }
    retry := none }

end

end InfraBox.Acme
