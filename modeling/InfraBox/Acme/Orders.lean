import InfraBox.Acme.Accounts

/-!
# The ACME server: orders

`internal/acmeserver/orders.go`. The handler of a challenge calls the validator without the lock, so
it is two functions here: `challenge` up to that call, and `challengeResult` with its result.
`finalize` is split at its call of `SignCSR`: `prepareSigning` is what happens before.
-/

namespace InfraBox.Acme

section
variable (cfg : Config) {crypto : Crypto} (codec : Codec crypto)

/-! ## Views -/

/-- `Server.orderView`. -/
def orderView (now : Int) (o : Order) : OrderView where
  status := if (o.status = .pending ∨ o.status = .ready) ∧ o.expires ≤ now then .invalid
    else o.status
  expires := o.expires
  identifiers := o.identifiers
  authorizations := o.authIDs.map fun id => cfg.url (str "/authz/" ++ id)
  finalize := cfg.url (str "/finalize/" ++ o.id)
  certificate :=
    if o.certificateID ≠ [] then some (cfg.url (str "/certificate/" ++ o.certificateID))
    else none
  error := o.error

/-- `Server.challengeView`. -/
def challengeView (a : Authorization) : ChallengeView where
  url := cfg.url (str "/challenge/" ++ a.id)
  status := a.challengeStatus
  token := a.token
  validated := a.validated
  error := a.error

/-- `Server.authorizationView`. -/
def authorizationView (now : Int) (a : Authorization) : AuthorizationView where
  status := if (a.status = .pending ∨ a.status = .valid) ∧ a.expires ≤ now then .expired
    else a.status
  expires := a.expires
  identifier := ⟨str "dns", a.name⟩
  challenge := challengeView cfg a

/-! ## New orders -/

/-- The loop of `newOrder` over the requested names, before the lock; `seen` holds the names so far
and `i` is the number of lookups made. -/
def orderNames (lookup : Nat → GoString → Option Target) :
    List Identifier → Nat → List GoString → Except Problem (List Identifier)
  | [], _, _ => .ok []
  | name :: rest, i, seen =>
    if (runes name.value).any fun c => 127 < c then
      .error (failure 400 "rejectedIdentifier" "DNS identifiers must use ASCII names")
    else
      let value := toLower (trimSuffix name.value [dot])
      if name.type ≠ str "dns" || !cfg.allowedName value || value ∈ seen then
        .error (failure 400 "rejectedIdentifier"
          "identifiers must be unique DHCP hostnames in the configured domain")
      else if (lookup i value).isNone then
        .error (failure 400 "rejectedIdentifier"
          "the requested hostname has no eligible active DHCP lease")
      else match orderNames lookup rest (i + 1) (value :: seen) with
        | .error p => .error p
        | .ok names => .ok (⟨name.type, value⟩ :: names)

/-- The loop of `newOrder` that makes the authorizations; the order's own identifier was drawn
first. -/
def newAuthorizations (env : Env) (accountID orderID : GoString) (expires : Int) :
    List Identifier → Nat → Option (List Authorization)
  | [], _ => some []
  | name :: rest, i =>
    match env.randomID (1 + 2 * i), env.randomID (2 + 2 * i),
      newAuthorizations env accountID orderID expires rest (i + 1) with
    | some authID, some token, some auths =>
      some ({
        id := authID
        accountID, orderID, expires, token
        name := name.value
        status := .pending
        challengeStatus := .pending
        validated := none
        target := default
        error := none } :: auths)
    | _, _, _ => none

/-- Stores an order and its authorizations. -/
def State.addOrder (st : State) (o : Order) (auths : List Authorization) : State :=
  { st with
    authorizations := auths.foldl (fun m a => m.set a.id a) st.authorizations
    orders := st.orders.set o.id o }

/-- Adds the creation time of an order to its account. -/
def State.noteOrder (st : State) (accountID : GoString) (now : Int) : State :=
  let a := (st.accounts.get accountID).getD default
  { st with accounts :=
      st.accounts.set accountID { a with recentOrders := a.recentOrders ++ [now] } }

/-- The orders of an account that are pending or ready. -/
def State.outstanding (st : State) (accountID : GoString) : Nat :=
  st.orders.entries.countP fun e =>
    e.2.accountID = accountID && (e.2.status = .pending || e.2.status = .ready)

/-- `Server.newOrder`. -/
def newOrder (srv : Server crypto) (env : Env) (signed : Request crypto)
    (accountID source : GoString) : Action crypto :=
  let stop (p : Problem) : Action crypto := .reply srv.activity (.problem p)
  match decodePayload codec.orderInput signed.payload with
  | none => stop (failure 400 "malformed" "an order requires between 1 and 16 DNS identifiers")
  | some body =>
  if body.identifiers.length = 0 ∨ maxIdentifiers < body.identifiers.length then
    stop (failure 400 "malformed" "an order requires between 1 and 16 DNS identifiers")
  else if body.notBefore ≠ [] ∨ body.notAfter ≠ [] then
    stop (failure 400 "rejectedIdentifier" "custom certificate validity periods are not supported")
  else match orderNames cfg env.lookup body.identifiers 0 [] with
  | .error p => stop p
  | .ok identifiers =>
  match activeAccount cfg srv (env.clock.now 0) signed accountID with
  | .error p => stop p
  | .ok (_, activity) =>
  match allowCreation srv.state env.clock 1 source false with
  | some r => .reply activity r
  | none =>
  let next := srv.state.prune activity (env.clock.now 4)
  if maxAccountOrders ≤ next.outstanding accountID ∨
      maxAccountOrders ≤ ((next.accounts.get accountID).getD default).recentOrders.length ∨
      maxRecords ≤ next.orders.size ∨
      maxRecords < next.authorizations.size + identifiers.length then
    .reply activity (rateLimited orderLifetime "too many recent or outstanding orders")
  else match env.randomID 0 with
  | none => .reply activity internalError
  | some id =>
  let expires := env.clock.now 5 + orderLifetime
  match newAuthorizations env accountID id expires identifiers 0 with
  | none => .reply activity internalError
  | some auths =>
  let o : Order := {
    id, accountID, expires, identifiers
    status := .pending
    authIDs := auths.map Authorization.id
    certificateID := []
    csr := []
    error := none }
  .commit activity {
    next := ((next.addOrder o auths).noteOrder accountID (env.clock.now 6)).recordCreation
      env.clock 7 source false
    now := env.clock.now 9
    answer := .respond {
      status := 201
      body := .order (orderView cfg (env.clock.now 10) o)
      location := cfg.url (str "/order/" ++ id) }
    retry := none }

/-- `Server.getOrder`. -/
def getOrder (srv : Server crypto) (env : Env) (signed : Request crypto)
    (accountID id : GoString) : Action crypto :=
  let stop (p : Problem) : Action crypto := .reply srv.activity (.problem p)
  if signed.payload.length ≠ 0 then
    stop (failure 400 "malformed" "POST-as-GET requires an empty payload")
  else match activeAccount cfg srv (env.clock.now 0) signed accountID with
  | .error p => stop p
  | .ok (_, activity) =>
  match srv.state.orders.get id with
  | none => .reply activity (.problem (failure 404 "malformed" "order not found"))
  | some o =>
  if o.accountID ≠ accountID then
    .reply activity (.problem (failure 404 "malformed" "order not found"))
  else .reply activity { status := 200, body := .order (orderView cfg (env.clock.now 1) o) }

/-! ## Authorizations -/

/-- A deactivated authorization. -/
def Authorization.deactivate (a : Authorization) : Authorization :=
  { a with
    status := .deactivated
    challengeStatus := if a.challengeStatus = .processing then .invalid else a.challengeStatus }

/-- The snapshot `getAuthorization` commits for the authorization `a`. -/
def State.deactivateAuthorization (st : State) (id : GoString) (a : Authorization) : State :=
  let next := { st with authorizations := st.authorizations.set id a.deactivate }
  let o := (next.orders.get a.orderID).getD default
  if o.status = .pending ∨ o.status = .ready then
    { next with orders := next.orders.set o.id { o with
        status := .invalid
        error := failure 403 "unauthorized" "an authorization was deactivated" } }
  else next

/-- `Server.getAuthorization`. -/
def getAuthorization (srv : Server crypto) (env : Env) (signed : Request crypto)
    (accountID id : GoString) : Action crypto :=
  match activeAccount cfg srv (env.clock.now 0) signed accountID with
  | .error p => .reply srv.activity (.problem p)
  | .ok (_, activity) =>
  match srv.state.authorizations.get id with
  | none => .reply activity (.problem (failure 404 "malformed" "authorization not found"))
  | some a =>
  if a.accountID ≠ accountID then
    .reply activity (.problem (failure 404 "malformed" "authorization not found"))
  else if signed.payload.length ≠ 0 then
    if decodePayload codec.statusMember signed.payload ≠ some (str "deactivated") then
      .reply activity
        (.problem (failure 400 "malformed" "only authorization deactivation is supported"))
    else .commit activity {
      next := srv.state.deactivateAuthorization id a
      now := env.clock.now 1
      answer := .respond {
        status := 200
        body := .authorization (authorizationView cfg (env.clock.now 2) a.deactivate) }
      retry := none }
  else .reply activity
    { status := 200, body := .authorization (authorizationView cfg (env.clock.now 1) a) }

/-! ## Challenges -/

/-- The capacity of the `validations` channel. -/
def maxValidations : Nat := 32

/-- `Server.challenge`, up to the call of the validator. -/
def challenge (srv : Server crypto) (env : Env) (signed : Request crypto)
    (accountID id : GoString) : Action crypto :=
  let stop (p : Problem) : Action crypto := .reply srv.activity (.problem p)
  if signed.payload.length ≠ 0 ∧ decodePayload codec.members signed.payload ≠ some 0 then
    stop (failure 400 "malformed" "challenge acknowledgement must be an empty JSON object")
  else match activeAccount cfg srv (env.clock.now 0) signed accountID with
  | .error p => stop p
  | .ok (_, activity) =>
  match srv.state.authorizations.get id with
  | none => .reply activity (.problem (failure 404 "malformed" "challenge not found"))
  | some a =>
  if a.accountID ≠ accountID then
    .reply activity (.problem (failure 404 "malformed" "challenge not found"))
  else if signed.payload.length = 0 ∨ a.challengeStatus = .processing ∨ a.status = .valid then
    .reply activity { status := 200, body := .challenge (challengeView cfg a) }
  else if a.status ≠ .pending ∨
      ((srv.state.orders.get a.orderID).getD default).status ≠ .pending ∨
      a.expires ≤ env.clock.now 1 then
    .reply activity
      (.problem (failure 400 "unauthorized" "authorization is no longer pending"))
  else if maxValidations ≤ srv.validations.length + env.busy then
    .reply activity
      { Response.problem
          (failure 429 "rateLimited" "too many simultaneous challenge validations") with
        retryAfter := some 5 }
  else .commit activity {
    next := { srv.state with
      authorizations := srv.state.authorizations.set id { a with challengeStatus := .processing } }
    now := env.clock.now 2
    answer := .validate ⟨signed, accountID, id, a.name, a.token⟩
    retry := some id }

/-- The error of a failed validation. -/
def validationFailed : Problem :=
  failure 400 "unauthorized"
    "HTTP-01 validation failed; serve the key authorization at the challenge path on the leased host's port 80"

/-- The snapshot `challenge` commits when the validation failed. -/
def State.failChallenge (st : State) (id : GoString) (a : Authorization) : State :=
  let o := (st.orders.get a.orderID).getD default
  { st with
    authorizations := st.authorizations.set id { a with
      status := .invalid
      challengeStatus := .invalid
      error := validationFailed }
    orders := st.orders.set o.id { o with status := .invalid, error := validationFailed } }

/-- A proved authorization. -/
def Authorization.prove (a : Authorization) (now : Int) (target : Target) : Authorization :=
  { a with status := .valid, challengeStatus := .valid, validated := some now, target }

/-- The snapshot `challenge` commits when the validation succeeded: the order is ready when all its
authorizations are valid. -/
def State.proveChallenge (st : State) (id : GoString) (a : Authorization) (now : Int)
    (target : Target) : State :=
  let authorizations := st.authorizations.set id (a.prove now target)
  let o := (st.orders.get a.orderID).getD default
  { st with
    authorizations
    orders := st.orders.set o.id { o with
      status := if o.authIDs.all fun authID =>
          ((authorizations.get authID).getD default).status = .valid then .ready
        else o.status } }

/-- `Server.challenge`, after the call of the validator; `none` is an error of the validator. -/
def challengeResult (srv : Server crypto) (env : Env) (t : Ticket crypto) (result : Option Target) :
    Action crypto :=
  match srv.state.authorizations.get t.authID with
  | none => .reply srv.activity (.problem (failure 404 "malformed" "authorization expired"))
  | some a =>
  if a.status ≠ .pending ∨ a.challengeStatus ≠ .processing then
    .reply srv.activity { status := 200, body := .challenge (challengeView cfg a) }
  else
  let o := (srv.state.orders.get a.orderID).getD default
  let now := env.clock.now 0
  let active := activeAccount cfg srv (env.clock.now 1) t.signed t.accountID
  let activity := match active with
    | .ok (_, activity) => activity
    | .error _ => srv.activity
  let current := (srv.state.accounts.get t.accountID).getD default
  let conclude (next : State) (a : Authorization) : Action crypto := .commit activity {
    next
    now := env.clock.now 2
    answer := .respond { status := 200, body := .challenge (challengeView cfg a) }
    retry := some t.authID }
  -- a rollover discards the proof made with the old key, and the client may acknowledge again
  if active.toOption.isNone ∧ current.status = .valid ∧
      current.thumbprint ≠ t.signed.thumbprint ∧ now < a.expires ∧ o.status = .pending then
    let a := { a with challengeStatus := .pending }
    conclude { srv.state with authorizations := srv.state.authorizations.set t.authID a } a
  else match result with
  | none => conclude (srv.state.failChallenge t.authID a)
      { a with status := .invalid, challengeStatus := .invalid, error := validationFailed }
  | some target =>
  if active.toOption.isNone ∨ a.expires ≤ now ∨ o.status ≠ .pending then
    conclude (srv.state.failChallenge t.authID a)
      { a with status := .invalid, challengeStatus := .invalid, error := validationFailed }
  else conclude (srv.state.proveChallenge t.authID a now target) (a.prove now target)

/-! ## Issuance -/

/-- What `finalize` passes to `SignCSR`, and the order it is for. -/
structure Signing where
  activity : FinMap GoString Int
  order : Order
  csr : GoString
  names : List GoString

/-- The loop of `finalize` over the authorizations of the order: their names, if each is valid,
unexpired and still bound to the lease that proved it. The `i`-th iteration makes the `i`-th lookup
and reads the clock at point 2. -/
def authorizedNames (st : State) (env : Env) : List GoString → Nat → Option (List GoString)
  | [], _ => some []
  | authID :: rest, i =>
    let a := (st.authorizations.get authID).getD default
    match env.lookup i a.name with
    | none => none
    | some target =>
      if a.status ≠ .valid ∨ a.expires ≤ env.clock.read 2 i ∨ target ≠ a.target then none
      else (authorizedNames st env rest (i + 1)).map (a.name :: ·)

/-- The snapshot `finalize` commits when an authorization no longer holds. -/
def State.rejectOrder (st : State) (id : GoString) (o : Order) (p : Problem) : State :=
  { st with orders := st.orders.set id { o with status := .invalid, error := p } }

/-- `Server.finalize`, up to the call of `SignCSR`. -/
def prepareSigning (srv : Server crypto) (env : Env) (signed : Request crypto)
    (accountID id : GoString) : Except (Action crypto) Signing :=
  let stop (p : Problem) : Except (Action crypto) Signing :=
    .error (.reply srv.activity (.problem p))
  match decodePayload codec.csrMember signed.payload with
  | none => stop (failure 400 "badCSR" "a base64url-encoded CSR is required")
  | some encoded =>
  match codec.base64Decode encoded with
  | none => stop (failure 400 "badCSR" "CSR is empty, too large, or not valid base64url")
  | some csr =>
  if csr.length = 0 ∨ 48 * 1024 < csr.length then
    stop (failure 400 "badCSR" "CSR is empty, too large, or not valid base64url")
  else match activeAccount cfg srv (env.clock.now 0) signed accountID with
  | .error p => stop p
  | .ok (_, activity) =>
  let refuse (p : Problem) : Except (Action crypto) Signing := .error (.reply activity (.problem p))
  match srv.state.orders.get id with
  | none => refuse (failure 404 "malformed" "order not found")
  | some o =>
  if o.accountID ≠ accountID then refuse (failure 404 "malformed" "order not found")
  else if o.status = .valid ∧ o.csr = csr then
    .error (.reply activity {
      status := 200
      body := .order (orderView cfg (env.clock.now 1) o)
      location := cfg.url (str "/order/" ++ id) })
  else if o.status ≠ .ready ∨ o.expires ≤ env.clock.now 1 then
    refuse (failure 403 "orderNotReady" "order is not ready for certificate issuance")
  else if maxRecords ≤ srv.state.certificates.size then
    refuse (failure 429 "rateLimited" "certificate storage capacity has been reached")
  else match authorizedNames srv.state env o.authIDs 0 with
  | none =>
    let p := failure 403 "unauthorized"
      "DHCP ownership changed or an authorization expired; create a new order"
    .error (.commit activity {
      next := srv.state.rejectOrder id o p
      now := env.clock.now 3
      answer := .respond (.problem p)
      retry := none })
  | some names => .ok ⟨activity, o, csr, names⟩

/-- The snapshot `finalize` commits for a signed certificate. -/
def State.issue (st : State) (id : GoString) (o : Order) (csr certID chain : GoString)
    (leaf : Leaf) : State :=
  { st with
    certificates := st.certificates.set certID {
      id := certID
      accountID := o.accountID
      orderID := id
      pem := chain
      serial := formatInt leaf.serialNumber
      notAfter := leaf.notAfter
      revokedAt := none
      reason := 0 }
    orders := st.orders.set id { o with
      status := .valid
      certificateID := certID
      csr
      expires := leaf.notAfter } }

/-- `Server.finalize`. -/
def finalize (srv : Server crypto) (env : Env) (signed : Request crypto)
    (accountID id : GoString) : Action crypto :=
  match prepareSigning cfg codec srv env signed accountID id with
  | .error action => action
  | .ok s =>
  match env.signCSR s.csr s.names with
  | .error (.invalidCSR detail) => .reply s.activity (.problem (failure 400 "badCSR" detail))
  | .error .failed => .reply s.activity internalError
  | .ok chain =>
  match crypto.parseLeaf chain with
  | none => .reply s.activity internalError
  | some leaf =>
  match env.randomID 0 with
  | none => .reply s.activity internalError
  | some certID => .commit s.activity {
      next := srv.state.issue id s.order s.csr certID chain leaf
      now := env.clock.now 3
      answer := .respond {
        status := 200
        body := .order (orderView cfg (env.clock.now 4) { s.order with
          status := .valid
          certificateID := certID
          csr := s.csr
          expires := leaf.notAfter })
        location := cfg.url (str "/order/" ++ id) }
      retry := none }

/-- `Server.getCertificate`. -/
def getCertificate (srv : Server crypto) (env : Env) (signed : Request crypto)
    (accountID id : GoString) : Action crypto :=
  let stop (p : Problem) : Action crypto := .reply srv.activity (.problem p)
  if signed.payload.length ≠ 0 then
    stop (failure 400 "malformed" "POST-as-GET requires an empty payload")
  else match activeAccount cfg srv (env.clock.now 0) signed accountID with
  | .error p => stop p
  | .ok (_, activity) =>
  match srv.state.certificates.get id with
  | none => .reply activity (.problem (failure 404 "malformed" "certificate not found"))
  | some c =>
  if c.accountID ≠ accountID then
    .reply activity (.problem (failure 404 "malformed" "certificate not found"))
  else .reply activity { status := 200, body := .certificate c.pem }

end

end InfraBox.Acme
