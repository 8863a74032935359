import InfraBox.Lib.Base64
import InfraBox.Lib.Decimal
import InfraBox.Lib.FinMap
import InfraBox.Lib.Time
import InfraBox.Net.Addr

/-!
# The ACME server: its data

The records of `internal/acmeserver/types.go`, the responses of the handlers, and what the server
is given: the signed requests, the clock, the lease registry, the signing authority and the decoders
of the formats it reads. Reading a map at a missing key gives the zero value, as in the source; here
that is `(m.get k).getD default`.
-/

namespace InfraBox.Acme

def maxAccounts : Nat := 4096
def maxAccountOrders : Nat := 32
def maxLeaseAccounts : Nat := 8
def maxLeaseOrders : Nat := 32
def accountIdleLifetime : Int := 30 * (24 * hour)
def accountRateWindow : Int := 24 * hour
def orderRateWindow : Int := hour
def maxRecords : Nat := 10000
def maxIdentifiers : Nat := 16
def orderLifetime : Int := 24 * hour

/-! ## Records -/

/-- The status texts of the records; `other` is any other text. -/
inductive Status where
  | pending
  | processing
  | ready
  | valid
  | invalid
  | deactivated
  | expired
  | other (text : GoString)
deriving DecidableEq

/-- The zero value is the empty text. -/
instance : Inhabited Status := ⟨.other []⟩

/-- `problem`. -/
structure Problem where
  type : String
  detail : String
  status : Nat
  algorithms : List String
deriving DecidableEq

/-- `failure`. -/
def failure (status : Nat) (kind detail : String) : Problem where
  type := "urn:ietf:params:acme:error:" ++ kind
  detail := detail
  status := status
  algorithms := if kind = "badSignatureAlgorithm" then
    ["ES256", "ES384", "ES512", "RS256", "RS384", "RS512", "PS256", "PS384", "PS512", "EdDSA"]
    else []

/-- `identifier`. -/
structure Identifier where
  type : GoString
  value : GoString
deriving DecidableEq, Inhabited

/-- `acmevalidate.Target`: the DHCP client and the address that proved an authorization. -/
structure Target where
  ip : Addr
  clientID : GoString
deriving DecidableEq, Inhabited

/-- `account`. The key is given by its encoding; the zero key has the empty one. -/
structure Account where
  id : GoString
  key : GoString
  thumbprint : GoString
  status : Status
  contact : List GoString
  lastActive : Int
  recentOrders : List Int
deriving DecidableEq, Inhabited

/-- `order`. -/
structure Order where
  id : GoString
  accountID : GoString
  status : Status
  expires : Int
  identifiers : List Identifier
  authIDs : List GoString
  certificateID : GoString
  csr : GoString
  error : Option Problem
deriving DecidableEq, Inhabited

/-- `authorization`. -/
structure Authorization where
  id : GoString
  accountID : GoString
  orderID : GoString
  name : GoString
  status : Status
  expires : Int
  token : GoString
  challengeStatus : Status
  validated : Option Int
  target : Target
  error : Option Problem
deriving DecidableEq, Inhabited

/-- `certificate`. -/
structure Certificate where
  id : GoString
  accountID : GoString
  orderID : GoString
  pem : GoString
  serial : GoString
  notAfter : Int
  revokedAt : Option Int
  reason : Int
deriving DecidableEq, Inhabited

/-- `leaseLimit`. -/
structure LeaseLimit where
  accounts : List Int
  orders : List Int
deriving DecidableEq, Inhabited

/-- `state`. -/
@[ext]
structure State where
  leaseLimits : FinMap GoString LeaseLimit
  version : Int
  domain : GoString
  rootFingerprint : GoString
  accounts : FinMap GoString Account
  orders : FinMap GoString Order
  authorizations : FinMap GoString Authorization
  certificates : FinMap GoString Certificate
  crl : GoString
  crlNumber : Int
  crlNextUpdate : Int
deriving DecidableEq

/-! ## Certificates and revocation lists -/

/-- The fields of an `x509.Certificate` that are read; `otherNames` is the number of its names that
are not DNS names. -/
structure Leaf where
  raw : GoString
  serialNumber : Int
  notAfter : Int
  isCA : Bool
  dnsNames : List GoString
  otherNames : Nat
  publicKey : GoString
deriving DecidableEq

/-- `x509.RevocationListEntry`. -/
structure RevocationEntry where
  serialNumber : Int
  revocationTime : Int
  reasonCode : Int
deriving DecidableEq

/-- The fields of an `x509.RevocationList` that are read. -/
structure RevocationList where
  number : Option Int
  nextUpdate : Int
  entries : List RevocationEntry
deriving DecidableEq

/-- Keys, certificates and revocation lists, as `acmeauth.Thumbprint`, `jose` and `x509` read them.
The signature checks are against the root certificate of the server. -/
structure Crypto where
  thumbprint : GoString → Option GoString
  /-- The zero key is no public key. -/
  thumbprint_zero : thumbprint [] = none
  isPublic : GoString → Bool
  /-- The type and the bytes of the first block of a PEM text. -/
  pemDecode : GoString → Option (GoString × GoString)
  parseCertificate : GoString → Option Leaf
  leafSigned : Leaf → Bool
  parseRevocationList : GoString → Option RevocationList
  listSigned : RevocationList → Bool

/-- `parseLeaf`. -/
def Crypto.parseLeaf (crypto : Crypto) (chain : GoString) : Option Leaf :=
  match crypto.pemDecode chain with
  | none => none
  | some (type, bytes) => if type ≠ str "CERTIFICATE" then none else crypto.parseCertificate bytes

/-! ## Requests -/

/-- `acmeauth.Request`, which only `verify` makes: the thumbprint is that of the key. An empty
`keyID` identifies a request signed with an embedded key. -/
structure Request (crypto : Crypto) where
  payload : GoString
  key : GoString
  keyID : GoString
  thumbprint : GoString
  verified : crypto.thumbprint key = some thumbprint

/-- `accountInput`; `contact` and `status` are raw JSON. -/
structure AccountInput where
  contact : GoString
  status : GoString
  onlyReturnExisting : Bool
deriving Inhabited

/-- The payload of a new order. -/
structure OrderInput where
  identifiers : List Identifier
  notBefore : GoString
  notAfter : GoString

/-- The payload of a key change. -/
structure KeyChangeInput where
  account : GoString
  oldKey : GoString

/-- The payload of a revocation. -/
structure RevocationInput where
  certificate : GoString
  reason : Int

/-- The fields of a parsed `url.URL` that are read. -/
structure ContactURL where
  scheme : GoString
  opaquePart : GoString
  rawQuery : GoString
  forceQuery : Bool
  fragment : GoString
  host : GoString
  hasUser : Bool

/-- The decoders of the formats the handlers read. Each JSON decoder reads exactly one value that
is not `null`. -/
structure Codec (crypto : Crypto) where
  accountInput : GoString → Option AccountInput
  orderInput : GoString → Option OrderInput
  keyChangeInput : GoString → Option KeyChangeInput
  revocationInput : GoString → Option RevocationInput
  /-- The `status` member of an object. -/
  statusMember : GoString → Option GoString
  /-- The `csr` member of an object. -/
  csrMember : GoString → Option GoString
  /-- The number of members of an object. -/
  members : GoString → Option Nat
  /-- A JSON string. -/
  text : GoString → Option GoString
  /-- A JSON array of strings. -/
  texts : GoString → Option (List GoString)
  parseURL : GoString → Option ContactURL
  pathUnescape : GoString → Option GoString
  /-- The display name of a mail address. -/
  mailName : GoString → Option GoString
  base64Decode : GoString → Option GoString
  /-- `acmeauth.VerifyKeyChange`, given the expected URL. -/
  verifyKeyChange : GoString → GoString → Except Problem (Request crypto)

/-- `decodePayload`. -/
def decodePayload {α : Type} (decode : GoString → Option α) (data : GoString) : Option α :=
  if data = [] then none else decode data

/-! ## What a handler is given -/

/-- The clock readings of one handler: `read p i` is the `i`-th reading at the point `p` of its
text. Points are numbered in the order they are passed, so later readings are not smaller. All are
after the zero time. -/
structure Clock where
  read : Nat → Nat → Int
  pos : ∀ p i, 0 < read p i
  mono : ∀ p i p' i', (p < p' ∨ p = p' ∧ i ≤ i') → read p i ≤ read p' i'

/-- The reading at a point that is passed once. -/
def Clock.now (c : Clock) (p : Nat) : Int := c.read p 0

/-- Why `SignCSR` fails. -/
inductive SignError where
  | invalidCSR (detail : String)
  | failed

/-- How a `commit` ends: before the rename, after it because the directory cannot be synced, or
without an error. -/
inductive Outcome where
  | failedBefore
  | failedAfter
  | committed
deriving DecidableEq

/-- What one handler gets from outside. -/
structure Env where
  clock : Clock
  /-- The result of the `i`-th `validator.Lookup`. -/
  lookup : Nat → GoString → Option Target
  /-- The bytes the calls of `rand.Read` return, in order; it fails after the last. -/
  random : List GoString
  signCSR : GoString → List GoString → Except SignError GoString
  createCRL : List RevocationEntry → Int → Option GoString
  outcome : Outcome
  /-- The validation slots held by handlers that have not returned yet, besides those that wait for
  the validator. -/
  busy : Nat

/-- `randomID`, the `i`-th call. -/
def Env.randomID (env : Env) (i : Nat) : Option GoString := env.random[i]?.map base64Encode

/-- The fields of `Config` the handlers read. -/
structure Config where
  baseURL : GoString
  domain : GoString
  rootFingerprint : GoString

/-- `Server.url`. -/
def Config.url (cfg : Config) (path : GoString) : GoString := cfg.baseURL ++ path

/-! ## Responses -/

/-- `accountView`. -/
structure AccountView where
  status : Status
  contact : List GoString
  orders : GoString
deriving DecidableEq

/-- `orderView`. -/
structure OrderView where
  status : Status
  expires : Int
  identifiers : List Identifier
  authorizations : List GoString
  finalize : GoString
  certificate : Option GoString
  error : Option Problem
deriving DecidableEq

/-- `challengeView`, of an HTTP-01 challenge. -/
structure ChallengeView where
  url : GoString
  status : Status
  token : GoString
  validated : Option Int
  error : Option Problem
deriving DecidableEq

/-- `authorizationView`. -/
structure AuthorizationView where
  status : Status
  expires : Int
  identifier : Identifier
  challenge : ChallengeView
deriving DecidableEq

/-- The body of a response. -/
inductive Body where
  | none
  | problem (p : Problem)
  | account (view : AccountView)
  | accountOrders (urls : List GoString)
  | order (view : OrderView)
  | authorization (view : AuthorizationView)
  | challenge (view : ChallengeView)
  | certificate (pem : GoString)
  | crl (der : GoString)
deriving DecidableEq

/-- What a handler writes. -/
structure Response where
  status : Nat
  body : Body
  location : Option GoString := .none
  retryAfter : Option Int := .none
deriving DecidableEq

/-- `writeProblem`. -/
def Response.problem (p : Problem) : Response := { status := p.status, body := .problem p }

/-- `internalError`. -/
def internalError : Response :=
  .problem
    (failure 500 "serverInternal" "the certificate authority could not complete the operation")

/-- `rateLimited`. -/
def rateLimited (retry : Int) (detail : String) : Response :=
  { Response.problem (failure 429 "rateLimited" detail) with
    retryAfter := some (max 1 ((retry + second - 1).tdiv second)) }

end InfraBox.Acme
