import InfraBox.Ldap.Filter

/-!
# The LDAP server

One connection of `internal/ldapserver`: `bind`, `search` and the loop of `handleConnection`. What
the surroundings do while a message is handled (cancellation, a free slot for a password check,
failing writes, time limits) is given with the message (`Env`).
-/

namespace InfraBox.Ldap

def maxBindAttempts : Nat := 20

def maxSearchResults : Int := 1000

/-- SHA-256 and bcrypt. -/
structure Hashes where
  sha256 : GoString → GoString
  compareBcrypt : GoString → GoString → Bool

/-- `Server`. -/
structure Server where
  lib : DnLib
  hashes : Hashes
  directory : Directory

/-- What `New` makes of a configuration. -/
def Server.new (lib : DnLib) (hashes : Hashes) (cfg : LDAPConfig) : Option Server :=
  (buildDirectory lib cfg).map fun directory => ⟨lib, hashes, directory⟩

/-- How a password check gets its slot. -/
inductive Slot where
  | free | busy | cancelled
deriving DecidableEq

/-- What happens while a message is handled. Writes and entries are counted from zero. -/
structure Env where
  /-- The server is shutting down when the message would be read. -/
  cancelled : Bool
  slot : Slot
  /-- The write succeeds. -/
  written : Nat → Bool
  /-- The server is shutting down when the entry is looked at. -/
  stopped : Nat → Bool
  /-- The time limit has passed when the entry is looked at. -/
  expired : Nat → Bool

/-- A reply: the messages that were written, and whether the connection goes on. -/
abbrev Reply := List Packet × Bool

/-- `writeResult`, as the `n`-th write of a request. -/
def writeResult (env : Env) (n : Nat) (id : Int) (tag : Nat) (code : ResultCode) (text : String) :
    Reply :=
  if env.written n then ([message id (resultOp tag code (str text))], true) else ([], false)

/-! ## Bind -/

/-- The password of an account is right. -/
def Account.valid (hashes : Hashes) (user : Account) (password : GoString) : Bool :=
  if user.bcrypt ≠ [] then password.length ≤ 72 && hashes.compareBcrypt user.bcrypt password
  else hashes.sha256 password = user.sha256

/-- The loop of `bind` over the accounts: the first enabled one with the name decides. -/
def Server.authenticate (s : Server) (dn : DN) (password : GoString) : ResultCode × Bool :=
  match s.directory.users.find? fun user => s.lib.equalFold user.dn dn && !user.disabled with
  | some user =>
    if user.valid s.hashes password then (.success, user.canSearch)
    else (.invalidCredentials, false)
  | none => (.invalidCredentials, false)

/-- `Server.bind`. -/
def Server.bind (s : Server) (env : Env) (op : Packet) : ResultCode × Bool :=
  match op.children with
  | [version, name, auth] =>
    if op.kind ≠ .constructed then (.protocolError, false)
    else if integer version tagInteger ≠ some 3 || !octetString name then (.protocolError, false)
    else if auth.class' ≠ .context || auth.kind ≠ .primitive || auth.tag ≠ 0 then
      (.authMethodNotSupported, false)
    else if name.data = [] && auth.data = [] then (.success, false)
    else if name.data = [] || auth.data = [] || 1024 < auth.data.length then
      (.invalidCredentials, false)
    else match s.lib.parse name.data with
      | none => (.invalidCredentials, false)
      | some dn =>
        match env.slot with
        | .cancelled => (.unavailable, false)
        | .busy => (.busy, false)
        | .free => s.authenticate dn auth.data
  | _ => (.protocolError, false)

/-! ## Search -/

/-- A search that is carried out. -/
structure SearchArgs where
  base : DN
  scope : Int
  size : Int
  typesOnly : Bool
  filter : EntryFilter
  attributes : List GoString
  /-- The search is for the root DSE. -/
  root : Bool

/-- `integer` with bounds. -/
def boundedInteger (p : Packet) (tag : Nat) (inBounds : Int → Bool) : Option Int :=
  (integer p tag).filter inBounds

/-- The checks of `search`, up to the point where the entries are looked at. -/
def checkSearch (lib : DnLib) (canSearch : Bool) (op : Packet) :
    Except (ResultCode × String) SearchArgs :=
  match op.children with
  | [base, scope, deref, size, seconds, typesOnly, filter, attributes] =>
    if op.kind ≠ .constructed || !octetString base then
      .error (.protocolError, "malformed search request")
    else match boundedInteger scope tagEnumerated fun n => 0 ≤ n && n ≤ 2,
        boundedInteger deref tagEnumerated fun n => 0 ≤ n && n ≤ 3,
        boundedInteger size tagInteger fun n => 0 ≤ n,
        boundedInteger seconds tagInteger fun n => 0 ≤ n with
      | some scope, some _, some size, some _ =>
        if !isPacket typesOnly .universal .primitive tagBoolean ||
            !isPacket attributes .universal .constructed tagSequence then
          .error (.protocolError, "malformed search request")
        else match lib.parse base.data with
          | none => .error (.invalidDNSyntax, "invalid search base")
          | some base =>
            let root := base.rdns.isEmpty && scope = 0
            if !root && !canSearch then
              .error (.insufficientAccessRights, "directory search requires an authorized bind")
            else match compileFilter lib filter with
              | none => .error (.inappropriateMatching, "unsupported or malformed filter")
              | some filter =>
                if !attributes.children.all octetString then
                  .error (.protocolError, "malformed attribute selection")
                else .ok ⟨base, scope, size, typesOnly.isTrue, filter,
                  attributes.children.map Packet.data, root⟩
      | _, _, _, _ => .error (.protocolError, "malformed search request")
  | _ => .error (.protocolError, "malformed search request")

/-- The entry is in the scope of the search. -/
def SearchArgs.inScope (lib : DnLib) (args : SearchArgs) (e : Entry) : Bool :=
  if args.scope ≠ 0 && lib.ancestorOfFold args.base e.parsedDN then
    args.scope = 2 || e.parsedDN.rdns.length = args.base.rdns.length + 1
  else if args.scope = 1 then false
  else lib.equalFold e.parsedDN args.base

/-- The limit on the number of entries sent. -/
def SearchArgs.limit (args : SearchArgs) : Int :=
  if 0 < args.size ∧ args.size < maxSearchResults then args.size else maxSearchResults

/-- The loop of `search`, at the `i`-th entry with `count` entries sent. -/
def sendEntries (lib : DnLib) (env : Env) (id : Int) (args : SearchArgs) :
    Nat → Nat → List Entry → Reply
  | i, count, [] =>
    if env.expired i then
      writeResult env count id searchResultDone .timeLimitExceeded "search time limit exceeded"
    else writeResult env count id searchResultDone .success ""
  | i, count, e :: rest =>
    if env.stopped i then ([], false)
    else if env.expired i then
      writeResult env count id searchResultDone .timeLimitExceeded "search time limit exceeded"
    else if !args.inScope lib e || args.filter e ≠ .isTrue then
      sendEntries lib env id args (i + 1) count rest
    else if (count : Int) = args.limit then
      writeResult env count id searchResultDone .sizeLimitExceeded "search size limit exceeded"
    else if env.written count then
      let (sent, ok) := sendEntries lib env id args (i + 1) (count + 1) rest
      (message id (e.packet lib args.attributes args.typesOnly) :: sent, ok)
    else ([], false)

/-- The entries a search looks at. -/
def Server.searched (s : Server) (args : SearchArgs) : List Entry :=
  if args.root then [rootDSE s.lib s.directory.baseDN] else s.directory.entries

/-- `Server.search`. -/
def Server.search (s : Server) (env : Env) (id : Int) (op : Packet) (canSearch : Bool) : Reply :=
  match checkSearch s.lib canSearch op with
  | .error (code, text) => writeResult env 0 id searchResultDone code text
  | .ok args =>
    if !(s.searched args).any fun e => s.lib.equalFold e.parsedDN args.base then
      writeResult env 0 id searchResultDone .noSuchObject "search base does not exist"
    else sendEntries s.lib env id args 0 0 (s.searched args)

/-! ## Connections -/

/-- The variables of `handleConnection`. -/
structure Session where
  canSearch : Bool
  attempts : Nat
deriving DecidableEq

def Session.start : Session := ⟨false, 0⟩

/-- A message, and what happens while it is handled. -/
structure Input where
  packet : Packet
  env : Env

/-- The connection goes on after a reply, unless it could not be written. -/
def Session.after (session : Session) (reply : Reply) : List Packet × Option Session :=
  (reply.1, if reply.2 then some session else none)

/-- The loop body of `handleConnection`: what is written, and the state of the connection unless it
is closed. -/
def Server.handle (s : Server) (session : Session) (input : Input) :
    List Packet × Option Session :=
  let env := input.env
  if env.cancelled then ([], none)
  else match requestEnvelope input.packet with
    | none => ([], none)
    | some (id, op) =>
      if op.tag = unbindRequest then ([], none)
      else if op.tag = abandonRequest then ([], some session)
      else match responseType op.tag with
        | none => ([], none)
        | some responseTag =>
          -- every bind resets the authorization
          let session := if op.tag = bindRequest then { session with canSearch := false }
            else session
          let code := validateControls input.packet
          if code ≠ .success then
            session.after (writeResult env 0 id responseTag code
              "unsupported or malformed controls")
          else if op.tag = bindRequest then
            let attempts := session.attempts + 1
            if maxBindAttempts < attempts then
              ((writeResult env 0 id responseTag .adminLimitExceeded
                "bind attempt limit exceeded").1, none)
            else
              let (code, allowed) := s.bind env op
              Session.after ⟨allowed, attempts⟩ (writeResult env 0 id responseTag code "")
          else if op.tag = searchRequest then
            session.after (s.search env id op session.canSearch)
          else
            session.after (writeResult env 0 id responseTag .unwillingToPerform
              "directory is read-only; operation is unsupported")

/-- The output of a connection, message by message. -/
def Server.serve (s : Server) : Session → List Input → List (List Packet)
  | _, [] => []
  | session, input :: rest =>
    match s.handle session input with
    | (output, none) => [output]
    | (output, some session) => output :: s.serve session rest

/-! ## A sample -/

/-- Passwords that are their own hashes. -/
def sampleHashes : Hashes where
  sha256 password := password
  compareBcrypt hash password := hash = password

/-- The server of a configuration. -/
def sampleServer (cfg : LDAPConfig) : Server :=
  ⟨sampleLib, sampleHashes, (buildDirectory sampleLib cfg).getD ⟨[], [], []⟩⟩

/-- Nothing goes wrong while a message is handled. -/
def sampleEnv : Env := ⟨false, .free, fun _ => true, fun _ => false, fun _ => false⟩

end InfraBox.Ldap
