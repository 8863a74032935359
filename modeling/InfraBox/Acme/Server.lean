import InfraBox.Acme.Revocation
import InfraBox.Lib.Run

/-!
# The ACME server as a process

The handlers as one function of the server, and the process around it: calls in any order, results
of validations arriving at any later time, crashes, and starts from the file. Every handler runs
under one lock between two waits, so an interleaving of handlers is a sequence of these steps. The
lease registry, the random source, the clock, the signing authority and the file system answer each
handler as they like (`Env`), except that identifiers are fresh, the clock does not go back and a
snapshot is written only if it can be encoded (`Action.allows`).
-/

namespace InfraBox.Acme

/-- The handlers with the arguments `ServeHTTP` passes. -/
inductive Op (crypto : Crypto) where
  | newAccount (signed : Request crypto) (source : GoString)
  | account (signed : Request crypto) (accountID id : GoString)
  | accountOrders (signed : Request crypto) (accountID id : GoString)
  | keyChange (signed : Request crypto) (accountID : GoString)
  | newOrder (signed : Request crypto) (accountID source : GoString)
  | getOrder (signed : Request crypto) (accountID id : GoString)
  | getAuthorization (signed : Request crypto) (accountID id : GoString)
  | challenge (signed : Request crypto) (accountID id : GoString)
  | finalize (signed : Request crypto) (accountID id : GoString)
  | getCertificate (signed : Request crypto) (accountID id : GoString)
  | revokeCertificate (signed : Request crypto)
  | serveCRL (head : Bool)

section
variable (cfg : Config) {crypto : Crypto} (codec : Codec crypto)

/-- What a handler does. -/
def Op.action (srv : Server crypto) (env : Env) : Op crypto → Action crypto
  | .newAccount signed source => Acme.newAccount cfg codec srv env signed source
  | .account signed accountID id => Acme.account cfg codec srv env signed accountID id
  | .accountOrders signed accountID id => Acme.accountOrders cfg srv env signed accountID id
  | .keyChange signed accountID => Acme.keyChange cfg codec srv env signed accountID
  | .newOrder signed accountID source => Acme.newOrder cfg codec srv env signed accountID source
  | .getOrder signed accountID id => Acme.getOrder cfg srv env signed accountID id
  | .getAuthorization signed accountID id =>
    Acme.getAuthorization cfg codec srv env signed accountID id
  | .challenge signed accountID id => Acme.challenge cfg codec srv env signed accountID id
  | .finalize signed accountID id => Acme.finalize cfg codec srv env signed accountID id
  | .getCertificate signed accountID id => Acme.getCertificate cfg srv env signed accountID id
  | .revokeCertificate signed => Acme.revokeCertificate cfg codec srv env signed
  | .serveCRL head => Acme.serveCRL srv env head

/-! ## The process -/

/-- The file, the server if one runs, the time, and the random identifiers drawn so far. -/
structure Process (crypto : Crypto) where
  disk : Option State
  server : Option (Server crypto)
  clock : Int
  ids : List GoString

/-- Before the first start. -/
def Process.initial (start : Int) : Process crypto := ⟨none, none, start, []⟩

/-- The identifiers a handler may draw. -/
def Env.ids (env : Env) : List GoString := env.random.map base64Encode

/-- The readings of a handler that runs between two times. -/
def Env.Within (env : Env) (lo hi : Int) : Prop :=
  ∀ p i, lo ≤ env.clock.read p i ∧ env.clock.read p i ≤ hi

/-- The random identifiers are made of 24 bytes, differ, and were never drawn before. -/
structure Env.Fresh (env : Env) (ids : List GoString) : Prop where
  length : ∀ data ∈ env.random, data.length = 24
  nodup : env.ids.Nodup
  unused : ∀ id ∈ env.ids, id ∉ ids

/-- What happens: a handler runs, the validator returns, the process dies, or one starts. -/
inductive Label (crypto : Crypto) where
  | call (op : Op crypto) (env : Env) (answer : Answer crypto)
  | result (t : Ticket crypto) (result : Option Target) (env : Env) (answer : Answer crypto)
  | crash
  | start (env : Env) (modTime : Int)

/-- The surroundings of the handler that runs. -/
def Label.env : Label crypto → Option Env
  | .call _ env _ => some env
  | .result _ _ env _ => some env
  | .crash => none
  | .start env _ => some env

/-- The steps of the process. -/
inductive Step : Process crypto → Label crypto → Process crypto → Prop
  | call {disk disk' : Option State} {srv srv' : Server crypto} {clock now : Int}
      {ids : List GoString} {op : Op crypto} {env : Env} {answer : Answer crypto} :
      env.Within clock now → env.Fresh ids →
      (op.action cfg codec srv env).allows env.outcome →
      srv.perform disk env.outcome (op.action cfg codec srv env) = (answer, srv', disk') →
      Step ⟨disk, some srv, clock, ids⟩ (.call op env answer)
        ⟨disk', some srv', now, env.ids ++ ids⟩
  | result {disk disk' : Option State} {st : State} {activity : FinMap GoString Int}
      {earlier later : List (Ticket crypto)} {t : Ticket crypto} {srv' : Server crypto}
      {clock now : Int} {ids : List GoString} {result : Option Target} {env : Env}
      {answer : Answer crypto} :
      env.Within clock now → env.Fresh ids →
      (challengeResult cfg ⟨st, activity, earlier ++ later⟩ env t result).allows env.outcome →
      (⟨st, activity, earlier ++ later⟩ : Server crypto).perform disk env.outcome
        (challengeResult cfg ⟨st, activity, earlier ++ later⟩ env t result) =
          (answer, srv', disk') →
      Step ⟨disk, some ⟨st, activity, earlier ++ t :: later⟩, clock, ids⟩
        (.result t result env answer) ⟨disk', some srv', now, env.ids ++ ids⟩
  | crash {p : Process crypto} : Step p .crash { p with server := none }
  | start {disk disk' : Option State} {server : Option (Server crypto)} {clock now : Int}
      {ids : List GoString} {env : Env} {modTime : Int} :
      env.Within clock now → env.Fresh ids →
      newServer cfg crypto env modTime disk = (server, disk') →
      Step ⟨disk, none, clock, ids⟩ (.start env modTime) ⟨disk', server, now, env.ids ++ ids⟩

end

end InfraBox.Acme
