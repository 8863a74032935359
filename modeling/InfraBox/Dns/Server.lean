import InfraBox.Lease.Manager
import InfraBox.Dns.RecordName

/-!
# The DNS server

`internal/dnsserver/server.go`: the construction of a server, the lookup of local names, the choice
of a reverse zone, and the answers of `serveDNS` up to forwarding. A query consults the lease
manager through `LookupName`, `LookupIP` and `HasName`; the model evaluates all clock readings of
one query at one instant `now`, and a lookup leaves the manager as it was except for entries that
have expired at that instant.

The name functions of the DNS library are parameters (`NameLib`), and so are the checks of listener
addresses, which no answer depends on.
-/

namespace InfraBox.Dns

/-- The name functions of the DNS library. -/
structure NameLib where
  /-- `dns.NextLabel`: the start of the next label, and whether there is none. -/
  nextLabel : GoString → Nat → Nat × Bool
  /-- `dns.Fqdn`. -/
  fqdn : GoString → GoString
  /-- `dns.CanonicalName`. -/
  canonicalName : GoString → GoString
  /-- `dns.IsDomainName`, its second result. -/
  isDomainName : GoString → Bool
  /-- `dns.IsSubDomain(parent, child)`. -/
  isSubDomain : GoString → GoString → Bool
  /-- The next label starts further on. -/
  nextLabel_pos : ∀ s, s ≠ [] → 0 < (nextLabel s 0).1

/-- The checks of listener addresses: `validateAddress`, its error, and the test that the upstream
is this server's own listener. -/
structure ListenerLib where
  validateAddress : GoString → Bool → Option String
  pointsBack : GoString → GoString → Addr → Bool

/-- `Config`. -/
structure Config where
  address : GoString
  domain : GoString
  serverIP : Addr
  subnet : Prefix
  aRecords : FinMap GoString Addr
  upstream : GoString
  ttl : Int

/-- `Server`, without the registry. -/
structure Server where
  config : Config
  nsName : GoString
  gatewayName : GoString
  /-- The keys of the `staticNames` map. -/
  staticNames : List GoString
  ttl : Nat

/-! ## Construction -/

/-- `validDomain`. -/
def validDomain (domain : GoString) : Bool :=
  !(243 < domain.length || domain = [dot]) && validLabels (trimSuffix domain [dot])

/-- The loop of `normalizeARecords`. -/
def normalizeARecords (domain : GoString) :
    List (GoString × Addr) → FinMap GoString Addr → Except String (FinMap GoString Addr)
  | [], normalized => .ok normalized
  | (name, ip) :: rest, normalized =>
    let canonical := normalizeARecord name domain
    if canonical = [] then .error "DNS A record must be a valid hostname or leftmost wildcard"
    else if canonical = str "ns." ++ domain ∨ canonical = str "gateway." ++ domain then
      .error "DNS A record conflicts with a reserved infrastructure hostname"
    else if (normalized.get canonical).isSome then .error "DNS A record duplicates hostname"
    else if !ip.is4 || !ip.isGlobalUnicast then
      .error "DNS A record must have a unicast IPv4 address"
    else normalizeARecords domain rest (normalized.set canonical ip)

/-- The names the loop of `New` adds for one record: the record's own and its ancestors'. A step
removes at least one byte, so `fuel` is the length of the name. -/
def ancestors (lib : NameLib) : Nat → GoString → List GoString
  | 0, _ => []
  | fuel + 1, name =>
    if name = [dot] then []
    else name :: if (lib.nextLabel name 0).2 then []
      else ancestors lib fuel (name.drop (lib.nextLabel name 0).1)

/-- `math.MaxUint32`. -/
def maxUint32 : Int := 4294967295

/-- The server `New` builds from a checked configuration. -/
def build (lib : NameLib) (config : Config) : Server where
  config := config
  nsName := str "ns." ++ config.domain
  gatewayName := str "gateway." ++ config.domain
  staticNames :=
    [[dot], config.domain, str "ns." ++ config.domain, str "gateway." ++ config.domain] ++
      config.aRecords.keys.flatMap fun name => ancestors lib name.length name
  ttl := (config.ttl / second).toNat

/-- `New`, with a registry. -/
def new (lib : NameLib) (net : ListenerLib) (config : Config) : Except String Server :=
  match net.validateAddress config.address true with
  | some e => .error e
  | none =>
    let domain := toLower (lib.fqdn (trimSpace config.domain))
    if !validDomain domain then .error "DNS domain must be a valid non-root hostname"
    else match normalizeARecords domain config.aRecords.entries .empty with
      | .error e => .error e
      | .ok aRecords =>
        if !config.serverIP.is4 || !config.subnet.isValid || !config.subnet.addr.is4 ||
            !config.subnet.contains config.serverIP then
          .error "DNS server IP must be IPv4 and within the IPv4 subnet"
        else if config.ttl < 0 || maxUint32 < config.ttl / second then
          .error "DNS TTL must be between zero and 4294967295 seconds"
        else
          let built := build lib { config with domain, aRecords, subnet := config.subnet.masked }
          if config.upstream = [] then .ok built
          else match net.validateAddress config.upstream false with
            | some e => .error e
            | none =>
              if net.pointsBack config.address config.upstream config.serverIP then
                .error "DNS upstream must not point to this DNS listener"
              else .ok built

/-! ## Local names -/

open Leasing in
/-- `Server.leaseTTL`. -/
def Server.leaseTTL (s : Server) (now : Int) (entry : Lease) : Nat :=
  let remaining := entry.expiresAt - now
  if remaining ≤ 0 then 0 else min (remaining / second).toNat s.ttl

/-- `Server.hasName`. -/
def Server.hasName (s : Server) (registry : Leasing.Manager) (now : Int) (name : GoString) : Bool :=
  name ∈ s.staticNames || (registry.hasName now name).1

/-- The loop of `lookupLocalAddress` over the ancestors of a name that does not exist. It does not
return (`none`) when it never meets the domain; a step removes at least one byte of the name, so
`fuel` is its length. -/
def Server.wildcard (lib : NameLib) (s : Server) (registry : Leasing.Manager) (now : Int) :
    Nat → GoString → Option (Addr × Nat × Bool)
  | fuel, name =>
    if name = s.config.domain then some (.invalid, 0, false)
    else match fuel with
      | 0 => none
      | fuel + 1 =>
        let name := name.drop (lib.nextLabel name 0).1
        if s.hasName registry now name then
          match s.config.aRecords.get (str "*." ++ name) with
          | some address => some (address, s.ttl, true)
          | none => some (.invalid, s.ttl, false)
        else s.wildcard lib registry now fuel name

/-- `Server.lookupLocalAddress`: the address, its time to live, and whether the name exists. -/
def Server.lookupLocalAddress (lib : NameLib) (s : Server) (registry : Leasing.Manager) (now : Int)
    (name : GoString) : Option (Addr × Nat × Bool) :=
  if name = s.nsName ∨ name = s.gatewayName then some (s.config.serverIP, s.ttl, true)
  else match s.config.aRecords.get name with
    | some address => some (address, s.ttl, true)
    | none =>
      if name = s.config.domain then some (.invalid, 0, true)
      else match (registry.lookupName now name).1.filter fun entry => now < entry.expiresAt with
        | some entry => some (entry.ip, s.leaseTTL now entry, true)
        | none =>
          if s.hasName registry now name then some (.invalid, 0, true)
          else s.wildcard lib registry now name.length name

/-- The loop of `lookupExternalAddress`. -/
def Server.externalWildcard (lib : NameLib) (s : Server) : Nat → GoString → Option (Addr × GoString)
  | 0, _ => none
  | fuel + 1, name =>
    if name = [dot] then none
    else if (lib.nextLabel name 0).2 then none
    else
      let name := name.drop (lib.nextLabel name 0).1
      if name ∈ s.staticNames then (s.config.aRecords.get (str "*." ++ name)).map (·, name)
      else s.externalWildcard lib fuel name

/-- `Server.lookupExternalAddress`: the address and the zone of a configured override. -/
def Server.lookupExternalAddress (lib : NameLib) (s : Server) (name : GoString) :
    Option (Addr × GoString) :=
  match s.config.aRecords.get name with
  | some address => some (address, name)
  | none =>
    if name ∈ s.staticNames then none else s.externalWildcard lib name.length name

/-! ## Reverse zones -/

/-- The octet a label of a reverse name stands for: `ParseUint` accepts it and `FormatUint` gives
the label back. -/
def canonicalOctet (label : GoString) : Option Nat :=
  match parseUint8 label with
  | some n => if formatUint8 n = label then some n else none
  | none => none

/-- The suffix of reverse names. -/
def reverseSuffix : GoString := str "in-addr.arpa."

/-- The zone of the last `i + 1` labels before the suffix. -/
def reverseZone (labels : List GoString) (i : Nat) : GoString :=
  [dot].intercalate (labels.drop (labels.length - 1 - i)) ++ dot :: reverseSuffix

/-- The loop of `reverseAuthority` over the labels from the last one on. -/
def reverseScan (subnet : Prefix) (labels : List GoString) :
    List GoString → Nat → List Nat → GoString → GoString × Addr
  | [], _, _, zone => (zone, .invalid)
  | label :: rest, i, octets, zone =>
    match canonicalOctet label with
    | none => (zone, .invalid)
    | some n =>
      let octets := octets ++ [n]
      let zone := if zone = [] && subnet.bits ≤ (i + 1) * 8 && subnet.contains (.from4 octets)
        then reverseZone labels i else zone
      if i = 3 && labels.length = 4 then (zone, .from4 octets)
      else reverseScan subnet labels rest (i + 1) octets zone

/-- `Server.reverseAuthority`: the local reverse zone of a name, if it has one, and the address the
name is the reverse name of. -/
def Server.reverseAuthority (s : Server) (name : GoString) : Option (GoString × Addr) :=
  if ¬ dot :: reverseSuffix <:+ name then none
  else
    let labels := (trimSuffix name (dot :: reverseSuffix)).splitOn dot
    let (zone, ip) := reverseScan s.config.subnet labels (labels.reverse.take 4) 0 [] []
    if zone ≠ [] then some (zone, ip) else none

/-! ## Answers -/

/-- The resource records the server makes. -/
inductive Record where
  | a (owner : GoString) (ttl : Nat) (address : Addr)
  | ptr (owner : GoString) (ttl : Nat) (target : GoString)
  | ns (owner : GoString) (ttl : Nat) (target : GoString)
  | soa (owner : GoString) (ttl : Nat) (target mbox : GoString)
deriving DecidableEq

/-- The query types the server treats specially. -/
inductive Kind where
  | a | ns | soa | ptr | any | axfr | ixfr | other
deriving DecidableEq

/-- Response codes. -/
inductive Rcode where
  | success | formatError | nameError | notImplemented | refused | badVers
deriving DecidableEq

/-- The parts of a response that the server sets. -/
structure Response where
  rcode : Rcode
  authoritative : Bool
  answer : List Record
  authority : List Record
  extra : List Record
deriving DecidableEq

/-- The response `SetReply` starts from. -/
def Response.empty : Response := ⟨.success, false, [], [], []⟩

/-- `Server.soa`, with its time to live. -/
def Server.soa (s : Server) (zone : GoString) (ttl : Nat) : Record :=
  .soa zone ttl s.nsName (str "hostmaster." ++ s.config.domain)

/-- `Server.answerOverride`. -/
def Server.answerOverride (s : Server) (name : GoString) (kind : Kind) (zone : GoString)
    (address : Addr) : Response :=
  if kind = .a ∨ kind = .any then
    { Response.empty with authoritative := true, answer := [.a name s.ttl address] }
  else { Response.empty with authoritative := true, authority := [s.soa zone 0] }

/-- The address records of `answerLocal`: what it answers for a name of the forward zone, and
whether the name exists. -/
def Server.forwardAnswer (lib : NameLib) (s : Server) (registry : Leasing.Manager) (now : Int)
    (name : GoString) (kind : Kind) : Option (List Record × Bool) :=
  (s.lookupLocalAddress lib registry now name).map fun (address, ttl, found) =>
    (if address.isValid && (kind = .a || kind = .any) then [.a name ttl address] else [], found)

/-- The pointer records of `answerLocal`, and whether a lease or the server has the address. -/
def Server.reverseAnswer (s : Server) (registry : Leasing.Manager) (now : Int) (name : GoString)
    (kind : Kind) (ip : Addr) : List Record × Bool :=
  let pointer (ttl : Nat) (target : GoString) : List Record :=
    if kind = .ptr || kind = .any then [.ptr name ttl target] else []
  if !ip.isValid then ([], false)
  else if ip = s.config.serverIP then (pointer s.ttl s.nsName, true)
  else match (registry.lookupIP now ip).1 with
    | some entry =>
      if entry.hostname ≠ [] && now < entry.expiresAt then
        (pointer (s.leaseTTL now entry) entry.hostname, true)
      else ([], false)
    | none => ([], false)

/-- The records `answerLocal` adds at the apex of a zone. -/
def Server.apexAnswer (s : Server) (name : GoString) (kind : Kind) (zone : GoString) :
    List Record × List Record :=
  if name = zone then
    match kind with
    | .soa => ([s.soa zone s.ttl], [])
    | .ns => ([.ns name s.ttl s.nsName], [.a s.nsName s.ttl s.config.serverIP])
    | _ => ([], [])
  else ([], [])

/-- `Server.answerLocal`. -/
def Server.answerLocal (lib : NameLib) (s : Server) (registry : Leasing.Manager) (now : Int)
    (name : GoString) (kind : Kind) (zone : GoString) (ip : Addr) : Option Response :=
  let (apex, extra) := s.apexAnswer name kind zone
  let local_ := if zone = s.config.domain then s.forwardAnswer lib registry now name kind
    else
      let (records, found) := s.reverseAnswer registry now name kind ip
      some (records, found || name = zone)
  local_.map fun (records, exist) =>
    { rcode := if exist then .success else .nameError
      authoritative := true
      answer := apex ++ records
      authority := if apex ++ records = [] then [s.soa zone 0] else []
      extra := extra }

/-- The parts of a request that `serveDNS` reads. -/
structure Request where
  response : Bool
  /-- The version of its EDNS0 record, if it has one. -/
  edns : Option Nat
  /-- The opcode is a query. -/
  query : Bool
  /-- The number of questions. -/
  questions : Nat
  /-- The first question: its name, its type, and whether its class is the Internet's. -/
  name : GoString
  kind : Kind
  internet : Bool
  /-- The request carries a TSIG record. -/
  tsig : Bool
  recursionDesired : Bool

/-- What `serveDNS` does with a request. -/
inductive Outcome where
  | ignored
  | reply (r : Response)
  | forwarded
deriving DecidableEq

/-- A response that only reports an error. -/
def Outcome.fail (rcode : Rcode) : Outcome := .reply { Response.empty with rcode }

/-- The default case of `serveDNS`: the answer for a canonical name. -/
def Server.answerName (lib : NameLib) (s : Server) (registry : Leasing.Manager) (now : Int)
    (name : GoString) (kind : Kind) (recursionDesired : Bool) : Option Outcome :=
  if !lib.isDomainName name then some (.fail .formatError)
  else if lib.isSubDomain s.config.domain name then
    (s.answerLocal lib registry now name kind s.config.domain .invalid).map .reply
  else match s.reverseAuthority name with
    | some (zone, ip) => (s.answerLocal lib registry now name kind zone ip).map .reply
    | none => match s.lookupExternalAddress lib name with
      | some (address, zone) => some (.reply (s.answerOverride name kind zone address))
      | none =>
        if s.config.upstream ≠ [] && recursionDesired then some .forwarded
        else some (.fail .refused)

/-- `Server.serveDNS`, up to writing the response; `none` when it does not return. -/
def Server.serveDNS (lib : NameLib) (s : Server) (registry : Leasing.Manager) (now : Int)
    (request : Request) : Option Outcome :=
  if request.response then some .ignored
  else if request.edns.any (· ≠ 0) then some (.fail .badVers)
  else if !request.query then some (.fail .notImplemented)
  else if request.questions ≠ 1 then some (.fail .formatError)
  else if !request.internet || request.tsig then some (.fail .refused)
  else if request.kind = .axfr ∨ request.kind = .ixfr then some (.fail .refused)
  else s.answerName lib registry now (lib.canonicalName request.name) request.kind
    request.recursionDesired

end InfraBox.Dns
