import InfraBox.Dns.Server

/-!
# The configuration

`fileSettings.config` (`internal/config/config.go`, `records.go`), and how `main` builds the lease
manager and the DNS server from its result. The parsers of addresses, prefixes and durations are
parameters (`Parsers`). The validation of the NFS shares and of the LDAP section belongs to those
services; here a settings value carries its outcome.
-/

namespace InfraBox.Config

/-! ## Checks -/

/-- A check that fails with a message. -/
def require (ok : Bool) (message : String) : Except String Unit :=
  if ok then .ok () else .error message

theorem require_eq_ok {ok : Bool} {message : String} {u : Unit} :
    require ok message = .ok u ↔ ok = true := by
  cases ok <;> simp [require]

theorem bind_eq_ok {α β : Type} {x : Except String α} {f : α → Except String β} {b : β} :
    (x >>= f) = .ok b ↔ ∃ a, x = .ok a ∧ f a = .ok b := by
  cases x <;> simp [bind, Except.bind]

/-- `netip.ParseAddr`, `netip.ParsePrefix` and `time.ParseDuration`. -/
structure Parsers where
  addr : GoString → Option Addr
  subnet : GoString → Option Prefix
  duration : GoString → Option Int

/-- `fileSettings`: the values of the configuration file. -/
structure FileSettings where
  interface : GoString
  serverIP : GoString
  subnet : GoString
  poolStart : GoString
  poolEnd : GoString
  router : GoString
  domain : GoString
  aRecords : FinMap GoString GoString
  leaseDuration : GoString
  dnsTTL : GoString
  leaseFile : GoString
  upstream : GoString
  bootDirectory : GoString
  caDirectory : GoString
  acmeStateFile : GoString
  /-- What `ValidateNFSShares` reports. -/
  nfsError : Option String
  /-- What `LDAPConfig.Validate` reports, given the domain its default base DN is made from. -/
  ldapError : GoString → Option String
  /-- What `validateListeners` reports, given the server's address. -/
  listenerError : Addr → Option String

/-- The addresses of `Config`. -/
structure Network where
  serverIP : Addr
  subnet : Prefix
  poolStart : Addr
  poolEnd : Addr
  /-- The zero `Addr` when there is none. -/
  router : Addr

/-- The fields of `Config` that the lease manager and the DNS server are built from. -/
structure BoxConfig extends Network where
  domain : GoString
  aRecords : FinMap GoString Addr
  leaseDuration : Int
  dnsTTL : Int
  leaseFile : GoString
  upstream : GoString

/-! ## Addresses -/

/-- `parseIPv4`. -/
def parseIPv4 (p : Parsers) (name : String) (value : GoString) : Except String Addr :=
  if value = [] then .error (name ++ " is required")
  else match p.addr value with
    | none => .error (name ++ " must be a numeric ipv4 address")
    | some addr =>
      if !addr.is4 then .error (name ++ " must be a numeric ipv4 address")
      else if !addr.isGlobalUnicast then .error (name ++ " must be a unicast host address")
      else .ok addr

/-- Only global unicast addresses of IPv4 are taken. -/
theorem parseIPv4_ok {p : Parsers} {name : String} {value : GoString} {a : Addr}
    (h : parseIPv4 p name value = .ok a) : a.is4 = true ∧ a.isGlobalUnicast = true := by
  simp only [parseIPv4] at h
  split at h
  · cases h
  split at h
  · cases h
  split at h
  · cases h
  next h4 =>
  split at h
  · cases h
  next hg =>
  cases h
  exact ⟨by simpa using h4, by simpa using hg⟩

/-- The broadcast address of `validateNetwork`: the network address with all host bits set. -/
def broadcast (subnet : Prefix) : Addr :=
  match subnet.addr with
  | .v4 a => .v4 (a ||| BitVec.allOnes 32 >>> subnet.bits)
  | _ => .invalid

/-- The loop body of `validateNetwork`. -/
def hostAddress (subnet : Prefix) (name : String) (addr : Addr) : Except String Unit := do
  require (subnet.contains addr) (name ++ " must belong to subnet")
  require (!(addr = subnet.addr || addr = broadcast subnet))
    (name ++ " cannot be the subnet network or broadcast address")

/-- The router is checked when there is one. -/
def routerAddress (subnet : Prefix) (router : Addr) : Except String Unit :=
  if router.isValid then hostAddress subnet "router" router else .ok ()

/-- `Config.inPool`. -/
def Network.inPool (n : Network) (addr : Addr) : Bool := n.poolStart ≤ addr && addr ≤ n.poolEnd

/-- `Config.validateNetwork`. -/
def Network.validate (n : Network) : Except String Unit := do
  hostAddress n.subnet "server_ip" n.serverIP
  hostAddress n.subnet "pool_start" n.poolStart
  hostAddress n.subnet "pool_end" n.poolEnd
  routerAddress n.subnet n.router
  require (n.poolStart ≤ n.poolEnd) "pool_start must be less than or equal to pool_end"
  require (!n.inPool n.serverIP) "the dhcp pool must not include server_ip"
  require (!(n.router.isValid && n.inPool n.router)) "the dhcp pool must not include router"

/-- `netip.ParsePrefix` of the subnet. -/
def parseSubnet (p : Parsers) (value : GoString) : Except String Prefix :=
  match p.subnet value with
  | some subnet => .ok subnet
  | none => .error "subnet must be an ipv4 CIDR prefix"

/-- The router's address, if one is configured. -/
def parseRouter (p : Parsers) (value : GoString) : Except String Addr :=
  if value ≠ [] then parseIPv4 p "router" value else .ok .invalid

/-- The addresses of `config`, up to `validateNetwork`. -/
def FileSettings.network (p : Parsers) (f : FileSettings) : Except String Network := do
  let serverIP ← parseIPv4 p "server_ip" f.serverIP
  let subnet ← parseSubnet p f.subnet
  require (subnet.addr.is4 && subnet.bits ≤ 30)
    "subnet must be an ipv4 network with usable host addresses (/0 through /30)"
  require (subnet = subnet.masked) "subnet must be canonical"
  let poolStart ← parseIPv4 p "pool_start" f.poolStart
  let poolEnd ← parseIPv4 p "pool_end" f.poolEnd
  let router ← parseRouter p f.router
  let network : Network := ⟨serverIP, subnet, poolStart, poolEnd, router⟩
  network.validate
  return network

/-! ## Names -/

/-- An error another check reports. -/
def report : Option String → Except String Unit
  | some e => .error e
  | none => .ok ()

theorem report_eq_ok {e : Option String} {u : Unit} : report e = .ok u ↔ e = none := by
  cases e <;> simp [report]

/-- The loop body of `validateDomain`. -/
def domainLabelError (label : GoString) : Option String :=
  if label.length = 0 || 63 < label.length then
    some "domain labels must contain 1 to 63 characters"
  else if label.head? = some hyphen || label.getLast? = some hyphen then
    some "domain labels must not start or end with a hyphen"
  else if !(runes label).all nameRune then
    some "domain labels may contain only ascii letters, digits, and hyphens"
  else none

/-- `validateDomain`. -/
def validateDomain (domain : GoString) : Except String Unit := do
  require (0 < domain.length && domain.length ≤ 242) "domain must contain 1 to 242 characters"
  report ((domain.splitOn dot).findSome? domainLabelError)

theorem domainLabelError_eq_none {label : GoString} (h : domainLabelError label = none) :
    validLabel label = true := by
  simp only [domainLabelError] at h
  repeat' split at h
  all_goals simp_all [validLabel]

/-- An accepted domain has valid labels and leaves room for the longest service name. -/
theorem validateDomain_ok {domain : GoString} (h : validateDomain domain = .ok ()) :
    validLabels domain = true ∧ domain.length ≤ 242 := by
  simp only [validateDomain, bind_eq_ok, require_eq_ok, report_eq_ok] at h
  obtain ⟨-, hlen, hlabels⟩ := h
  simp only [Bool.and_eq_true, decide_eq_true_eq] at hlen
  refine ⟨List.all_eq_true.2 fun l hl => ?_, hlen.2⟩
  exact domainLabelError_eq_none (List.findSome?_eq_none_iff.1 hlabels l hl)

/-- The loop of `parseARecords`. -/
def parseARecords (p : Parsers) (domain : GoString) :
    List (GoString × GoString) → FinMap GoString Addr → Except String (FinMap GoString Addr)
  | [], result => .ok result
  | (name, value) :: rest, result => do
    let canonical := normalizeARecord name domain
    require (canonical ≠ [])
      "a_records name must be an ASCII hostname or a single leftmost wildcard"
    require (!(canonical = Leasing.serviceName "ns" domain ||
      canonical = Leasing.serviceName "gateway" domain))
      "a_records name is reserved for the infrastructure server"
    require (result.get canonical = none) "duplicate a_records hostname"
    let ip ← parseIPv4 p "a_records" value
    parseARecords p domain rest (result.set canonical ip)

/-- The domain and the static records of `config`. -/
def FileSettings.names (p : Parsers) (f : FileSettings) :
    Except String (GoString × FinMap GoString Addr) := do
  require (!(runes f.domain).any fun c => 127 < c)
    "domain labels may contain only ascii letters, digits, and hyphens"
  let domain := toLower (trimSuffix f.domain [dot])
  validateDomain domain
  let aRecords ← parseARecords p domain f.aRecords.entries .empty
  return (domain, aRecords)

/-! ## Durations -/

/-- `validateDuration`. -/
def validateDuration (name : String) (value minimum : Int) : Except String Unit := do
  require (minimum ≤ value && value % second = 0)
    (name ++ " must be a whole number of seconds, at least the minimum")
  require (value / second ≤ Dns.maxUint32) (name ++ " cannot exceed 4294967295 seconds")

/-- `time.ParseDuration` of a field. -/
def parseDuration (p : Parsers) (name : String) (value : GoString) : Except String Int :=
  match p.duration value with
  | some d => .ok d
  | none => .error (name ++ " must be a duration string")

/-- The durations of `config`. -/
def FileSettings.durations (p : Parsers) (f : FileSettings) : Except String (Int × Int) := do
  let leaseDuration ← parseDuration p "lease_duration" f.leaseDuration
  let dnsTTL ← parseDuration p "dns_ttl" f.dnsTTL
  validateDuration "lease_duration" leaseDuration minute
  validateDuration "dns_ttl" dnsTTL second
  return (leaseDuration, dnsTTL)

/-! ## The whole configuration -/

/-- `fileSettings.config`. The record for the LDAP host name is always set, to the server. -/
def FileSettings.config (p : Parsers) (f : FileSettings) : Except String BoxConfig := do
  require (trimSpace f.interface ≠ []) "interface is required"
  let network ← f.network p
  let (domain, aRecords) ← f.names p
  let (leaseDuration, dnsTTL) ← f.durations p
  report f.nfsError
  require (trimSpace f.bootDirectory ≠ []) "boot_root must name a directory"
  report (f.ldapError domain)
  let name := Leasing.serviceName "ldap" domain
  require (!(aRecords.get name).any fun address => address ≠ network.serverIP)
    "a_records ldap hostname must point to server_ip"
  require (trimSpace f.caDirectory ≠ []) "ca_dir must name a persistent directory"
  require (f.acmeStateFile = [] || trimSpace f.acmeStateFile ≠ [])
    "acme_state must name a persistent file"
  report (f.listenerError network.serverIP)
  return { network with
    domain, leaseDuration, dnsTTL
    aRecords := aRecords.set name network.serverIP
    leaseFile := f.leaseFile
    upstream := f.upstream }

/-! ## What is built from it -/

/-- The names `newLeaseManager` reserves: the exact records below the domain. -/
def BoxConfig.reservedNames (cfg : BoxConfig) : List GoString :=
  cfg.aRecords.keys.filter fun name =>
    (dot :: cfg.domain ++ [dot] <:+ name) && !([star, dot] <+: name)

/-- The configuration `newLeaseManager` passes to `lease.New`. -/
def BoxConfig.leases (cfg : BoxConfig) : Leasing.Config where
  poolStart := cfg.poolStart
  poolEnd := cfg.poolEnd
  domain := cfg.domain
  leaseDuration := cfg.leaseDuration
  offerDuration := 0
  declineDuration := 0
  reservedNames := cfg.reservedNames
  file := cfg.leaseFile

/-- The configuration `run` passes to `dnsserver.New`; `address` is the text of the server's
address and port. -/
def BoxConfig.dns (cfg : BoxConfig) (address : GoString) : Dns.Config where
  address := address
  domain := cfg.domain
  serverIP := cfg.serverIP
  subnet := cfg.subnet
  aRecords := cfg.aRecords
  upstream := cfg.upstream
  ttl := cfg.dnsTTL

end InfraBox.Config
