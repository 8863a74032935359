import InfraBox.Lease.Manager
import InfraBox.Dhcp.Identity

/-!
# The DHCP server

`internal/dhcpserver/server.go` and `pxe.go`: the handling of a decoded packet, and the modifiers
from which the DHCP library makes the reply. The library is a parameter (`DhcpLib`), of which the
results assume what it documents (`DhcpLib.Documented`). A packet leads to at most one call of the
lease manager, so what the outside decides about it is one clock reading, whether the lease file
could be written and whether the library could build the reply (`Env`).

Packets are those that `dhcpv4.FromBytes` returns, so each of their address fields has four bytes.
-/

namespace InfraBox.Dhcp

open Leasing

/-! ## Packets -/

/-- The message types of DHCP. -/
inductive MessageType where
  | discover | offer | request | decline | ack | nak | release | inform
deriving DecidableEq

/-- The value of a message type in option 53. -/
def MessageType.code : MessageType → UInt8
  | .discover => 1
  | .offer => 2
  | .request => 3
  | .decline => 4
  | .ack => 5
  | .nak => 6
  | .release => 7
  | .inform => 8

def MessageType.ofCode (b : UInt8) : Option MessageType :=
  [discover, offer, request, decline, ack, nak, release, inform].find? fun t => t.code = b

def opBootRequest : UInt8 := 1

def optSubnetMask : UInt8 := 1
def optRouter : UInt8 := 3
def optDNS : UInt8 := 6
def optHostName : UInt8 := 12
def optDomainName : UInt8 := 15
def optNTPServers : UInt8 := 42
def optVendorSpecific : UInt8 := 43
def optLeaseTime : UInt8 := 51
def optMessageType : UInt8 := 53
def optServerIdentifier : UInt8 := 54
def optRenewTime : UInt8 := 58
def optRebindingTime : UInt8 := 59
def optTFTPServerName : UInt8 := 66
def optBootFileName : UInt8 := 67
def optFQDN : UInt8 := 81
def optArchitecture : UInt8 := 93
def optDomainSearch : UInt8 := 119

/-- A decoded request; an option that is absent is `none`. -/
structure Packet extends Request where
  opCode : UInt8
  hopCount : UInt8
  clientIPAddr : BitVec 32
  gatewayIPAddr : BitVec 32
  /-- option 50 -/
  requestedIPAddress : Option GoString
  /-- option 53 -/
  messageType : Option GoString
  /-- option 54 -/
  serverIdentifier : Option GoString
  /-- option 93 -/
  architectures : Option GoString

/-- What the accessors of the library read of a reply, as far as the results speak of it. -/
structure Reply where
  /-- `MessageType` -/
  kind : Option MessageType
  /-- `ServerIdentifier` -/
  serverIdentifier : Option (BitVec 32)
  yourIPAddr : BitVec 32
  /-- `IPAddressLeaseTime`, in seconds -/
  leaseTime : Option Nat
  /-- option 12 -/
  hostName : Option GoString
  /-- `IsBroadcast` -/
  broadcast : Bool

/-- `ipv4`: an unspecified address counts as absent. -/
def ipv4 (ip : BitVec 32) : Addr := if ip = 0 then .invalid else .v4 ip

/-- The address in an option of four bytes, and the unspecified one without the option. -/
def optionIP (option : Option GoString) : BitVec 32 := BitVec.ofNat 32 (beNat (option.getD []))

/-- The type in an option of one byte. -/
def Packet.kind (request : Packet) : Option MessageType :=
  (request.messageType.getD []).head?.bind MessageType.ofCode

/-! ## Replies -/

/-- `Config`, without the socket. -/
structure Config where
  serverIP : Addr
  subnet : Prefix
  router : Addr
  domain : GoString
  leaseDuration : Int

/-- `dhcpv4.MaxLeaseTime`. -/
def maxLeaseTime : Int := 4294967295 * second

/-- `Server`, without the lease manager: a configuration that `New` has checked. -/
structure Server where
  serverIP : BitVec 32
  subnet : Prefix
  router : Addr
  domain : GoString
  leaseDuration : Int
  contained : subnet.contains (.v4 serverIP) = true
  leaseDuration_min : minute ≤ leaseDuration
  leaseDuration_max : leaseDuration ≤ maxLeaseTime

/-- `New`, with a lease manager and a logger. -/
def new (config : Config) : Except String Server :=
  match config.serverIP with
  | .v4 serverIP =>
    if hin : config.subnet.contains (.v4 serverIP) = true then
      if hdur : minute ≤ config.leaseDuration ∧ config.leaseDuration ≤ maxLeaseTime then
        .ok {
          serverIP
          subnet := config.subnet
          router := config.router
          domain := toLower (trimSuffix config.domain [dot])
          leaseDuration := config.leaseDuration
          contained := hin
          leaseDuration_min := hdur.1
          leaseDuration_max := hdur.2 }
      else .error "lease duration must be between one minute and the DHCP maximum"
    else .error "server IPv4 address must belong to the subnet"
  | _ => .error "server IPv4 address must belong to the subnet"

/-- The bytes of an address in an option. -/
def ipBytes (ip : BitVec 32) : GoString := beBytes 4 ip.toNat

/-- The text of an address. -/
def ipText (ip : BitVec 32) : GoString := joinLabels ((ipBytes ip).map fun b => formatNat b.toNat)

/-- The modifiers that `reply` gives to the library, with their arguments. -/
inductive Modifier where
  | messageType (kind : MessageType)
  | serverIdentifier (ip : BitVec 32)
  /-- `dhcpv4.WithBroadcast(true)` -/
  | broadcast
  | clientIP (ip : BitVec 32)
  /-- `dhcpv4.WithNetmask(net.CIDRMask(bits, 32))` -/
  | netmask (bits : Nat)
  | dns (ip : BitVec 32)
  | ntpServers (ip : BitVec 32)
  /-- `dhcpv4.OptGeneric` -/
  | generic (code : UInt8) (value : GoString)
  | domainName (domain : GoString)
  | domainSearchList (domain : GoString)
  | router (ip : BitVec 32)
  | serverIP (ip : BitVec 32)
  | tftpServerName (name : GoString)
  | bootFileOption (name : GoString)
  /-- The field of the header. -/
  | bootFileName (name : GoString)
  | yourIP (ip : BitVec 32)
  | leaseTime (d : Int)
  | renewTime (d : Int)
  | rebindingTime (d : Int)
  | hostName (name : GoString)

/-- The DHCP library: `dhcpv4.NewReplyFromRequest`, where it does not fail. -/
structure DhcpLib where
  newReplyFromRequest : Packet → List Modifier → Reply

/-- A part of a reply: an option or a field of the header. -/
inductive Part where
  | option (code : UInt8)
  | clientIP | yourIP | serverIP | bootFileName | flags
deriving DecidableEq

/-- The part that a modifier sets. -/
def Modifier.part : Modifier → Part
  | .messageType _ => .option optMessageType
  | .serverIdentifier _ => .option optServerIdentifier
  | .broadcast => .flags
  | .clientIP _ => .clientIP
  | .netmask _ => .option optSubnetMask
  | .dns _ => .option optDNS
  | .ntpServers _ => .option optNTPServers
  | .generic code _ => .option code
  | .domainName _ => .option optDomainName
  | .domainSearchList _ => .option optDomainSearch
  | .router _ => .option optRouter
  | .serverIP _ => .serverIP
  | .tftpServerName _ => .option optTFTPServerName
  | .bootFileOption _ => .option optBootFileName
  | .bootFileName _ => .bootFileName
  | .yourIP _ => .yourIP
  | .leaseTime _ => .option optLeaseTime
  | .renewTime _ => .option optRenewTime
  | .rebindingTime _ => .option optRebindingTime
  | .hostName _ => .option optHostName

/-- What a modifier has made of a reply; a time is sent in whole seconds. -/
def Modifier.Holds (reply : Reply) : Modifier → Prop
  | .messageType kind => reply.kind = some kind
  | .serverIdentifier ip => reply.serverIdentifier = some ip
  | .broadcast => reply.broadcast = true
  | .yourIP ip => reply.yourIPAddr = ip
  | .leaseTime d => 0 ≤ d → d ≤ maxLeaseTime → reply.leaseTime = some (d / second).toNat
  | .hostName name => reply.hostName = some name
  | _ => True

/-- What the library documents: the last modifier of a part decides it, and a reply has no address,
time or name of the client that no modifier has set. -/
structure DhcpLib.Documented (lib : DhcpLib) : Prop where
  set : ∀ request (before : List Modifier) (m : Modifier) after, (∀ m' ∈ after, m'.part ≠ m.part) →
    m.Holds (lib.newReplyFromRequest request (before ++ m :: after))
  yourIPAddr : ∀ request ms, (∀ m ∈ ms, m.part ≠ .yourIP) →
    (lib.newReplyFromRequest request ms).yourIPAddr = 0
  leaseTime : ∀ request ms, (∀ m ∈ ms, m.part ≠ .option optLeaseTime) →
    (lib.newReplyFromRequest request ms).leaseTime = none
  hostName : ∀ request ms, (∀ m ∈ ms, m.part ≠ .option optHostName) →
    (lib.newReplyFromRequest request ms).hostName = none

/-- The loader for an architecture of option 93, if the server has one. -/
def loader (architecture : Nat) : Option GoString :=
  match architecture with
  | 0 => some (str "pxelinux.0")
  | 7 => some (str "bootx64.efi")
  | 9 => some (str "bootx64.efi")
  | _ => none

/-- The loop of `bootOptions`: the first architecture of the list with a loader. -/
def firstLoader : GoString → Option (GoString × GoString)
  | hi :: lo :: rest =>
    match loader (beNat [hi, lo]) with
    | some filename => some ([hi, lo], filename)
    | none => firstLoader rest
  | _ => none

/-- `Server.bootOptions`. -/
def Server.bootOptions (s : Server) (request : Packet) : List Modifier :=
  let architectures := request.architectures.getD []
  if architectures.length = 0 ∨ architectures.length % 2 ≠ 0 then []
  else match firstLoader architectures with
    | none => []
    | some (architecture, filename) =>
      [.serverIP s.serverIP, .tftpServerName (ipText s.serverIP), .bootFileOption filename,
        .generic optArchitecture architecture, .bootFileName filename]

/-- The modifiers of every reply but a refusal. -/
def Server.networkModifiers (s : Server) (request : Packet) : List Modifier :=
  [.clientIP request.clientIPAddr, .netmask s.subnet.bits, .dns s.serverIP,
    .ntpServers s.serverIP,
    -- the root certificate's URL, which works before names or the authority are set up
    .generic optVendorSpecific (str "http://" ++ ipText s.serverIP ++ str "/ca.pem"),
    .domainName s.domain, .domainSearchList s.domain] ++
  match s.router with
  | .v4 router => [.router router]
  | _ => []

/-- The modifiers of a reply with a lease. -/
def Server.leaseModifiers (s : Server) (request : Packet) (allocation : Lease) : List Modifier :=
  s.bootOptions request ++
  (match allocation.ip with
    | .v4 ip => [.yourIP ip]
    | _ => []) ++
  [.leaseTime s.leaseDuration, .renewTime (s.leaseDuration / 2),
    .rebindingTime (s.leaseDuration / 8 * 7)] ++
  (if allocation.hostname ≠ [] then [.hostName (trimSuffix allocation.hostname [dot])] else []) ++
  match fqdnReply request.toRequest allocation.hostname with
  | some option => [.generic optFQDN option]
  | none => []

/-- The modifiers of `Server.reply`. -/
def Server.modifiers (s : Server) (request : Packet) (kind : MessageType)
    (allocation : Option Lease) : List Modifier :=
  [.messageType kind, .serverIdentifier s.serverIP] ++
  if kind = .nak then [.broadcast]
  else
    s.networkModifiers request ++
    (match allocation with
      | some allocation => s.leaseModifiers request allocation
      | none => []) ++
    -- a client without an address cannot be reached at one
    if !(ipv4 request.clientIPAddr).isValid && !(ipv4 request.gatewayIPAddr).isValid then
      [.broadcast]
    else []

/-- `Server.reply`, unless the library fails to build it. -/
def Server.reply (lib : DhcpLib) (s : Server) (request : Packet) (kind : MessageType)
    (allocation : Option Lease) : Reply :=
  lib.newReplyFromRequest request (s.modifiers request kind allocation)

/-! ## Requests -/

/-- What the outside decides about the handling of a packet: the clock reading, whether the lease
file could be written, and whether the library could build the reply. -/
structure Env where
  now : Int
  written : Bool
  built : Bool

/-- The errors of `Handle`, with the manager's error each of them wraps. -/
inductive HandleError where
  | offer (e : Leasing.Error)
  | commit (e : Leasing.Error)
  | release (e : Leasing.Error)
  | decline (e : Leasing.Error)
  | build
deriving DecidableEq

/-- `clientHostname`, which reads no byte outside of the option. -/
theorem clientHostname_isSome (request : Request) : (clientHostname request).isSome = true := by
  cases hfqdn : request.fqdn with
  | none => simp [clientHostname, hfqdn]
  | some raw =>
    obtain ⟨name, hname, -⟩ := clientHostname_wire hfqdn
    rw [hname]
    rfl

def hostnameOf (request : Request) : GoString :=
  (clientHostname request).get (clientHostname_isSome request)

/-- The checks of `Handle` before it looks at the message type. -/
def Server.ignores (s : Server) (request : Packet) : Bool :=
  (request.opCode ≠ opBootRequest || 16 < request.hopCount) ||
  (request.requestedIPAddress.any (fun raw => raw.length ≠ 4) ||
    request.serverIdentifier.any (fun raw => raw.length ≠ 4)) ||
  (request.messageType.getD []).length ≠ 1 ||
  clientIdentifier request.toRequest = [] ||
  ((ipv4 request.gatewayIPAddr).isValid && !s.subnet.contains (ipv4 request.gatewayIPAddr)) ||
  ((ipv4 (optionIP request.serverIdentifier)).isValid &&
    ipv4 (optionIP request.serverIdentifier) ≠ .v4 s.serverIP)

/-- The reply, or the error of building it. -/
def Server.build (lib : DhcpLib) (s : Server) (env : Env) (request : Packet) (kind : MessageType)
    (allocation : Option Lease) : Except HandleError (Option Reply) :=
  if env.built then .ok (some (s.reply lib request kind allocation)) else .error .build

/-- `Server.Handle`. -/
def Server.handle (lib : DhcpLib) (sha : Sha256) (s : Server) (env : Env) (request : Packet)
    (sys : System) : Except HandleError (Option Reply) × System :=
  if s.ignores request then (.ok none, sys)
  else
    let clientID := clientIdentifier request.toRequest
    let serverID := ipv4 (optionIP request.serverIdentifier)
    let requested := ipv4 (optionIP request.requestedIPAddress)
    let current := ipv4 request.clientIPAddr
    let hostname := hostnameOf request.toRequest
    let fallback := fallbackHostname sha clientID
    match request.kind with
    | some .discover =>
      if current.isValid || serverID.isValid then (.ok none, sys)
      else match sys.manager.offerWithFallback env.now clientID requested hostname fallback with
        | (.error .poolExhausted, m) => (.ok none, { sys with manager := m })
        | (.error e, m) => (.error (.offer e), { sys with manager := m })
        | (.ok allocation, m) =>
          (s.build lib env request .offer (some allocation), { sys with manager := m })
    | some .request =>
      -- a client without an address names it in option 50, one that renews is at it
      if current.isValid && (requested.isValid || serverID.isValid) then (.ok none, sys)
      else if !current.isValid && !requested.isValid then (.ok none, sys)
      else
        let ip := if current.isValid then current else requested
        match sys.commitWithFallback env.now env.written clientID ip hostname fallback with
        | (.error .unavailable, sys) => (s.build lib env request .nak none, sys)
        | (.error .poolExhausted, sys) => (s.build lib env request .nak none, sys)
        | (.error e, sys) => (.error (.commit e), sys)
        | (.ok allocation, sys) => (s.build lib env request .ack (some allocation), sys)
    | some .release =>
      if serverID ≠ .v4 s.serverIP || !current.isValid then (.ok none, sys)
      else match sys.release env.now env.written clientID current with
        | (.error .unavailable, sys) => (.ok none, sys)
        | (.error e, sys) => (.error (.release e), sys)
        | (.ok _, sys) => (.ok none, sys)
    | some .decline =>
      if serverID ≠ .v4 s.serverIP || !requested.isValid || current.isValid then (.ok none, sys)
      else match sys.decline env.now env.written clientID requested with
        | (.error .unavailable, sys) => (.ok none, sys)
        | (.error e, sys) => (.error (.decline e), sys)
        | (.ok _, sys) => (.ok none, sys)
    | some .inform =>
      if !current.isValid || !s.subnet.contains current then (.ok none, sys)
      else (s.build lib env request .ack none, sys)
    | _ => (.ok none, sys)

end InfraBox.Dhcp
