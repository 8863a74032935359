import InfraBox.Lib.FinMap
import InfraBox.Lib.Time
import InfraBox.Net.Addr
import InfraBox.Lease.Hostname

/-!
# The lease manager

`internal/lease/manager.go` and `persistence.go`. A method holds the manager's lock from its first
statement to its last and reads the clock once, so it is a function of the manager, the clock
reading `now` and, where it saves the state, of whether the snapshot reached the file. The file is
part of the state a method works on (`System`): `persist` replaces it or leaves it as it was.

The checks of `newManager` are kept as proofs in the configuration it builds (`Settings`), so a
manager without a valid domain or with a lifetime that is not positive cannot be formed.
-/

namespace InfraBox.Leasing

/-- `Lease`: an address assignment; `hostname` is empty or fully qualified. -/
structure Lease where
  clientID : GoString
  ip : Addr
  hostname : GoString
  expiresAt : Int
deriving DecidableEq

/-- `Config`, as the caller passes it to `New`. -/
structure Config where
  poolStart : Addr
  poolEnd : Addr
  domain : GoString
  leaseDuration : Int
  offerDuration : Int
  declineDuration : Int
  reservedNames : List GoString
  file : GoString

/-- The name `label.domain.`. -/
def serviceName (label : String) (domain : GoString) : GoString :=
  str label ++ dot :: domain ++ [dot]

/-- The configuration a manager keeps: canonical, with its defaults filled in, and with the names
no client may register (`Manager.reservedNames`). -/
structure Settings where
  poolStart : Addr
  poolEnd : Addr
  domain : GoString
  leaseDuration : Int
  offerDuration : Int
  declineDuration : Int
  reservedNames : List GoString
  file : GoString
  pool_is4 : poolStart.is4 = true ∧ poolEnd.is4 = true
  pool_ordered : poolStart ≤ poolEnd
  domain_valid : validDNSName domain = true
  leaseDuration_pos : 0 < leaseDuration
  offerDuration_pos : 0 < offerDuration
  declineDuration_pos : 0 < declineDuration
  reserved_ns : serviceName "ns" domain ∈ reservedNames
  reserved_gateway : serviceName "gateway" domain ∈ reservedNames
  reserved_hostnames : ∀ n ∈ reservedNames, n ≠ []

/-- `state`: committed leases and offers by client, and quarantined addresses. -/
structure State where
  leases : FinMap GoString Lease
  offers : FinMap GoString Lease
  declined : FinMap Addr Int

/-- `newState`. -/
def newState : State := ⟨.empty, .empty, .empty⟩

/-- `declinedAddress`. -/
structure DeclinedAddress where
  ip : Addr
  expiresAt : Int
deriving DecidableEq

/-- `persistedState`. -/
structure PersistedState where
  version : Int
  leases : List Lease
  declined : List DeclinedAddress
deriving DecidableEq

/-- What `restore` finds at the configured path: no file, one that cannot be opened, one that does
not decode to a single JSON value of the expected shape, or a decoded snapshot. -/
inductive LeaseFile where
  | absent
  | unreadable
  | undecodable
  | trailingData
  | decoded (saved : PersistedState)

/-- `Manager`. -/
structure Manager where
  cfg : Settings
  state : State

/-- A manager and the file it saves to. -/
structure System where
  manager : Manager
  disk : LeaseFile

/-- The errors of the manager's methods: `ErrPoolExhausted`, `ErrUnavailable`, and the wrapped
failure of `persist`. -/
inductive Error where
  | poolExhausted
  | unavailable
  | persist
deriving DecidableEq

/-! ## Predicates -/

/-- `validClientID`. -/
def validClientID (clientID : GoString) : Bool := clientID ≠ [] && validString clientID

/-- `Manager.inPool`. -/
def Settings.inPool (cfg : Settings) (ip : Addr) : Bool :=
  ip.is4 && cfg.poolStart ≤ ip && ip ≤ cfg.poolEnd

/-- `Manager.occupied`, as a test: the address is leased or offered to another client, or
quarantined. -/
def State.occupied (s : State) (clientID : GoString) (ip : Addr) : Bool :=
  s.leases.any (fun otherID current => otherID ≠ clientID && current.ip = ip) ||
  s.offers.any (fun otherID offer => otherID ≠ clientID && offer.ip = ip) ||
  (s.declined.get ip).isSome

/-- `Manager.owns`. -/
def State.owns (s : State) (clientID : GoString) (ip : Addr) : Bool :=
  (s.leases.get clientID).any (fun current => current.ip = ip) ||
  (s.offers.get clientID).any (fun offer => offer.ip = ip)

/-- `state.remove`. -/
def State.remove (s : State) (clientID : GoString) (ip : Addr) : State where
  leases := if (s.leases.get clientID).any (fun current => current.ip = ip)
    then s.leases.erase clientID else s.leases
  offers := if (s.offers.get clientID).any (fun offer => offer.ip = ip)
    then s.offers.erase clientID else s.offers
  declined := s.declined

/-- `Manager.expire`. -/
def State.expire (s : State) (now : Int) : State where
  leases := s.leases.filter fun _ current => now < current.expiresAt
  offers := s.offers.filter fun _ offer => now < offer.expiresAt
  declined := s.declined.filter fun _ expiry => now < expiry

def Manager.expire (m : Manager) (now : Int) : Manager := { m with state := m.state.expire now }

/-! ## Persistence -/

/-- The accumulators of the lease loop of `restore`. -/
structure Restored where
  leases : FinMap GoString Lease
  addresses : List Addr
  names : List GoString

/-- A lease whose name has become reserved keeps its address and loses the name. -/
def Settings.dropReserved (cfg : Settings) (l : Lease) : Lease :=
  if l.hostname ∈ cfg.reservedNames then { l with hostname := [] } else l

/-- The checks `restore` makes on every saved lease, expired or not. -/
def Settings.savedLeaseError (cfg : Settings) (l : Lease) : Option String :=
  if !validClientID l.clientID || !cfg.inPool l.ip || l.expiresAt = 0 then
    some "lease file contains an invalid client, address, or expiration"
  else if l.hostname ≠ [] && (normalizeHostname l.hostname cfg.domain ≠ l.hostname ||
      l.hostname = serviceName "ns" cfg.domain) then
    some "lease file contains invalid or reserved hostname"
  else none

/-- The lease loop of `restore`. -/
def Settings.restoreLeases (cfg : Settings) (now : Int) :
    List Lease → Restored → Except String Restored
  | [], r => .ok r
  | l :: ls, r =>
    match cfg.savedLeaseError l with
    | some e => .error e
    | none =>
      if ¬ now < l.expiresAt then cfg.restoreLeases now ls r
      else if (r.leases.get l.clientID).isSome then .error "lease file has duplicate client"
      else if l.ip ∈ r.addresses then .error "lease file has duplicate address"
      else if l.hostname ≠ [] && l.hostname ∈ r.names then
        .error "lease file has duplicate hostname"
      else cfg.restoreLeases now ls {
        leases := r.leases.set l.clientID (cfg.dropReserved l)
        addresses := l.ip :: r.addresses
        names := if l.hostname ≠ [] then l.hostname :: r.names else r.names }

/-- The quarantine loop of `restore`. -/
def Settings.restoreDeclined (cfg : Settings) (now : Int) :
    List DeclinedAddress → FinMap Addr Int → List Addr → Except String (FinMap Addr Int)
  | [], declined, _ => .ok declined
  | d :: ds, declined, addresses =>
    if !cfg.inPool d.ip || d.expiresAt = 0 then
      .error "lease file contains an invalid declined address or expiration"
    else if ¬ now < d.expiresAt then cfg.restoreDeclined now ds declined addresses
    else if d.ip ∈ addresses then
      .error "lease file has duplicate or occupied declined address"
    else cfg.restoreDeclined now ds (declined.set d.ip d.expiresAt) (d.ip :: addresses)

/-- `Manager.restore`: the state a new manager starts from. -/
def Settings.restore (cfg : Settings) (now : Int) (disk : LeaseFile) : Except String State :=
  if cfg.file = [] then .ok newState
  else match disk with
    | .absent => .ok newState
    | .unreadable => .error "open lease file"
    | .undecodable => .error "decode lease file"
    | .trailingData => .error "lease file contains trailing data"
    | .decoded saved =>
      if saved.version ≠ 1 then .error "unsupported lease file version"
      else match cfg.restoreLeases now saved.leases ⟨.empty, [], []⟩ with
        | .error e => .error e
        | .ok r => match cfg.restoreDeclined now saved.declined .empty r.addresses with
          | .error e => .error e
          | .ok declined => .ok ⟨r.leases, .empty, declined⟩

/-- The snapshot `persist` writes: leases and quarantined addresses, each sorted by address. -/
def State.saved (next : State) : PersistedState where
  version := 1
  leases := (next.leases.entries.map Prod.snd).insertionSort fun a b => a.ip ≤ b.ip
  declined := (next.declined.entries.map fun e => (⟨e.1, e.2⟩ : DeclinedAddress)).insertionSort
    fun a b => a.ip ≤ b.ip

/-- `Manager.publish`: the state takes effect once it is saved. `written` is whether the new file
was written, synced and renamed; without a configured file there is nothing to save. -/
def System.publish (sys : System) (next : State) (written : Bool) : Except Error Unit × System :=
  if sys.manager.cfg.file = [] then
    (.ok (), { sys with manager := { sys.manager with state := next } })
  else if written then
    (.ok (), ⟨{ sys.manager with state := next }, .decoded next.saved⟩)
  else (.error .persist, sys)

/-! ## Construction -/

/-- The reserved names of `newManager`, in canonical form. -/
def canonicalReserved (domain : GoString) : List GoString → Except String (List GoString)
  | [] => .ok []
  | name :: names =>
    if (runes name).any (fun c => 0x80 ≤ c) then
      .error "reserved DNS name must contain only ASCII characters"
    else
      let canonical := normalizeHostname name domain
      if canonical = [] ∨ trimSuffix (toLower name) [dot] = domain then
        .error "reserved DNS name must be a hostname under the domain"
      else match canonicalReserved domain names with
        | .error e => .error e
        | .ok rest => .ok (canonical :: rest)

/-- A reserved name is not empty. -/
theorem canonicalReserved_ne_nil {d : GoString} : ∀ {names rest : List GoString},
    canonicalReserved d names = .ok rest → ∀ n ∈ rest, n ≠ []
  | [], rest, h => by cases h; simp
  | name :: names, rest, h => by
    simp only [canonicalReserved] at h
    split at h
    · cases h
    split at h
    · cases h
    · next hc =>
      split at h
      · cases h
      · next rest' hrest =>
        cases h
        intro n hn
        rcases List.mem_cons.1 hn with rfl | hn
        · exact fun h => hc (.inl h)
        · exact canonicalReserved_ne_nil hrest n hn

/-- The validation of `newManager`, up to `restore`. -/
def configure (cfg : Config) : Except String Settings :=
  let poolStart := cfg.poolStart.unmap
  let poolEnd := cfg.poolEnd.unmap
  if hpool : poolStart.is4 = true ∧ poolEnd.is4 = true ∧ poolStart ≤ poolEnd then
    let domain := canonicalDomain cfg.domain
    if hdomain : validDNSName domain = true then
      if hlease : 0 < cfg.leaseDuration then
        if hdur : 0 ≤ cfg.offerDuration ∧ 0 ≤ cfg.declineDuration then
          match hres : canonicalReserved domain cfg.reservedNames with
          | .error e => .error e
          | .ok reserved => .ok {
              poolStart, poolEnd, domain
              leaseDuration := cfg.leaseDuration
              offerDuration := if cfg.offerDuration = 0 then minute else cfg.offerDuration
              declineDuration := if cfg.declineDuration = 0 then 10 * minute
                else cfg.declineDuration
              reservedNames :=
                serviceName "ns" domain :: serviceName "gateway" domain :: reserved
              file := cfg.file
              pool_is4 := ⟨hpool.1, hpool.2.1⟩
              pool_ordered := hpool.2.2
              domain_valid := hdomain
              leaseDuration_pos := hlease
              offerDuration_pos := by split <;> [decide; omega]
              declineDuration_pos := by split <;> [decide; omega]
              reserved_ns := .head _
              reserved_gateway := .tail _ (.head _)
              reserved_hostnames := by
                intro n hn
                simp only [List.mem_cons] at hn
                rcases hn with rfl | rfl | hn
                · simp [serviceName]
                · simp [serviceName]
                · exact canonicalReserved_ne_nil hres n hn }
        else .error "offer and decline durations must not be negative"
      else .error "lease duration must be positive"
    else .error "lease domain must be a valid DNS name"
  else .error "lease pool must be an ordered IPv4 address range"

/-- What an accepted configuration becomes. -/
theorem configure_ok {cfg : Config} {settings : Settings} (h : configure cfg = .ok settings) :
    settings.poolStart = cfg.poolStart.unmap ∧ settings.poolEnd = cfg.poolEnd.unmap ∧
      settings.domain = canonicalDomain cfg.domain ∧ settings.file = cfg.file ∧
      ∃ reserved, canonicalReserved settings.domain cfg.reservedNames = .ok reserved ∧
        settings.reservedNames = serviceName "ns" settings.domain ::
          serviceName "gateway" settings.domain :: reserved := by
  simp only [configure] at h
  split at h
  · split at h
    · split at h
      · split at h
        · split at h
          · cases h
          · next reserved hres =>
            rw [Except.ok.injEq] at h
            subst h
            dsimp only
            exact ⟨rfl, rfl, rfl, rfl, reserved, hres, rfl⟩
        · cases h
      · cases h
    · cases h
  · cases h

/-- The durations an accepted configuration has, with its defaults. -/
theorem configure_durations {cfg : Config} {settings : Settings}
    (h : configure cfg = .ok settings) :
    settings.leaseDuration = cfg.leaseDuration ∧
      settings.offerDuration = (if cfg.offerDuration = 0 then minute else cfg.offerDuration) := by
  simp only [configure] at h
  repeat' split at h
  all_goals cases h
  all_goals exact ⟨rfl, by simp [*]⟩

/-- `newManager`. -/
def newManager (cfg : Config) (now : Int) (disk : LeaseFile) : Except String Manager :=
  match configure cfg with
  | .error e => .error e
  | .ok settings => match settings.restore now disk with
    | .error e => .error e
    | .ok state => .ok ⟨settings, state⟩

/-! ## Operations -/

/-- The candidates of the pool loop of `OfferWithFallback`, `n` of them at most. -/
def firstFree (free : Addr → Bool) (poolEnd : Addr) : Nat → Addr → Addr
  | 0, _ => .invalid
  | n + 1, candidate =>
    if candidate.isValid && candidate ≤ poolEnd then
      if free candidate then candidate else firstFree free poolEnd n candidate.next
    else .invalid

/-- The number of addresses in the pool. -/
def Settings.poolSize (cfg : Settings) : Nat :=
  match cfg.poolStart, cfg.poolEnd with
  | .v4 a, .v4 b => b.toNat - a.toNat + 1
  | _, _ => 0

/-- The name `OfferWithFallback` offers; an omitted hostname keeps the previous offer's name or
the current one before it falls back. -/
def Manager.offerName (m : Manager) (clientID hostname fallback : GoString) : GoString :=
  if hostname = [] then
    match m.state.offers.get clientID, m.state.leases.get clientID with
    | some previous, _ => previous.hostname
    | none, some current =>
      if current.hostname ≠ [] then current.hostname else normalizeHostname fallback m.cfg.domain
    | none, none => normalizeHostname fallback m.cfg.domain
  else normalizeHostname hostname m.cfg.domain

/-- The address `OfferWithFallback` offers: the client's own, or the requested one, or the first
free one of the pool. -/
def Manager.offerAddress (m : Manager) (clientID : GoString) (requested : Addr) : Addr :=
  match m.state.leases.get clientID, m.state.offers.get clientID with
  | some current, _ => current.ip
  | none, some previous => previous.ip
  | none, none =>
    if m.cfg.inPool requested.unmap && !m.state.occupied clientID requested.unmap then
      requested.unmap
    else firstFree (fun ip => !m.state.occupied clientID ip) m.cfg.poolEnd m.cfg.poolSize
      m.cfg.poolStart

/-- `Manager.OfferWithFallback`. -/
def Manager.offerWithFallback (m : Manager) (now : Int) (clientID : GoString) (requested : Addr)
    (hostname fallback : GoString) : Except Error Lease × Manager :=
  let m := m.expire now
  if !validClientID clientID then (.error .unavailable, m)
  else
    let ip := m.offerAddress clientID requested
    if !ip.isValid then (.error .poolExhausted, m)
    else
      let offer : Lease :=
        ⟨clientID, ip, m.offerName clientID hostname fallback, now + m.cfg.offerDuration⟩
      (.ok offer, { m with state := { m.state with offers := m.state.offers.set clientID offer } })

/-- The name the client asks `CommitWithFallback` for. -/
def Manager.requestedName (m : Manager) (clientID : GoString) (ip : Addr)
    (hostname fallback : GoString) : GoString :=
  if hostname = [] then
    match (m.state.offers.get clientID).filter (fun offered => offered.ip = ip),
        m.state.leases.get clientID with
    | some offered, _ => offered.hostname
    | none, some current =>
      if current.hostname ≠ [] then current.hostname else normalizeHostname fallback m.cfg.domain
    | none, none => normalizeHostname fallback m.cfg.domain
  else normalizeHostname hostname m.cfg.domain

/-- The name `CommitWithFallback` grants: none if the requested one is reserved or taken. -/
def Manager.grantedName (m : Manager) (clientID name : GoString) : GoString :=
  if name ∈ m.cfg.reservedNames then []
  else if name ≠ [] &&
      m.state.leases.any (fun otherID current => otherID ≠ clientID && current.hostname = name)
    then []
  else name

/-- The lease `CommitWithFallback` grants. -/
def Manager.commitment (m : Manager) (now : Int) (clientID : GoString) (ip : Addr)
    (hostname fallback : GoString) : Lease where
  clientID := clientID
  ip := ip
  hostname := m.grantedName clientID (m.requestedName clientID ip hostname fallback)
  expiresAt := now + m.cfg.leaseDuration

def System.expire (sys : System) (now : Int) : System :=
  { sys with manager := sys.manager.expire now }

/-- `Manager.CommitWithFallback`. -/
def System.commitWithFallback (sys : System) (now : Int) (written : Bool) (clientID : GoString)
    (ip : Addr) (hostname fallback : GoString) : Except Error Lease × System :=
  let sys := sys.expire now
  let ip := ip.unmap
  let m := sys.manager
  if !validClientID clientID || !m.cfg.inPool ip || m.state.occupied clientID ip then
    (.error .unavailable, sys)
  else
    let committed := m.commitment now clientID ip hostname fallback
    match sys.publish { m.state with
        leases := m.state.leases.set clientID committed
        offers := m.state.offers.erase clientID } written with
    | (.error e, sys) => (.error e, sys)
    | (.ok _, sys) => (.ok committed, sys)

/-- `Manager.Release`. -/
def System.release (sys : System) (now : Int) (written : Bool) (clientID : GoString) (ip : Addr) :
    Except Error Unit × System :=
  let sys := sys.expire now
  let ip := ip.unmap
  if !sys.manager.state.owns clientID ip then (.error .unavailable, sys)
  else sys.publish (sys.manager.state.remove clientID ip) written

/-- `Manager.Decline`. -/
def System.decline (sys : System) (now : Int) (written : Bool) (clientID : GoString) (ip : Addr) :
    Except Error Unit × System :=
  let sys := sys.expire now
  let ip := ip.unmap
  if !sys.manager.state.owns clientID ip then (.error .unavailable, sys)
  else
    let next := sys.manager.state.remove clientID ip
    sys.publish { next with
      declined := next.declined.set ip (now + sys.manager.cfg.declineDuration) } written

/-- `Manager.LookupName`. -/
def Manager.lookupName (m : Manager) (now : Int) (name : GoString) : Option Lease × Manager :=
  let m := m.expire now
  let name := normalizeHostname name m.cfg.domain
  if name = [] ∨ name ∈ m.cfg.reservedNames then (none, m)
  else ((m.state.leases.find fun _ current => current.hostname = name).map Prod.snd, m)

/-- The name `HasName` looks for. -/
def Settings.hasNameKey (cfg : Settings) (name : GoString) : GoString :=
  let canonical := toLower (trimSuffix name [dot])
  if canonical = cfg.domain then canonical ++ [dot] else normalizeHostname name cfg.domain

/-- `Manager.HasName`. -/
def Manager.hasName (m : Manager) (now : Int) (name : GoString) : Bool × Manager :=
  let m := m.expire now
  let name := m.cfg.hasNameKey name
  if name = [] then (false, m)
  else (m.state.leases.any fun _ current =>
    (current.hostname ≠ [] && current.hostname ∉ m.cfg.reservedNames) &&
      (current.hostname = name || (dot :: name) <:+ current.hostname), m)

/-- `Manager.LookupIP`. -/
def Manager.lookupIP (m : Manager) (now : Int) (ip : Addr) : Option Lease × Manager :=
  let m := m.expire now
  ((m.state.leases.find fun _ current => current.ip = ip.unmap).map Prod.snd, m)

end InfraBox.Leasing
