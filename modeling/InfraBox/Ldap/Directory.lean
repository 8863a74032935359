import Mathlib.Data.List.Sort
import InfraBox.Ldap.Packet
import InfraBox.Lib.Decimal
import InfraBox.Lib.FinMap

/-!
# The directory

The entries and accounts the LDAP server makes of its configuration, and the packet an entry is sent
as (`internal/ldapserver/directory.go`, `internal/config/ldap.go`). Distinguished names are parsed
and compared by a library (`DnLib`).
-/

namespace InfraBox.Ldap

/-- `ldap.DN`: its relative names, each with its attribute types and values. -/
structure DN where
  rdns : List (List (GoString × GoString))
deriving DecidableEq

/-- The name functions of the LDAP library, and the functions that see the case of text in any
script: `strings.EqualFold`, and `strings.ToLower` on the values of attributes. -/
structure DnLib where
  parse : GoString → Option DN
  equalFold : DN → DN → Bool
  ancestorOfFold : DN → DN → Bool
  escape : GoString → GoString
  foldEq : GoString → GoString → Bool
  lower : GoString → GoString

/-! ## Configuration -/

/-- `config.LDAPUser`. -/
structure LDAPUser where
  name : GoString
  mail : GoString
  passSHA256 : GoString
  passBcrypt : GoString
  uidNumber : Int
  primaryGroup : Int
  otherGroups : List Int
  disabled : Bool
  canSearch : Bool

/-- `config.LDAPGroup`. -/
structure LDAPGroup where
  name : GoString
  gid : Int

/-- `config.LDAPConfig`, without the addresses. -/
structure LDAPConfig where
  baseDN : GoString
  users : List LDAPUser
  groups : List LDAPGroup

/-! ## Entries -/

/-- The attributes of an entry. -/
abbrev Attributes := FinMap GoString (List GoString)

/-- A map of attributes. -/
def attributes (attrs : List (String × List GoString)) : Attributes :=
  attrs.foldl (fun m (name, values) => m.set (str name) values) .empty

/-- One value more. -/
def appendValue (attrs : Attributes) (name value : GoString) : Attributes :=
  attrs.set name ((attrs.get name).getD [] ++ [value])

/-- `entry`. -/
structure Entry where
  dn : GoString
  parsedDN : DN
  attrs : Attributes

/-- `newEntry`. -/
def newEntry (lib : DnLib) (dn : GoString) (attrs : Attributes) : Entry :=
  ⟨dn, (lib.parse dn).getD ⟨[]⟩, attrs⟩

/-- `entry.values`. The source takes the first attribute in the order of a map's iteration; entries
whose attribute types differ in more than case have only one to take. -/
def Entry.values (lib : DnLib) (e : Entry) (name : GoString) : List GoString :=
  match e.attrs.find fun attr _ => lib.foldEq attr name with
  | some (_, values) => values
  | none => []

/-- `selectAttribute`. -/
def selectAttribute (lib : DnLib) (name : GoString) (requested : List GoString) : Bool :=
  let operational := toLower name ∈
    [str "namingcontexts", str "supportedldapversion", str "vendorname"]
  if requested.isEmpty then !operational
  else requested.any fun attr =>
    lib.foldEq name attr || (attr = str "*" && !operational) || (attr = str "+" && operational)

/-- `entry.packet`. -/
def Entry.packet (lib : DnLib) (e : Entry) (requested : List GoString) (typesOnly : Bool) :
    Packet :=
  let attrs := e.attrs.entries.filter fun (name, _) => selectAttribute lib name requested
  constructed .application searchResultEntry
    [textPacket e.dn, constructed .universal tagSequence (attrs.map fun (name, values) =>
      constructed .universal tagSequence [textPacket name,
        constructed .universal tagSet (if typesOnly then [] else values.map textPacket)])]

/-- `Server.rootDSE`. -/
def rootDSE (lib : DnLib) (baseDN : GoString) : Entry :=
  newEntry lib [] (attributes
    [("objectClass", [str "top"]), ("namingContexts", [baseDN]),
      ("supportedLDAPVersion", [str "3"]), ("vendorName", [str "Infrastructure-in-a-Box"])])

/-! ## Accounts -/

/-- `account`. -/
structure Account where
  dn : DN
  sha256 : GoString
  bcrypt : GoString
  disabled : Bool
  canSearch : Bool

/-- The value of a hexadecimal digit. -/
def hexDigit (b : UInt8) : Option UInt8 :=
  if isDigit b then some (b - '0'.toUInt8)
  else if 'a'.toUInt8 ≤ b ∧ b ≤ 'f'.toUInt8 then some (b - 'a'.toUInt8 + 10)
  else if 'A'.toUInt8 ≤ b ∧ b ≤ 'F'.toUInt8 then some (b - 'A'.toUInt8 + 10)
  else none

/-- The bytes `hex.DecodeString` returns, up to the first error. -/
def hexDecode : GoString → GoString
  | a :: b :: rest =>
    match hexDigit a, hexDigit b with
    | some x, some y => (x * 16 + y) :: hexDecode rest
    | _, _ => []
  | _ => []

/-- `credentials`. -/
def credentials (user : LDAPUser) (dn : DN) : Account :=
  ⟨dn, hexDecode user.passSHA256, user.passBcrypt, user.disabled, user.canSearch⟩

/-! ## Building the directory -/

/-- The base entry. The types of its first relative name become attributes, in lower case. -/
def baseEntry (lib : DnLib) (baseDN : GoString) : Option Entry := do
  let base := newEntry lib baseDN (attributes
    [("objectClass", [str "top", str "organizationalRole", str "extensibleObject"]),
      ("cn", [str "Directory"])])
  let rdn ← base.parsedDN.rdns.head?
  let rdnAttrs := rdn.foldl (fun m (type, value) => appendValue m (lib.lower type) value) .empty
  let classes := if rdn.any fun (type, _) => lib.foldEq type (str "dc")
    then base.attrs.set (str "objectClass") [str "top", str "domain", str "extensibleObject"]
    else base.attrs
  let attrs := rdnAttrs.entries.foldl (fun m (name, values) =>
    if name = str "objectclass"
    then m.set (str "objectClass") ((m.get (str "objectClass")).getD [] ++ values)
    else m.set name values) classes
  return { base with attrs }

/-- The entry of a group, before its members are known. -/
def groupEntry (lib : DnLib) (baseDN : GoString) (group : LDAPGroup) : Entry :=
  newEntry lib (str "cn=" ++ lib.escape group.name ++ str ",ou=groups," ++ baseDN) (attributes
    [("objectClass", [str "top", str "posixGroup", str "extensibleObject"]),
      ("cn", [group.name]), ("gidNumber", [formatInt group.gid])])

/-- The entry of a user, before its groups are known. -/
def userEntry (lib : DnLib) (baseDN : GoString) (user : LDAPUser) : Entry :=
  let attrs := attributes
    [("objectClass", [str "top", str "person", str "organizationalPerson", str "inetOrgPerson",
        str "extensibleObject"]),
      ("uid", [user.name]), ("cn", [user.name]), ("sn", [user.name]),
      ("gidNumber", [formatInt user.primaryGroup])]
  let attrs := if user.mail ≠ [] then attrs.set (str "mail") [user.mail] else attrs
  let attrs := if 0 < user.uidNumber then
      (((appendValue attrs (str "objectClass") (str "posixAccount")).set (str "uidNumber")
        [formatInt user.uidNumber]).set (str "homeDirectory") [str "/home/" ++ user.name]).set
          (str "loginShell") [str "/bin/sh"]
    else attrs
  newEntry lib (str "uid=" ++ lib.escape user.name ++ str ",ou=users," ++ baseDN) attrs

/-- `slices.Compact`. -/
def compact : List Int → List Int
  | a :: b :: rest => if a = b then compact (b :: rest) else a :: compact (b :: rest)
  | l => l

/-- The groups of a user, each once. -/
def LDAPUser.gids (user : LDAPUser) : List Int :=
  compact ((user.primaryGroup :: user.otherGroups).insertionSort (· ≤ ·))

/-- The loop over the groups of a user; `none` is the dereference of a missing group. -/
def joinGroups (user : LDAPUser) :
    List Int → Entry × FinMap Int Entry → Option (Entry × FinMap Int Entry)
  | [], state => some state
  | gid :: rest, (e, groups) => do
    let group ← groups.get gid
    let e := { e with attrs := appendValue e.attrs (str "memberOf") group.dn }
    let attrs := appendValue group.attrs (str "member") e.dn
    let attrs := appendValue attrs (str "uniqueMember") e.dn
    let group := { group with attrs := appendValue attrs (str "memberUid") user.name }
    joinGroups user rest (e, groups.set gid group)

/-- The loop over the users: their entries and accounts, and the groups with their members. -/
def joinUsers (lib : DnLib) (baseDN : GoString) :
    List LDAPUser → FinMap Int Entry → Option (List (Entry × Account) × FinMap Int Entry)
  | [], groups => some ([], groups)
  | user :: rest, groups => do
    let (e, groups) ← joinGroups user user.gids (userEntry lib baseDN user, groups)
    let (users, groups) ← joinUsers lib baseDN rest groups
    return ((e, credentials user e.parsedDN) :: users, groups)

/-- The entries and accounts of a directory. -/
structure Directory where
  baseDN : GoString
  entries : List Entry
  users : List Account

/-- `Server.buildDirectory`. -/
def buildDirectory (lib : DnLib) (cfg : LDAPConfig) : Option Directory := do
  let base ← baseEntry lib cfg.baseDN
  let units :=
    [newEntry lib (str "ou=users," ++ cfg.baseDN) (attributes
        [("objectClass", [str "top", str "organizationalUnit"]), ("ou", [str "users"])]),
      newEntry lib (str "ou=groups," ++ cfg.baseDN) (attributes
        [("objectClass", [str "top", str "organizationalUnit"]), ("ou", [str "groups"])])]
  let groups := cfg.groups.foldl (fun m group =>
    m.set group.gid (groupEntry lib cfg.baseDN group)) FinMap.empty
  let (users, groups) ← joinUsers lib cfg.baseDN cfg.users groups
  let groupEntries ← cfg.groups.mapM fun group => groups.get group.gid
  return ⟨cfg.baseDN, base :: units ++ users.map Prod.fst ++ groupEntries, users.map Prod.snd⟩

/-! ## A sample -/

/-- Names are read at the commas and the equals signs, without escapes. -/
def sampleLib : DnLib where
  parse s := some ⟨if s = [] then [] else (s.splitOn ','.toUInt8).map fun rdn =>
    [(rdn.takeWhile (· ≠ '='.toUInt8), (rdn.dropWhile (· ≠ '='.toUInt8)).drop 1)]⟩
  equalFold a b := a = b
  ancestorOfFold a b := a.rdns <:+ b.rdns && a ≠ b
  escape s := s
  foldEq a b := toLower a = toLower b
  lower := toLower

/-- A directory with one user that may search. -/
def sampleConfig : LDAPConfig where
  baseDN := str "dc=lan"
  users := [⟨str "a", [], str "70", [], 0, 1, [], false, true⟩]
  groups := [⟨str "g", 1⟩]

end InfraBox.Ldap
