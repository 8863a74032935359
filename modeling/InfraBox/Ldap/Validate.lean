import InfraBox.Config.Settings
import InfraBox.Ldap.Directory
import InfraBox.Lib.Unseen
import InfraBox.Net.Addr

/-!
# Accepted directories

`LDAPConfig.Validate` (`internal/config/ldap.go`). The loops over the groups and the users are
recursions over the lists with the sets of names and numbers seen so far. `Accepted` is what the
rest of the server relies on (`validate_ok`): names of the safe form that differ in more than case,
distinct group IDs, and no reference to a group that is not defined.
-/

namespace InfraBox.Ldap

open Config (require report require_eq_ok report_eq_ok bind_eq_ok)

/-- The parsers `Validate` calls: `net.SplitHostPort`, `netip.ParseAddr`, `mail.ParseAddress` with
the name and the address it finds, and `bcrypt.Cost`. -/
structure ValidateLib where
  splitHostPort : GoString → Option (GoString × GoString)
  parseAddr : GoString → Option Addr
  parseMail : GoString → Option (GoString × GoString)
  bcryptCost : GoString → Option Int

/-! ## Patterns -/

def isLetter (b : UInt8) : Bool :=
  ('A'.toUInt8 ≤ b && b ≤ 'Z'.toUInt8) || ('a'.toUInt8 ≤ b && b ≤ 'z'.toUInt8)

/-- `[A-Za-z0-9_.-]`. -/
def ldapNameByte (b : UInt8) : Bool :=
  isLetter b || isDigit b || b = '_'.toUInt8 || b = '.'.toUInt8 || b = '-'.toUInt8

/-- `ldapNamePattern`. -/
def ldapNamePattern : GoString → Bool
  | first :: rest =>
    (isLetter first || first = '_'.toUInt8) && rest.length ≤ 63 && rest.all ldapNameByte
  | [] => false

/-- `[./A-Za-z0-9]`. -/
def bcryptByte (b : UInt8) : Bool :=
  b = '.'.toUInt8 || b = '/'.toUInt8 || isLetter b || isDigit b

/-- `bcryptHashPattern`. -/
def bcryptHashPattern : GoString → Bool
  | d₁ :: two :: version :: d₂ :: cost₁ :: cost₂ :: d₃ :: rest =>
    d₁ = '$'.toUInt8 && two = '2'.toUInt8 && version ∈ str "aby" && d₂ = '$'.toUInt8 &&
      isDigit cost₁ && isDigit cost₂ && d₃ = '$'.toUInt8 && rest.length = 53 && rest.all bcryptByte
  | _ => false

/-- `hex.DecodeString`. -/
def decodeHexString : GoString → Option GoString
  | [] => some []
  | [_] => none
  | a :: b :: rest => do
    let x ← hexDigit a
    let y ← hexDigit b
    let decoded ← decodeHexString rest
    return (x * 16 + y) :: decoded

/-! ## Checks -/

/-- `math.MaxInt32`. -/
def maxInt32 : Int := 2 ^ 31 - 1

/-- `validateLDAPListen`. -/
def validateLDAPListen (lib : ValidateLib) (name : String) (value : GoString) :
    Except String Unit :=
  match lib.splitHostPort value with
  | none => .error (name ++ " must be a numeric IP address and port")
  | some (host, portText) =>
    let host := if host = [] then str "0.0.0.0" else host
    match lib.parseAddr host with
    | none => .error (name ++ " must use a numeric IP address without a zone")
    | some addr => do
      require (addr.zone = []) (name ++ " must use a numeric IP address without a zone")
      let unicast := addr.isGlobalUnicast || addr.isLoopback
      require (unicast || addr.isUnspecified)
        (name ++ " must use a unicast or unspecified address")
      let message :=
        name ++ " port must be between 1 and 65535 (zero is permitted on loopback only)"
      match parseUint 16 portText with
      | none => .error message
      | some port => require (!(port = 0 && !addr.isLoopback)) message

/-- `validateLDAPPassword`. -/
def validateLDAPPassword (lib : ValidateLib) (user : LDAPUser) : Except String Unit := do
  let hasSHA256 : Bool := user.passSHA256 ≠ []
  let hasBcrypt : Bool := user.passBcrypt ≠ []
  require (!(hasSHA256 && hasBcrypt)) "provide only one of pass_bcrypt or pass_sha256"
  require (!(!user.disabled && !hasSHA256 && !hasBcrypt))
    "active users require pass_bcrypt or pass_sha256"
  if hasSHA256 then
    require (((decodeHexString user.passSHA256).map List.length) = some 32)
      "pass_sha256 must contain exactly 64 hexadecimal characters"
  if hasBcrypt then
    require (bcryptHashPattern user.passBcrypt)
      "pass_bcrypt must be a complete bcrypt hash using the 2a, 2b, or 2y format"
    require ((lib.bcryptCost user.passBcrypt).any fun cost => 4 ≤ cost && cost ≤ 14)
      "pass_bcrypt cost must be between 4 and 14"

/-- The text of an element's path. -/
def elementPath (field : String) (i : Nat) : String := field ++ "[" ++ toString i ++ "]"

/-- The message about a name outside the pattern. -/
def nameMessage (path : String) : String :=
  path ++ ".name must start with an ASCII letter or underscore and contain 1–64 letters, digits, " ++
    "underscores, dots, or hyphens"

/-- The checks of the loop over the groups, given the names and the IDs of those before. -/
def validateGroup (path : String) (names : List GoString) (gids : List Int) (group : LDAPGroup) :
    Except String Unit := do
  require (ldapNamePattern group.name) (nameMessage path)
  require (toLower group.name ∉ names) (path ++ ".name duplicates another group name")
  require (!(group.gid ≤ 0 || maxInt32 < group.gid))
    (path ++ ".gid must be between 1 and " ++ toString maxInt32)
  require (group.gid ∉ gids) (path ++ ".gid duplicates another group ID")

/-- The loop over the groups, from index `i` on; its result are the IDs. -/
def validateGroups (i : Nat) (names : List GoString) (gids : List Int) :
    List LDAPGroup → Except String (List Int)
  | [] => .ok gids
  | group :: rest => do
    validateGroup (elementPath "ldap.groups" i) names gids group
    validateGroups (i + 1) (toLower group.name :: names) (group.gid :: gids) rest

/-- The message about a group that is not defined. -/
def undefinedGroup (path field : String) (groups : List Int) (gid : Int) : Option String :=
  if gid ∈ groups then none
  else some (path ++ "." ++ field ++ " references undefined group " ++ toString gid)

/-- The checks of the loop over the users, given the names and the IDs of those before. -/
def validateUser (lib : ValidateLib) (path : String) (groups : List Int) (names : List GoString)
    (uids : List Int) (user : LDAPUser) : Except String Unit := do
  require (ldapNamePattern user.name) (nameMessage path)
  require (toLower user.name ∉ names) (path ++ ".name duplicates another user name")
  require (!(user.uidNumber < 0 || maxInt32 < user.uidNumber))
    (path ++ ".uid_number must be zero or between 1 and " ++ toString maxInt32)
  require (!(user.uidNumber ≠ 0 && user.uidNumber ∈ uids))
    (path ++ ".uid_number duplicates another user ID")
  report (undefinedGroup path "primary_group" groups user.primaryGroup)
  report (user.otherGroups.findSome? (undefinedGroup path "other_groups" groups))
  require (user.mail = [] || lib.parseMail user.mail = some ([], user.mail))
    (path ++ ".mail must be a plain email address")
  (validateLDAPPassword lib user).mapError fun message => path ++ ": " ++ message

/-- The loop over the users, from index `i` on. -/
def validateUsers (lib : ValidateLib) (groups : List Int) (i : Nat) (names : List GoString)
    (uids : List Int) : List LDAPUser → Except String Unit
  | [] => .ok ()
  | user :: rest => do
    validateUser lib (elementPath "ldap.users" i) groups names uids user
    validateUsers lib groups (i + 1) (toLower user.name :: names)
      (if user.uidNumber ≠ 0 then user.uidNumber :: uids else uids) rest

/-- The checks of the base DN. -/
def validateBaseDN (dn : DnLib) (baseDN : GoString) : Except String Unit :=
  match dn.parse baseDN with
  | none => .error "ldap.base_dn must be a nonempty valid distinguished name"
  | some parsed => do
    require (parsed.rdns.length ≠ 0) "ldap.base_dn must be a nonempty valid distinguished name"
    require (parsed.rdns.all fun rdn => rdn.all fun attr =>
        !(trimSpace attr.1 = [] || trimSpace attr.2 = []))
      "ldap.base_dn attributes must have nonempty types and values"

/-- `LDAPConfig.Validate`, with the two addresses the server listens on. -/
def LDAPConfig.validate (lib : ValidateLib) (dn : DnLib) (listen tlsListen : GoString)
    (cfg : LDAPConfig) : Except String Unit := do
  validateLDAPListen lib "ldap.listen" listen
  validateLDAPListen lib "ldap.tls_listen" tlsListen
  validateBaseDN dn cfg.baseDN
  let groups ← validateGroups 0 [] [] cfg.groups
  validateUsers lib groups 0 [] [] cfg.users

/-! ## What is accepted -/

/-- The names and IDs of an accepted configuration. -/
structure Accepted (dn : DnLib) (cfg : LDAPConfig) : Prop where
  baseDN : ∃ rdn rest, dn.parse cfg.baseDN = some ⟨rdn :: rest⟩
  groupName : ∀ g ∈ cfg.groups, ldapNamePattern g.name = true
  groupNames : (cfg.groups.map fun g => toLower g.name).Nodup
  gids : (cfg.groups.map LDAPGroup.gid).Nodup
  userName : ∀ u ∈ cfg.users, ldapNamePattern u.name = true
  userNames : (cfg.users.map fun u => toLower u.name).Nodup
  defined : ∀ u ∈ cfg.users, ∀ gid ∈ u.primaryGroup :: u.otherGroups,
    gid ∈ cfg.groups.map LDAPGroup.gid

/-- The base name has a part. -/
theorem validateBaseDN_ok {dn : DnLib} {baseDN : GoString}
    (h : validateBaseDN dn baseDN = .ok ()) :
    ∃ rdn rest, dn.parse baseDN = some ⟨rdn :: rest⟩ := by
  unfold validateBaseDN at h
  cases hparse : dn.parse baseDN with
  | none =>
    rw [hparse] at h
    cases h
  | some parsed =>
    rw [hparse] at h
    simp only [bind_eq_ok, require_eq_ok, decide_eq_true_eq] at h
    obtain ⟨-, hne, -⟩ := h
    obtain ⟨rdns⟩ := parsed
    cases rdns with
    | nil => exact absurd rfl hne
    | cons rdn rest => exact ⟨rdn, rest, rfl⟩

theorem validateGroup_ok {path : String} {names : List GoString} {gids : List Int}
    {group : LDAPGroup} (h : validateGroup path names gids group = .ok ()) :
    ldapNamePattern group.name = true ∧ toLower group.name ∉ names ∧ group.gid ∉ gids := by
  simp only [validateGroup, bind_eq_ok, require_eq_ok, decide_eq_true_eq] at h
  obtain ⟨-, hname, -, hfresh, -, -, hgid⟩ := h
  exact ⟨hname, hfresh, hgid⟩

/-- What the loop over the groups has checked of those it was given, after others. -/
theorem validateGroups_ok {groups : List LDAPGroup} :
    ∀ {i : Nat} {names : List GoString} {gids out : List Int},
      validateGroups i names gids groups = .ok out →
      (∀ g ∈ groups, ldapNamePattern g.name = true) ∧
      Unseen (fun g => toLower g.name) names groups ∧ Unseen LDAPGroup.gid gids groups ∧
      ∀ gid ∈ out, gid ∈ gids ∨ gid ∈ groups.map LDAPGroup.gid := by
  induction groups with
  | nil =>
    intro i names gids out h
    cases h
    exact ⟨by simp, .nil, .nil, fun gid hgid => .inl hgid⟩
  | cons group rest ih =>
    intro i names gids out h
    simp only [validateGroups, bind_eq_ok] at h
    obtain ⟨⟨⟩, hgroup, hrest⟩ := h
    obtain ⟨hname, hnew, hgid⟩ := validateGroup_ok hgroup
    obtain ⟨hall, hnames, hgids, hout⟩ := ih hrest
    refine ⟨List.forall_mem_cons.2 ⟨hname, hall⟩, unseen_cons.2 ⟨hnew, hnames⟩,
      unseen_cons.2 ⟨hgid, hgids⟩, ?_⟩
    intro gid hgid
    rcases hout gid hgid with hmem | hmem
    · rcases List.mem_cons.1 hmem with rfl | hmem
      · exact .inr (.head _)
      · exact .inl hmem
    · exact .inr (.tail _ hmem)

theorem undefinedGroup_eq_none {path field : String} {groups : List Int} {gid : Int} :
    undefinedGroup path field groups gid = none ↔ gid ∈ groups := by
  simp [undefinedGroup]

/-- What is checked of one user. -/
theorem validateUser_ok {lib : ValidateLib} {path : String} {groups uids : List Int}
    {names : List GoString} {user : LDAPUser}
    (h : validateUser lib path groups names uids user = .ok ()) :
    ldapNamePattern user.name = true ∧ toLower user.name ∉ names ∧
      ∀ gid ∈ user.primaryGroup :: user.otherGroups, gid ∈ groups := by
  simp only [validateUser, bind_eq_ok, require_eq_ok, report_eq_ok, decide_eq_true_eq,
    undefinedGroup_eq_none, List.findSome?_eq_none_iff] at h
  obtain ⟨-, hname, -, hfresh, -, -, -, -, -, hprimary, -, hothers, -⟩ := h
  refine ⟨hname, hfresh, fun gid hgid => ?_⟩
  rcases List.mem_cons.1 hgid with rfl | hgid
  · exact hprimary
  · exact hothers gid hgid

/-- What is checked of all users, with the names seen before. -/
theorem validateUsers_ok {lib : ValidateLib} {groups : List Int} {users : List LDAPUser} :
    ∀ {i : Nat} {names : List GoString} {uids : List Int},
      validateUsers lib groups i names uids users = .ok () →
      (∀ u ∈ users, ldapNamePattern u.name = true ∧
        ∀ gid ∈ u.primaryGroup :: u.otherGroups, gid ∈ groups) ∧
      Unseen (fun u => toLower u.name) names users := by
  induction users with
  | nil => exact fun _ => ⟨by simp, .nil⟩
  | cons user rest ih =>
    intro i names uids h
    simp only [validateUsers, bind_eq_ok] at h
    obtain ⟨⟨⟩, huser, hrest⟩ := h
    obtain ⟨hname, hnew, hdefined⟩ := validateUser_ok huser
    obtain ⟨hall, hnames⟩ := ih hrest
    exact ⟨List.forall_mem_cons.2 ⟨⟨hname, hdefined⟩, hall⟩, unseen_cons.2 ⟨hnew, hnames⟩⟩

/-- A section that passes is accepted. -/
theorem validate_ok {lib : ValidateLib} {dn : DnLib} {listen tlsListen : GoString}
    {cfg : LDAPConfig} (h : cfg.validate lib dn listen tlsListen = .ok ()) : Accepted dn cfg := by
  simp only [LDAPConfig.validate, bind_eq_ok] at h
  obtain ⟨-, -, -, -, ⟨⟩, hbase, out, hgroups, husers⟩ := h
  obtain ⟨hgroup, hgroupNames, hgids, hout⟩ := validateGroups_ok hgroups
  obtain ⟨huser, huserNames⟩ := validateUsers_ok husers
  exact {
    baseDN := validateBaseDN_ok hbase
    groupName := hgroup
    groupNames := hgroupNames.nodup
    gids := hgids.nodup
    userName := fun u hu => (huser u hu).1
    userNames := huserNames.nodup
    defined := fun u hu gid hgid =>
      (hout gid ((huser u hu).2 gid hgid)).resolve_left List.not_mem_nil }

end InfraBox.Ldap
