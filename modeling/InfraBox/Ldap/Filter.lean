import InfraBox.Ldap.Directory

/-!
# Search filters

`compileFilter` turns a filter packet into a three-valued test of entries
(`internal/ldapserver/filter.go`).
-/

namespace InfraBox.Ldap

/-- `match`. -/
inductive Match where
  | isFalse | isTrue | undefined
deriving DecidableEq

/-- `truth`. -/
def truth (value : Bool) : Match := if value then .isTrue else .isFalse

/-- `entryFilter`. -/
abbrev EntryFilter := Entry → Match

def filterAnd : Nat := 0
def filterOr : Nat := 1
def filterNot : Nat := 2
def filterEqualityMatch : Nat := 3
def filterSubstrings : Nat := 4
def filterPresent : Nat := 7

/-- `knownAttribute`. -/
def knownAttribute (name : GoString) : Bool :=
  name ∈ ["objectclass", "uid", "cn", "sn", "ou", "dc", "o", "mail", "uidnumber", "gidnumber",
    "homedirectory", "loginshell", "member", "uniquemember", "memberuid", "memberof",
    "namingcontexts", "supportedldapversion", "vendorname"].map str

/-- The attributes whose values are names. -/
def dnAttribute (name : GoString) : Bool :=
  name ∈ ["member", "uniquemember", "memberof", "namingcontexts"].map str

/-- The attributes whose values are numbers. -/
def intAttribute (name : GoString) : Bool := name ∈ ["uidnumber", "gidnumber"].map str

/-- `strconv.ParseInt` in base ten for 64 bits. -/
def parseInt64 (s : GoString) : Option Int :=
  (parseInt s).filter fun n => -2 ^ 63 ≤ n && n < 2 ^ 63

/-- `equalAttribute`. -/
def equalAttribute (lib : DnLib) (name a b : GoString) : Bool :=
  if dnAttribute name then
    match lib.parse a, lib.parse b with
    | some x, some y => lib.equalFold x y
    | _, _ => false
  else if intAttribute name then
    match parseInt64 a, parseInt64 b with
    | some x, some y => x = y
    | _, _ => false
  else lib.foldEq a b

/-- What is left after the first occurrence of a fragment. -/
def cutAfter (fragment : GoString) : GoString → Option GoString
  | [] => if fragment = [] then some [] else none
  | b :: rest =>
    if fragment <+: b :: rest then some ((b :: rest).drop fragment.length)
    else cutAfter fragment rest

/-- The loop over the parts of a substring filter, on what is left of the value. -/
def matchParts (lib : DnLib) : List Packet → GoString → Bool
  | [], _ => true
  | part :: parts, rest =>
    let fragment := lib.lower part.data
    if part.tag = 0 then
      if fragment <+: rest then matchParts lib parts (rest.drop fragment.length) else false
    else if part.tag = 1 then
      match cutAfter fragment rest with
      | some rest => matchParts lib parts rest
      | none => false
    else if fragment <:+ rest then matchParts lib parts rest else false

/-- The parts of a substring filter are in order: an initial part only first, a final one only
last. -/
def partsValid : Bool → List Packet → Bool
  | _, [] => true
  | first, part :: parts =>
    part.class' = .context && part.kind = .primitive && part.tag ≤ 2 &&
      (part.tag ≠ 0 || first) && (part.tag ≠ 2 || parts.isEmpty) && partsValid false parts

/-- `compileSubstrings`. -/
def compileSubstrings (lib : DnLib) : List Packet → Option EntryFilter
  | [type, sequence] =>
    let name := toLower type.data
    if !octetString type || !isPacket sequence .universal .constructed tagSequence ||
        sequence.children.isEmpty || name = [] || !partsValid true sequence.children then none
    else some fun e =>
      if !knownAttribute name || dnAttribute name || intAttribute name then .undefined
      else truth ((e.values lib name).any fun value => matchParts lib sequence.children
        (lib.lower value))
  | _ => none

/-- The equality filter of `compileFilter`. -/
def compileEquality (lib : DnLib) : List Packet → Option EntryFilter
  | [type, assertion] =>
    let name := toLower type.data
    let value := assertion.data
    if !octetString type || !octetString assertion || name = [] then none
    else
      let valid := if dnAttribute name then (lib.parse value).isSome
        else if intAttribute name then (parseInt64 value).isSome
        else knownAttribute name
      some fun e =>
        if !valid then .undefined
        else truth
          ((e.values lib name).any fun candidate => equalAttribute lib name candidate value)
  | _ => none

/-- The loop of a conjunction, disjunction or negation, with whether a child was undefined. -/
def combine (tag : Nat) (e : Entry) : Bool → List EntryFilter → Match
  | undefined, [] => if undefined then .undefined else truth (tag = filterAnd)
  | undefined, child :: rest =>
    let value := child e
    if tag = filterNot then
      if value = .undefined then value else truth (value = .isFalse)
    else if (tag = filterAnd && value = .isFalse) || (tag = filterOr && value = .isTrue) then value
    else combine tag e (undefined || value = .undefined) rest

mutual

/-- `compileFilter`. -/
def compileFilter (lib : DnLib) : Packet → Option EntryFilter
  | .mk class' kind tag _ data children =>
    if class' ≠ .context then none
    else if tag = filterPresent then
      if kind ≠ .primitive || data = [] then none
      else
        let name := toLower data
        some fun e =>
          if !knownAttribute name then .undefined else truth (!(e.values lib name).isEmpty)
    else if kind ≠ .constructed then none
    else if tag = filterAnd || tag = filterOr || tag = filterNot then
      if children.isEmpty || (tag = filterNot && children.length ≠ 1) then none
      else (compileFilters lib children).map fun filters e => combine tag e false filters
    else if tag = filterEqualityMatch then compileEquality lib children
    else if tag = filterSubstrings then compileSubstrings lib children
    else none

/-- The children of a filter, compiled in order. -/
def compileFilters (lib : DnLib) : List Packet → Option (List EntryFilter)
  | [] => some []
  | p :: ps =>
    match compileFilter lib p with
    | none => none
    | some filter => (compileFilters lib ps).map (filter :: ·)

end

end InfraBox.Ldap
