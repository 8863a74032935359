import InfraBox.Lib.Text

/-!
# LDAP messages

A BER packet as the decoder delivers it, the envelope of a request and its controls, and the packets
a server answers with (`internal/ldapserver/protocol.go`).
-/

namespace InfraBox.Ldap

/-! ## Packets -/

/-- `ber.Class`. -/
inductive Class where
  | universal | application | context | privateUse
deriving DecidableEq

/-- `ber.Type`. -/
inductive Kind where
  | primitive | constructed
deriving DecidableEq

/-- The decoded value of a packet, as far as it is looked at. -/
inductive Value where
  | int (n : Int)
  | bool (b : Bool)
  | other
deriving DecidableEq

/-- `ber.Packet`. -/
inductive Packet where
  | mk (class' : Class) (kind : Kind) (tag : Nat) (value : Value) (data : GoString)
    (children : List Packet)

namespace Packet

def class' : Packet → Class | mk c _ _ _ _ _ => c
def kind : Packet → Kind | mk _ k _ _ _ _ => k
def tag : Packet → Nat | mk _ _ t _ _ _ => t
def value : Packet → Value | mk _ _ _ v _ _ => v
def data : Packet → GoString | mk _ _ _ _ d _ => d
def children : Packet → List Packet | mk _ _ _ _ _ cs => cs

end Packet

/-! ## Tags and codes -/

def tagBoolean : Nat := 1
def tagInteger : Nat := 2
def tagOctetString : Nat := 4
def tagEnumerated : Nat := 10
def tagSequence : Nat := 16
def tagSet : Nat := 17

def bindRequest : Nat := 0
def bindResponse : Nat := 1
def unbindRequest : Nat := 2
def searchRequest : Nat := 3
def searchResultEntry : Nat := 4
def searchResultDone : Nat := 5
def modifyRequest : Nat := 6
def addRequest : Nat := 8
def delRequest : Nat := 10
def modifyDNRequest : Nat := 12
def compareRequest : Nat := 14
def abandonRequest : Nat := 16
def extendedRequest : Nat := 23

/-- The result codes the server uses. -/
inductive ResultCode where
  | success | protocolError | timeLimitExceeded | sizeLimitExceeded | authMethodNotSupported
  | adminLimitExceeded | unavailableCriticalExtension | inappropriateMatching | noSuchObject
  | invalidDNSyntax | invalidCredentials | insufficientAccessRights | busy | unavailable
  | unwillingToPerform
deriving DecidableEq

/-- Their numbers. -/
def ResultCode.code : ResultCode → Int
  | .success => 0
  | .protocolError => 2
  | .timeLimitExceeded => 3
  | .sizeLimitExceeded => 4
  | .authMethodNotSupported => 7
  | .adminLimitExceeded => 11
  | .unavailableCriticalExtension => 12
  | .inappropriateMatching => 18
  | .noSuchObject => 32
  | .invalidDNSyntax => 34
  | .invalidCredentials => 49
  | .insufficientAccessRights => 50
  | .busy => 51
  | .unavailable => 52
  | .unwillingToPerform => 53

/-! ## Requests -/

/-- `isPacket`. -/
def isPacket (p : Packet) (class' : Class) (kind : Kind) (tag : Nat) : Bool :=
  p.class' = class' && p.kind = kind && p.tag = tag

/-- `octetString`. -/
def octetString (p : Packet) : Bool := isPacket p .universal .primitive tagOctetString

/-- `integer`. -/
def integer (p : Packet) (tag : Nat) : Option Int :=
  if isPacket p .universal .primitive tag then
    match p.value with
    | .int n => some n
    | _ => none
  else none

/-- A packet that carries `true`; other values count as `false`. -/
def Packet.isTrue (p : Packet) : Bool := p.value = .bool true

/-- `requestEnvelope`: the number of a request and its operation. -/
def requestEnvelope (packet : Packet) : Option (Int × Packet) :=
  if isPacket packet .universal .constructed tagSequence && packet.children.length ≤ 3 then
    match packet.children with
    | number :: op :: _ =>
      match integer number tagInteger with
      | some id =>
        if 0 < id && id ≤ 2147483647 && op.class' = .application then some (id, op) else none
      | none => none
    | _ => none
  else none

def controlTypePaging : GoString := str "1.2.840.113556.1.4.319"

/-- The loop body of `validateControls`: the code for one control, or nothing if the next one is to
be looked at. After its type a control may have a criticality and then a value. -/
def controlError (control : Packet) : Option ResultCode :=
  if !isPacket control .universal .constructed tagSequence || 3 < control.children.length then
    some .protocolError
  else match control.children with
    | [] => some .protocolError
    | oid :: rest =>
      if !octetString oid then some .protocolError
      else
        let critical := rest.head?.filter fun p => isPacket p .universal .primitive tagBoolean
        let rest := if critical.isSome then rest.tail else rest
        let malformed := match rest with
          | [] => false
          | [value] => !octetString value
          | _ => true
        if malformed then some .protocolError
        else if critical.any Packet.isTrue then some .unavailableCriticalExtension
        else if oid.data = controlTypePaging then some .unwillingToPerform
        else none

/-- `validateControls`. -/
def validateControls (packet : Packet) : ResultCode :=
  match packet.children with
  | [_, _] => .success
  | _ :: _ :: controls :: _ =>
    if !isPacket controls .context .constructed 0 || controls.children.isEmpty then .protocolError
    else (controls.children.findSome? controlError).getD .success
  | _ => .success

/-- `responseType`. -/
def responseType (tag : Nat) : Option Nat :=
  if tag ∈ [bindRequest, modifyRequest, addRequest, delRequest, modifyDNRequest, compareRequest,
      extendedRequest] then some (tag + 1)
  else if tag = searchRequest then some searchResultDone
  else none

/-! ## Responses -/

/-- A packet made of others. -/
def constructed (class' : Class) (tag : Nat) (children : List Packet) : Packet :=
  .mk class' .constructed tag .other [] children

/-- `ber.NewInteger`. -/
def integerPacket (tag : Nat) (n : Int) : Packet := .mk .universal .primitive tag (.int n) [] []

/-- `textPacket`. -/
def textPacket (value : GoString) : Packet :=
  .mk .universal .primitive tagOctetString .other value []

/-- The message of `writeMessage`. -/
def message (id : Int) (op : Packet) : Packet :=
  constructed .universal tagSequence [integerPacket tagInteger id, op]

/-- The operation of `writeResult`. -/
def resultOp (tag : Nat) (code : ResultCode) (text : GoString) : Packet :=
  constructed .application tag
    [integerPacket tagEnumerated code.code, textPacket [], textPacket text]

end InfraBox.Ldap
