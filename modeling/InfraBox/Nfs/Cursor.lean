import InfraBox.Lib.Bytes
import InfraBox.Lib.Program
import InfraBox.Nfs.Filesystem

/-!
# Decoding compound operations

The `cursor` of `internal/nfsserver/protocol.go`, which checks the lengths in a request before the
protocol library sees it, and `cursor.operation`, which cuts one operation out of a compound. A
slice outside the data would be a fault. Every decoder runs without one, only moves forward and
forgets no error (`cursorFrame`), so that an operation is a slice between two offsets, and at least
four bytes when it was decoded without an error (`operation_spec`).
-/

namespace InfraBox.Nfs

/-- The errors a cursor can have. -/
inductive CursorError where
  | unexpectedEOF
  | oversizedValue
  | invalidComponent
  | oversizedBitmap
  | invalidAttributes
  | invalidCreateMode
  | invalidOpenMode
deriving DecidableEq

def CursorError.text : CursorError → String
  | .unexpectedEOF => "unexpected EOF"
  | .oversizedValue => "oversized NFS XDR value"
  | .invalidComponent => "invalid NFS path component"
  | .oversizedBitmap => "oversized NFS attribute bitmap"
  | .invalidAttributes => "invalid NFS attribute data"
  | .invalidCreateMode => "invalid NFS create mode"
  | .invalidOpenMode => "invalid NFS open mode"

/-- `cursor`. -/
structure Cursor where
  data : GoString
  offset : Nat
  err : Option CursorError
  size : Option Nat

/-- A cursor at the beginning of the data. -/
def Cursor.start (data : GoString) : Cursor := ⟨data, 0, none, none⟩

/-- A program on a cursor. -/
abbrev Decoder (α : Type) : Type := Program Cursor α

/-! ## Values -/

/-- `c.err = err`. -/
def fail (err : CursorError) : Decoder Unit := modify fun c => { c with err := some err }

/-- `cursor.take`. -/
def take (n : Nat) : Decoder (Option GoString) := fun c =>
  if c.err ≠ none then some (none, c)
  else if n + c.offset > c.data.length then some (none, { c with err := some .unexpectedEOF })
  else (slice c.data c.offset (c.offset + n)).map fun p =>
    (some p, { c with offset := c.offset + n })

/-- `cursor.word`. -/
def word : Decoder UInt32 := do
  let p ← take 4
  return (p.map uint32).getD 0

/-- The padding behind a value of `n` bytes. -/
def padding (n : Nat) : Nat := (4 - n % 4) % 4

/-- `cursor.opaque`: bytes behind their length, with padding. -/
def opaqueValue (limit : Nat) : Decoder (Option GoString) := do
  let n := (← word).toNat
  if n > limit then do
    fail .oversizedValue
    return none
  else do
    let p ← take n
    let _ ← take (padding n)
    return p

/-- `cursor.component`. -/
def component : Decoder Unit := do
  let name := (← opaqueValue 255).getD []
  if name = [] ∨ name = str "." ∨ name = str ".." ∨ '/'.toUInt8 ∈ name ∨ 0 ∈ name then
    fail .invalidComponent
  else pure ()

/-- The words of a bitmap. -/
def words : Nat → Decoder (List UInt32)
  | 0 => pure []
  | n + 1 => do
    let value ← word
    let values ← words n
    return value :: values

/-- `cursor.bitmap`. -/
def bitmap : Decoder (List UInt32) := do
  let count ← word
  if count > 3 then do
    fail .oversizedBitmap
    return []
  else words count.toNat

/-! ## Attributes -/

def nfs4OK : UInt32 := 0
def nfs4ErrInval : UInt32 := 22
def nfs4ErrROFS : UInt32 := 30
def nfs4ErrNotSupp : UInt32 := 10004
def nfs4ErrResource : UInt32 := 10018
def nfs4ErrMinorVersMismatch : UInt32 := 10021
def nfs4ErrAttrNotSupp : UInt32 := 10032
def nfs4ErrOpIllegal : UInt32 := 10044

/-- The numbers of the attributes in a bitmap, in order. -/
def attributeNumbers (mask : List UInt32) : List Nat :=
  mask.zipIdx.flatMap fun (bits, word) =>
    ((List.range 32).filter fun bit => bits &&& (1 <<< UInt32.ofNat bit) ≠ 0).map (word * 32 + ·)

/-- The state of the loop over the attributes: a cursor over their values, the size set and the
status. -/
structure AttributeScan where
  nested : Cursor
  size : Option Nat
  status : UInt32

/-- The body of the loop. -/
def scanAttribute (number : Nat) (s : AttributeScan) : Option AttributeScan :=
  if number = 4 then do
    let (value, nested) ← take 8 s.nested
    return { s with nested, size := (value.map beNat).orElse fun _ => s.size }
  else if number = 33 then do
    let (_, nested) ← take 4 s.nested
    return { s with nested }
  else return { s with status := nfs4ErrAttrNotSupp }

/-- The loop over the attributes. -/
def scanAttributes : List Nat → AttributeScan → Option AttributeScan
  | [], s => some s
  | number :: rest, s => do
    let s ← scanAttribute number s
    scanAttributes rest s

/-- The values of the attributes in `data`: the loop and the checks behind it. -/
def attributeValues (mask : List UInt32) (data : GoString) : Decoder UInt32 := fun c => do
  let s ← scanAttributes (attributeNumbers mask) ⟨.start data, c.size, nfs4OK⟩
  let c := { c with size := s.size }
  if s.status = nfs4OK ∧ (s.nested.err ≠ none ∨ s.nested.offset ≠ data.length) then
    return (s.status, { c with err := some .invalidAttributes })
  else return (s.status, c)

/-- `cursor.attrs`. -/
def attrs : Decoder UInt32 := do
  let mask ← bitmap
  let data ← opaqueValue 4096
  attributeValues mask (data.getD [])

/-! ## Operations -/

/-- The operations the server knows. -/
inductive OpCode where
  | access | close | commit | create | getattr | getfh | link | lookup | «open» | putfh | putrootfh
  | read | readdir | readlink | remove | rename | renew | restorefh | savefh | secinfo | setattr
  | setclientid | setclientidConfirm | write
deriving DecidableEq

/-- The operation with a number. -/
def OpCode.ofNumber (number : UInt32) : Option OpCode :=
  match number.toNat with
  | 3 => some .access
  | 4 => some .close
  | 5 => some .commit
  | 6 => some .create
  | 9 => some .getattr
  | 10 => some .getfh
  | 11 => some .link
  | 15 => some .lookup
  | 18 => some .open
  | 22 => some .putfh
  | 24 => some .putrootfh
  | 25 => some .read
  | 26 => some .readdir
  | 27 => some .readlink
  | 28 => some .remove
  | 29 => some .rename
  | 30 => some .renew
  | 31 => some .restorefh
  | 32 => some .savefh
  | 33 => some .secinfo
  | 34 => some .setattr
  | 35 => some .setclientid
  | 36 => some .setclientidConfirm
  | 38 => some .write
  | _ => none

/-- `operation`. -/
structure Operation where
  number : UInt32
  data : GoString
  status : UInt32
  access : UInt32
  size : Option Nat

/-- The data of the kind of object that `CREATE` makes. -/
def createObject (kind : UInt32) : Decoder (Option GoString) :=
  if kind = 5 then opaqueValue 4096
  else if kind = 3 ∨ kind = 4 then take 8
  else pure none

/-- The arguments of `CREATE`. -/
def createArguments : Decoder UInt32 := do
  let kind ← word
  let _ ← createObject kind
  component
  attrs

/-- The mode of `OPEN4_CREATE`, given the status so far. -/
def createMode (status : UInt32) : Decoder UInt32 := do
  let mode ← word
  if mode = 0 ∨ mode = 1 then do
    let attrStatus ← attrs
    return if attrStatus ≠ 0 then attrStatus else status
  else if mode = 2 then do
    let _ ← take 8
    return nfs4ErrNotSupp
  else do
    fail .invalidCreateMode
    return status

/-- Whether `OPEN` creates the file. -/
def openHow (status : UInt32) : Decoder UInt32 := do
  let how ← word
  if how = 1 then createMode status
  else if how ≠ 0 then do
    fail .invalidOpenMode
    return status
  else return status

/-- What `OPEN` opens. -/
def openClaim (status : UInt32) : Decoder UInt32 := do
  let claim ← word
  if claim = 0 then do
    component
    return status
  else return nfs4ErrNotSupp

/-- The arguments of `OPEN`: the status and the access. -/
def openArguments : Decoder (UInt32 × UInt32) := do
  let _ ← take 4
  let access ← word
  let deny ← word
  let status := if access < 1 ∨ access > 3 then nfs4ErrInval else nfs4OK
  let status := if deny ≠ 0 then nfs4ErrNotSupp else status
  let _ ← take 8
  let _ ← opaqueValue 1024
  let status ← openHow status
  let status ← openClaim status
  return (status, access)

/-- Arguments that set no status. -/
def skip {α : Type} (m : Decoder α) : Decoder (UInt32 × UInt32) := do
  let _ ← m
  return (nfs4OK, 0)

/-- Arguments that end in attributes. -/
def withStatus (m : Decoder UInt32) : Decoder (UInt32 × UInt32) := do
  let status ← m
  return (status, 0)

/-- The `switch` over the operations: the status and the access. -/
def arguments : Option OpCode → Decoder (UInt32 × UInt32)
  | some .putrootfh | some .getfh | some .savefh | some .restorefh | some .readlink =>
    return (nfs4OK, 0)
  | some .putfh => skip (opaqueValue 128)
  | some .lookup | some .remove | some .secinfo | some .link => skip component
  | some .rename => skip do
    component
    component
  | some .getattr => skip bitmap
  | some .access => skip (take 4)
  | some .renew => skip (take 8)
  | some .setclientid => skip do
    let _ ← take 8
    let _ ← opaqueValue 1024
    let _ ← take 4
    let _ ← opaqueValue 255
    let _ ← opaqueValue 255
    take 4
  | some .setclientidConfirm => skip (take 16)
  | some .close => skip (take 20)
  | some .commit => skip (take 12)
  | some .read => withStatus do
    let _ ← take 24
    let count ← word
    return if count.toNat > maxIO then nfs4ErrInval else nfs4OK
  | some .write => skip do
    let _ ← take 28
    opaqueValue maxIO
  | some .readdir => skip do
    let _ ← take 24
    bitmap
  | some .setattr => withStatus do
    let _ ← take 16
    attrs
  | some .create => withStatus createArguments
  | some .open => openArguments
  | none => return (nfs4ErrOpIllegal, 0)

/-- The operation between an offset and the cursor. -/
def finishOperation (start : Nat) (number status access : UInt32) : Decoder Operation := fun c => do
  let status := if OpCode.ofNumber number = some .open ∧ c.size.any (· ≠ 0) = true
    then nfs4ErrNotSupp else status
  let data ← slice c.data start c.offset
  return (⟨number, data, status, access, c.size⟩, c)

/-- `cursor.operation`. -/
def operation : Decoder Operation := fun c => do
  let (number, c') ← word { c with size := none }
  let ((status, access), c') ← arguments (OpCode.ofNumber number) c'
  finishOperation c.offset number status access c'

/-! ## Decoders run -/

/-- What every decoder does to a cursor: it stays inside the data, goes forward and keeps errors. -/
def cursorFrame : Frame Cursor where
  inv c := c.offset ≤ c.data.length
  rel c c' := c'.data = c.data ∧ c.offset ≤ c'.offset ∧ (c'.err = none → c.err = none)
  refl _ := ⟨rfl, le_refl _, id⟩
  trans h h' := ⟨h'.1.trans h.1, h.2.1.trans h'.2.1, fun herr => h.2.2 (h'.2.2 herr)⟩

end InfraBox.Nfs
