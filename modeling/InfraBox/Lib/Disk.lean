import InfraBox.Lib.Decimal
import InfraBox.Lib.FinMap
import InfraBox.Lib.Interleaving

/-!
# A directory on a disk

The files of one directory, as processes see them and as a power failure may leave them. An
operation on a file or on the directory takes effect at once for every process, but it reaches the
disk with the next sync only: the directory keeps, for each name, all the entries that the disk may
have (`Disk.stored`), and a power failure leaves one of them (`Disk.PowerFailure`). What was not
synced of a file's contents is then lost or damaged.

Any operation may fail. A failed one changes nothing, except that a failed write may have written a
part. The names that `createTemp` chooses are not used twice; who chose one and who created a file
is recorded (`Disk.owner`, `File.creator`) for the protocols of the processes, and nothing else
depends on it.
-/

namespace InfraBox

abbrev Inode := Nat

/-- A file, and whether its contents have reached the disk. -/
structure File (ι : Type) where
  data : GoString
  mode : Nat
  regular : Bool
  synced : Bool
  creator : Option ι
deriving DecidableEq

structure Disk (ι : Type) where
  directory : FinMap GoString Inode
  /-- The entries that the disk may have for a name. -/
  stored : GoString → List (Option Inode)
  files : Inode → Option (File ι)
  owner : GoString → Option ι

/-- The system calls; `Q` are questions that no file is concerned with. -/
inductive DiskOp (Q : Type) where
  | ask (q : Q)
  | createTemp (stem : GoString)
  | chmod (i : Inode) (mode : Nat)
  | write (i : Inode) (data : GoString)
  | sync (i : Inode)
  | close (i : Inode)
  | link (old new : GoString)
  | rename (old new : GoString)
  | remove (name : GoString)
  | openDir
  | syncDir
  | closeDir
  | lstat (name : GoString)
  | readFile (name : GoString)
  | readDir

/-- What `Lstat` reports of a file. -/
structure FileInfo where
  regular : Bool
  mode : Nat

/-- What the calls return; `ε` are the errors. -/
def DiskOp.Res {Q : Type} (A : Q → Type) (ε : Type) : DiskOp Q → Type
  | .ask q => A q
  | .createTemp _ => Except ε (GoString × Inode)
  | .lstat _ => Except ε FileInfo
  | .readFile _ => Except ε GoString
  | .readDir => Except ε (List GoString)
  | _ => Except ε Unit

namespace Disk

variable {ι : Type}

/-- The entry of a name, as processes see it. -/
def entries (d : Disk ι) (name : GoString) : Option Inode := d.directory.get name

/-- The entry of a name changes, on the disk with the next sync. -/
def setEntry (d : Disk ι) (name : GoString) (v : Option Inode) : Disk ι :=
  { d with
    directory := match v with
      | some i => d.directory.set name i
      | none => d.directory.erase name
    stored := Function.update d.stored name (d.stored name ++ [v]) }

def setFile (d : Disk ι) (i : Inode) (f : File ι) : Disk ι :=
  { d with files := Function.update d.files i (some f) }

/-- A new empty file under a name of its own. -/
def create (d : Disk ι) (p : ι) (name : GoString) (i : Inode) : Disk ι :=
  let d := (d.setEntry name (some i)).setFile i ⟨[], 0o600, true, false, some p⟩
  { d with owner := Function.update d.owner name (some p) }

/-- The disk has the directory as it is. -/
def settle (d : Disk ι) : Disk ι := { d with stored := fun name => [d.entries name] }

/-- A name that `CreateTemp` may make of the part before the asterisk. -/
def TempName (stem name : GoString) : Prop :=
  ∃ digits : GoString, digits.all isDigit ∧ name = stem ++ digits

/-- What the calls do. -/
def exec {Q : Type} {A : Q → Type} {ε : Type} (p : ι) :
    (op : DiskOp Q) → Disk ι → op.Res A ε → Disk ι → Prop
  | .ask _, d, _, d' => d' = d
  | .createTemp stem, d, (r : Except ε (GoString × Inode)), d' => match r with
    | .ok (name, i) => TempName stem name ∧ d.entries name = none ∧ d.owner name = none ∧
        d.files i = none ∧ d' = d.create p name i
    | .error _ => d' = d
  | .chmod i mode, d, (r : Except ε Unit), d' => match r with
    | .ok _ => ∃ f, d.files i = some f ∧ d' = d.setFile i { f with mode, synced := false }
    | .error _ => d' = d
  | .write i data, d, (r : Except ε Unit), d' => match r with
    | .ok _ => ∃ f, d.files i = some f ∧
        d' = d.setFile i { f with data := f.data ++ data, synced := false }
    | .error _ => d' = d ∨ ∃ f part, d.files i = some f ∧ part <+: data ∧
        d' = d.setFile i { f with data := f.data ++ part, synced := false }
  | .sync i, d, (r : Except ε Unit), d' => match r with
    | .ok _ => ∃ f, d.files i = some f ∧ d' = d.setFile i { f with synced := true }
    | .error _ => d' = d
  | .close _, d, _, d' => d' = d
  | .link old new, d, (r : Except ε Unit), d' => match r with
    | .ok _ => ∃ i, d.entries old = some i ∧ d.entries new = none ∧ d' = d.setEntry new (some i)
    | .error _ => d' = d
  | .rename old new, d, (r : Except ε Unit), d' => match r with
    -- two names of one file stay as they are
    | .ok _ => ∃ i, d.entries old = some i ∧ d' =
        if d.entries new = some i then d else (d.setEntry new (some i)).setEntry old none
    | .error _ => d' = d
  | .remove name, d, (r : Except ε Unit), d' => match r with
    | .ok _ => d' = d.setEntry name none
    | .error _ => d' = d
  | .openDir, d, _, d' => d' = d
  | .syncDir, d, (r : Except ε Unit), d' => match r with
    | .ok _ => d' = d.settle
    | .error _ => d' = d
  | .closeDir, d, _, d' => d' = d
  | .lstat name, d, (r : Except ε FileInfo), d' => d' = d ∧ match r with
    | .ok info => ∃ i f, d.entries name = some i ∧ d.files i = some f ∧ info = ⟨f.regular, f.mode⟩
    | .error _ => True
  | .readFile name, d, (r : Except ε GoString), d' => d' = d ∧ match r with
    | .ok data => ∃ i f, d.entries name = some i ∧ d.files i = some f ∧ data = f.data
    | .error _ => True
  | .readDir, d, (r : Except ε (List GoString)), d' => d' = d ∧ match r with
    | .ok names => names = d.directory.keys
    | .error _ => True

/-- Each name has an entry that the disk may have had, and synced files are undamaged. -/
structure PowerFailure (d d' : Disk ι) : Prop where
  entries : ∀ name, d'.entries name ∈ d.stored name
  stored : ∀ name, d'.stored name = [d'.entries name]
  files : ∀ i f, d.files i = some f → f.synced = true → d'.files i = some f
  owner : d'.owner = d.owner

/-- The directory as a shared state of processes. -/
def machine (ι : Type) {Q : Type} (A : Q → Type) (ε : Type) :
    Machine ι (DiskOp Q) (DiskOp.Res A ε) (Disk ι) where
  exec := exec
  crash := PowerFailure

/-- What the calls return and do if they succeed whenever they can; `n` numbers new files. -/
def answer {Q : Type} {A : Q → Type} {ε : Type} (reply : (q : Q) → A q) (missing : ε) (p : ι)
    (n : Nat) : (op : DiskOp Q) → Disk ι → op.Res A ε × Disk ι
  | .ask q, d => (reply q, d)
  | .createTemp stem, d =>
    let name := stem ++ formatNat n
    if d.entries name = none ∧ (d.owner name).isNone ∧ (d.files n).isNone then
      (Except.ok (name, n), d.create p name n)
    else (Except.error missing, d)
  | .chmod i mode, d => match d.files i with
    | some f => (Except.ok (), d.setFile i { f with mode, synced := false })
    | none => (Except.error missing, d)
  | .write i data, d => match d.files i with
    | some f => (Except.ok (), d.setFile i { f with data := f.data ++ data, synced := false })
    | none => (Except.error missing, d)
  | .sync i, d => match d.files i with
    | some f => (Except.ok (), d.setFile i { f with synced := true })
    | none => (Except.error missing, d)
  | .close _, d => (Except.ok (), d)
  | .link old new, d => match d.entries old, d.entries new with
    | some i, none => (Except.ok (), d.setEntry new (some i))
    | _, _ => (Except.error missing, d)
  | .rename old new, d => match d.entries old with
    | some i => (Except.ok (),
        if d.entries new = some i then d else (d.setEntry new (some i)).setEntry old none)
    | none => (Except.error missing, d)
  | .remove name, d => (Except.ok (), d.setEntry name none)
  | .openDir, d => (Except.ok (), d)
  | .syncDir, d => (Except.ok (), d.settle)
  | .closeDir, d => (Except.ok (), d)
  | .lstat name, d => match (d.entries name).bind d.files with
    | some f => (Except.ok ⟨f.regular, f.mode⟩, d)
    | none => (Except.error missing, d)
  | .readFile name, d => match (d.entries name).bind d.files with
    | some f => (Except.ok f.data, d)
    | none => (Except.error missing, d)
  | .readDir, d => (Except.ok d.directory.keys, d)

/-- The sample answers are answers of the disk. -/
theorem exec_answer {Q : Type} {A : Q → Type} {ε : Type} (reply : (q : Q) → A q) (missing : ε)
    (p : ι) (n : Nat) (op : DiskOp Q) (d : Disk ι) :
    exec p op d (answer reply missing p n op d).1 (answer reply missing p n op d).2 := by
  cases op with
  | ask q => rfl
  | createTemp stem =>
    simp only [answer]
    split
    · next h =>
      obtain ⟨hentry, howner, hfile⟩ := h
      rw [Option.isNone_iff_eq_none] at howner hfile
      refine ⟨⟨formatNat n, ?_, rfl⟩, hentry, howner, hfile, rfl⟩
      exact List.all_eq_true.2 fun b hb => isDigit_of_mem_formatNat hb
    · rfl
  | chmod | sync =>
    simp only [answer]
    split
    · next f hf => exact ⟨f, hf, rfl⟩
    · rfl
  | write i data =>
    simp only [answer]
    split
    · next f hf => exact ⟨f, hf, rfl⟩
    · exact .inl rfl
  | link old new =>
    simp only [answer]
    split
    · next i hi hnew => exact ⟨i, hi, hnew, rfl⟩
    · rfl
  | rename old new =>
    simp only [answer]
    split
    · next i hi => exact ⟨i, hi, rfl⟩
    · rfl
  | close | remove | openDir | syncDir | closeDir => rfl
  | lstat | readFile =>
    simp only [answer]
    split
    · next f hf =>
      obtain ⟨i, hi, hf⟩ := Option.bind_eq_some_iff.1 hf
      exact ⟨rfl, i, f, hi, hf, rfl⟩
    · exact ⟨rfl, trivial⟩
  | readDir => exact ⟨rfl, rfl⟩

/-! ## Changes -/

section
variable {d : Disk ι} {name n : GoString} {v : Option Inode} {i j : Inode} {f : File ι} {p : ι}

@[simp] theorem setEntry_files : (d.setEntry name v).files = d.files := rfl
@[simp] theorem setEntry_owner : (d.setEntry name v).owner = d.owner := rfl
@[simp] theorem setFile_entries : (d.setFile i f).entries = d.entries := rfl
@[simp] theorem setFile_stored : (d.setFile i f).stored = d.stored := rfl
@[simp] theorem setFile_owner : (d.setFile i f).owner = d.owner := rfl
@[simp] theorem create_entries :
    (d.create p name i).entries = (d.setEntry name (some i)).entries := rfl
@[simp] theorem create_stored :
    (d.create p name i).stored = (d.setEntry name (some i)).stored := rfl
@[simp] theorem create_files :
    (d.create p name i).files = (d.setFile i ⟨[], 0o600, true, false, some p⟩).files := rfl
@[simp] theorem create_owner :
    (d.create p name i).owner = Function.update d.owner name (some p) := rfl
@[simp] theorem settle_entries : d.settle.entries = d.entries := rfl
@[simp] theorem settle_stored : d.settle.stored n = [d.entries n] := rfl
@[simp] theorem settle_files : d.settle.files = d.files := rfl
@[simp] theorem settle_owner : d.settle.owner = d.owner := rfl

theorem setEntry_entries :
    (d.setEntry name v).entries n = if n = name then v else d.entries n := by
  cases v <;> simp [setEntry, entries]

theorem setEntry_stored :
    (d.setEntry name v).stored n = if n = name then d.stored name ++ [v] else d.stored n := by
  simp [setEntry, Function.update_apply]

theorem setFile_files : (d.setFile i f).files j = if j = i then some f else d.files j := by
  simp [setFile, Function.update_apply]

end

end Disk

/-! ## Processes on a directory -/

/-- A process that may fail. -/
abbrev DiskM {Q : Type} (A : Q → Type) (ε α : Type) : Type :=
  ExceptT ε (Proc (DiskOp Q) (DiskOp.Res A ε)) α

namespace DiskM

variable {Q : Type} {A : Q → Type} {ε : Type}

/-- The process of one call. -/
def call (A : Q → Type) (ε : Type) (op : DiskOp Q) :
    Proc (DiskOp Q) (DiskOp.Res A ε) (op.Res A ε) := .perform op

def ask (q : Q) : DiskM A ε (A q) := ExceptT.lift (call A ε (.ask q))
def createTemp (stem : GoString) : DiskM A ε (GoString × Inode) := call A ε (.createTemp stem)
def chmod (i : Inode) (mode : Nat) : DiskM A ε Unit := call A ε (.chmod i mode)
def write (i : Inode) (data : GoString) : DiskM A ε Unit := call A ε (.write i data)
def sync (i : Inode) : DiskM A ε Unit := call A ε (.sync i)
def close (i : Inode) : DiskM A ε Unit := call A ε (.close i)
def link (old new : GoString) : DiskM A ε Unit := call A ε (.link old new)
def rename (old new : GoString) : DiskM A ε Unit := call A ε (.rename old new)
def remove (name : GoString) : DiskM A ε Unit := call A ε (.remove name)
def openDir : DiskM A ε Unit := call A ε .openDir
def syncDir : DiskM A ε Unit := call A ε .syncDir
def closeDir : DiskM A ε Unit := call A ε .closeDir
def lstat (name : GoString) : DiskM A ε FileInfo := call A ε (.lstat name)
def readFile (name : GoString) : DiskM A ε GoString := call A ε (.readFile name)
def readDir : DiskM A ε (List GoString) := call A ε .readDir

end DiskM

end InfraBox
