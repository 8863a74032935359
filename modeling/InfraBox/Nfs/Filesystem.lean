import InfraBox.Config.Paths
import InfraBox.Lib.Run

/-!
# The file system behind the NFS server

`internal/nfsserver/filesystem.go`, and the flags that `operationFS` (`protocol.go`) rewrites. The
adapter keeps a table of handles and calls the operating system through one `os.Root` for each
export and the `os.File`s opened in it. The operating system is a parameter (`OS`): it answers a
call in a state of its own and moves to another. `OS.logged` is the same system with a log of the
calls it gets, and says which calls the adapter issues whatever the answers are.

An entry of the table is a heap object of the source, compared by address: here an index into
`Filesystem.entries`. The methods run one after the other. Times and sizes are left out; nothing in
the adapter depends on them.
-/

namespace InfraBox.Nfs

open Config

variable {exports : FinMap GoString Export} {l : Location} {name : GoString}

def maxHandles : Nat := 65536
def maxIO : Nat := 2 ^ 20

/-- The errors the adapter returns itself, and the others of the operating system. -/
inductive Errno where
  | permission
  | notExist
  | readOnly
  | crossDevice
  | tooManyFiles
  | isDirectory
  | invalid
  | eof
  | other (code : Nat)
deriving DecidableEq

/-! ## Modes and flags -/

/-- `os.FileMode`. -/
abbrev Mode := BitVec 32

def modeDir : Mode := 0x80000000
def modeType : Mode := 0x8f280000

/-- `FileMode.Perm`. -/
def Mode.perm (m : Mode) : Mode := m &&& 0o777

/-- The flags of `OpenFile`, with the values they have on Linux. -/
abbrev Flags := BitVec 64

def oRDONLY : Flags := 0
def oWRONLY : Flags := 0x1
def oRDWR : Flags := 0x2
def oCREATE : Flags := 0x40
def oEXCL : Flags := 0x80
def oTRUNC : Flags := 0x200
def oAPPEND : Flags := 0x400
def oNONBLOCK : Flags := 0x800
def oNOFOLLOW : Flags := 0x20000

/-! ## The operating system -/

/-- `os.FileInfo`. -/
structure Info where
  /-- The device and inode number. -/
  ident : Nat
  mode : Mode
  name : GoString
deriving DecidableEq

def Info.isDir (i : Info) : Bool := i.mode &&& modeDir ≠ 0

/-- `Mode().IsRegular()`. -/
def Info.isRegular (i : Info) : Bool := i.mode &&& modeType = 0

/-- `os.SameFile`. -/
def sameFile (a b : Info) : Bool := a.ident = b.ident

/-- A file handle of 16 bytes. -/
abbrev Handle := { h : GoString // h.length = 16 }

/-- An `os.File`, with the export in whose root it was opened. -/
structure Fd where
  share : GoString
  id : Nat
deriving DecidableEq

/-- The methods of `os.Root`, given by the name of its export, and of `os.File`, and
`crypto/rand.Read` of one handle. -/
structure OS (W : Type) where
  stat (share relative : GoString) : W → Except Errno Info × W
  openFile (share relative : GoString) (flags : Flags) (mode : Mode) : W → Except Errno Nat × W
  chmod (share relative : GoString) (mode : Mode) : W → Except Errno Unit × W
  mkdirAll (share relative : GoString) (mode : Mode) : W → Except Errno Unit × W
  remove (share relative : GoString) : W → Except Errno Unit × W
  rename (share old new : GoString) : W → Except Errno Unit × W
  fstat (fd : Fd) : W → Except Errno Info × W
  read (fd : Fd) (n : Nat) : W → Except Errno GoString × W
  write (fd : Fd) (data : GoString) : W → Except Errno Nat × W
  seek (fd : Fd) (offset whence : Int) : W → Except Errno Int × W
  truncate (fd : Fd) (size : Int) : W → Except Errno Unit × W
  sync (fd : Fd) : W → Except Errno Unit × W
  /-- `File.Readdir` returns what it has read next to its error. -/
  readdir (fd : Fd) (n : Int) : W → (List Info × Option Errno) × W
  close (fd : Fd) : W → Except Errno Unit × W
  random : W → Except Errno Handle × W

/-- A call of the operating system. -/
inductive Call where
  | stat (share relative : GoString)
  | openFile (share relative : GoString) (flags : Flags) (mode : Mode)
  | chmod (share relative : GoString) (mode : Mode)
  | mkdirAll (share relative : GoString) (mode : Mode)
  | remove (share relative : GoString)
  | rename (share old new : GoString)
  | fstat (fd : Fd)
  | read (fd : Fd) (n : Nat)
  | write (fd : Fd) (data : GoString)
  | seek (fd : Fd) (offset whence : Int)
  | truncate (fd : Fd) (size : Int)
  | sync (fd : Fd)
  | readdir (fd : Fd) (n : Int)
  | close (fd : Fd)

section
variable {W α : Type}

/-- Performs a call and appends it to the log. -/
def record (c : Call) (f : W → α × W) (w : W × List Call) : α × (W × List Call) :=
  ((f w.1).1, (f w.1).2, w.2 ++ [c])

/-- The system `os`, with a log of its calls. -/
def OS.logged (os : OS W) : OS (W × List Call) where
  stat share relative := record (.stat share relative) (os.stat share relative)
  openFile share relative flags mode :=
    record (.openFile share relative flags mode) (os.openFile share relative flags mode)
  chmod share relative mode := record (.chmod share relative mode) (os.chmod share relative mode)
  mkdirAll share relative mode :=
    record (.mkdirAll share relative mode) (os.mkdirAll share relative mode)
  remove share relative := record (.remove share relative) (os.remove share relative)
  rename share old new := record (.rename share old new) (os.rename share old new)
  fstat fd := record (.fstat fd) (os.fstat fd)
  read fd n := record (.read fd n) (os.read fd n)
  write fd data := record (.write fd data) (os.write fd data)
  seek fd offset whence := record (.seek fd offset whence) (os.seek fd offset whence)
  truncate fd size := record (.truncate fd size) (os.truncate fd size)
  sync fd := record (.sync fd) (os.sync fd)
  readdir fd n := record (.readdir fd n) (os.readdir fd n)
  close fd := record (.close fd) (os.close fd)
  random w := ((os.random w.1).1, (os.random w.1).2, w.2)

end

/-! ## The adapter's state -/

/-- `export`: the directory of its root, and whether it is read-only. -/
structure Export where
  path : GoString
  readOnly : Bool
deriving DecidableEq

/-- `handleEntry`. -/
structure HandleEntry where
  name : GoString
  info : Info
  handle : Handle
deriving DecidableEq

/-- `filesystem`. -/
structure Filesystem where
  exports : FinMap GoString Export
  /-- The entries allocated so far. -/
  entries : List HandleEntry
  handles : FinMap Handle Nat
  paths : FinMap GoString Nat

/-- `fileInfo`; the information is missing for the virtual root. -/
structure FileInfo where
  info : Option Info
  name : GoString
  handle : Handle
  readOnly : Bool
deriving DecidableEq

def rootHandle : Handle := ⟨[1, 0, 0, 0, 0, 0, 0, 0, 0, 0, 0, 0, 0, 0, 0, 0], rfl⟩

/-- `filesystem.rootInfo`. -/
def rootInfo : FileInfo := ⟨none, [slash], rootHandle, true⟩

/-- `file`: the virtual root with its entries and its position, or an `os.File` with the name it was
opened under. -/
inductive File where
  | root (entries : List FileInfo) (offset : Nat)
  | opened (fd : Fd) (name : GoString) (readOnly : Bool)

/-- The adapter and the operating system. -/
structure State (W : Type) where
  fs : Filesystem
  world : W

/-! ## Names -/

/-- The root and the relative path that a name stands for. -/
structure Location where
  share : GoString
  readOnly : Bool
  relative : GoString
deriving DecidableEq

/-- The name of the export in a path: its first component. -/
def shareOf (name : GoString) : GoString := (name.drop 1).takeWhile (· ≠ slash)

/-- `filesystem.resolve`. -/
def resolve (exports : FinMap GoString Export) (name : GoString) : Except Errno Location :=
  if !isAbs name || clean name ≠ name || name.contains 0 then .error .permission
  else match exports.get (shareOf name) with
    | none => .error .notExist
    | some e => .ok {
        share := shareOf name
        readOnly := e.readOnly
        relative := match (name.drop 1).dropWhile (· ≠ slash) with
          | [] => [dot]
          | _ :: relative => relative }

/-- A name that is resolved is a clean one, and its first component is an export. -/
theorem resolve_ok
    (h : resolve exports name = .ok l) : CleanAbs name ∧ 0 ∉ name ∧ l.share = shareOf name ∧
      ∃ e, exports.get l.share = some e ∧ l.readOnly = e.readOnly := by
  unfold resolve at h
  split at h
  · cases h
  next hname =>
  split at h
  · cases h
  next e he =>
  cases h
  simp only [Bool.or_eq_true, Bool.not_eq_true', not_or, Bool.not_eq_false, decide_eq_true_eq,
    not_not, List.contains_eq_mem] at hname
  exact ⟨⟨hname.1.1, hname.1.2⟩, hname.2, rfl, e, he, rfl⟩

section
variable {share : GoString} (rest : List GoString) (h : slash ∉ share)
include h

/-- The export of a path is its first part. -/
theorem shareOf_pathText : shareOf (pathText (share :: rest)) = share := by
  have hs : ∀ b ∈ share, b ≠ slash := fun b hb heq => h (heq ▸ hb)
  have hdrop : (pathText (share :: rest)).drop 1 = share ++ pathText rest := rfl
  rw [shareOf, hdrop, List.takeWhile_append_of_pos (by simpa using hs)]
  cases rest with
  | nil => simp [pathText]
  | cons k rest => simp [pathText]

/-- The other parts are left behind it. -/
theorem dropWhile_pathText :
    ((pathText (share :: rest)).drop 1).dropWhile (· ≠ slash) = pathText rest := by
  have hs : ∀ b ∈ share, b ≠ slash := fun b hb heq => h (heq ▸ hb)
  have hdrop : (pathText (share :: rest)).drop 1 = share ++ pathText rest := rfl
  rw [hdrop, List.dropWhile_append_of_pos (by simpa using hs)]
  cases rest with
  | nil => simp [pathText]
  | cons k rest => simp [pathText]

end

/-- The parts of a resolved name: its export, and the parts of the relative path. -/
theorem resolve_parts
    (h : resolve exports name = .ok l) (hne : name ≠ [slash]) :
    ∃ rest, (parsePath name).parts = l.share :: rest ∧
      l.relative = if rest = [] then [dot] else joinParts rest := by
  obtain ⟨hclean, -, hshare, -⟩ := resolve_ok h
  obtain ⟨htext, hparts⟩ := hclean.pathText_eq hne
  have hplain := plainParts_parsePath hclean.abs
  obtain ⟨p, rest, hp⟩ : ∃ p rest, (parsePath name).parts = p :: rest :=
    List.exists_cons_of_ne_nil hparts
  rw [hp] at htext hplain
  have hs : slash ∉ p := (hplain p (.head _)).2.2.2
  have hrelative : l.relative = match (name.drop 1).dropWhile (· ≠ slash) with
      | [] => [dot]
      | _ :: relative => relative := by
    unfold resolve at h
    split at h
    · cases h
    split at h
    · cases h
    · cases h
      rfl
  rw [← htext, shareOf_pathText rest hs] at hshare
  rw [← htext, dropWhile_pathText rest hs] at hrelative
  refine ⟨rest, by rw [hp, hshare], ?_⟩
  cases rest with
  | nil => exact hrelative
  | cons q rest =>
    rw [pathText_eq_cons (List.cons_ne_nil q rest)] at hrelative
    rw [if_neg (List.cons_ne_nil q rest)]
    exact hrelative

/-- `filesystem.writable`. -/
def writable (exports : FinMap GoString Export) (name : GoString) : Except Errno Location :=
  match resolve exports name with
  | .error e => .error e
  | .ok l =>
    if l.readOnly then .error .readOnly
    else if l.relative = [dot] then .error .permission
    else .ok l

/-- A writable location is below the root of an export that is not read-only. -/
theorem writable_ok
    (h : writable exports name = .ok l) :
    resolve exports name = .ok l ∧ l.readOnly = false ∧ l.relative ≠ [dot] ∧ name ≠ [slash] := by
  unfold writable at h
  split at h
  · cases h
  next l' hl =>
  split at h
  · cases h
  next hro =>
  split at h
  · cases h
  next hdot =>
  cases h
  refine ⟨hl, by simpa using hro, hdot, ?_⟩
  rintro rfl
  -- the root of all exports has the relative path `.`
  unfold resolve at hl
  split at hl
  · cases hl
  split at hl
  · cases hl
  · cases hl
    exact hdot rfl

/-! ## The table of handles -/

/-- The entry of a path. -/
def Filesystem.entryAt (fs : Filesystem) (name : GoString) : Option HandleEntry :=
  (fs.paths.get name).bind (fs.entries[·]?)

/-- Adds an entry. -/
def Filesystem.addEntry (fs : Filesystem) (e : HandleEntry) : Filesystem :=
  { fs with
    entries := fs.entries ++ [e]
    handles := fs.handles.set e.handle fs.entries.length
    paths := fs.paths.set e.name fs.entries.length }

/-- `delete(f.paths, name)`. -/
def Filesystem.forget (fs : Filesystem) (name : GoString) : Filesystem :=
  { fs with paths := fs.paths.erase name }

/-- The new name of a path at or below `old`. -/
def movedName (old new name : GoString) : Option GoString :=
  if name = old ∨ old ++ [slash] <+: name then some (new ++ trimPrefix name old) else none

/-- The update of the table in `Rename`. -/
def Filesystem.moveEntries (fs : Filesystem) (old new : GoString) : Filesystem :=
  let paths := fs.paths.erase new
  { fs with
    paths := paths.moveKeys (movedName old new)
    entries := (paths.moved (movedName old new)).foldl
      (fun entries e => entries.modify e.2 fun entry => { entry with name := e.1 }) fs.entries }

/-! ## Methods of the file system -/

section
variable {W : Type} (os : OS W)

/-- `filesystem.wrap`. -/
def wrap (name : GoString) (info : Info) (readOnly : Bool) (s : State W) :
    Except Errno FileInfo × State W :=
  match (s.fs.entryAt name).filter fun e => sameFile e.info info with
  | some entry => (.ok ⟨info, baseOf name, entry.handle, readOnly⟩, s)
  | none =>
    if maxHandles ≤ s.fs.handles.size then (.error .tooManyFiles, s)
    else match os.random s.world with
      | (.error e, world) => (.error e, ⟨s.fs, world⟩)
      | (.ok handle, world) =>
        (.ok ⟨info, baseOf name, handle, readOnly⟩, ⟨s.fs.addEntry ⟨name, info, handle⟩, world⟩)

/-- `filesystem.Stat`. -/
def stat (name : GoString) (s : State W) : Except Errno FileInfo × State W :=
  if name = [slash] then (.ok rootInfo, s)
  else match resolve s.fs.exports name with
    | .error e => (.error e, s)
    | .ok l =>
      match os.stat l.share l.relative s.world with
      | (.error e, world) => (.error e, ⟨s.fs, world⟩)
      | (.ok info, world) =>
        if !info.isDir && !info.isRegular then (.error .permission, ⟨s.fs, world⟩)
        else wrap os name info l.readOnly ⟨s.fs, world⟩

/-- The loop of `OpenFile` over the exports. -/
def statShares : List GoString → State W → Except Errno (List FileInfo) × State W
  | [], s => (.ok [], s)
  | share :: rest, s =>
    match stat os (slash :: share) s with
    | (.error e, s) => (.error e, s)
    | (.ok info, s) =>
      match statShares rest s with
      | (.error e, s) => (.error e, s)
      | (.ok infos, s) => (.ok (info :: infos), s)

/-- `filesystem.OpenFile` of the virtual root. -/
def openRootDirectory (flag : Flags) (s : State W) : Except Errno File × State W :=
  if flag ≠ oRDONLY then (.error .permission, s)
  else match statShares os s.fs.exports.keys s with
    | (.error e, s) => (.error e, s)
    | (.ok infos, s) => (.ok (.root (infos.mergeSort fun a b => a.name ≤ b.name) 0), s)

/-- The flags `OpenFile` passes on. -/
def openFlags (readOnly : Bool) (flag : Flags) : Except Errno Flags :=
  if readOnly then
    if flag &&& (oCREATE ||| oTRUNC ||| oAPPEND) ≠ 0 then .error .readOnly
    else .ok (oRDONLY ||| oNONBLOCK ||| oNOFOLLOW)
  else .ok (flag ||| oNONBLOCK ||| oNOFOLLOW)

/-- `filesystem.OpenFile`. -/
def openFile (name : GoString) (flag : Flags) (mode : Mode) (s : State W) :
    Except Errno File × State W :=
  if name = [slash] then openRootDirectory os flag s
  else match resolve s.fs.exports name with
    | .error e => (.error e, s)
    | .ok l =>
      match openFlags l.readOnly flag with
      | .error e => (.error e, s)
      | .ok flags =>
        match os.openFile l.share l.relative flags mode.perm s.world with
        | (.error e, world) => (.error e, ⟨s.fs, world⟩)
        | (.ok id, world) =>
          match os.fstat ⟨l.share, id⟩ world with
          | (.error e, world) => (.error e, ⟨s.fs, (os.close ⟨l.share, id⟩ world).2⟩)
          | (.ok info, world) =>
            if !info.isDir && !info.isRegular then
              (.error .permission, ⟨s.fs, (os.close ⟨l.share, id⟩ world).2⟩)
            else (.ok (.opened ⟨l.share, id⟩ name l.readOnly), ⟨s.fs, world⟩)

/-- A method that passes a path of a writable export on to its root. -/
def mutate (name : GoString) (call : Location → W → Except Errno Unit × W) (s : State W) :
    Except Errno Unit × State W :=
  match writable s.fs.exports name with
  | .error e => (.error e, s)
  | .ok l => ((call l s.world).1, ⟨s.fs, (call l s.world).2⟩)

/-- `filesystem.Chmod`. -/
def chmod (name : GoString) (mode : Mode) : State W → Except Errno Unit × State W :=
  mutate name fun l => os.chmod l.share l.relative mode.perm

/-- `filesystem.MkdirAll`. -/
def mkdirAll (name : GoString) (mode : Mode) : State W → Except Errno Unit × State W :=
  mutate name fun l => os.mkdirAll l.share l.relative mode.perm

/-- `filesystem.Remove`. -/
def remove (name : GoString) (s : State W) : Except Errno Unit × State W :=
  match mutate name (fun l => os.remove l.share l.relative) s with
  | (.error e, s) => (.error e, s)
  | (.ok (), s) => (.ok (), ⟨s.fs.forget name, s.world⟩)

/-- `filesystem.Rename`. Exports are compared by their names, which are distinct. -/
def rename (old new : GoString) (s : State W) : Except Errno Unit × State W :=
  match writable s.fs.exports old with
  | .error e => (.error e, s)
  | .ok from_ =>
    match writable s.fs.exports new with
    | .error e => (.error e, s)
    | .ok to_ =>
      if from_.share ≠ to_.share then (.error .crossDevice, s)
      else match os.rename from_.share from_.relative to_.relative s.world with
        | (.error e, world) => (.error e, ⟨s.fs, world⟩)
        | (.ok (), world) => (.ok (), ⟨s.fs.moveEntries old new, world⟩)

/-- `filesystem.ResolveHandle`. -/
def resolveHandle (handle : GoString) (s : State W) : Except Errno GoString × State W :=
  if h : handle.length = 16 then
    if (⟨handle, h⟩ : Handle) = rootHandle then (.ok [slash], s)
    else match s.fs.handles.get ⟨handle, h⟩ with
      | none => (.error .notExist, s)
      | some id =>
        match s.fs.entries[id]? with
        | none => (.error .notExist, s)
        | some entry =>
          if s.fs.paths.get entry.name ≠ some id then (.error .notExist, s)
          else match resolve s.fs.exports entry.name with
            | .error e => (.error e, s)
            | .ok l =>
              match os.stat l.share l.relative s.world with
              | (.error e, world) => (.error e, ⟨s.fs, world⟩)
              | (.ok actual, world) =>
                if !sameFile entry.info actual then (.error .notExist, ⟨s.fs, world⟩)
                else (.ok entry.name, ⟨s.fs, world⟩)
  else (.error .notExist, s)

end

/-- `filesystem.GetFileId`: the first eight bytes of the handle. -/
def getFileID (f : FileInfo) : Nat := (f.handle.1.take 8).foldl (fun n b => n * 256 + b.toNat) 0

/-! ## Methods of an open file -/

section
variable {W : Type} (os : OS W)

/-- Calls the operating system, next to the adapter. -/
def call {α : Type} (f : W → α × W) (s : State W) : α × State W :=
  ((f s.world).1, ⟨s.fs, (f s.world).2⟩)

/-- `file.Stat`. -/
def File.stat (f : File) (s : State W) : Except Errno FileInfo × State W :=
  match f with
  | .root .. => (.ok rootInfo, s)
  | .opened fd name readOnly =>
    match call (os.fstat fd) s with
    | (.error e, s) => (.error e, s)
    | (.ok info, s) => wrap os name info readOnly s

/-- `file.Read` into a buffer of `n` bytes. -/
def File.read (f : File) (n : Nat) (s : State W) : Except Errno GoString × State W :=
  match f with
  | .root .. => (.error .isDirectory, s)
  | .opened fd _ _ => call (os.read fd n) s

/-- `file.Write`. -/
def File.write (f : File) (data : GoString) (s : State W) : Except Errno Nat × State W :=
  match f with
  | .root .. => (.error .readOnly, s)
  | .opened fd _ readOnly =>
    if readOnly then (.error .readOnly, s)
    else if maxIO < data.length then (.error .invalid, s)
    else call (os.write fd data) s

/-- `file.Seek`; only the virtual root keeps a position itself. -/
def File.seek (f : File) (offset whence : Int) (s : State W) :
    Except Errno Int × File × State W :=
  match f with
  | .root entries position =>
    if offset = 0 ∧ whence = 0 then (.ok 0, .root entries 0, s)
    else (.error .invalid, .root entries position, s)
  | .opened fd _ _ =>
    ((call (os.seek fd offset whence) s).1, f, (call (os.seek fd offset whence) s).2)

/-- `file.Truncate`: at the current position, which is asked for with whence 1. -/
def File.truncate (f : File) (s : State W) : Except Errno Unit × State W :=
  match f with
  | .root .. => (.error .readOnly, s)
  | .opened fd _ readOnly =>
    if readOnly then (.error .readOnly, s)
    else match call (os.seek fd 0 1) s with
      | (.error e, s) => (.error e, s)
      | (.ok offset, s) => call (os.truncate fd offset) s

/-- `file.Sync`. -/
def File.sync (f : File) (s : State W) : Except Errno Unit × State W :=
  match f with
  | .root .. => (.ok (), s)
  | .opened fd _ readOnly => if readOnly then (.ok (), s) else call (os.sync fd) s

/-- The loop of `Readdir` over what was read. -/
def wrapAll (name : GoString) (readOnly : Bool) :
    List Info → State W → Except Errno (List FileInfo) × State W
  | [], s => (.ok [], s)
  | info :: rest, s =>
    if !info.isDir && !info.isRegular then wrapAll name readOnly rest s
    else match wrap os (joinPath name info.name) info readOnly s with
      | (.error e, s) => (.error e, s)
      | (.ok wrapped, s) =>
        match wrapAll name readOnly rest s with
        | (.error e, s) => (.error e, s)
        | (.ok infos, s) => (.ok (wrapped :: infos), s)

/-- `file.Readdir`: the entries, and the error next to them. -/
def File.readdir (f : File) (n : Int) (s : State W) :
    (List FileInfo × Option Errno) × File × State W :=
  match f with
  | .root entries offset =>
    if offset = entries.length ∧ 0 < n then (([], some .eof), f, s)
    else
      let stop := if 0 < n ∧ offset + n.toNat < entries.length then offset + n.toNat
        else entries.length
      (((entries.take stop).drop offset, none), .root entries stop, s)
  | .opened fd name readOnly =>
    let count : Int := if n ≤ 0 then maxHandles + 1 else n
    let r := call (os.readdir fd count) s
    let err := if n ≤ 0 ∧ r.1.2 = some .eof then none else r.1.2
    if maxHandles < r.1.1.length then (([], some .tooManyFiles), f, r.2)
    else match wrapAll os name readOnly r.1.1 r.2 with
      | (.error e, s) => (([], some e), f, s)
      | (.ok infos, s) => ((infos, err), f, s)

/-- `file.Close`. -/
def File.close (f : File) (s : State W) : Except Errno Unit × State W :=
  match f with
  | .root .. => (.ok (), s)
  | .opened fd _ _ => call (os.close fd) s

end

/-! ## The file system of one operation -/

/-- The fields of `operationFS` that its methods read. -/
structure OperationFS where
  access : Nat
  retain : Bool
  size : Option Nat
  setattr : Bool

/-- The flags of `operationFS.Open`. -/
def OperationFS.openFlags (o : OperationFS) : Flags := if o.setattr then oRDWR else oRDONLY

/-- The flags of `operationFS.OpenFile`. -/
def OperationFS.openFileFlags (o : OperationFS) (flags : Flags) : Flags :=
  if o.retain then
    let flags := if o.size.isNone then flags &&& ~~~oTRUNC else flags
    let flags := flags &&& ~~~(oRDWR ||| oWRONLY)
    if o.access = 2 then flags ||| oWRONLY
    else if o.access = 3 then flags ||| oRDWR
    else flags
  else flags

/-! ## Sequences of calls -/

/-- A method of an open file. -/
inductive FileOp where
  | stat
  | read (n : Nat)
  | write (data : GoString)
  | seek (offset whence : Int)
  | truncate
  | sync
  | readdir (n : Int)
  | close

/-- A call of the adapter: of the file system, through the file system of an operation, or of the
file that was opened as number `i`. -/
inductive Op where
  | stat (name : GoString)
  | open (name : GoString)
  | openFile (name : GoString) (flag : Flags) (mode : Mode)
  | chmod (name : GoString) (mode : Mode)
  | chown (name : GoString)
  | mkdirAll (name : GoString) (mode : Mode)
  | remove (name : GoString)
  | rename (old new : GoString)
  | link (old new : GoString)
  | symlink (old new : GoString)
  | readlink (name : GoString)
  | resolveHandle (handle : GoString)
  | operationOpen (o : OperationFS) (name : GoString)
  | operationOpenFile (o : OperationFS) (name : GoString) (flags : Flags) (mode : Mode)
  | file (i : Nat) (op : FileOp)

/-- The adapter with the files that were opened so far. -/
structure System (W : Type) extends State W where
  files : List File

section
variable {W : Type} (os : OS W)

/-- Keeps the file that was opened. -/
def System.keep (sys : System W) (r : Except Errno File × State W) : System W :=
  match r.1 with
  | .error _ => ⟨r.2, sys.files⟩
  | .ok f => ⟨r.2, sys.files ++ [f]⟩

/-- A method of an open file: what it leaves of the file, and the state. -/
def FileOp.exec (op : FileOp) (f : File) (s : State W) : File × State W :=
  match op with
  | .stat => (f, (f.stat os s).2)
  | .read n => (f, (f.read os n s).2)
  | .write data => (f, (f.write os data s).2)
  | .seek offset whence => (f.seek os offset whence s).2
  | .truncate => (f, (f.truncate os s).2)
  | .sync => (f, (f.sync os s).2)
  | .readdir n => (f.readdir os n s).2
  | .close => (f, (f.close os s).2)

/-- The state after a call. `Chown`, `Link`, `Symlink` and `Readlink` are always refused. -/
def System.exec (sys : System W) (op : Op) : System W :=
  let s := sys.toState
  match op with
  | .stat name => ⟨(stat os name s).2, sys.files⟩
  | .open name => sys.keep (openFile os name oRDONLY 0 s)
  | .openFile name flag mode => sys.keep (openFile os name flag mode s)
  | .chmod name mode => ⟨(chmod os name mode s).2, sys.files⟩
  | .chown _ | .link _ _ | .symlink _ _ | .readlink _ => sys
  | .mkdirAll name mode => ⟨(mkdirAll os name mode s).2, sys.files⟩
  | .remove name => ⟨(remove os name s).2, sys.files⟩
  | .rename old new => ⟨(rename os old new s).2, sys.files⟩
  | .resolveHandle handle => ⟨(resolveHandle os handle s).2, sys.files⟩
  | .operationOpen o name => sys.keep (openFile os name o.openFlags 0 s)
  | .operationOpenFile o name flags mode =>
    sys.keep (openFile os name (o.openFileFlags flags) mode s)
  | .file i op =>
    match sys.files[i]? with
    | none => sys
    | some f => ⟨(op.exec os f s).2, sys.files.set i (op.exec os f s).1⟩

end

/-! ## Construction -/

/-- The loop of `openFilesystem` that resolves the paths of the shares. -/
def resolveShares (links : Symlinks) : List NFSShare → Option (List NFSShare)
  | [] => some []
  | share :: rest =>
    match links.eval share.path, resolveShares links rest with
    | .ok real, some resolved => some ({ share with path := real } :: resolved)
    | _, _ => none

/-- `openFilesystem`; `openRoot` says whether `os.OpenRoot` succeeds. -/
def openFilesystem (links : Symlinks) (openRoot : GoString → Bool) (shares : List NFSShare) :
    Option Filesystem :=
  match resolveShares links shares with
  | none => none
  | some resolved =>
    if (validateNFSShares resolved).isSome then none
    else if !resolved.all fun share => openRoot share.path then none
    else some {
      exports :=
        resolved.foldl (fun m share => m.set share.name ⟨share.path, share.readOnly⟩) .empty
      entries := []
      handles := .empty
      paths := .empty }

end InfraBox.Nfs
