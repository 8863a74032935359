import InfraBox.Lib.FileTree
import InfraBox.Nfs.ReadOnly

/-!
# The operating system of a tree

The calls of the adapter, answered by a tree of directories and regular files without links whose
inode numbers are not reused. Each export is a directory at the top of the tree. What a path or an
open file leads to is decided by the tree alone. A call that opens or changes something can also be
refused for a reason the tree does not show, and the data in the files is not kept: both are left to
an `Env`, which may be another one at each call of the adapter.
-/

namespace InfraBox.Nfs

open Config

/-! ## Paths of the tree -/

/-- A name that an object can have in its directory. -/
def FileName (k : GoString) : Prop := PlainPart k ∧ 0 ∉ k

instance : DecidablePred FileName := fun k => inferInstanceAs
  (Decidable ((k ≠ [] ∧ k ≠ [dot] ∧ k ≠ dotDot ∧ slash ∉ k) ∧ 0 ∉ k))

abbrev Tree := FileTree GoString FileName

/-- The path in the tree of a path in the root of an export. -/
def treePath (share relative : GoString) : List GoString :=
  share :: if relative = [dot] then [] else relative.splitOn slash

/-- The parts of a name in an export. -/
structure Exported (exports : FinMap GoString Export) (q : List GoString) : Prop where
  names : ∀ k ∈ q, FileName k
  share : ∃ share rest e, q = share :: rest ∧ exports.get share = some e

section
variable {exports : FinMap GoString Export} {q : List GoString}

theorem Exported.plain (h : Exported exports q) : PlainParts q := fun k hk => (h.names k hk).1

theorem Exported.ne_nil (h : Exported exports q) : q ≠ [] := by
  obtain ⟨share, rest, -, rfl, -⟩ := h.share
  exact List.cons_ne_nil share rest

theorem Exported.append (h : Exported exports q) {r : List GoString} (hr : ∀ k ∈ r, FileName k) :
    Exported exports (q ++ r) := by
  obtain ⟨share, rest, e, rfl, he⟩ := h.share
  refine ⟨fun k hk => ?_, share, rest ++ r, e, rfl, he⟩
  exact (List.mem_append.1 hk).elim (h.names k) (hr k)

/-- The text of parts without NUL bytes has none. -/
theorem zero_mem_pathText {q : List GoString} : 0 ∈ pathText q ↔ ∃ k ∈ q, 0 ∈ k := by
  have hslash : (0 : UInt8) ≠ slash := by decide
  simp [pathText, hslash]

/-- A name that is resolved stands for a path of the tree. -/
theorem resolve_exported {name : GoString} {l : Location} (h : resolve exports name = .ok l)
    (hne : name ≠ [slash]) :
    ∃ q, name = pathText q ∧ Exported exports q ∧ treePath l.share l.relative = q := by
  obtain ⟨hclean, hzero, -, e, he, -⟩ := resolve_ok h
  obtain ⟨rest, hparts, hrel⟩ := resolve_parts h hne
  have htext := (hclean.pathText_eq hne).1
  have hplain := plainParts_parsePath hclean.abs
  rw [hparts] at htext hplain
  refine ⟨l.share :: rest, htext.symm, ⟨fun k hk => ⟨hplain k hk, fun h0 => hzero ?_⟩, ?_⟩, ?_⟩
  · rw [← htext]
    exact zero_mem_pathText.2 ⟨k, hk, h0⟩
  · exact ⟨l.share, rest, e, rfl, he⟩
  · rw [treePath, hrel]
    by_cases hrest : rest = []
    · simp [hrest]
    · have hsplit : (joinParts rest).splitOn slash = rest :=
        List.splitOn_intercalate _ (fun part hp => (hplain part (.tail _ hp)).2.2.2) hrest
      -- the text of plain parts is not `.`
      have hdot : joinParts rest ≠ [dot] := by
        intro heq
        rw [heq, show List.splitOn slash [dot] = [[dot]] by decide] at hsplit
        exact (hplain [dot] (.tail _ (hsplit ▸ .head _))).2.1 rfl
      rw [if_neg hrest, if_neg hdot, hsplit]

/-- Every path in an export is resolved. -/
theorem Exported.resolve (h : Exported exports q) :
    ∃ l, resolve exports (pathText q) = .ok l ∧ treePath l.share l.relative = q ∧
      pathText q ≠ [slash] := by
  obtain ⟨hclean, hparts⟩ := h.plain.parsePath_pathText h.ne_nil
  have hzero : 0 ∉ pathText q := fun h0 => by
    obtain ⟨k, hk, h0⟩ := zero_mem_pathText.1 h0
    exact (h.names k hk).2 h0
  have hroot : pathText q ≠ [slash] := by
    intro heq
    rw [heq] at hparts
    exact h.ne_nil (hparts.symm.trans (by decide))
  obtain ⟨l, hl⟩ : ∃ l, Nfs.resolve exports (pathText q) = .ok l := by
    obtain ⟨share, rest, e, rfl, he⟩ := h.share
    have hshare := shareOf_pathText rest (h.plain share (.head _)).2.2.2
    unfold Nfs.resolve
    rw [if_neg (by simp [hclean.abs, hclean.clean_eq, hzero]), hshare, he]
    exact ⟨_, rfl⟩
  obtain ⟨q', hq', hexp, htree⟩ := resolve_exported hl hroot
  rw [h.plain.pathText_inj hexp.plain hq']
  exact ⟨l, hq' ▸ hl, htree, hq' ▸ hroot⟩

/-- The name of an object in a directory. -/
theorem joinPath_pathText (h : Exported exports q) {k : GoString} (hk : FileName k) :
    joinPath (pathText q) k = pathText (q ++ [k]) := by
  obtain ⟨hclean, hparts⟩ := h.plain.parsePath_pathText h.ne_nil
  have hjoin := parts_joinPath hclean.abs hk.1
  rw [hparts] at hjoin
  have hclean' : CleanAbs (joinPath (pathText q) k) := by
    obtain ⟨heq, habs⟩ := joinPath_abs hclean.abs k
    rw [heq]
    exact ⟨isAbs_clean habs, clean_clean _⟩
  have hroot : joinPath (pathText q) k ≠ [slash] := by
    intro heq
    rw [heq] at hjoin
    have hnil : (parsePath [slash]).parts = [] := by decide
    simp [hnil] at hjoin
  rw [← (hclean'.pathText_eq hroot).1, hjoin]

end

/-! ## The system -/

/-- The tree, the files that were opened, each with its object until it is closed, and the handles
that `crypto/rand` gives. -/
structure Machine where
  tree : Tree
  opened : List (Option Node)
  random : Nat → Handle
  drawn : Nat

/-- What the tree does not decide: refusals, the order and the number of the objects that a call of
`Readdir` lists, and the results about data. -/
structure Env where
  refuse : Call → Option Errno
  list : List Info → List Info
  listed : Option Errno
  read : Except Errno GoString
  write : Except Errno Nat
  seek : Except Errno Int

/-- What is known of an object. -/
def info (n : Node) (name : GoString) : Info :=
  ⟨n.ino, if n.dir then modeDir ||| 0o755 else 0o644, name⟩

/-- The flags with which a directory cannot be opened. -/
def fileFlags : Flags := oWRONLY ||| oRDWR ||| oCREATE ||| oTRUNC

/-- A call that can be refused. -/
def Env.ask {α : Type} (env : Env) (c : Call) (f : Machine → Except Errno α × Machine)
    (m : Machine) : Except Errno α × Machine :=
  match env.refuse c with
  | some e => (.error e, m)
  | none => f m

namespace Machine

/-- Changes the tree, when that is possible. -/
def change (f : Tree → Option Tree) (m : Machine) : Except Errno Unit × Machine :=
  match f m.tree with
  | none => (.error .invalid, m)
  | some tree => (.ok (), { m with tree })

def stat (q : List GoString) (m : Machine) : Except Errno Info × Machine :=
  match m.tree.lookup q with
  | none => (.error .notExist, m)
  | some n => (.ok (info n (q.getLastD [])), m)

/-- Opens the object at `q`, which is created when it is missing and the flags say so. -/
def openFile (q : List GoString) (flags : Flags) (m : Machine) : Except Errno Nat × Machine :=
  match m.tree.lookup q with
  | some n =>
    if flags &&& oCREATE ≠ 0 ∧ flags &&& oEXCL ≠ 0 then (.error (.other 17), m)
    else if n.dir ∧ flags &&& fileFlags ≠ 0 then (.error .isDirectory, m)
    else (.ok m.opened.length, { m with opened := m.opened ++ [some n] })
  | none =>
    if flags &&& oCREATE = 0 then (.error .notExist, m)
    else match m.tree.create q false with
      | none => (.error .notExist, m)
      | some tree =>
        (.ok m.opened.length, { m with tree, opened := m.opened ++ [tree.lookup q] })

/-- Makes the directories along `rest`, below `dir`; `allowed` says whether one may be made. -/
def mkdirAll (allowed : List GoString → Option Errno) (dir : List GoString) :
    List GoString → Machine → Except Errno Unit × Machine
  | [], m => (.ok (), m)
  | k :: rest, m =>
    match m.tree.lookup (dir ++ [k]) with
    | some n =>
      if n.dir then mkdirAll allowed (dir ++ [k]) rest m else (.error (.other 20), m)
    | none =>
      match allowed (dir ++ [k]) with
      | some e => (.error e, m)
      | none =>
        match m.tree.create (dir ++ [k]) true with
        | none => (.error .notExist, m)
        | some tree => mkdirAll allowed (dir ++ [k]) rest { m with tree }

/-- The object of an open file. -/
def object (fd : Fd) (m : Machine) : Option Node := m.opened[fd.id]?.join

def fstat (fd : Fd) (m : Machine) : Except Errno Info × Machine :=
  match m.object fd with
  | none => (.error .invalid, m)
  | some n => (.ok (info n []), m)

/-- What a directory that is open holds. -/
def contents (fd : Fd) (m : Machine) : List Info :=
  match m.object fd with
  | none => []
  | some d => (m.tree.children d.ino).map fun e => info e.2 e.1

end Machine

/-- The operating system over a tree. -/
def treeOS (env : Env) : OS Machine where
  stat share relative := Machine.stat (treePath share relative)
  openFile share relative flags mode := env.ask (.openFile share relative flags mode)
    (Machine.openFile (treePath share relative) flags)
  chmod share relative mode := env.ask (.chmod share relative mode)
    fun m => (((m.stat (treePath share relative)).1.map fun _ => ()), m)
  mkdirAll share relative mode m :=
    let allowed (q : List GoString) := env.refuse (.mkdirAll share (joinParts q.tail) mode)
    m.mkdirAll allowed [share] (treePath share relative).tail
  remove share relative := env.ask (.remove share relative)
    (Machine.change (·.remove (treePath share relative)))
  rename share old new := env.ask (.rename share old new)
    (Machine.change (·.rename (treePath share old) (treePath share new)))
  fstat fd := Machine.fstat fd
  read _ _ m := (env.read, m)
  write _ _ m := (env.write, m)
  seek _ _ _ m := (env.seek, m)
  truncate fd size := env.ask (.truncate fd size) fun m => (.ok (), m)
  sync fd := env.ask (.sync fd) fun m => (.ok (), m)
  readdir fd _ m := (((env.list (m.contents fd)).filter (· ∈ m.contents fd), env.listed), m)
  close fd m := ((m.fstat fd).1.map fun _ => (), { m with opened := m.opened.set fd.id none })
  random m := (.ok (m.random m.drawn), { m with drawn := m.drawn + 1 })

end InfraBox.Nfs
