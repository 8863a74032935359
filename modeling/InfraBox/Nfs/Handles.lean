import InfraBox.Nfs.HandleTable

/-!
# Handles over runs of the adapter

Every call of the adapter over a tree is a `Change` (`System.exec_change`), so its invariants hold
in every state that is reached. `resolveHandle_eq_ok` says when a handle resolves, and the results
about renames and about open files compare that before and after a call.

An open file keeps the name it was opened under, and `File.Stat` and `File.Readdir` make entries
under that name wherever the file is now. Both results are therefore about files that are still
where they were opened (`File.InPlace`).
-/

namespace InfraBox.Nfs

open Config

variable {q : List GoString} {name : GoString} {fd : Fd}

/-! ## What the calls do -/

section
variable {env : Env} {placed : Prop}

/-- The objects of a tree are directories or regular files. -/
theorem info_kind (n : Node) (k : GoString) :
    (!(info n k).isDir && !(info n k).isRegular) = false := by
  have hmode : ∀ dir : Bool, let mode : Mode := if dir then modeDir ||| 0o755 else 0o644
      (!decide (mode &&& modeDir ≠ 0) && !decide (mode &&& modeType = 0)) = false := by decide
  exact hmode n.dir

theorem fstat_world (fd : Fd) (m : Machine) : (m.fstat fd).2 = m := by
  unfold Machine.fstat
  split <;> rfl

theorem stat_world (q : List GoString) (m : Machine) : (m.stat q).2 = m := by
  unfold Machine.stat
  split <;> rfl

theorem ask_world {α : Type} (c : Call) {f : Machine → Except Errno α × Machine} {m : Machine}
    {I : Machine → Prop} (hm : I m) (hf : I (f m).2) : I (env.ask c f m).2 := by
  unfold Env.ask
  split
  · exact hm
  · exact hf

/-- Opening may create a file. -/
theorem openFile_world (q : List GoString) (flags : Flags) (s : State Machine) :
    Change placed s ⟨s.fs, (s.world.openFile q flags).2⟩ := by
  unfold Machine.openFile
  split
  · next n hn =>
    split
    · exact .refl s
    split
    · exact .refl s
    · refine .opened s fun m hm => ?_
      rcases List.mem_append.1 hm with hm | hm
      · exact .inl hm
      · cases List.mem_singleton.1 hm
        exact .inr ⟨q, hn⟩
  · split
    · exact .refl s
    split
    · exact .refl s
    next tree hcreate =>
    have h₁ : Change placed s ⟨s.fs, { s.world with tree }⟩ := .created s hcreate
    refine h₁.trans (.opened _ fun m hm => ?_)
    rcases List.mem_append.1 hm with hm | hm
    · exact .inl hm
    · exact .inr ⟨q, (List.mem_singleton.1 hm).symm⟩

/-- Directories are created one below the other. -/
theorem mkdirAll_world (allowed : List GoString → Option Errno) :
    ∀ (dir rest : List GoString) (s : State Machine),
      Change placed s ⟨s.fs, (s.world.mkdirAll allowed dir rest).2⟩
  | _, [], s => .refl s
  | dir, k :: rest, s => by
    unfold Machine.mkdirAll
    split
    · split
      · exact mkdirAll_world allowed (dir ++ [k]) rest s
      · exact .refl s
    · split
      · exact .refl s
      split
      · exact .refl s
      · next tree hcreate =>
        have h₁ : Change placed s ⟨s.fs, { s.world with tree }⟩ := .created s hcreate
        exact h₁.trans (mkdirAll_world allowed (dir ++ [k]) rest ⟨s.fs, { s.world with tree }⟩)

theorem close_world (fd : Fd) (s : State Machine) :
    Change placed s ⟨s.fs, ((treeOS env).close fd s.world).2⟩ := by
  refine .opened s fun n hn => ?_
  rcases List.mem_or_eq_of_mem_set hn with hn | hn
  · exact .inl hn
  · cases hn

variable {s : State Machine}

/-- `wrap` adds an entry at most. -/
theorem wrap_change {i : Info} (readOnly : Bool) (hq : Exported s.fs.exports q)
    (hknown : i.ident < s.world.tree.next)
    (honly : placed → OnlyAt s.world.tree i.ident (pathText q)) :
    Change placed s (wrap (treeOS env) (pathText q) i readOnly s).2 := by
  unfold wrap
  split
  · exact .refl s
  split
  · exact .refl s
  · exact .added s hq hknown honly

/-- `wrap` draws at most one handle, and does not touch the tree. -/
theorem wrap_world (env : Env) (name : GoString) (i : Info) (readOnly : Bool) (s : State Machine) :
    ∃ d ≤ s.world.drawn + 1,
      (wrap (treeOS env) name i readOnly s).2.world = { s.world with drawn := d } := by
  unfold wrap
  split
  · exact ⟨s.world.drawn, Nat.le_succ _, rfl⟩
  split
  · exact ⟨s.world.drawn, Nat.le_succ _, rfl⟩
  · exact ⟨s.world.drawn + 1, Nat.le_refl _, rfl⟩

/-- What the root of an export finds at a name. -/
theorem treeOS_stat {l : Location} (h : treePath l.share l.relative = q)
    (m : Machine) : (treeOS env).stat l.share l.relative m = m.stat q := h ▸ rfl

/-- `Stat` of a path that leads to an object. -/
theorem stat_found (env : Env) {n : Node} (hq : Exported s.fs.exports q)
    (hn : s.world.tree.lookup q = some n) : ∃ readOnly, stat (treeOS env) (pathText q) s =
      wrap (treeOS env) (pathText q) (info n (q.getLastD [])) readOnly s := by
  obtain ⟨l, hl, htree, hroot⟩ := hq.resolve
  refine ⟨l.readOnly, ?_⟩
  unfold stat
  rw [if_neg hroot, hl]
  simp only [treeOS_stat htree, Machine.stat, hn, info_kind]
  rfl

/-- `Stat` of a path. -/
theorem stat_change (name : GoString) : Change placed s (stat (treeOS env) name s).2 := by
  by_cases hroot : name = [slash]
  · rw [stat, if_pos hroot]
    exact .refl s
  cases hl : resolve s.fs.exports name with
  | error e =>
    rw [stat, if_neg hroot, hl]
    exact .refl s
  | ok l =>
    obtain ⟨q, rfl, hq, htree⟩ := resolve_exported hl hroot
    cases hn : s.world.tree.lookup q with
    | none =>
      rw [stat, if_neg hroot, hl]
      simp only [treeOS_stat htree, Machine.stat, hn]
      exact .refl s
    | some n =>
      obtain ⟨readOnly, heq⟩ := stat_found env hq hn
      rw [heq]
      exact wrap_change readOnly hq (s.world.tree.bound hn) fun _ => onlyAt_of_lookup hn

/-- `OpenFile` of the root or of a path. -/
theorem openFile_change (name : GoString) (flag : Flags) (mode : Mode) :
    Change placed s (openFile (treeOS env) name flag mode s).2 := by
  unfold openFile
  split
  · unfold openRootDirectory
    split
    · exact .refl s
    have hshares : Change placed s (statShares (treeOS env) s.fs.exports.keys s).2 :=
      statShares_rel .refl (fun _ _ _ => .trans) (fun _ _ => stat_change _) _ s
    split
    · next h => rwa [h] at hshares
    · next h => rwa [h] at hshares
  split
  · exact .refl s
  next l hl =>
  split
  · exact .refl s
  next flags hflags =>
  have hopen : Change placed s
      ⟨s.fs, ((treeOS env).openFile l.share l.relative flags mode.perm s.world).2⟩ :=
    ask_world (I := fun m => Change placed s ⟨s.fs, m⟩) _ (.refl s) (openFile_world _ flags s)
  split
  · next h => rwa [h] at hopen
  next id w h =>
  rw [h] at hopen
  have hfstat : ((treeOS env).fstat ⟨l.share, id⟩ w).2 = w := fstat_world _ w
  have hclose : Change placed s ⟨s.fs, ((treeOS env).close ⟨l.share, id⟩ w).2⟩ :=
    hopen.trans (close_world _ ⟨s.fs, w⟩)
  split
  · next h' =>
    rw [h'] at hfstat
    cases hfstat
    exact hclose
  · next h' =>
    rw [h'] at hfstat
    cases hfstat
    split
    · exact hclose
    · exact hopen

/-- The methods that change the entry of one path. -/
theorem mutate_change {call : Location → Machine → Except Errno Unit × Machine}
    (h : ∀ l, Change placed s ⟨s.fs, (call l s.world).2⟩) :
    Change placed s (mutate name call s).2 := by
  unfold mutate
  split
  · exact .refl s
  · next l _ => exact h l

theorem chmod_change (name : GoString) (mode : Mode) :
    Change placed s (chmod (treeOS env) name mode s).2 :=
  mutate_change fun _ => ask_world (I := fun m => Change placed s ⟨s.fs, m⟩) _ (.refl s) (.refl s)

/-- A writable name stands for a path in the tree. -/
theorem writable_exported {exports : FinMap GoString Export} {l : Location}
    (h : writable exports name = .ok l) :
    ∃ q, name = pathText q ∧ Exported exports q ∧ treePath l.share l.relative = q :=
  resolve_exported (writable_ok h).1 (writable_ok h).2.2.2

/-- A change of the tree that succeeds changes only the tree. -/
theorem ask_change_eq_ok {c : Call} {f : Tree → Option Tree} {m m' : Machine}
    (h : env.ask c (Machine.change f) m = (.ok (), m')) :
    ∃ tree, f m.tree = some tree ∧ m' = { m with tree } := by
  unfold Env.ask at h
  split at h
  · cases h
  unfold Machine.change at h
  split at h
  · cases h
  · next tree htree =>
    cases h
    exact ⟨tree, htree, rfl⟩

/-- One that fails changes nothing. -/
theorem ask_change_eq_error {c : Call} {f : Tree → Option Tree} {m m' : Machine} {e : Errno}
    (h : env.ask c (Machine.change f) m = (.error e, m')) : m' = m := by
  unfold Env.ask at h
  split at h
  · cases h; rfl
  unfold Machine.change at h
  split at h
  · cases h; rfl
  · cases h

/-- `Remove` of a path. -/
theorem remove_change (name : GoString) : Change placed s (remove (treeOS env) name s).2 := by
  unfold remove mutate
  cases hw : writable s.fs.exports name with
  | error e => exact .refl s
  | ok l =>
    obtain ⟨q, rfl, hq, htree⟩ := writable_exported hw
    rcases hcall : (treeOS env).remove l.share l.relative s.world with ⟨e | ⟨⟨⟩⟩, m⟩
    all_goals simp only [hcall]
    · rw [ask_change_eq_error hcall]
      exact .refl s
    · obtain ⟨tree, hremove, rfl⟩ := ask_change_eq_ok hcall
      rw [htree] at hremove
      exact .removed s hq hremove

/-- A rename that succeeds. -/
theorem rename_inv {old new : GoString} {s' : State Machine}
    (h : rename (treeOS env) old new s = (.ok (), s')) :
    ∃ p q tree, old = pathText p ∧ new = pathText q ∧ Exported s.fs.exports p ∧
      Exported s.fs.exports q ∧ s.world.tree.rename p q = some tree ∧
      s' = ⟨s.fs.moveEntries old new, { s.world with tree }⟩ := by
  unfold rename at h
  split at h
  · cases h
  next l hl =>
  split at h
  · cases h
  next l' hl' =>
  split at h
  · cases h
  next hshare =>
  split at h
  · cases h
  next m hcall =>
  cases h
  obtain ⟨p, hp, hexp, htree⟩ := writable_exported hl
  obtain ⟨q, hq, hexp', htree'⟩ := writable_exported hl'
  obtain ⟨tree, hrename, rfl⟩ := ask_change_eq_ok hcall
  rw [ne_eq, not_not] at hshare
  rw [htree, hshare, htree'] at hrename
  exact ⟨p, q, tree, hp, hq, hexp, hexp', hrename, rfl⟩

/-- `Rename` of a path. -/
theorem rename_change (old new : GoString) : Change placed s (rename (treeOS env) old new s).2 := by
  rcases h : rename (treeOS env) old new s with ⟨e | ⟨⟨⟩⟩, s'⟩
  · unfold rename at h
    split at h
    · cases h; exact .refl s
    split at h
    · cases h; exact .refl s
    split at h
    · cases h; exact .refl s
    split at h
    · next hcall =>
      cases h
      rw [ask_change_eq_error hcall]
      exact .refl s
    · cases h
  · obtain ⟨p, q, tree, rfl, rfl, hp, hq, hrename, rfl⟩ := rename_inv h
    exact .renamed s hp hq hrename

/-- Resolving a handle changes nothing. -/
theorem resolveHandle_world (handle : GoString) :
    (resolveHandle (treeOS env) handle s).2 = s := by
  unfold resolveHandle
  split
  · split
    · rfl
    split
    · rfl
    split
    · rfl
    split
    · rfl
    split
    · rfl
    · next l _ =>
      have hw := stat_world (treePath l.share l.relative) s.world
      split
      · next h => exact congrArg (State.mk s.fs) ((congrArg Prod.snd h).symm.trans hw)
      · next h =>
        split
        · exact congrArg (State.mk s.fs) ((congrArg Prod.snd h).symm.trans hw)
        · exact congrArg (State.mk s.fs) ((congrArg Prod.snd h).symm.trans hw)
  · rfl

end

/-! ## Open files -/

/-- The object of an open file is at the name it was opened under, or gone. -/
def File.InPlace (m : Machine) : File → Prop
  | .root .. => True
  | .opened fd name _ => ∀ n, m.object fd = some n → OnlyAt m.tree n.ino name

/-- An open file is only asked for the handles of its object, or of what is in it, when it is in
place. -/
def Op.InPlace (sys : System Machine) : Op → Prop
  | .file i .stat | .file i (.readdir _) => ∀ f, sys.files[i]? = some f → f.InPlace sys.world
  | _ => True

section
variable {env : Env} {placed : Prop} {s : State Machine}

theorem Sound.object (hs : Sound s) {n : Node} (h : s.world.object fd = some n) :
    n.ino < s.world.tree.next :=
  hs.opened (List.mem_of_getElem? (Option.join_eq_some_iff.1 h))

/-- The names in a directory. -/
theorem mem_contents {m : Machine} {i : Info} (h : i ∈ m.contents fd) :
    ∃ d p n, m.object fd = some d ∧ (∃ n', m.tree.lookup p = some n' ∧ n'.ino = d.ino) ∧
      m.tree.lookup (p ++ [i.name]) = some n ∧ i.ident = n.ino := by
  unfold Machine.contents at h
  split at h
  · cases h
  next d hd =>
  obtain ⟨⟨k, n⟩, hmem, rfl⟩ := List.mem_map.1 h
  obtain ⟨p, n', hp, hino, hn⟩ := FileTree.mem_children hmem
  exact ⟨d, p, n, hd, ⟨n', hp, hino⟩, hn, rfl⟩

/-- The entries of a directory are wrapped one by one. -/
theorem wrapAll_change (env : Env) {t : Tree} (readOnly : Bool) :
    ∀ (infos : List Info) (s : State Machine), Exported s.fs.exports q → s.world.tree = t →
      (∀ i ∈ infos, FileName i.name ∧ i.ident < t.next ∧
        (placed → OnlyAt t i.ident (pathText (q ++ [i.name])))) →
      Change placed s (wrapAll (treeOS env) (pathText q) readOnly infos s).2
  | [], s, _, _, _ => .refl s
  | i :: rest, s, hq, ht, hinfos => by
    have hrest : ∀ i ∈ rest, _ := fun i hi => hinfos i (.tail _ hi)
    obtain ⟨hname, hknown, honly⟩ := hinfos i (.head _)
    unfold wrapAll
    split
    · exact wrapAll_change env readOnly rest s hq ht hrest
    · have hwrap : Change placed s
          (wrap (treeOS env) (joinPath (pathText q) i.name) i readOnly s).2 := by
        rw [joinPath_pathText hq hname]
        refine wrap_change readOnly (hq.append fun k hk => ?_) (ht ▸ hknown) (ht ▸ honly)
        exact List.mem_singleton.1 hk ▸ hname
      obtain ⟨d, -, hworld⟩ := wrap_world env (joinPath (pathText q) i.name) i readOnly s
      split
      · next h => rwa [h] at hwrap
      · next s₁ h =>
        rw [h] at hwrap hworld
        have htree : s₁.world.tree = t := by rw [hworld, ← ht]
        have hall := wrapAll_change env readOnly rest s₁ (hwrap.exports ▸ hq) htree hrest
        split
        · next h' => rw [h'] at hall; exact hwrap.trans hall
        · next h' => rw [h'] at hall; exact hwrap.trans hall

/-- `Stat` of an open file. -/
theorem File.stat_found (env : Env) {n : Node} (hn : s.world.object fd = some n)
    (name : GoString) (readOnly : Bool) : (File.opened fd name readOnly).stat (treeOS env) s =
      wrap (treeOS env) name (info n []) readOnly s := by
  have hcall : call ((treeOS env).fstat fd) s = (.ok (info n []), s) := by
    simp only [call, treeOS, Machine.fstat, hn]
  rw [File.stat, hcall]

/-- `Stat` of an open file. -/
theorem File.stat_change {readOnly : Bool} (hs : Sound s)
    (hf : (File.opened fd name readOnly).Owned s.fs.exports)
    (hplace : placed → (File.opened fd name readOnly).InPlace s.world) :
    Change placed s ((File.opened fd name readOnly).stat (treeOS env) s).2 := by
  obtain ⟨hroot, l, hl, -, -⟩ := hf
  obtain ⟨q, rfl, hq, -⟩ := resolve_exported hl hroot
  cases hn : s.world.object fd with
  | none =>
    have hcall : call ((treeOS env).fstat fd) s = (.error .invalid, s) := by
      simp only [call, treeOS, Machine.fstat, hn]
    rw [File.stat, hcall]
    exact .refl s
  | some n =>
    rw [File.stat_found env hn]
    exact wrap_change readOnly hq (hs.object hn) fun hp => hplace hp n hn

/-- `Readdir` of an open directory. -/
theorem File.readdir_change {readOnly : Bool} (n : Int)
    (hf : (File.opened fd name readOnly).Owned s.fs.exports)
    (hplace : placed → (File.opened fd name readOnly).InPlace s.world) :
    Change placed s ((File.opened fd name readOnly).readdir (treeOS env) n s).2.2 := by
  obtain ⟨hroot, l, hl, -, -⟩ := hf
  obtain ⟨q, rfl, hq, -⟩ := resolve_exported hl hroot
  have hinfos : ∀ i ∈ (env.list (s.world.contents fd)).filter (· ∈ s.world.contents fd),
      FileName i.name ∧ i.ident < s.world.tree.next ∧
        (placed → OnlyAt s.world.tree i.ident (pathText (q ++ [i.name]))) := by
    intro i hi
    obtain ⟨d, p, m, hd, ⟨d', hp, hino⟩, hm, hident⟩ :=
      mem_contents (of_decide_eq_true (List.mem_filter.1 hi).2)
    refine ⟨s.world.tree.names hm _ (by simp), hident ▸ s.world.tree.bound hm, fun hpl => ?_⟩
    -- the directory is where it was opened
    have hpq : p = q :=
      (plainParts_of_lookup hp).pathText_inj hq.plain (hplace hpl d hd hp hino)
    rw [hident, ← hpq]
    exact onlyAt_of_lookup hm
  have hcall : ∀ count, call ((treeOS env).readdir fd count) s = ((_, env.listed), s) :=
    fun _ => rfl
  simp only [File.readdir, hcall]
  split
  · exact .refl s
  have hall := wrapAll_change env readOnly _ s hq rfl hinfos
  split
  · next h => rwa [h] at hall
  · next h => rwa [h] at hall

/-- A call of the operating system that leaves it as it is. -/
theorem call_same {α : Type} {f : Machine → α × Machine} (h : (f s.world).2 = s.world) :
    (call f s).2 = s := by
  rw [call, h]

theorem ask_same {α : Type} (c : Call) {f : Machine → Except Errno α × Machine} {m : Machine}
    (h : (f m).2 = m) : (env.ask c f m).2 = m := ask_world (I := (· = m)) c rfl h

/-- Any method of an open file. -/
theorem fileOp_change {f : File} (op : FileOp) (hs : Sound s) (hf : f.Owned s.fs.exports)
    (hplace : placed → op = .stat ∨ (∃ n, op = .readdir n) → f.InPlace s.world) :
    Change placed s (op.exec (treeOS env) f s).2 := by
  cases f with
  | root entries offset =>
    rw [(fileOp_root (treeOS env) s entries offset op).1]
    exact .refl s
  | opened fd name readOnly =>
    -- what is asked about data leaves the tree and the table as they are
    have hsame : ∀ {s' : State Machine}, s' = s → Change placed s s' := fun h => by
      rw [h]
      exact .refl s
    cases op with
    | stat => exact File.stat_change hs hf fun hp => hplace hp (.inl rfl)
    | readdir n => exact File.readdir_change n hf fun hp => hplace hp (.inr ⟨n, rfl⟩)
    | read n => exact hsame rfl
    | write data =>
      simp only [FileOp.exec, File.write]
      split
      · exact .refl s
      split <;> exact .refl s
    | seek offset whence => exact hsame rfl
    | truncate =>
      simp only [FileOp.exec, File.truncate]
      split
      · exact .refl s
      split
      · next h => exact hsame (congrArg Prod.snd h).symm
      · next h =>
        cases (congrArg Prod.snd h : s = _)
        exact hsame (call_same (ask_same _ rfl))
    | sync =>
      simp only [FileOp.exec, File.sync]
      split
      · exact .refl s
      · exact hsame (call_same (ask_same _ rfl))
    | close => exact close_world fd s

/-! ## Sequences of calls -/

/-- A call of the adapter, with what the tree does not decide. -/
def TreeStep (sys : System Machine) (c : Op × Env) (sys' : System Machine) : Prop :=
  sys' = sys.exec (treeOS c.2) c.1

/-- The adapter before the first call. -/
def start (f : Filesystem) (tree : Tree) (random : Nat → Handle) : System Machine :=
  ⟨⟨f, tree, [], random, 0⟩, []⟩

/-- Any call of the adapter. -/
theorem System.exec_change {sys : System Machine} {exports : FinMap GoString Export} (op : Op)
    (hown : sys.Owned exports) (hs : Sound sys.toState) (hplace : placed → op.InPlace sys) :
    Change placed sys.toState (sys.exec (treeOS env) op).toState := by
  obtain ⟨rfl, hfiles⟩ := hown
  have hopen : ∀ name flag mode, Change placed sys.toState
      (sys.keep (openFile (treeOS env) name flag mode sys.toState)).toState := by
    intro name flag mode
    rw [System.keep_toState]
    exact openFile_change name flag mode
  cases op with
  | stat name => exact stat_change name
  | «open» name => exact hopen name _ _
  | openFile name flag mode => exact hopen name flag mode
  | chmod name mode => exact chmod_change name mode
  | mkdirAll name mode => exact mutate_change fun _ => mkdirAll_world _ _ _ _
  | remove name => exact remove_change name
  | rename old new => exact rename_change old new
  | chown | link | symlink | readlink => exact .refl _
  | resolveHandle handle =>
    simp only [System.exec, resolveHandle_world]
    exact .refl _
  | operationOpen o name => exact hopen name _ _
  | operationOpenFile o name flags mode => exact hopen name _ mode
  | file i op =>
    simp only [System.exec]
    cases hi : sys.files[i]? with
    | none => exact .refl _
    | some f =>
      refine fileOp_change op hs (hfiles f (List.mem_of_getElem? hi)) fun hp hop => ?_
      rcases hop with rfl | ⟨n, rfl⟩
      · exact hplace hp f hi
      · exact hplace hp f hi

end

section
variable {links : Symlinks} {openRoot : GoString → Bool} {shares : List NFSShare} {f : Filesystem}
  {tree : Tree} {random : Nat → Handle} {tr : Trace (System Machine) (Op × Env)}
  {sys : System Machine}

/-- A new file system has no entries. -/
theorem openFilesystem_empty (h : openFilesystem links openRoot shares = some f) :
    f.entries = [] ∧ f.paths = .empty := by
  unfold openFilesystem at h
  split at h
  · cases h
  split at h
  · cases h
  split at h
  · cases h
  · cases h
    exact ⟨rfl, rfl⟩

/-- The invariants hold at first. -/
theorem start_sound (h : openFilesystem links openRoot shares = some f) :
    Sound (start f tree random).toState ∧ (start f tree random).Owned f.exports ∧
      Keyed (start f tree random).toState ∧ Placed (start f tree random).toState := by
  obtain ⟨hentries, hpaths⟩ := openFilesystem_empty h
  have hpath : ∀ {n : GoString} {id : Nat}, f.paths.get n = some id → False := by simp [hpaths]
  have hentry : ∀ {id : Nat} {e : HandleEntry}, f.entries[id]? = some e → False := by
    simp [hentries]
  refine ⟨⟨⟨fun hn => (hpath hn).elim, fun hn => (hpath hn).elim⟩, fun he => (hentry he).elim, ?_⟩,
    ⟨rfl, by simp [start]⟩, ⟨fun hn => (hpath hn).elim, fun he => (hentry he).elim⟩,
    fun _ _ _ hn => (hpath hn).elim⟩
  simp [start]

/-- The invariants of every state that is reached. -/
theorem run_sound (hopen : openFilesystem links openRoot shares = some f)
    (hrun : Run TreeStep (start f tree random) tr sys) :
    Sound sys.toState ∧ sys.Owned f.exports := by
  refine hrun.invariant (I := fun sys => Sound sys.toState ∧ sys.Owned f.exports)
    ⟨(start_sound hopen).1, (start_sound hopen).2.1⟩ ?_
  rintro sys ⟨op, env⟩ sys' ⟨hs, hown⟩ rfl
  have hchange : Change False sys.toState (sys.exec (treeOS env) op).toState :=
    System.exec_change op hown hs False.elim
  exact ⟨hchange.sound hs, (hown.exec op).2⟩

/-- While handles do not repeat, they find the entries of the table. -/
theorem run_keyed (hopen : openFilesystem links openRoot shares = some f)
    (hrun : Run TreeStep (start f tree random) tr sys) :
    sys.world.random = random ∧ (Distinct random sys.world.drawn → Keyed sys.toState) := by
  suffices h : (Sound sys.toState ∧ sys.Owned f.exports) ∧ sys.world.random = random ∧
      (Distinct random sys.world.drawn → Keyed sys.toState) from h.2
  refine hrun.invariant (I := fun sys => (Sound sys.toState ∧ sys.Owned f.exports) ∧
      sys.world.random = random ∧ (Distinct random sys.world.drawn → Keyed sys.toState))
    ⟨⟨(start_sound hopen).1, (start_sound hopen).2.1⟩, rfl, fun _ => (start_sound hopen).2.2.1⟩ ?_
  rintro sys ⟨op, env⟩ sys' ⟨⟨hs, hown⟩, hrandom, hkeyed⟩ rfl
  have hchange : Change False sys.toState (sys.exec (treeOS env) op).toState :=
    System.exec_change op hown hs False.elim
  have hrandom' := hchange.random.trans hrandom
  refine ⟨⟨hchange.sound hs, (hown.exec op).2⟩, hrandom', fun hd => ?_⟩
  exact hchange.keyed (hrandom' ▸ hd) hs (hkeyed (hd.mono hchange.drawn_le))

/-- When open files are only asked in place, the objects of the table are at their names. -/
theorem run_placed (hopen : openFilesystem links openRoot shares = some f)
    (hrun : Run TreeStep (start f tree random) tr sys)
    (hplace : ∀ t ∈ tr, t.label.1.InPlace t.pre) : Placed sys.toState := by
  suffices h : (Sound sys.toState ∧ sys.Owned f.exports) ∧ Placed sys.toState from h.2
  refine hrun.invariant_mem (I := fun sys => (Sound sys.toState ∧ sys.Owned f.exports) ∧
      Placed sys.toState)
    ⟨⟨(start_sound hopen).1, (start_sound hopen).2.1⟩, (start_sound hopen).2.2.2⟩ ?_
  rintro ⟨sys, ⟨op, env⟩, sys'⟩ ht hstep ⟨⟨hs, hown⟩, hplaced⟩
  obtain rfl : sys' = sys.exec (treeOS env) op := hstep
  have hchange : Change True sys.toState (sys.exec (treeOS env) op).toState :=
    System.exec_change op hown hs fun _ => hplace _ ht
  exact ⟨⟨hchange.sound hs, (hown.exec op).2⟩, hplaced.change hs hchange⟩

end

end InfraBox.Nfs
