import InfraBox.Nfs.Handles

/-!
# Handles across renames

A handle resolves to a name when its entry is the one at that name and the object there is the
entry's (`Leads`). A rename moves the entries of a subtree as it moves the objects, so handles
follow them (`handles_survive_rename`), unless the name stays the same: the entry of the new name is
dropped, and that is then the entry of the object itself.

`File.Stat` of an open file and `Stat` of its path agree as long as the path is the one it was
opened under (`open_file_handle`).
-/

namespace InfraBox.Nfs

open Config

/-! ## When a handle resolves -/

/-- The entry of the handle is the one at `name`, and so is its object. -/
structure Leads (s : State Machine) (h : Handle) (name : GoString) (id : Nat) (e : HandleEntry)
    (q : List GoString) (n : Node) : Prop where
  handle : s.fs.handles.get h = some id
  entry : s.fs.entries[id]? = some e
  named : e.name = name
  current : s.fs.paths.get name = some id
  path : name = pathText q
  object : s.world.tree.lookup q = some n
  same : n.ino = e.info.ident

section
variable {env : Env} {s : State Machine}

theorem resolveHandle_root (handle : GoString) (h : handle = rootHandle.1) :
    (resolveHandle (treeOS env) handle s).1 = .ok [slash] := by
  subst h
  unfold resolveHandle
  rw [dif_pos rootHandle.2, if_pos rfl]

/-- A handle other than the one of the virtual root resolves to a name when it leads there. -/
theorem resolveHandle_eq_ok (hs : Sound s) {h : Handle} (hroot : h ≠ rootHandle) {name : GoString} :
    (resolveHandle (treeOS env) h.1 s).1 = .ok name ↔ ∃ id e q n, Leads s h name id e q n := by
  unfold resolveHandle
  rw [dif_pos h.2, if_neg hroot]
  constructor
  · intro hok
    split at hok
    · cases hok
    next id hid =>
    split at hok
    · cases hok
    next e he =>
    split at hok
    · cases hok
    next hcur =>
    rw [ne_eq, not_not] at hcur
    obtain ⟨q, hq, hexp⟩ := hs.table.exported hcur
    obtain ⟨l, hl, htree, -⟩ := hexp.resolve
    rw [hq, hl] at hok
    simp only [treeOS_stat htree, Machine.stat] at hok
    cases hn : s.world.tree.lookup q with
    | none =>
      rw [hn] at hok
      cases hok
    | some n =>
      rw [hn] at hok
      simp only at hok
      split at hok
      · cases hok
      · next hsame =>
        cases hok
        have hident : e.info.ident = n.ino := by simpa [sameFile, info] using hsame
        exact ⟨id, e, q, n, hid, he, hq, hq ▸ hcur, rfl, hn, hident.symm⟩
  · rintro ⟨id, e, q, n, hid, he, rfl, hcur, hq, hn, hsame⟩
    obtain ⟨q', hq', hexp⟩ := hs.table.exported hcur
    obtain rfl : q = q' :=
      (plainParts_of_lookup hn).pathText_inj hexp.plain (hq.symm.trans hq')
    obtain ⟨l, hl, htree, -⟩ := hexp.resolve
    rw [← hq] at hl
    simp only [hid, he, hcur, hl, treeOS_stat htree, Machine.stat, hn, ne_eq, not_true, if_false]
    rw [if_neg]
    simp [sameFile, info, hsame]

/-- A handle that resolves is the one of the virtual root or leads somewhere. -/
theorem resolveHandle_inv (hs : Sound s) {handle name : GoString}
    (hok : (resolveHandle (treeOS env) handle s).1 = .ok name) :
    (handle = rootHandle.1 ∧ name = [slash]) ∨ ∃ h : Handle, h ≠ rootHandle ∧ handle = h.1 ∧
      ∃ id e q n, Leads s h name id e q n := by
  by_cases hlen : handle.length = 16
  · by_cases hroot : (⟨handle, hlen⟩ : Handle) = rootHandle
    · have hhandle : handle = rootHandle.1 := congrArg Subtype.val hroot
      rw [resolveHandle_root handle hhandle] at hok
      cases hok
      exact .inl ⟨hhandle, rfl⟩
    · exact .inr ⟨⟨handle, hlen⟩, hroot, rfl, (resolveHandle_eq_ok hs hroot).1 hok⟩
  · rw [resolveHandle, dif_neg hlen] at hok
    cases hok

/-- A handle whose entry is no longer at its name is stale. -/
theorem resolveHandle_stale {h : Handle} (hroot : h ≠ rootHandle) {id : Nat} {e : HandleEntry}
    (hid : s.fs.handles.get h = some id) (he : s.fs.entries[id]? = some e)
    (hcur : s.fs.paths.get e.name ≠ some id) :
    (resolveHandle (treeOS env) h.1 s).1 = .error .notExist := by
  unfold resolveHandle
  rw [dif_pos h.2, if_neg hroot]
  simp only [hid, he]
  rw [if_pos hcur]

end

/-! ## Renames -/

section
variable {s : State Machine} {old new : List GoString} {tree : Tree}

/-- The state after a rename. -/
def State.renamed (s : State Machine) (old new : List GoString) (tree : Tree) : State Machine :=
  ⟨s.fs.moveEntries (pathText old) (pathText new), { s.world with tree }⟩

variable {h : Handle} {name name' : GoString} {id : Nat} {e : HandleEntry} {q : List GoString}
  {n : Node} (hs : Sound s)
include hs

/-- The entry of the new name is no longer at a name. -/
theorem Leads.replaced (hl : Leads s h (pathText new) id e q n) :
    (s.renamed old new tree).fs.entries[id]? = some e ∧
      (s.renamed old new tree).fs.paths.get e.name ≠ some id := by
  obtain ⟨hid, he, hname, hcur, -, -, -⟩ := hl
  constructor
  · exact (Filesystem.entry_stays fun m m' hm _ => hs.table.inj hm hcur).trans he
  · intro hcur'
    obtain ⟨m, e₀, hm, -, hnew, -, -⟩ := hs.table.moved_inv hcur'
    exact hnew (hs.table.inj hm hcur)

variable (hrename : s.world.tree.rename old new = some tree) (hne : old ≠ new)
include hrename hne

/-- A handle after a rename led somewhere before, when the objects of the table are at their
names. -/
theorem Leads.before (hplaced : Placed s)
    (hl : Leads (s.renamed old new tree) h name id e q n) :
    ∃ name' e' q', Leads s h name' id e' q' n := by
  obtain ⟨-, -, hlookup⟩ := FileTree.rename_spec hrename hne
  obtain ⟨hid, he, hname, hcur, rfl, hn, hsame⟩ := hl
  obtain ⟨m, e₀, hm, he₀, -, he', -⟩ := hs.table.moved_inv hcur
  cases he'.symm.trans he
  obtain ⟨q', hq'⟩ : ∃ q', s.world.tree.lookup q' = some n := by
    have hn' := (hlookup q).symm.trans hn
    split at hn'
    · exact ⟨_, hn'⟩
    · split at hn'
      · cases hn'
      · exact ⟨q, hn'⟩
  obtain ⟨e₁, he₁, hname₁⟩ := hs.table.entry hm
  cases he₀.symm.trans he₁
  exact ⟨m, e₀, q', hid, he₀, hname₁, hm, (hplaced hm he₀ hq' hsame).symm, hq', hsame⟩

variable (hold : Exported s.fs.exports old)
include hold

/-- A handle below the old name follows its object. -/
theorem Leads.moved (hl : Leads s h name id e q n)
    (hmove : movedName (pathText old) (pathText new) name = some name') :
    ∃ e' q', Leads (s.renamed old new tree) h name' id e' q' n := by
  obtain ⟨hrn, -, hlookup⟩ := FileTree.rename_spec hrename hne
  obtain ⟨hid, he, hname, hcur, rfl, hn, hsame⟩ := hl
  have hq : PlainParts q := plainParts_of_lookup hn
  obtain ⟨r, rfl, rfl⟩ := (movedName_pathText hold hq).1 hmove
  have hnew : pathText (old ++ r) ≠ pathText new := by
    intro heq
    have hplain : PlainParts new := fun k hk => (hrn.new_valid k hk).1
    exact hrn.apart ⟨r, hq.pathText_inj hplain heq⟩
  refine ⟨_, new ++ r, hid, hs.table.entry_moved hmove hnew hcur he, rfl, ?_, rfl, ?_, hsame⟩
  · exact Filesystem.paths_moveEntries.2 (.inl ⟨_, hmove, hnew, hcur⟩)
  · exact (hlookup _).trans (by rw [if_pos ⟨r, rfl⟩, List.drop_left, hn])

/-- A handle elsewhere stays where it is. -/
theorem Leads.stays (hl : Leads s h name id e q n)
    (hmove : movedName (pathText old) (pathText new) name = none) (hnew : name ≠ pathText new) :
    Leads (s.renamed old new tree) h name id e q n := by
  obtain ⟨hrn, -, hlookup⟩ := FileTree.rename_spec hrename hne
  obtain ⟨hid, he, hname, hcur, rfl, hn, hsame⟩ := hl
  have hq : PlainParts q := plainParts_of_lookup hn
  have hold' : ¬ old <+: q := by
    rintro ⟨r, rfl⟩
    rw [(movedName_pathText hold hq).2 ⟨r, rfl, rfl⟩] at hmove
    cases hmove
  -- nothing was below the new name
  have hnew' : ¬ new <+: q := by
    rintro ⟨r, rfl⟩
    have hr : r ≠ [] := by
      rintro rfl
      exact hnew (by rw [List.append_nil])
    rw [FileTree.occupied_eq_false hrn.empty hr] at hn
    cases hn
  refine ⟨hid, ?_, hname, ?_, rfl, ?_, hsame⟩
  · refine (Filesystem.entry_stays fun m m' hm hm' => ?_).trans he
    rw [hs.table.inj hm hcur, hmove] at hm'
    cases hm'
  · refine Filesystem.paths_moveEntries.2 (.inr ⟨fun m hm => ?_, hmove, hnew, hcur⟩)
    -- a path that moves here would be below the new name
    refine Option.eq_none_iff_forall_ne_some.2 fun id' hid' => hnew' ?_
    obtain ⟨p, rfl, hp⟩ := hs.table.exported (FinMap.get_erase_eq_some.1 hid').2
    obtain ⟨r, rfl, heq⟩ := (movedName_pathText hold hp.plain).1 hm
    have hplain : PlainParts (new ++ r) := PlainParts.append
      (fun k hk => (hrn.new_valid k hk).1) fun k hk => hp.plain k (List.mem_append_right _ hk)
    exact ⟨r, (hq.pathText_inj hplain heq).symm⟩
  · exact (hlookup q).trans (by rw [if_neg hnew', if_neg hold', hn])

end

section
variable {links : Symlinks} {openRoot : GoString → Bool} {shares : List NFSShare} {f : Filesystem}
  {tree : Tree} {random : Nat → Handle} {tr : Trace (System Machine) (Op × Env)}
  {sys : System Machine} {env : Env}

/-- Handles survive renames. In every state that the adapter reaches over a tree without links: a
handle that resolved to the old name or below it resolves to the new place, one of what was replaced
is stale, and one that resolved to another name still does. When open files were asked for handles
only in place, a handle that did not resolve does not resolve afterwards either. -/
theorem handles_survive_rename {old new : GoString} {s' : State Machine}
    (hopen : openFilesystem links openRoot shares = some f)
    (hrun : Run TreeStep (start f tree random) tr sys)
    (hren : rename (treeOS env) old new sys.toState = (.ok (), s')) (hne : old ≠ new) :
    (∀ handle t, (t = [] ∨ [slash] <+: t) →
      (resolveHandle (treeOS env) handle sys.toState).1 = .ok (old ++ t) →
        (resolveHandle (treeOS env) handle s').1 = .ok (new ++ t)) ∧
    (∀ handle, (resolveHandle (treeOS env) handle sys.toState).1 = .ok new →
      (resolveHandle (treeOS env) handle s').1 = .error .notExist) ∧
    (∀ handle name, (resolveHandle (treeOS env) handle sys.toState).1 = .ok name →
      name ≠ new → name ≠ old → ¬ old ++ [slash] <+: name →
        (resolveHandle (treeOS env) handle s').1 = .ok name) ∧
    ((∀ t ∈ tr, t.label.1.InPlace t.pre) → ∀ handle name,
      (resolveHandle (treeOS env) handle s').1 = .ok name →
        ∃ name', (resolveHandle (treeOS env) handle sys.toState).1 = .ok name') := by
  obtain ⟨hs, -⟩ := run_sound hopen hrun
  obtain ⟨p, q, tree', rfl, rfl, hp, hq, hrename, rfl⟩ := rename_inv hren
  have hpq : p ≠ q := fun h => hne (h ▸ rfl)
  have hchange : Change False sys.toState (sys.toState.renamed p q tree') :=
    .renamed sys.toState hp hq hrename
  have hs' := hchange.sound hs
  -- no name in an export is that of the virtual root
  have hslash : ∀ {r : List GoString} {t : GoString}, Exported sys.fs.exports r →
      pathText r ++ t ≠ [slash] := by
    intro r t hr heq
    obtain ⟨-, -, -, hroot⟩ := hr.resolve
    have hne' := pathText_eq_cons hr.ne_nil
    rw [hne'] at heq hroot
    simp only [List.cons_append, List.cons.injEq, true_and, List.append_eq_nil_iff] at heq
    exact hroot (by rw [heq.1])
  refine ⟨fun handle t ht hok => ?_, fun handle hok => ?_,
    fun handle name hok hnew hold hbelow => ?_, fun hplace handle name hok => ?_⟩
  · rcases resolveHandle_inv hs hok with ⟨-, hroot⟩ | ⟨h, hroot, rfl, id, e, r, n, hl⟩
    · exact absurd hroot (hslash hp)
    · obtain ⟨e', r', hl'⟩ := hl.moved hs hrename hpq hp (movedName_eq_some.2 ⟨t, ht, rfl, rfl⟩)
      exact (resolveHandle_eq_ok hs' hroot).2 ⟨id, e', r', n, hl'⟩
  · rcases resolveHandle_inv hs hok with ⟨-, hroot⟩ | ⟨h, hroot, rfl, id, e, r, n, hl⟩
    · exact absurd ((List.append_nil _).trans hroot) (hslash hq)
    · obtain ⟨he, hcur⟩ := hl.replaced hs
      exact resolveHandle_stale hroot hl.handle he hcur
  · rcases resolveHandle_inv hs hok with ⟨rfl, rfl⟩ | ⟨h, hroot, rfl, id, e, r, n, hl⟩
    · exact resolveHandle_root _ rfl
    · have hmove : movedName (pathText p) (pathText q) name = none := by
        rw [movedName, if_neg (not_or.2 ⟨hold, hbelow⟩)]
      exact (resolveHandle_eq_ok hs' hroot).2 ⟨id, e, r, n, hl.stays hs hrename hpq hp hmove hnew⟩
  · rcases resolveHandle_inv hs' hok with ⟨rfl, -⟩ | ⟨h, hroot, rfl, id, e, r, n, hl⟩
    · exact ⟨[slash], resolveHandle_root _ rfl⟩
    · obtain ⟨name', e', r', hl'⟩ := hl.before hs hrename hpq (run_placed hopen hrun hplace)
      exact ⟨name', (resolveHandle_eq_ok hs hroot).2 ⟨id, e', r', n, hl'⟩⟩

/-! ### A concrete system -/

/-- Calls one after the other, in the same environment. -/
def System.execAll (env : Env) : System Machine → List Op → System Machine
  | sys, [] => sys
  | sys, op :: ops => System.execAll env (sys.exec (treeOS env) op) ops

/-- A list of calls is a run. -/
theorem System.execAll_run (env : Env) : ∀ (ops : List Op) (sys : System Machine),
    ∃ tr, Run TreeStep sys tr (sys.execAll env ops) ∧ ∀ t ∈ tr, t.label.1 ∈ ops
  | [], sys => ⟨[], .nil sys, by simp⟩
  | op :: ops, sys => by
    obtain ⟨tr, hrun, hops⟩ := execAll_run env ops (sys.exec (treeOS env) op)
    refine ⟨_, .cons (e := (op, env)) rfl hrun, fun t ht => ?_⟩
    rcases List.mem_cons.1 ht with rfl | ht
    · exact .head _
    · exact .tail _ (hops t ht)

/-- An environment that refuses nothing. -/
def quiet : Env := ⟨fun _ => none, id, none, .ok [], .ok 0, .ok 0⟩

def sampleHandle (i : Nat) : Handle := ⟨[2, UInt8.ofNat i] ++ List.replicate 14 0, rfl⟩

/-- The directories of the two shares. -/
def sampleTree : Tree := .ofDirs [[str "data"], [str "software"]]

def sampleStart : System Machine := start sampleFilesystem sampleTree sampleHandle

/-- Creates a file. -/
def Op.touch (name : GoString) : Op := .openFile name (oRDWR ||| oCREATE) 0o644

/-- A file and its directory get the first two handles, and another file the third. -/
def sampleOps : List Op :=
  [.mkdirAll (str "/data/d") 0o755, .touch (str "/data/d/f"), .touch (str "/data/g"),
    .stat (str "/data/d/f"), .stat (str "/data/d"), .stat (str "/data/g")]

/-- The file takes the place of the other one. -/
theorem handles_survive_rename_sample :
    let s := (sampleStart.execAll quiet sampleOps).toState
    let s' := (rename (treeOS quiet) (str "/data/d/f") (str "/data/g") s).2
    (resolveHandle (treeOS quiet) (sampleHandle 0).1 s').1 = .ok (str "/data/g") ∧
      (resolveHandle (treeOS quiet) (sampleHandle 1).1 s').1 = .ok (str "/data/d") ∧
      (resolveHandle (treeOS quiet) (sampleHandle 2).1 s').1 = .error .notExist := by
  intro s s'
  obtain ⟨tr, hrun, -⟩ := System.execAll_run quiet sampleOps sampleStart
  have hren : rename (treeOS quiet) (str "/data/d/f") (str "/data/g") s = (.ok (), s') :=
    Prod.ext (by decide +kernel) rfl
  obtain ⟨hmoved, hreplaced, hother, -⟩ :=
    handles_survive_rename sampleShares_open hrun hren (by decide)
  refine ⟨hmoved _ [] (.inl rfl) ?_, hother _ _ ?_ (by decide) (by decide) (by decide),
    hreplaced _ ?_⟩
  · decide +kernel
  · decide +kernel
  · decide +kernel

/-- Two renames after which a handle does not resolve as it should. Renaming a file to itself
succeeds, and its handle is stale. And a file that is asked for its handle after its directory was
renamed gets one under the name it no longer has: the handle does not resolve, but it does when the
directory is renamed back. -/
theorem rename_handles_lost :
    (∃ tr sys s', Run TreeStep sampleStart tr sys ∧
      rename (treeOS quiet) (str "/data/g") (str "/data/g") sys.toState = (.ok (), s') ∧
      (resolveHandle (treeOS quiet) (sampleHandle 2).1 sys.toState).1 = .ok (str "/data/g") ∧
      (resolveHandle (treeOS quiet) (sampleHandle 2).1 s').1 = .error .notExist) ∧
    ∃ tr sys s', Run TreeStep sampleStart tr sys ∧
      rename (treeOS quiet) (str "/data/e") (str "/data/d") sys.toState = (.ok (), s') ∧
      (resolveHandle (treeOS quiet) (sampleHandle 0).1 sys.toState).1 = .error .notExist ∧
      (resolveHandle (treeOS quiet) (sampleHandle 0).1 s').1 = .ok (str "/data/d/f") := by
  constructor
  · obtain ⟨tr, hrun, -⟩ := System.execAll_run quiet sampleOps sampleStart
    refine ⟨tr, _, _, hrun, Prod.ext ?_ rfl, ?_, ?_⟩
    · decide +kernel
    · decide +kernel
    · decide +kernel
  · obtain ⟨tr, hrun, -⟩ := System.execAll_run quiet
      (sampleOps.take 2 ++ [.rename (str "/data/d") (str "/data/e"), .file 0 .stat]) sampleStart
    refine ⟨tr, _, _, hrun, Prod.ext ?_ rfl, ?_, ?_⟩
    · decide +kernel
    · decide +kernel
    · decide +kernel

/-! ## Open files -/

section
variable {env : Env} {s : State Machine} {name : GoString} {i : Info} (readOnly : Bool)

/-- `wrap` of an object that the table knows at its name. -/
theorem wrap_found {id : Nat} {e : HandleEntry} (hid : s.fs.paths.get name = some id)
    (he : s.fs.entries[id]? = some e) (hident : e.info.ident = i.ident) :
    wrap (treeOS env) name i readOnly s = (.ok ⟨i, baseOf name, e.handle, readOnly⟩, s) := by
  have hentry : (s.fs.entryAt name).filter (fun e => sameFile e.info i) = some e := by
    simp [Filesystem.entryAt, hid, he, sameFile, hident]
  unfold wrap
  rw [hentry]

/-- While there is room, `wrap` returns the handle of the entry at the name. -/
theorem wrap_spec (env : Env) (hsize : s.fs.handles.size < maxHandles) :
    ∃ id e s₁, wrap (treeOS env) name i readOnly s =
        (.ok ⟨i, baseOf name, e.handle, readOnly⟩, s₁) ∧
      s₁.fs.paths.get name = some id ∧ s₁.fs.entries[id]? = some e ∧ e.info.ident = i.ident := by
  cases hentry : (s.fs.entryAt name).filter (fun e => sameFile e.info i) with
  | some e =>
    obtain ⟨hat, hident⟩ := Option.filter_eq_some_iff.1 hentry
    obtain ⟨id, hid, he⟩ := Option.bind_eq_some_iff.1 hat
    have hident : e.info.ident = i.ident := by simpa [sameFile] using hident
    exact ⟨id, e, s, wrap_found readOnly hid he hident, hid, he, hident⟩
  | none =>
    let e : HandleEntry := ⟨name, i, s.world.random s.world.drawn⟩
    refine ⟨s.fs.entries.length, e,
      ⟨s.fs.addEntry e, { s.world with drawn := s.world.drawn + 1 }⟩, ?_,
      FinMap.get_set_self .., ?_, rfl⟩
    · unfold wrap
      rw [hentry]
      simp only [Nat.not_le.2 hsize, if_false]
      rfl
    · simp [Filesystem.addEntry]

/-- Asking for the handle of an object under a path gives the one of the entry at that path. -/
theorem wrap_recorded (env : Env) {q : List GoString} (hs : Sound s) (hk : Keyed s)
    (hd : Distinct s.world.random (s.world.drawn + 1)) (hsize : s.fs.handles.size < maxHandles)
    (hq : Exported s.fs.exports q) (hknown : i.ident < s.world.tree.next) :
    ∃ id e s₁, wrap (treeOS env) (pathText q) i readOnly s =
        (.ok ⟨i, baseOf (pathText q), e.handle, readOnly⟩, s₁) ∧
      Sound s₁ ∧ e.handle ≠ rootHandle ∧ s₁.fs.handles.get e.handle = some id ∧
      s₁.fs.entries[id]? = some e ∧ e.name = pathText q ∧
      s₁.fs.paths.get (pathText q) = some id ∧ e.info.ident = i.ident ∧
      s₁.fs.exports = s.fs.exports ∧ ∃ d, s₁.world = { s.world with drawn := d } := by
  obtain ⟨id, e, s₁, hwrap, hid, he, hident⟩ := wrap_spec readOnly env hsize
  have hchange : Change False s s₁ := by
    have hwrap' : Change False s (wrap (treeOS env) (pathText q) i readOnly s).2 :=
      wrap_change readOnly hq hknown False.elim
    rwa [hwrap] at hwrap'
  obtain ⟨d, hle, hworld⟩ := wrap_world env (pathText q) i readOnly s
  rw [hwrap] at hworld
  have hd₁ : Distinct s₁.world.random s₁.world.drawn := by
    rw [hworld]
    exact hd.mono hle
  have hk₁ := hchange.keyed hd₁ hs hk
  obtain ⟨m, hm, hhandle⟩ := hk₁.drawn he
  obtain ⟨e', he', hname⟩ := (hchange.sound hs).table.entry hid
  cases he.symm.trans he'
  exact ⟨id, e, s₁, hwrap, hchange.sound hs, hhandle ▸ hd₁.not_root m hm, hk₁.key hid he, he,
    hname, hid, hident, hchange.exports, d, hworld⟩

/-- If the object is at the path, the handle resolves to it, and asking again gives the same one. -/
theorem wrap_agree (env : Env) {q : List GoString} {n : Node} (hs : Sound s) (hk : Keyed s)
    (hd : Distinct s.world.random (s.world.drawn + 1)) (hsize : s.fs.handles.size < maxHandles)
    (hq : Exported s.fs.exports q) (hn : s.world.tree.lookup q = some n) (hi : i.ident = n.ino) :
    ∃ h s₁, wrap (treeOS env) (pathText q) i readOnly s =
        (.ok ⟨i, baseOf (pathText q), h, readOnly⟩, s₁) ∧
      (∀ j : Info, j.ident = n.ino → ∀ readOnly', wrap (treeOS env) (pathText q) j readOnly' s₁ =
        (.ok ⟨j, baseOf (pathText q), h, readOnly'⟩, s₁)) ∧
      (resolveHandle (treeOS env) h.1 s₁).1 = .ok (pathText q) ∧
      s₁.fs.exports = s.fs.exports ∧ ∃ d, s₁.world = { s.world with drawn := d } := by
  obtain ⟨id, e, s₁, hwrap, hs₁, hroot, hhandle, he, hname, hid, hident, hexports, d, hworld⟩ :=
    wrap_recorded readOnly env hs hk hd hsize hq (hi ▸ s.world.tree.bound hn)
  refine ⟨e.handle, s₁, hwrap, fun j hj readOnly' => ?_, ?_, hexports, d, hworld⟩
  · exact wrap_found readOnly' hid he (hident.trans (hi.trans hj.symm))
  · exact (resolveHandle_eq_ok hs₁ hroot).2 ⟨id, e, q, n, hhandle, he, hname, hid, rfl,
      by rw [hworld]; exact hn, (hident.trans hi).symm⟩

/-- The handle resolves to no other path, and only while the object is there. -/
theorem wrap_only (env : Env) {q : List GoString} {a : FileInfo} {s₁ : State Machine}
    {name : GoString} (hs : Sound s) (hk : Keyed s)
    (hd : Distinct s.world.random (s.world.drawn + 1)) (hsize : s.fs.handles.size < maxHandles)
    (hq : Exported s.fs.exports q) (hknown : i.ident < s.world.tree.next)
    (ha : wrap (treeOS env) (pathText q) i readOnly s = (.ok a, s₁))
    (hok : (resolveHandle (treeOS env) a.handle.1 s₁).1 = .ok name) :
    name = pathText q ∧ ∃ n, s.world.tree.lookup q = some n ∧ n.ino = i.ident := by
  obtain ⟨id, e, s₂, hwrap, hs₁, hroot, hhandle, he, hname, -, hident, -, d, hworld⟩ :=
    wrap_recorded readOnly env hs hk hd hsize hq hknown
  cases ha.symm.trans hwrap
  obtain ⟨id', e', q', n, hl⟩ := (resolveHandle_eq_ok hs₁ hroot).1 hok
  cases hhandle.symm.trans hl.handle
  cases he.symm.trans hl.entry
  have heq : name = pathText q := hl.named.symm.trans hname
  obtain rfl : q' = q :=
    (plainParts_of_lookup hl.object).pathText_inj hq.plain (hl.path.symm.trans heq)
  have hobject := hl.object
  rw [hworld] at hobject
  exact ⟨heq, n, hobject, hl.same.trans hident⟩

end

/-- One handle for an object, also through an open file. While there is room for another handle and
handles do not repeat, `Stat` of an open file that is still at the path it was opened under and
`Stat` of that path give the same handle and file ID, and the handle resolves to the path; to no
other one, and not to this one if the file is no longer there. -/
theorem open_file_handle (env : Env) {i : Nat} {fd : Fd} {q : List GoString} {readOnly : Bool}
    (hopen : openFilesystem links openRoot shares = some f)
    (hrun : Run TreeStep (start f tree random) tr sys)
    (hsize : sys.fs.handles.size < maxHandles) (hd : Distinct random (sys.world.drawn + 1))
    (hfile : sys.files[i]? = some (.opened fd (pathText q) readOnly)) :
    (∀ n n', sys.world.object fd = some n → sys.world.tree.lookup q = some n' → n'.ino = n.ino →
      (∃ a b s₁, (File.opened fd (pathText q) readOnly).stat (treeOS env) sys.toState =
          (.ok a, s₁) ∧
        stat (treeOS env) (pathText q) s₁ = (.ok b, s₁) ∧ a.handle = b.handle ∧
        getFileID a = getFileID b ∧
        (resolveHandle (treeOS env) a.handle.1 s₁).1 = .ok (pathText q)) ∧
      ∃ a b s₁, stat (treeOS env) (pathText q) sys.toState = (.ok b, s₁) ∧
        (File.opened fd (pathText q) readOnly).stat (treeOS env) s₁ = (.ok a, s₁) ∧
        a.handle = b.handle ∧ getFileID a = getFileID b ∧
        (resolveHandle (treeOS env) a.handle.1 s₁).1 = .ok (pathText q)) ∧
    (PlainParts q → ∀ a s₁ name,
      (File.opened fd (pathText q) readOnly).stat (treeOS env) sys.toState = (.ok a, s₁) →
      (resolveHandle (treeOS env) a.handle.1 s₁).1 = .ok name →
      name = pathText q ∧ ∃ n n', sys.world.object fd = some n ∧
        sys.world.tree.lookup q = some n' ∧ n'.ino = n.ino) := by
  obtain ⟨hs, hown⟩ := run_sound hopen hrun
  obtain ⟨hrandom, hkeyed⟩ := run_keyed hopen hrun
  have hk := hkeyed (hd.mono (Nat.le_succ _))
  rw [← hrandom] at hd
  obtain ⟨hroot, l, hl, -, -⟩ := hown.2 _ (List.mem_of_getElem? hfile)
  have hexported : PlainParts q → Exported sys.fs.exports q := fun hplain => by
    obtain ⟨q', hq', hexp, -⟩ := resolve_exported hl hroot
    rw [hown.1, hplain.pathText_inj hexp.plain hq']
    exact hexp
  refine ⟨fun n n' hobject hlinked hsame => ?_, fun hplain a s₁ name ha hok => ?_⟩
  · have hq := hexported (plainParts_of_lookup hlinked)
    constructor
    · obtain ⟨h, s₁, hwrap, hagain, hresolves, hexports, d, hworld⟩ :=
        wrap_agree (i := info n []) readOnly env hs hk hd hsize hq hlinked hsame.symm
      have hlinked₁ : s₁.world.tree.lookup q = some n' := by rw [hworld]; exact hlinked
      obtain ⟨readOnly', hstat⟩ := stat_found env (hexports ▸ hq) hlinked₁
      refine ⟨_, _, s₁, (File.stat_found env hobject _ _).trans hwrap,
        hstat.trans (hagain (info n' _) rfl readOnly'), rfl, rfl, hresolves⟩
    · obtain ⟨readOnly', hstat⟩ := stat_found env hq hlinked
      obtain ⟨h, s₁, hwrap, hagain, hresolves, -, d, hworld⟩ :=
        wrap_agree (i := info n' _) readOnly' env hs hk hd hsize hq hlinked rfl
      have hobject₁ : s₁.world.object fd = some n := by rw [hworld]; exact hobject
      refine ⟨_, _, s₁, hstat.trans hwrap, (File.stat_found env hobject₁ _ _).trans
        (hagain (info n []) hsame.symm readOnly), rfl, rfl, hresolves⟩
  · cases hn : sys.world.object fd with
    | none =>
      have hcall : call ((treeOS env).fstat fd) sys.toState = (.error .invalid, sys.toState) := by
        simp only [call, treeOS, Machine.fstat, hn]
      rw [File.stat, hcall] at ha
      cases ha
    | some n =>
      rw [File.stat_found env hn] at ha
      obtain ⟨hname, n', hn', hsame⟩ := wrap_only readOnly env hs hk hd hsize
        (hexported hplain) (hs.object hn) ha hok
      exact ⟨hname, n, n', rfl, hn', hsame⟩

/-- A file that is opened, next to one that is renamed. -/
theorem open_file_handle_sample :
    let sys := sampleStart.execAll quiet (sampleOps ++ [.rename (str "/data/g") (str "/data/d/h")])
    ∃ a b s₁, (File.opened ⟨str "data", 0⟩ (str "/data/d/f") false).stat (treeOS quiet)
        sys.toState = (.ok a, s₁) ∧
      stat (treeOS quiet) (str "/data/d/f") s₁ = (.ok b, s₁) ∧ a.handle = b.handle ∧
      getFileID a = getFileID b ∧
      (resolveHandle (treeOS quiet) a.handle.1 s₁).1 = .ok (str "/data/d/f") := by
  intro sys
  obtain ⟨tr, hrun, -⟩ := System.execAll_run quiet
    (sampleOps ++ [.rename (str "/data/g") (str "/data/d/h")]) sampleStart
  have hdrawn : sys.world.drawn = 3 := by decide +kernel
  have hdistinct : Distinct sampleHandle (sys.world.drawn + 1) := by
    rw [hdrawn]
    exact ⟨by decide, by decide⟩
  have hobject : sys.world.object ⟨str "data", 0⟩ = some ⟨4, false⟩ := by decide +kernel
  have hlinked : sys.world.tree.lookup [str "data", str "d", str "f"] = some ⟨4, false⟩ := by
    decide +kernel
  exact ((open_file_handle (i := 0) quiet sampleShares_open hrun (by decide +kernel) hdistinct
    rfl).1 _ _ hobject hlinked rfl).1

/-- After the file was renamed, `Stat` of the open file gives a handle, and a file ID, other than
those of its path, and that handle does not resolve. -/
theorem open_file_handle_stray :
    ∃ tr sys f a b s₁, Run TreeStep sampleStart tr sys ∧
      sys.files[0]? = some f ∧ sys.world.tree.lookup [str "data", str "d", str "g"] =
        sys.world.object ⟨str "data", 0⟩ ∧
      f.stat (treeOS quiet) sys.toState = (.ok a, s₁) ∧
      (stat (treeOS quiet) (str "/data/d/g") s₁).1 = .ok b ∧ a.handle ≠ b.handle ∧
      getFileID a ≠ getFileID b ∧
      (resolveHandle (treeOS quiet) a.handle.1 s₁).1 = .error .notExist := by
  obtain ⟨tr, hrun, -⟩ := System.execAll_run quiet
    (sampleOps ++ [.rename (str "/data/d/f") (str "/data/d/g")]) sampleStart
  refine ⟨tr, _, .opened ⟨str "data", 0⟩ (str "/data/d/f") false,
    ⟨info ⟨4, false⟩ [], str "f", sampleHandle 3, false⟩,
    ⟨info ⟨4, false⟩ (str "g"), str "g", sampleHandle 0, false⟩, _, hrun, rfl, ?_,
    Prod.ext ?_ rfl, ?_, ?_, ?_, ?_⟩
  · decide +kernel
  · decide +kernel
  · decide +kernel
  · decide +kernel
  · decide +kernel
  · decide +kernel

end

end InfraBox.Nfs
