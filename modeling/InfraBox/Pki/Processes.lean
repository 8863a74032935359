import InfraBox.Lib.Publication
import InfraBox.Pki.Open

/-!
# The processes on the directory of the authority

Besides the files of the authority its directory has the state of the ACME server, and may have the
leases. All the processes on it publish their files whole: what they write under a temporary name is
synced before it gets its name. So they keep to the protocol of `Lib.Publication`, in which the
bundle of the root is a name that nobody replaces (`Governs`). A process that opens the authority
ends with a root whose bundle is on the disk for good (`triple_openManager`): it wrote and synced
the bundle, or it read the bundle and synced the directory when it exported the certificate.
-/

namespace InfraBox.Pki

open Publication

variable {ι κ : Type}

/-! ## Other files in the directory -/

/-- A file that is none of the authority's and no temporary one. -/
structure StateFile where
  name : GoString
  visible : name.head? ≠ some dot
  apart : name ∉ [rootBundleName, leafBundleName, ldapBundleName, rootPublicName]

/-- `commit` of the ACME server, from the encoded state on. -/
def commit (name data : GoString) : PkiM κ Unit := do
  Proc.reject (64 <<< 20 < data.length) (.new "ACME state exceeds 64 MiB capacity")
  wrap "create ACME state directory" PkiM.mkdirAll
  let f ← wrap "create ACME state snapshot" (DiskM.createTemp (str ".acme-state-"))
  Proc.deferring (cleanup f) do
    wrap "write ACME state" (DiskM.write f.2 data)
    wrap "sync ACME state" (DiskM.sync f.2)
    wrap "close ACME state" (DiskM.close f.2)
    wrap "replace ACME state" (DiskM.rename f.1 name)
    wrap "open ACME directory" DiskM.openDir
    Proc.deferring closeDirectory (wrap "sync ACME directory" DiskM.syncDir)

/-- `persist` of the leases, from the snapshot on. -/
def persist (name data : GoString) : PkiM κ Unit := do
  wrap "create lease directory" PkiM.mkdirAll
  let tmp ← wrap "create temporary lease file" (DiskM.createTemp ([dot] ++ name ++ str ".tmp-"))
  Proc.deferring (cleanup tmp) do
    wrap "encode lease file" (DiskM.write tmp.2 data)
    wrap "sync lease file" (DiskM.sync tmp.2)
    wrap "close lease file" (DiskM.close tmp.2)
    wrap "replace lease file" (DiskM.rename tmp.1 name)

/-! ## The protocol -/

/-- The rules of the directory. -/
structure Governs (C : Publication ι) : Prop where
  hidden : ∀ name, C.hidden name ↔ name.head? = some dot
  root : ∀ p, ¬ C.replaces p rootBundleName
  replaces : ∀ p, C.replaces p rootPublicName ∧ ∀ svc : Service, C.replaces p svc.bundleName
  content : ∀ data, C.content rootPublicName data ∧ ∀ svc : Service, C.content svc.bundleName data
  /-- A new root is published only in an empty directory. -/
  fresh : (∀ name, ¬ C.present name) → ∀ data, C.content rootBundleName data

section
variable {C : Publication ι} {p : ι} {name data : GoString} {F S P : Disk ι → Prop}

/-- Assertions of the processes here. -/
abbrev rules (κ : Type) (C : Publication ι) :
    Protocol (Disk.machine ι (Query.Answer (κ := κ)) GoError) := C.protocol Query.Answer GoError

theorem Governs.visible (h : Governs C) {name : GoString} (hname : name.head? ≠ some dot) :
    ¬ C.hidden name := fun hh => hname ((h.hidden name).1 hh)

theorem Governs.hidden_temp (h : Governs C) {stem : GoString} (hstem : stem.head? = some dot)
    (name : GoString) (hname : Disk.TempName stem name) : C.hidden name := by
  obtain ⟨digits, -, rfl⟩ := hname
  rw [h.hidden, List.head?_append, hstem]
  rfl

theorem triple_wrap {α : Type} {context : String} {m : PkiM κ α} {R : α → Disk ι → Prop}
    (h : (rules κ C).Triple p P m F R) : (rules κ C).Triple p P (wrap context m) F R :=
  h.mapError

theorem valid_cleanup {tmp : GoString × Inode}
    (hP : C.Lasting (Query.Answer (κ := κ)) GoError p P) :
    (rules κ C).Valid p (cleanup tmp) (fun d => Owned p tmp.1 d ∧ P d) fun _ => P := by
  refine (valid_close (persistent_owned.stable.and hP.stable)).bind fun _ => ?_
  exact (valid_remove hP).bind fun _ => .done fun _ _ hd => hd

theorem valid_closeDirectory (hP : (rules κ C).Stable p P) :
    (rules κ C).Valid p closeDirectory P fun _ => P :=
  (valid_closeDir hP).bind fun _ => .done fun _ _ hd => hd

/-- A process with a temporary file, which it gives up at the end. -/
theorem triple_withTemp {create : PkiM κ (GoString × Inode)}
    {body : GoString × Inode → PkiM κ Unit} (hF : (rules κ C).Persistent F)
    (hS : C.Lasting (Query.Answer (κ := κ)) GoError p S)
    (hcreate : (rules κ C).Triple p F create F
      fun t => C.Temp p t.1 t.2 ⟨[], 0o600, true, false, some p⟩)
    (hbody : ∀ t i, (rules κ C).Persistent (fun d => Owned p t d ∧ F d) →
      (rules κ C).Triple p
        (fun d => (Owned p t d ∧ F d) ∧ C.Temp p t i ⟨[], 0o600, true, false, some p⟩ d)
        (body (t, i)) (fun d => Owned p t d ∧ F d) fun _ => S) :
    (rules κ C).Triple p F (create >>= fun tmp => .deferring (cleanup tmp) (body tmp)) F
      fun _ => S := by
  refine hcreate.bind fun tmp => ?_
  have hF' : (rules κ C).Persistent fun d => Owned p tmp.1 d ∧ F d :=
    fun _ _ _ hinv hg hd => ⟨hg.owner hd.1, hF hinv hg hd.2⟩
  refine ((hbody tmp.1 tmp.2 hF').pre fun d _ hd =>
    ⟨⟨hd.2.owner, hd.1⟩, hd.2⟩).deferring fun r => ?_
  have hlasting : C.Lasting (Query.Answer (κ := κ)) GoError p (Protocol.Returns F (fun _ => S) r) :=
    (lasting_of_persistent hF).and (.forall fun _ => .forall fun _ => hS)
  exact (valid_cleanup hlasting).pre fun d _ hd => ⟨hd.1.1, hd.1.2, hd.2⟩

/-- The end of `writeFile`. -/
theorem triple_syncDirectory (hF : (rules κ C).Persistent F) (hP : (rules κ C).Stable p P)
    (hS : (rules κ C).Stable p S) (hsync : ∀ d, C.Inv d → F d → P d → S d.settle) :
    (rules κ C).Triple p (fun d => F d ∧ P d)
      (do DiskM.openDir; Proc.deferring closeDirectory DiskM.syncDir) F fun _ => S := by
  refine (Protocol.Triple.of_valid (valid_openDir (hF.stable.and hP))).seq ?_
  refine (triple_syncDir hF hS (P := fun d => F d ∧ P d) fun d hinv hd =>
    hsync d hinv hd.1 hd.2).pre ?_ |>.deferring fun r => ?_
  · exact fun d _ hd => ⟨hd.1, hd⟩
  · exact valid_closeDirectory (Protocol.stable_returns hF.stable (fun _ => hS) r)

/-- `writeFile` replaces the file with the name. -/
theorem triple_writeFile_replace (hC : Governs C) (hF : (rules κ C).Persistent F)
    (hS : C.Lasting (Query.Answer (κ := κ)) GoError p S)
    (hsync : ∀ d, C.Inv d → F d → S d.settle) {mode : Nat} (hname : name.head? ≠ some dot)
    (hreplaces : C.replaces p name) (hcontent : C.content name data) :
    (rules κ C).Triple p F (writeFile name data mode false) F fun _ => S := by
  refine triple_withTemp hF hS (triple_createTemp hF (hC.hidden_temp rfl)) fun t i hF' => ?_
  refine (triple_chmod hF').seq ?_
  refine (triple_write hF').seq ?_
  refine (triple_sync hF').seq ?_
  refine (Protocol.Triple.of_valid (valid_close (hF'.stable.and stable_temp))).seq ?_
  refine (triple_rename hF' (hC.visible hname) hreplaces rfl hcontent).seq ?_
  refine (triple_syncDirectory hF' Protocol.stable_true hS.stable fun d hinv hd _ =>
    hsync d hinv hd.2).pre fun d _ hd => ⟨hd.1, trivial⟩

/-- The bundle of the root, with the data and on the disk for good. -/
def Holds (data : GoString) (d : Disk ι) : Prop :=
  ∃ i f, Settled rootBundleName i f d ∧ f.data = data

theorem Governs.persistent_holds (hC : Governs C) : (rules κ C).Persistent (Holds data) := by
  rintro q d d' hinv hg ⟨i, f, hd, hdata⟩
  exact ⟨i, f, hd.guar hinv hg (hC.visible (by decide)) (hC.root q), hdata⟩

/-- `writeFile` creates the bundle of the root. -/
theorem triple_writeFile_root (hC : Governs C) (hF : (rules κ C).Persistent F) {mode : Nat}
    (hcontent : C.content rootBundleName data) :
    (rules κ C).Triple p F (writeFile rootBundleName data mode true) F fun _ => Holds data := by
  have hvisible : ¬ C.hidden rootBundleName := hC.visible (by decide)
  refine triple_withTemp hF (lasting_of_persistent hC.persistent_holds)
    (triple_createTemp hF (hC.hidden_temp rfl)) fun t i hF' => ?_
  refine (triple_chmod hF').seq ?_
  refine (triple_write hF').seq ?_
  refine (triple_sync hF').seq ?_
  refine (Protocol.Triple.of_valid (valid_close (hF'.stable.and stable_temp))).seq ?_
  refine (triple_link hF' hvisible (fun q _ => hC.root q) rfl hcontent).seq ?_
  refine triple_syncDirectory hF' ?_ hC.persistent_holds.stable ?_
  · exact fun q _ _ _ hinv hg hd => hd.guar hinv hg hvisible (hC.root q)
  · exact fun d hinv _ hd => ⟨i, _, hd.settle hinv hvisible, rfl⟩

/-! ## The manager -/

theorem triple_idle {α : Type} {m : PkiM κ α} (h : (rules κ C).Valid p m.run F fun _ => F) :
    (rules κ C).Triple p F m F fun _ _ => True :=
  h.post fun _ _ _ hd => ⟨hd, fun _ _ => trivial⟩

theorem triple_ask {α : Type} {q : Query κ} {f : q.Answer → Except GoError α}
    (hF : (rules κ C).Persistent F) :
    (rules κ C).Triple p F (PkiM.ask q >>= fun r => .ofExcept (f r)) F fun _ _ => True := by
  refine (triple_idle (valid_ask hF.stable)).bind fun r => ?_
  exact (Protocol.Triple.ofExcept fun _ _ hd => hd.1).post (fun _ _ hd => hd) fun _ _ _ _ => trivial

variable {lib : Library κ} {directory : GoString}

/-- Reading a bundle changes nothing. -/
theorem triple_readBundle (hF : (rules κ C).Persistent F) :
    (rules κ C).Triple p F (readBundle lib directory name) F fun _ _ => True := by
  refine (triple_idle (valid_lstat hF.stable)).bind fun info => ?_
  refine (Protocol.Triple.reject fun _ _ hd => hd.1).bind fun _ => ?_
  refine (Protocol.Triple.reject fun _ _ hd => hd.1).bind fun _ => ?_
  refine ((triple_idle (valid_readFile hF.stable)).pre fun _ _ hd => hd.1).bind fun data => ?_
  exact (Protocol.Triple.ofExcept fun _ _ hd => hd.1).post (fun _ _ hd => hd) fun _ _ _ _ => trivial

/-- The root is the one in the bundle. -/
def Loaded (lib : Library κ) (root : κ) (d : Disk ι) : Prop :=
  ∃ i f, Named rootBundleName i f d ∧ lib.parseBundle f.data = .ok root

/-- The root is the one in the bundle, which is on the disk for good. -/
def Kept (lib : Library κ) (root : κ) (d : Disk ι) : Prop :=
  ∃ data, Holds data d ∧ lib.parseBundle data = .ok root

/-- A root that was read stays readable. -/
theorem Governs.persistent_loaded (hC : Governs C) {root : κ} :
    (rules κ C).Persistent (Loaded lib root) := by
  rintro q d d' hinv hg ⟨i, f, hd, hroot⟩
  exact ⟨i, f, hd.guar hinv hg (hC.visible (by decide)) (hC.root q), hroot⟩

theorem Governs.persistent_kept (hC : Governs C) {root : κ} :
    (rules κ C).Persistent (Kept lib root) := by
  rintro q d d' hinv hg ⟨data, hd, hroot⟩
  exact ⟨data, hC.persistent_holds (κ := κ) hinv hg hd, hroot⟩

/-- The root's bundle that was read is the one in the directory. -/
theorem triple_readBundle_root (hC : Governs C) :
    (rules κ C).Triple p P (readBundle lib directory rootBundleName) (fun _ => True)
      (Loaded lib) := by
  have htrue : (rules κ C).Persistent fun _ => True := Protocol.persistent_true
  refine ((triple_idle (valid_lstat htrue.stable)).pre fun _ _ _ => trivial).bind fun info => ?_
  refine (Protocol.Triple.reject fun _ _ _ => trivial).bind fun _ => ?_
  refine (Protocol.Triple.reject fun _ _ _ => trivial).bind fun _ => ?_
  refine (triple_readFile (hC.visible (by decide)) hC.root).bind fun data => ?_
  refine (Protocol.Triple.ofExcept fun _ _ _ => trivial).post (fun _ _ hd => hd) ?_
  rintro root d hinv ⟨⟨-, i, f, hd, rfl⟩, hroot⟩
  exact ⟨i, f, hd, hroot⟩

theorem triple_issue {template : Template} {parent : Option κ} (hF : (rules κ C).Persistent F) :
    (rules κ C).Triple p F (issue lib template parent) F
      fun r _ => lib.parseBundle r.2 = .ok r.1 := by
  refine (triple_ask hF).bind fun bundle => ?_
  refine (Protocol.Triple.ofExcept fun _ _ hd => hd.1).bind fun cert => ?_
  exact Protocol.Triple.pure fun d _ hd => ⟨hd.1, hd.2.2⟩

/-- A new root is on the disk for good. -/
theorem triple_createRoot (hC : Governs C) (hfresh : ∀ name, ¬ C.present name) :
    (rules κ C).Triple p P (createRoot lib) (fun _ => True) (Kept lib) := by
  have htrue : (rules κ C).Persistent fun _ => True := Protocol.persistent_true
  refine ((triple_idle (valid_ask htrue.stable)).pre fun _ _ _ => trivial).bind fun now => ?_
  refine ((triple_issue htrue).pre fun _ _ _ => trivial).bind fun r => .assume fun hr => ?_
  refine (triple_wrap (triple_writeFile_root hC htrue (hC.fresh hfresh r.2))).bind fun _ => ?_
  exact Protocol.Triple.pure fun d _ hd => ⟨trivial, r.2, hd.2, hr⟩

theorem Kept.loaded {root : κ} {d : Disk ι} (hinv : C.Inv d) (h : Kept lib root d) :
    Loaded lib root d := by
  obtain ⟨data, ⟨i, f, hd, rfl⟩, hroot⟩ := h
  exact ⟨i, f, hd.named hinv, hroot⟩

theorem Loaded.settle {root : κ} {d : Disk ι} (hC : Governs C) (hinv : C.Inv d)
    (h : Loaded lib root d) : Kept lib root d.settle := by
  obtain ⟨i, f, hd, hroot⟩ := h
  exact ⟨f.data, ⟨i, f, hd.settle hinv (hC.visible (by decide)), rfl⟩, hroot⟩

/-- `open` creates a root only in a directory that has no files. -/
theorem triple_loadRoot (hC : Governs C) :
    (rules κ C).Triple p P (loadRoot lib directory) (fun _ => True) (Loaded lib) := by
  refine (triple_readBundle_root hC).attempt.bind fun r => ?_
  cases r with
  | ok root => exact Protocol.Triple.pure fun d _ hd => ⟨trivial, hd.2.2 root rfl⟩
  | error err =>
    dsimp only
    split
    · refine (triple_wrap triple_readDir).bind fun entries => .assume fun hpresent => ?_
      refine (Protocol.Triple.reject fun _ _ _ => trivial).bind fun _ => ?_
      refine Protocol.Triple.pre (P := fun d => True ∧ _) (.assume fun hnone => ?_)
        fun _ _ hd => ⟨trivial, hd.2.2⟩
      refine (triple_wrap (triple_createRoot hC (hpresent ?_))).post (fun _ _ hd => hd)
        fun _ _ => Kept.loaded
      simpa using hnone
    · exact Protocol.Triple.throw fun _ _ _ => trivial

theorem triple_validateRoot {m : Opened κ} {now : Int} (hF : ∀ d, P d → F d) :
    (rules κ C).Triple p P (validateRoot lib m now) F fun _ => P := by
  unfold validateRoot
  split
  · exact Protocol.Triple.throw fun d _ hd => hF d hd
  · exact Protocol.Triple.pure fun d _ hd => ⟨hF d hd, hd⟩

/-- Loading a certificate changes nothing. -/
theorem triple_loadCurrent {m : Opened κ} {svc : Service} (hF : (rules κ C).Persistent F) :
    (rules κ C).Triple p F (loadCurrent lib m svc) F fun _ _ => True := by
  unfold loadCurrent
  split
  · exact Protocol.Triple.pure fun d _ hd => ⟨hd, trivial⟩
  refine (triple_readBundle hF).attempt.bind fun r => ?_
  cases r with
  | ok cert =>
    dsimp only
    split
    · exact Protocol.Triple.throw fun d _ hd => hd.1
    · exact Protocol.Triple.pure fun d _ hd => ⟨hd.1, trivial⟩
  | error err =>
    dsimp only
    split
    · exact Protocol.Triple.pure fun d _ hd => ⟨hd.1, trivial⟩
    · exact Protocol.Triple.throw fun d _ hd => hd.1

/-- A new service certificate is written, and nothing else changes. -/
theorem triple_issueLeaf (hC : Governs C) {m : Opened κ} {svc : Service} {now : Int}
    (hF : (rules κ C).Persistent F) :
    (rules κ C).Triple p F (issueLeaf lib m svc now) F fun _ _ => True := by
  refine (triple_issue hF).bind fun r => ?_
  have hvisible : svc.bundleName.head? ≠ some dot := by cases svc <;> decide
  have hwrite : (rules κ C).Triple p F (writeFile svc.bundleName r.2 0o600 false) F
      fun _ _ => True :=
    triple_writeFile_replace hC hF (lasting_of_persistent Protocol.persistent_true)
      (fun _ _ _ => trivial) hvisible ((hC.replaces p).2 svc) ((hC.content r.2).2 svc)
  refine ((triple_wrap hwrite).pre fun d _ hd => hd.1).bind fun _ => ?_
  exact Protocol.Triple.pure fun d _ hd => ⟨hd.1, trivial⟩

/-- The manager keeps its root. -/
theorem triple_serviceCertificate (hC : Governs C) {m : Opened κ} {svc : Service}
    (hF : (rules κ C).Persistent F) :
    (rules κ C).Triple p F (serviceCertificate lib m svc) F fun m' _ => m'.root = m.root := by
  refine (triple_idle (valid_ask hF.stable)).bind fun now => ?_
  refine (triple_validateRoot fun d hd => hd.1).bind fun _ => ?_
  refine ((triple_loadCurrent hF).pre fun d _ hd => hd.1).bind fun current => ?_
  split
  · refine ((triple_wrap (triple_issueLeaf hC hF)).pre fun d _ hd => hd.1).bind fun cert => ?_
    exact Protocol.Triple.pure fun d _ hd => ⟨hd.1, rfl⟩
  · exact Protocol.Triple.pure fun d _ hd => ⟨hd.1, rfl⟩

/-- The root of an authority that was opened is on the disk for good: `open` created it there, or it
exported its certificate and synced the directory then. -/
theorem triple_openManager (hC : Governs C) {cfg : Config} :
    (rules κ C).Triple p P (openManager lib cfg) (fun _ => True)
      fun m => Kept lib m.root := by
  have htrue : (rules κ C).Persistent fun _ => True := Protocol.persistent_true
  refine (Protocol.Triple.ofExcept fun _ _ _ => trivial).bind fun r => ?_
  refine ((triple_wrap (triple_ask htrue)).pre fun _ _ _ => trivial).bind fun _ => ?_
  refine ((triple_wrap (triple_ask htrue)).pre fun _ _ _ => trivial).bind fun isDir => ?_
  refine (Protocol.Triple.reject fun _ _ _ => trivial).bind fun _ => ?_
  refine ((triple_wrap (triple_ask htrue)).pre fun _ _ _ => trivial).bind fun _ => ?_
  refine (triple_loadRoot hC).bind fun root => ?_
  -- from here on the directory has the root, in the end on the disk
  have hloaded : (rules κ C).Persistent (Loaded lib root) := hC.persistent_loaded
  have hkept : (rules κ C).Persistent (Kept lib root) := hC.persistent_kept
  have hexport : (rules κ C).Triple p (Loaded lib root)
      (writeFile rootPublicName (lib.certificatePEM root) 0o644 false) (Loaded lib root)
      fun _ => Kept lib root :=
    triple_writeFile_replace hC hloaded (lasting_of_persistent hkept)
      (fun d hinv hd => hd.settle hC hinv) (by decide) (hC.replaces p).1 (hC.content _).1
  refine Protocol.Triple.post (F := Loaded lib root) (Protocol.Triple.pre (P := Loaded lib root) ?_
    fun _ _ hd => hd.2) (fun _ _ _ => trivial) fun _ _ _ hd => hd
  refine (triple_idle (valid_ask hloaded.stable)).bind fun now => ?_
  refine (triple_validateRoot fun d hd => hd.1).bind fun _ => ?_
  refine ((triple_wrap hexport).pre fun d _ hd => hd.1).bind fun _ => ?_
  refine Protocol.Valid.post (((triple_serviceCertificate hC hkept).pre fun d _ hd => hd.2)) ?_
  rintro m d hinv ⟨hd, hroot⟩
  refine ⟨hd.loaded hinv, fun m' hm' => ?_⟩
  have hm : m'.root = root := hroot m' hm'
  change Kept lib m'.root d
  rw [hm]
  exact hd

/-! ## The other files -/

/-- The file has the data, on the disk for good. -/
def Committed (name data : GoString) (d : Disk ι) : Prop :=
  ∃ i f, Settled name i f d ∧ f.data = data

theorem lasting_committed (hC : Governs C) (hname : name.head? ≠ some dot)
    (hkept : ∀ q ≠ p, ¬ C.replaces q name) :
    C.Lasting (Query.Answer (κ := κ)) GoError p (Committed name data) :=
  .exists fun _ => .exists fun _ => (lasting_settled (hC.visible hname) hkept).and
    (lasting_of_persistent fun _ _ _ _ _ hd => hd)

/-- After `commit` its file is on the disk for good, if only its process replaces the file. -/
theorem triple_commit (hC : Governs C) (hF : (rules κ C).Persistent F)
    (hname : name.head? ≠ some dot) (hreplaces : C.replaces p name)
    (hcontent : C.content name data) :
    (rules κ C).Triple p F (commit name data) F
      fun _ d => (∀ q ≠ p, ¬ C.replaces q name) → Committed name data d := by
  have hvisible := hC.visible hname
  have hS : C.Lasting (Query.Answer (κ := κ)) GoError p
      fun d => (∀ q ≠ p, ¬ C.replaces q name) → Committed name data d :=
    .forall fun hkept => lasting_committed hC hname hkept
  refine (Protocol.Triple.reject fun _ _ hd => hd).bind fun _ => ?_
  refine ((triple_wrap (triple_ask hF)).pre fun d _ hd => hd.1).bind fun _ => ?_
  refine Protocol.Triple.pre ?_ fun d _ hd => hd.1
  refine triple_withTemp hF hS (triple_wrap (triple_createTemp hF (hC.hidden_temp rfl)))
    fun t i hF' => ?_
  refine (triple_wrap (triple_write hF')).seq ?_
  refine (triple_wrap (triple_sync hF')).seq ?_
  refine (triple_wrap (.of_valid (valid_close (hF'.stable.and stable_temp)))).seq ?_
  refine (triple_wrap (triple_rename hF' hvisible hreplaces rfl hcontent)).seq ?_
  refine (triple_wrap (.of_valid (valid_openDir (hF'.stable.and ?_)))).seq ?_
  · exact .forall fun hkept q d d' hq hinv hg hd => hd.guar hinv hg hvisible (hkept q hq)
  refine (triple_wrap (triple_syncDir hF' hS.stable ?_)).deferring fun r =>
    valid_closeDirectory (Protocol.stable_returns hF'.stable (fun _ => hS.stable) r)
  exact fun d hinv hd hkept => ⟨i, _, (hd hkept).settle hinv hvisible, rfl⟩

/-- The lease file is published whole. -/
theorem triple_persist (hC : Governs C) (hF : (rules κ C).Persistent F)
    (hname : name.head? ≠ some dot) (hreplaces : C.replaces p name)
    (hcontent : C.content name data) :
    (rules κ C).Triple p F (persist name data) F fun _ _ => True := by
  refine (triple_wrap (triple_ask hF)).bind fun _ => ?_
  refine Protocol.Triple.pre ?_ fun d _ hd => hd.1
  refine triple_withTemp hF (lasting_of_persistent Protocol.persistent_true)
    (triple_wrap (triple_createTemp hF (hC.hidden_temp rfl))) fun t i hF' => ?_
  refine (triple_wrap (triple_write hF')).seq ?_
  refine (triple_wrap (triple_sync hF')).seq ?_
  refine (triple_wrap (.of_valid (valid_close (hF'.stable.and stable_temp)))).seq ?_
  exact (triple_wrap (triple_rename hF' (hC.visible hname) hreplaces rfl hcontent)).post
    (fun _ _ hd => hd) fun _ _ _ _ => trivial

end

end InfraBox.Pki
