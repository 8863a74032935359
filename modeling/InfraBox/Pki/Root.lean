import InfraBox.Pki.Processes

/-!
# The identity of the authority

Any number of processes may use the directory of the authority at a time: they open the authority,
renew service certificates and write the other files that are there. Their calls interleave in any
order, each may fail, a process may be killed at any point, and the power may fail. Still everyone
who opens the authority has the same root (`root_agreement`), a bundle that was there stays as it
was (`root_bundle_kept`), and a directory that lost its bundle gets no new one
(`missing_root_refused`). The other files are never torn (`state_file_whole`), and a committed state
is there after every power failure (`commit_durable`).

The directory itself is taken to be on the disk: `open` does not sync the one above it.
-/

namespace InfraBox.Pki

open Publication

variable {ι κ : Type} {lib : Library κ}

/-- What processes do in the directory. -/
inductive Job (κ : Type) where
  | openManager (cfg : Config)
  | serviceCertificate (m : Opened κ) (svc : Service)
  | commit (file : StateFile) (data : GoString)
  | persist (file : StateFile) (data : GoString)

/-- The manager that a job ends with, if it has one. -/
abbrev Outcome (κ : Type) : Type := Except GoError (Option (Opened κ))

def Job.program (lib : Library κ) :
    Job κ → Proc (DiskOp (Query κ)) (DiskOp.Res Query.Answer GoError) (Outcome κ)
  | .openManager cfg => (Proc.mapOk some (Pki.openManager lib cfg)).run
  | .serviceCertificate m svc => (Proc.mapOk some (Pki.serviceCertificate lib m svc)).run
  | .commit file data => (Proc.mapOk (fun _ => none) (Pki.commit file.name data)).run
  | .persist file data => (Proc.mapOk (fun _ => none) (Pki.persist file.name data)).run

/-- The file that a job replaces, and its new contents. -/
def Job.writes : Job κ → Option (GoString × GoString)
  | .commit file data => some (file.name, data)
  | .persist file data => some (file.name, data)
  | _ => none

/-- The processes, and the directory that they share. -/
abbrev Processes (ι κ : Type) : Type :=
  Pool ι (Job κ) (DiskOp (Query κ)) (DiskOp.Res Query.Answer GoError) (Disk ι) (Outcome κ)

abbrev ProcessEvent (ι κ : Type) : Type := Pool.Event ι (Job κ) (Outcome κ)

def ProcessStep [DecidableEq ι] (lib : Library κ) :
    Processes ι κ → ProcessEvent ι κ → Processes ι κ → Prop :=
  Pool.Step (Disk.machine ι Query.Answer GoError) (Job.program lib)

/-- A directory that no process uses and whose entries are on the disk. So are the contents of its
files but those of temporary ones, which a process that was killed may have left. -/
structure AtRest (d : Disk ι) : Prop where
  stored : ∀ name, d.stored name = [d.entries name]
  files : ∀ {name i}, name.head? ≠ some dot → d.entries name = some i →
    ∃ f, d.files i = some f ∧ f.synced = true
  owner : ∀ name, d.owner name = none

/-- No process runs. -/
def idle (d : Disk ι) : Processes ι κ := ⟨d, fun _ => none⟩

/-! ## The jobs keep to the protocol -/

section
variable {C : Publication ι} {p : ι} {j : Job κ} {d : Disk ι} {s' : Processes ι κ}
  {tr : Trace (Processes ι κ) (ProcessEvent ι κ)}
  {t : Transition (Processes ι κ) (ProcessEvent ι κ)}

/-- What holds after a job. -/
def Job.Post (lib : Library κ) (C : Publication ι) (p : ι) : Job κ → Outcome κ → Disk ι → Prop
  | .openManager _, r, d => ∀ m, r = .ok (some m) → Kept lib m.root d
  | .commit file data, r, d => ∀ m, r = .ok m → (∀ q ≠ p, ¬ C.replaces q file.name) →
      Committed file.name data d
  | _, _, _ => True

theorem valid_mapOk {α : Type} {m : PkiM κ α} {f : α → Option (Opened κ)} {R : α → Disk ι → Prop}
    {Q : Outcome κ → Disk ι → Prop} (h : (rules κ C).Triple p (fun _ => True) m (fun _ => True) R)
    (hQ : ∀ r d, (∀ b, r = .ok b → ∃ a, f a = b ∧ R a d) → Q r d) :
    (rules κ C).Valid p (Proc.mapOk f m).run (fun _ => True) Q :=
  Protocol.Valid.post h.mapOk fun r d _ hd => hQ r d hd.2

/-- Every job keeps to the protocol. -/
theorem Job.valid (hC : Governs C)
    (hj : ∀ name data, j.writes = some (name, data) → C.replaces p name ∧ C.content name data) :
    (rules κ C).Valid p (j.program lib) (fun _ => True) (j.Post lib C p) := by
  cases j with
  | openManager cfg =>
    refine valid_mapOk (triple_openManager hC) fun r d hd m hm => ?_
    obtain ⟨m', hm', hkept⟩ := hd _ hm
    cases hm'
    exact hkept
  | serviceCertificate m svc =>
    exact valid_mapOk (triple_serviceCertificate hC Protocol.persistent_true) fun _ _ _ => trivial
  | commit file data =>
    obtain ⟨hreplaces, hcontent⟩ := hj _ _ rfl
    refine valid_mapOk (triple_commit hC Protocol.persistent_true file.visible hreplaces hcontent)
      fun r d hd m hm => ?_
    obtain ⟨-, -, hcommitted⟩ := hd m hm
    exact hcommitted
  | persist file data =>
    obtain ⟨hreplaces, hcontent⟩ := hj _ _ rfl
    exact valid_mapOk (triple_persist hC Protocol.persistent_true file.visible hreplaces hcontent)
      fun _ _ _ => trivial

/-- The jobs that a run starts may write what they write. -/
def Permits (C : Publication ι) (tr : Trace (Processes ι κ) (ProcessEvent ι κ)) :
    Prop :=
  ∀ t ∈ tr, ∀ p j, t.label = .spawn p j → ∀ name data, j.writes = some (name, data) →
    C.replaces p name ∧ C.content name data

/-- A sound pool of processes. -/
abbrev Proper (lib : Library κ) (C : Publication ι) : Processes ι κ → Prop :=
  Pool.Sound (rules κ C) fun p j => Job.Post lib C p j

theorem proper_idle (hinv : C.Inv d) : Proper lib C (idle d) :=
  ⟨hinv, fun _ _ _ hp => by cases hp⟩

theorem Permits.valid (h : Permits C tr) (hC : Governs C) (t) (ht : t ∈ tr) (p : ι) (j : Job κ)
    (he : t.label = .spawn p j) :
    (rules κ C).Valid p (j.program lib) (fun _ => True) (j.Post lib C p) :=
  Job.valid hC (h t ht p j he)

/-- A directory at rest has the invariant. -/
theorem AtRest.inv (h : AtRest d) (hC : Governs C)
    (hcontent : ∀ name i f, ¬ C.hidden name → d.entries name = some i → d.files i = some f →
      C.content name f.data)
    (hpresent : ∀ name, C.present name → d.entries name ≠ none) : C.Inv d where
  hidden {name p} hp := by
    rw [h.owner] at hp
    cases hp
  current name := by
    rw [h.stored]
    exact List.mem_singleton.2 rfl
  whole {name i} hvisible hi := by
    rw [h.stored, List.mem_singleton] at hi
    obtain ⟨f, hf, hsynced⟩ := h.files (fun hdot => hvisible ((hC.hidden _).2 hdot)) hi.symm
    exact ⟨f, hf, hsynced, hcontent name i f hvisible hi.symm hf⟩
  unique _ _ hv := by
    rw [h.stored, List.mem_singleton] at hv
    exact .inr hv
  present {name} hname := by
    rw [h.stored, List.mem_singleton]
    exact ⟨Ne.symm (hpresent name hname), h.owner name⟩

theorem Kept.powerFailure {root : κ} {d d' : Disk ι} (hd : d.PowerFailure d')
    (h : Kept lib root d) : Kept lib root d' := by
  obtain ⟨data, ⟨i, f, hsettled, hdata⟩, hroot⟩ := h
  exact ⟨data, ⟨i, f, hsettled.powerFailure hd, hdata⟩, hroot⟩

/-- The disk has one bundle of the root at most. -/
theorem Kept.parse {root : κ} {i : Inode} {f : File ι} (h : Kept lib root d)
    (hf : Settled rootBundleName i f d) : lib.parseBundle f.data = .ok root := by
  obtain ⟨_, ⟨j, g, hg, rfl⟩, hroot⟩ := h
  rw [hf.unique hg]
  exact hroot

variable [DecidableEq ι] {s : Processes ι κ}

/-- Runs keep what no process and no power failure ends. -/
theorem Proper.keeps (h : Proper lib C s) (hC : Governs C) (hrun : Run (ProcessStep lib) s tr s')
    (hpermits : Permits C tr) {K : Disk ι → Prop} (hK : (rules κ C).Persistent K)
    (hcrash : ∀ d d', d.PowerFailure d' → K d → K d') (hs : K s.shared) : K s'.shared := by
  refine Pool.Sound.keeps h hrun (hpermits.valid hC) hs fun t ht hinv hkeeps hk => ?_
  generalize t.label = e at hkeeps
  generalize t.pre.shared = d at hinv hkeeps hk
  generalize t.post.shared = d' at hkeeps
  cases hkeeps with
  | spawn | finish | kill => exact hk
  | call hg => exact hK hinv hg hk
  | crash hd => exact hcrash d d' hd hk

/-- The root of everyone who opened the authority is on the disk at the end of a run. -/
theorem Proper.opened (h : Proper lib C s) (hC : Governs C) (hrun : Run (ProcessStep lib) s tr s')
    (hpermits : Permits C tr) (ht : t ∈ tr) {cfg : Config} {m : Opened κ}
    (he : t.label = .finish p (.openManager cfg) (.ok (some m))) : Kept lib m.root s'.shared := by
  obtain ⟨before, after, rfl, hbefore, hstep, hafter⟩ := hrun.mem_inv ht
  have hkept : Kept lib m.root t.post.shared :=
    Pool.Sound.finished h hrun (hpermits.valid hC) ht he m rfl
  have hpre : Proper lib C t.pre := Pool.Sound.run h hbefore fun u hu =>
    hpermits.valid hC u (List.mem_append_left _ hu)
  have hpost : Proper lib C t.post := (Pool.Sound.step hpre hstep (hpermits.valid hC t ht)).1
  refine hpost.keeps hC hafter (fun u hu => hpermits u ?_) hC.persistent_kept
    (fun _ _ => Kept.powerFailure) hkept
  exact List.mem_append_right _ (List.mem_cons_of_mem _ hu)

end

/-! ## A directory with its processes -/

/-- A library to which a bundle is its own key pair. -/
def sampleLibrary : Library GoString where
  parseBundle data := .ok data
  root _ := sampleAuthority.root
  leaf _ := sampleAuthority.leafAt .gateway (24 * hour) 1
  certificatePEM := id
  x509 := sampleAuthority.x509
  formatTime := sampleAuthority.formatTime
  addYears now n := now + n * 365 * 24 * hour

def sampleReply : (q : Query GoString) → q.Answer
  | .mkdirAll => Except.ok ()
  | .lstatDirectory => Except.ok true
  | .chmodDirectory => Except.ok ()
  | .now => (24 * hour : Int)
  | .createBundle template _ => Except.ok template.commonName

def sampleConfig : Config := ⟨str "pki", str "lan", .v4 0xC0000201⟩

/-- A directory with at most one file; a temporary one is not synced. -/
def sampleDisk (file : Option (GoString × GoString)) : Disk Nat where
  directory := match file with
    | some (name, _) => FinMap.empty.set name 0
    | none => FinMap.empty
  stored name := match file with
    | some (n, _) => if name = n then [some 0] else [none]
    | none => [none]
  files i := match file with
    | some (name, data) =>
      if i = 0 then some ⟨data, 0o600, true, name.head? ≠ some dot, none⟩ else none
    | none => none
  owner _ := none

/-- A directory with one file at most. -/
theorem atRest_sampleDisk (file : Option (GoString × GoString)) : AtRest (sampleDisk file) where
  stored name := by
    cases file with
    | none => rfl
    | some file =>
      by_cases hname : name = file.1
      · simp [sampleDisk, Disk.entries, hname]
      · simp [sampleDisk, Disk.entries, hname]
  files {name i} hname h := by
    cases file with
    | none => cases h
    | some file =>
      obtain ⟨rfl, rfl⟩ | ⟨-, h⟩ := FinMap.get_set_eq_some.1 h
      · exact ⟨_, rfl, decide_eq_true hname⟩
      · cases h
  owner _ := rfl

/-- A job on a directory that ends with a manager. -/
def Outcome.manager : Outcome κ → Option (Opened κ)
  | .ok m => m
  | .error _ => none

theorem Outcome.eq_of_manager {r : Outcome κ} (h : r.manager.isSome = true) :
    ∃ m, r = .ok (some m) := by
  obtain ⟨m, hm⟩ := Option.isSome_iff_exists.1 h
  cases r with
  | ok m' => exact ⟨m, congrArg _ hm⟩
  | error err => cases hm

/-- What a job does to a directory when no call fails. -/
def sampleRun (n : Nat) (j : Job GoString) (d : Disk Nat) : Outcome GoString × Disk Nat :=
  (j.program sampleLibrary).solo (Disk.answer sampleReply ⟨str "no such file", true⟩ 0) n d

theorem run_sample (n : Nat) (j : Job GoString) (d : Disk Nat) :
    ∃ before t, t.label = .finish 0 j (sampleRun n j d).1 ∧
      (∀ u ∈ before, u.label = .spawn 0 j ∨ u.label = .call 0) ∧
      Run (ProcessStep sampleLibrary) (idle d) (before ++ [t]) (idle (sampleRun n j d).2) :=
  Pool.run_job (Job.program sampleLibrary) j (fun n op d => Disk.exec_answer _ _ 0 n op d) n d

/-! ## One root -/

theorem Job.writes_ne {j : Job κ} {name data : GoString} (h : j.writes = some (name, data)) :
    name ∉ [rootBundleName, leafBundleName, ldapBundleName, rootPublicName] := by
  cases j with
  | openManager | serviceCertificate => cases h
  | commit file data | persist file data =>
    cases h
    exact file.apart

theorem bundleName_ne (svc : Service) : svc.bundleName ≠ rootBundleName := by
  cases svc <;> decide

section
variable {d : Disk ι} {s' : Processes ι κ} {p q : ι} {cfg cfg' : Config} {m m' : Opened κ}
  {tr : Trace (Processes ι κ) (ProcessEvent ι κ)}
  {t u : Transition (Processes ι κ) (ProcessEvent ι κ)}

/-- The rules of the directory: every name but that of the root's bundle may be replaced. -/
def directoryRules (content : GoString → GoString → Prop) (present : GoString → Prop) :
    Publication ι where
  hidden name := name.head? = some dot
  replaces _ name := name ≠ rootBundleName
  content := content
  present := present

/-- Rules for the whole directory. -/
theorem governs_directoryRules {content : GoString → GoString → Prop} {present : GoString → Prop}
    (hcontent : ∀ name ∈ [leafBundleName, ldapBundleName, rootPublicName],
      ∀ data, content name data)
    (hfresh : (∀ name, ¬ present name) → ∀ data, content rootBundleName data) :
    Governs (directoryRules (ι := ι) content present) where
  hidden _ := .rfl
  root _ h := h rfl
  replaces _ := ⟨show rootPublicName ≠ rootBundleName by decide, bundleName_ne⟩
  content data := ⟨hcontent _ (by simp) data, fun svc =>
    hcontent _ (by cases svc <;> simp [Service.bundleName]) data⟩
  fresh := hfresh

theorem permits_directoryRules {content : GoString → GoString → Prop} {present : GoString → Prop}
    (h : ∀ t ∈ tr, ∀ p j, t.label = .spawn p j → ∀ name data, j.writes = some (name, data) →
      content name data) : Permits (directoryRules content present) tr := by
  refine fun t ht p j he name data hw => ⟨fun heq => ?_, h t ht p j he name data hw⟩
  exact Job.writes_ne hw (by simp [heq])

/-- The rules of a directory in which only one process replaces a file. -/
def soleRules (p : ι) (file : StateFile) : Publication ι where
  hidden name := name.head? = some dot
  replaces q name := name ≠ rootBundleName ∧ (name = file.name → q = p)
  content _ _ := True
  present _ := False

/-- Rules under which one process writes a file. -/
theorem governs_soleRules {file : StateFile} : Governs (soleRules p file) where
  hidden _ := .rfl
  root _ h := h.1 rfl
  replaces q := by
    refine ⟨⟨show rootPublicName ≠ rootBundleName by decide, fun heq => ?_⟩,
      fun svc => ⟨bundleName_ne svc, fun heq => ?_⟩⟩
    · exact absurd (heq ▸ file.apart) (by simp)
    · exact absurd (heq ▸ file.apart) (by cases svc <;> simp [Service.bundleName])
  content _ := ⟨trivial, fun _ => trivial⟩
  fresh _ _ := trivial

/-- The other processes and power failures leave a committed file as it is. -/
theorem Committed.keeps {C : Publication ι} {file : StateFile} {data : GoString} {d d' : Disk ι}
    {e : ProcessEvent ι κ} (hC : Governs C) (hkept : ∀ q ≠ p, ¬ C.replaces q file.name)
    (hinv : C.Inv d) (hkeeps : Pool.Keeps (rules κ C) (fun p j => Job.Post lib C p j) d e d')
    (he : e ≠ .call p) (h : Committed file.name data d) : Committed file.name data d' := by
  obtain ⟨i, f, hsettled, hdata⟩ := h
  refine ⟨i, f, ?_, hdata⟩
  cases hkeeps with
  | spawn | finish | kill => exact hsettled
  | @call q _ hg =>
    exact hsettled.guar hinv hg (hC.visible file.visible) (hkept q fun heq => he (heq ▸ rfl))
  | crash hd => exact hsettled.powerFailure hd

variable [DecidableEq ι]

/-- All who open the authority have the same root: in any interleaving of any number of processes,
any of whose calls may fail, with processes killed and power failures at any time. -/
theorem root_agreement (hrest : AtRest d) (hrun : Run (ProcessStep lib) (idle d) tr s')
    (ht : t ∈ tr) (hu : u ∈ tr) (het : t.label = .finish p (.openManager cfg) (.ok (some m)))
    (heu : u.label = .finish q (.openManager cfg') (.ok (some m'))) : m.root = m'.root := by
  let C : Publication ι := directoryRules (fun _ _ => True) fun _ => False
  have hC : Governs C := governs_directoryRules (fun _ _ _ => trivial) fun _ _ => trivial
  have hpermits : Permits C tr := permits_directoryRules fun _ _ _ _ _ _ _ _ => trivial
  have hproper : Proper lib C (idle d) :=
    proper_idle (hrest.inv hC (fun _ _ _ _ _ _ => trivial) fun _ h => h.elim)
  have hkept := hproper.opened hC hrun hpermits ht het
  obtain ⟨_, ⟨i, f, hsettled, rfl⟩, hroot⟩ := hproper.opened hC hrun hpermits hu heu
  exact Except.ok.inj ((hkept.parse hsettled).symm.trans hroot)

/-- The first open creates the root, and the next one reads it. -/
theorem root_agreement_created : ∃ tr s' t u m m', AtRest (sampleDisk none) ∧
    Run (ProcessStep sampleLibrary) (idle (sampleDisk none)) tr s' ∧ t ∈ tr ∧ u ∈ tr ∧
      t.label = .finish 0 (.openManager sampleConfig) (.ok (some m)) ∧
      u.label = .finish 0 (.openManager sampleConfig) (.ok (some m')) ∧ m.root = m'.root := by
  obtain ⟨tr, t, ht, -, hrun⟩ := run_sample 0 (.openManager sampleConfig) (sampleDisk none)
  obtain ⟨m, hm⟩ := Outcome.eq_of_manager
    (r := (sampleRun 0 (.openManager sampleConfig) (sampleDisk none)).1) (by decide +kernel)
  obtain ⟨tr', u, hu, -, hrun'⟩ := run_sample 100 (.openManager sampleConfig)
    (sampleRun 0 (.openManager sampleConfig) (sampleDisk none)).2
  obtain ⟨m', hm'⟩ := Outcome.eq_of_manager
    (r := (sampleRun 100 (.openManager sampleConfig)
      (sampleRun 0 (.openManager sampleConfig) (sampleDisk none)).2).1) (by decide +kernel)
  rw [hm] at ht
  rw [hm'] at hu
  have hboth := hrun.append hrun'
  exact ⟨_, _, t, u, m, m', atRest_sampleDisk none, hboth, by simp, by simp, ht, hu,
    root_agreement (atRest_sampleDisk none) hboth (by simp) (by simp) ht hu⟩

/-- The bundle of a root is never changed, whether or not it is one that can be opened; and no other
root is opened while it is there. -/
theorem root_bundle_kept {i : Inode} {f : File ι} (hrest : AtRest d)
    (hi : d.entries rootBundleName = some i) (hf : d.files i = some f)
    (hrun : Run (ProcessStep lib) (idle d) tr s') :
    s'.shared.entries rootBundleName = some i ∧ s'.shared.files i = some f ∧
      ∀ t ∈ tr, ∀ p cfg m, t.label = .finish p (.openManager cfg) (.ok (some m)) →
        lib.parseBundle f.data = .ok m.root := by
  let C : Publication ι := directoryRules (fun _ _ => True) fun _ => False
  have hC : Governs C := governs_directoryRules (fun _ _ _ => trivial) fun _ _ => trivial
  have hpermits : Permits C tr := permits_directoryRules fun _ _ _ _ _ _ _ _ => trivial
  have hproper : Proper lib C (idle d) :=
    proper_idle (hrest.inv hC (fun _ _ _ _ _ _ => trivial) fun _ h => h.elim)
  have hsettled : Settled rootBundleName i f d := by
    obtain ⟨g, hg, hsynced⟩ := hrest.files (by decide) hi
    obtain rfl := Option.some.inj (hg.symm.trans hf)
    exact ⟨(hrest.stored _).trans (by rw [hi]), hf, hsynced⟩
  have hend : Settled rootBundleName i f s'.shared :=
    hproper.keeps hC hrun hpermits
      (fun q _ _ hinv hg hd => hd.guar hinv hg (hC.visible (by decide)) (hC.root q))
      (fun _ _ => Settled.powerFailure) hsettled
  have hinv := (Pool.Sound.run hproper hrun (hpermits.valid hC)).inv
  refine ⟨(hend.named hinv).1, hend.file, fun t ht p cfg m he => ?_⟩
  exact (hproper.opened hC hrun hpermits ht he).parse hend

/-- A bundle that is there is opened, and stays. -/
theorem root_bundle_kept_opened : ∃ tr s' i m,
    Run (ProcessStep sampleLibrary) (idle (sampleDisk (some (rootBundleName, str "root")))) tr s' ∧
      s'.shared.entries rootBundleName = some i ∧ m.root = str "root" ∧
      ∃ t ∈ tr, t.label = .finish 0 (.openManager sampleConfig) (.ok (some m)) := by
  obtain ⟨tr, t, ht, -, hrun⟩ := run_sample 1 (.openManager sampleConfig)
    (sampleDisk (some (rootBundleName, str "root")))
  obtain ⟨m, hm⟩ := Outcome.eq_of_manager
    (r := (sampleRun 1 (.openManager sampleConfig)
      (sampleDisk (some (rootBundleName, str "root")))).1) (by decide +kernel)
  rw [hm] at ht
  obtain ⟨hentry, -, hroot⟩ := root_bundle_kept (i := 0)
    (f := ⟨str "root", 0o600, true, true, none⟩)
    (atRest_sampleDisk _) (by decide +kernel) rfl hrun
  exact ⟨_, _, 0, m, hrun, hentry, (Except.ok.inj (hroot t (by simp) 0 sampleConfig m ht)).symm,
    t, by simp, ht⟩

/-- A directory that has the name of some file on the disk but not that of the root's bundle never
gets a bundle, and is never opened. A temporary file is enough, synced or not. -/
theorem missing_root_refused (name : GoString) (hrest : AtRest d)
    (hroot : d.entries rootBundleName = none) (hname : d.entries name ≠ none)
    (hrun : Run (ProcessStep lib) (idle d) tr s') :
    s'.shared.entries rootBundleName = none ∧
      ∀ t ∈ tr, ∀ p cfg m, t.label ≠ .finish p (.openManager cfg) (.ok (some m)) := by
  let C : Publication ι := directoryRules (fun n _ => n ≠ rootBundleName) (· = name)
  have hne : ∀ n ∈ [leafBundleName, ldapBundleName, rootPublicName], n ≠ rootBundleName := by decide
  have hC : Governs C :=
    governs_directoryRules (fun n hn _ => hne n hn) fun h => absurd rfl (h name)
  have hpermits : Permits C tr := permits_directoryRules fun _ _ _ _ _ name data hw heq =>
    Job.writes_ne hw (by simp [heq])
  have hproper : Proper lib C (idle d) := by
    refine proper_idle (hrest.inv hC ?_ ?_)
    · intro n i f _ hi _ heq
      rw [heq, hroot] at hi
      cases hi
    · intro n hn
      have heq : n = name := hn
      rw [heq]
      exact hname
  -- by the protocol nothing may be published under the name
  have hinv := (Pool.Sound.run hproper hrun (hpermits.valid hC)).inv
  have hnone : ∀ i, s'.shared.entries rootBundleName ≠ some i := by
    intro i hi
    obtain ⟨-, f, -, -, hcontent⟩ := Inv.entry hinv (hC.visible (by decide)) hi
    exact hcontent rfl
  refine ⟨Option.eq_none_iff_forall_ne_some.2 hnone, fun t ht p cfg m he => ?_⟩
  obtain ⟨_, ⟨i, f, hsettled, -⟩, -⟩ := hproper.opened hC hrun hpermits ht he
  exact hnone i (hsettled.named hinv).1

/-- A temporary file that was left keeps the directory closed. -/
theorem missing_root_refused_leftover : ∃ tr s',
    Run (ProcessStep sampleLibrary)
      (idle (sampleDisk (some (str ".root-ca-bundle.pem.tmp-1", [])))) tr s' ∧ tr ≠ [] ∧
      s'.shared.entries rootBundleName = none := by
  obtain ⟨tr, t, -, -, hrun⟩ := run_sample 1 (.openManager sampleConfig)
    (sampleDisk (some (str ".root-ca-bundle.pem.tmp-1", [])))
  exact ⟨_, _, hrun, by simp, (missing_root_refused (str ".root-ca-bundle.pem.tmp-1")
    (atRest_sampleDisk _) (by decide +kernel) (by decide +kernel) hrun).1⟩

/-! ## The other files -/

/-- A file of the directory is never lost or torn: at every point of a run, after power failures as
well, it is there if it was at first, and has the contents it had at first or what one of the jobs
was to write, from the first byte to the last. -/
theorem state_file_whole (file : StateFile) (hrest : AtRest d)
    (hrun : Run (ProcessStep lib) (idle d) tr s') :
    (d.entries file.name ≠ none → s'.shared.entries file.name ≠ none) ∧
    ∀ i, s'.shared.entries file.name = some i → ∃ f, s'.shared.files i = some f ∧
      ((∃ j g, d.entries file.name = some j ∧ d.files j = some g ∧ f.data = g.data) ∨
        ∃ t ∈ tr, ∃ p j, t.label = .spawn p j ∧ j.writes = some (file.name, f.data)) := by
  let content : GoString → GoString → Prop := fun name data => name = file.name →
    (∃ j g, d.entries name = some j ∧ d.files j = some g ∧ data = g.data) ∨
      ∃ t ∈ tr, ∃ p j, t.label = .spawn p j ∧ j.writes = some (name, data)
  let C : Publication ι := directoryRules content fun name =>
    name = file.name ∧ d.entries name ≠ none
  have hapart : ∀ {name}, name = file.name →
      name ∉ [rootBundleName, leafBundleName, ldapBundleName, rootPublicName] :=
    fun heq => heq ▸ file.apart
  have hC : Governs C := by
    refine governs_directoryRules (fun name hname _ heq => ?_) fun _ _ heq => ?_
    · exact absurd (List.mem_cons_of_mem _ hname) (hapart heq)
    · exact absurd (List.mem_cons_self) (hapart heq)
  have hpermits : Permits C tr := permits_directoryRules fun t ht p j he name data hw _ =>
    .inr ⟨t, ht, p, j, he, hw⟩
  have hproper : Proper lib C (idle d) :=
    proper_idle (hrest.inv hC (fun name i f _ hi hf _ => .inl ⟨i, f, hi, hf, rfl⟩) fun _ h => h.2)
  have hinv := (Pool.Sound.run hproper hrun (hpermits.valid hC)).inv
  refine ⟨fun hthere hnone => ?_, fun i hi => ?_⟩
  · exact (hinv.present ⟨rfl, hthere⟩).1 (hnone ▸ hinv.current file.name)
  · obtain ⟨-, f, hf, -, hcontent⟩ := Inv.entry hinv (hC.visible file.visible) hi
    exact ⟨f, hf, hcontent rfl⟩

/-- The state of the ACME server. -/
def acmeStateFile : StateFile := ⟨str "acme.json", by decide, by decide⟩

/-- A state is committed where there was another one: the file is there, with one of the two. -/
theorem state_file_whole_commit : ∃ tr s' i f,
    Run (ProcessStep sampleLibrary)
      (idle (sampleDisk (some (acmeStateFile.name, str "old")))) tr s' ∧ tr ≠ [] ∧
      s'.shared.entries acmeStateFile.name = some i ∧ s'.shared.files i = some f ∧
      (f.data = str "old" ∨
        ∃ t ∈ tr, ∃ p j, t.label = .spawn p j ∧ j.writes = some (acmeStateFile.name, f.data)) := by
  obtain ⟨tr, t, -, -, hrun⟩ := run_sample 1 (.commit acmeStateFile (str "state"))
    (sampleDisk (some (acmeStateFile.name, str "old")))
  obtain ⟨hthere, hwhole⟩ := state_file_whole acmeStateFile (atRest_sampleDisk _) hrun
  obtain ⟨i, hi⟩ := Option.ne_none_iff_exists'.1 (hthere (by decide +kernel))
  obtain ⟨f, hf, ⟨j, g, hj, hg, hdata⟩ | hwritten⟩ := hwhole i hi
  · have hj' : some j = some 0 := hj.symm.trans (by decide +kernel)
    cases hj'
    cases hg
    exact ⟨_, _, i, f, hrun, by simp, hi, hf, .inl hdata⟩
  · exact ⟨_, _, i, f, hrun, by simp, hi, hf, .inr hwritten⟩

/-- A committed state is there after every power failure: once `commit` has succeeded, and until the
next job of its process starts, the file has the data. Only this process may write the file; what
the others do in the directory does not matter. -/
theorem commit_durable (file : StateFile) (data : GoString)
    (before after : Trace (Processes ι κ) (ProcessEvent ι κ)) {r : Option (Opened κ)}
    (hrest : AtRest d) (hrun : Run (ProcessStep lib) (idle d) (before ++ t :: after) s')
    (hsole : ∀ u ∈ before ++ t :: after, ∀ q j, u.label = .spawn q j →
      ∀ data, j.writes = some (file.name, data) → q = p)
    (ht : t.label = .finish p (.commit file data) (.ok r))
    (hnext : ∀ u ∈ after, ∀ j, u.label ≠ .spawn p j) :
    ∃ i f, s'.shared.entries file.name = some i ∧ s'.shared.files i = some f ∧ f.data = data := by
  let C : Publication ι := soleRules p file
  have hC : Governs C := governs_soleRules
  have hkept : ∀ q ≠ p, ¬ C.replaces q file.name := fun q hq h => hq (h.2 rfl)
  have hpermits : Permits C (before ++ t :: after) := by
    refine fun u hu q j he name data hw => ⟨⟨fun heq => ?_, fun heq => ?_⟩, trivial⟩
    · exact Job.writes_ne hw (by simp [heq])
    · exact hsole u hu q j he data (heq ▸ hw)
  have hproper : Proper lib C (idle d) :=
    proper_idle (hrest.inv hC (fun _ _ _ _ _ _ => trivial) fun _ h => h.elim)
  obtain ⟨hbefore, hstep, hafter⟩ := hrun.mid_inv
  have hcommitted : Committed file.name data t.post.shared :=
    Pool.Sound.finished hproper hrun (hpermits.valid hC) (by simp) ht r rfl hkept
  have hpre : Proper lib C t.pre := Pool.Sound.run hproper hbefore fun u hu =>
    hpermits.valid hC u (List.mem_append_left _ hu)
  have hpost : Proper lib C t.post := (Pool.Sound.step hpre hstep (hpermits.valid hC t (by simp))).1
  have hended : t.post.procs p = none := by
    rw [ht] at hstep
    exact hstep.finished
  -- the process does not run from here on, and the others keep the file
  have hend : Proper lib C s' ∧ s'.procs p = none ∧ Committed file.name data s'.shared := by
    refine hafter.invariant_mem (I := fun s => Proper lib C s ∧ s.procs p = none ∧
      Committed file.name data s.shared) ⟨hpost, hended, hcommitted⟩ ?_
    rintro u hu hs ⟨hproper, hnone, hcommitted⟩
    obtain ⟨hnone', hcall⟩ := hs.not_running hnone (hnext u hu)
    obtain ⟨hproper', hkeeps⟩ := Pool.Sound.step hproper hs (hpermits.valid hC u (by simp [hu]))
    exact ⟨hproper', hnone', hcommitted.keeps hC hkept hproper.inv hkeeps hcall⟩
  obtain ⟨hproper', -, i, f, hsettled, hdata⟩ := hend
  exact ⟨i, f, (hsettled.named hproper'.inv).1, hsettled.file, hdata⟩

/-- A state is committed, and the power fails. -/
theorem commit_durable_powerFailure : ∃ before t s' i f,
    Run (ProcessStep sampleLibrary) (idle (sampleDisk none)) (before ++ [t]) s' ∧
      t.label = .crash ∧ s'.shared.entries acmeStateFile.name = some i ∧
      s'.shared.files i = some f ∧ f.data = str "state" := by
  obtain ⟨tr, t, ht, hspawn, hrun⟩ :=
    run_sample 1 (.commit acmeStateFile (str "state")) (sampleDisk none)
  have hok : (sampleRun 1 (.commit acmeStateFile (str "state")) (sampleDisk none)).1.isOk := by
    decide +kernel
  generalize sampleRun 1 (.commit acmeStateFile (str "state")) (sampleDisk none) = r at ht hrun hok
  obtain ⟨_ | m, d⟩ := r
  · cases hok
  have hproper :
      Proper sampleLibrary (directoryRules (fun _ _ => True) fun _ => False) (idle d) := by
    have hC : Governs (directoryRules (ι := Nat) (fun _ _ => True) fun _ => False) :=
      governs_directoryRules (fun _ _ _ => trivial) fun _ _ => trivial
    exact Pool.Sound.run (proper_idle ((atRest_sampleDisk none).inv hC (fun _ _ _ _ _ _ => trivial)
      fun _ h => h.elim)) hrun ((permits_directoryRules fun _ _ _ _ _ _ _ _ => trivial).valid hC)
  have hcrash : ProcessStep sampleLibrary (idle d) .crash (idle d.settle) :=
    .crash hproper.inv.powerFailure_settle
  have hboth := hrun.append (.cons hcrash (.nil _))
  rw [List.append_assoc] at hboth
  have hsole : ∀ u ∈ tr ++ t :: [⟨idle d, .crash, idle d.settle⟩], ∀ q j, u.label = .spawn q j →
      ∀ data, j.writes = some (acmeStateFile.name, data) → q = 0 := by
    intro u hu q j he data hw
    rcases List.mem_append.1 hu with hu | hu
    · rcases hspawn u hu with hlabel | hlabel
      · rw [hlabel] at he
        cases he
        rfl
      · rw [hlabel] at he
        cases he
    · rw [List.mem_cons, List.mem_singleton] at hu
      obtain rfl | rfl := hu
      · rw [ht] at he
        cases he
      · cases he
  obtain ⟨i, f, hi, hf, hdata⟩ := commit_durable acmeStateFile (str "state") tr [_]
    (atRest_sampleDisk none) hboth hsole ht (by simp)
  exact ⟨tr ++ [t], _, _, i, f, List.append_assoc tr _ _ ▸ hboth, rfl, hi, hf, hdata⟩

end

end InfraBox.Pki
