import InfraBox.Lib.Disk

/-!
# Files that are published whole

The protocol of processes that write a file under a temporary name and sync it before they give it
its name, with a link if the name has to be free or by renaming it. `Publication` says which names
are temporary, what a process may publish under the others, and which names it may replace. By the
protocol every file with a name that is not temporary is synced (`Publication.Inv`), a process
changes only its own files and only before they have such a name, and a name that it may not
replace keeps its file (`Publication.Guar`).

So a process still finds what it wrote when it publishes a file (`Publication.Temp`), a published
file stays undamaged, and once the directory is synced it is not lost (`Publication.Settled`).
-/

namespace InfraBox

variable {ι : Type}

/-- What processes may do in a directory. -/
structure Publication (ι : Type) where
  hidden : GoString → Prop
  /-- The process may replace the file with the name. -/
  replaces : ι → GoString → Prop
  /-- The data may be published under the name. -/
  content : GoString → GoString → Prop
  /-- The name has a file, which is no temporary one of a process. -/
  present : GoString → Prop

namespace Publication

variable {C : Publication ι} {d d' : Disk ι} {p q : ι} {name : GoString} {i : Inode} {f : File ι}

/-- The file has a name that is not temporary. -/
def Shown (C : Publication ι) (d : Disk ι) (i : Inode) : Prop :=
  ∃ name, ¬ C.hidden name ∧ some i ∈ d.stored name

structure Inv (C : Publication ι) (d : Disk ι) : Prop where
  hidden : ∀ {name p}, d.owner name = some p → C.hidden name
  current : ∀ name, d.entries name ∈ d.stored name
  whole : ∀ {name i}, ¬ C.hidden name → some i ∈ d.stored name →
    ∃ f, d.files i = some f ∧ f.synced = true ∧ C.content name f.data
  /-- A name that is never replaced has at most one file. -/
  unique : ∀ {name v}, ¬ C.hidden name → (∀ p, ¬ C.replaces p name) → v ∈ d.stored name →
    v = none ∨ v = d.entries name
  present : ∀ {name}, C.present name → none ∉ d.stored name ∧ d.owner name = none

structure Guar (C : Publication ι) (p : ι) (d d' : Disk ι) : Prop where
  owner : ∀ {name q}, d.owner name = some q → d'.owner name = some q
  names : ∀ {name q}, d.owner name = some q → q ≠ p → d'.entries name = d.entries name
  files : ∀ {i f}, d.files i = some f → f.creator ≠ some p ∨ C.Shown d i → d'.files i = some f
  shown : ∀ {i}, C.Shown d' i → C.Shown d i ∨ ∃ f, d.files i = some f ∧ f.creator = some p
  kept : ∀ {name i}, ¬ C.hidden name → ¬ C.replaces p name → d.entries name = some i →
    d'.entries name = some i ∧ (d'.stored name = d.stored name ∨ d'.stored name = [some i])

/-- What a power failure leaves is in order. -/
theorem Inv.powerFailure (h : C.Inv d) (hd : d.PowerFailure d') : C.Inv d' where
  hidden hp := h.hidden (hd.owner ▸ hp)
  current name := by rw [hd.stored]; exact List.mem_singleton.2 rfl
  whole hvisible hi := by
    rw [hd.stored, List.mem_singleton] at hi
    obtain ⟨f, hf, hsynced, hcontent⟩ := h.whole hvisible (hi ▸ hd.entries _)
    exact ⟨f, hd.files _ f hf hsynced, hsynced, hcontent⟩
  unique _ _ hv := by
    rw [hd.stored, List.mem_singleton] at hv
    exact .inr hv
  present hpresent := by
    rw [hd.stored, List.mem_singleton, hd.owner]
    refine ⟨fun hnone => ?_, (h.present hpresent).2⟩
    exact (h.present hpresent).1 (hnone ▸ hd.entries _)

/-- The power may fail without a loss. -/
theorem Inv.powerFailure_settle (h : C.Inv d) : d.PowerFailure d.settle where
  entries := h.current
  stored _ := rfl
  files _ _ hf _ := hf
  owner := rfl

/-- The protocol. -/
def protocol (C : Publication ι) {Q : Type} (A : Q → Type) (ε : Type) :
    Protocol (Disk.machine ι A ε) where
  inv := C.Inv
  guar := C.Guar
  crash_inv := Inv.powerFailure

/-! ## What single changes keep -/

theorem Guar.refl (C : Publication ι) (p : ι) (d : Disk ι) : C.Guar p d d where
  owner h := h
  names _ _ := rfl
  files h _ := h
  shown := .inl
  kept _ _ h := ⟨h, .inl rfl⟩

/-- An entry of a visible name refers to a synced file. -/
theorem Inv.entry (h : C.Inv d) (hvisible : ¬ C.hidden name) (hi : d.entries name = some i) :
    C.Shown d i ∧ ∃ f, d.files i = some f ∧ f.synced = true ∧ C.content name f.data :=
  have hstored : some i ∈ d.stored name := hi ▸ h.current name
  ⟨⟨name, hvisible, hstored⟩, h.whole hvisible hstored⟩

/-- Changes of a file without a visible name. -/
theorem Inv.setFile (h : C.Inv d) (f' : File ι) (hi : d.files i = some f)
    (hp : f.creator = some p) (hshown : ¬ C.Shown d i) :
    C.Inv (d.setFile i f') ∧ C.Guar p d (d.setFile i f') := by
  have hne : ∀ {j}, C.Shown d j → j ≠ i := fun hj hji => hshown (hji ▸ hj)
  refine ⟨⟨h.hidden, h.current, ?_, h.unique, h.present⟩, ⟨id, fun _ _ => rfl, ?_, .inl, ?_⟩⟩
  · intro name j hvisible hj
    rw [Disk.setFile_files, if_neg (hne ⟨name, hvisible, hj⟩)]
    exact h.whole hvisible hj
  · intro j g hj hor
    have hji : j ≠ i := by
      rcases hor with hg | hj'
      · rintro rfl
        rw [hi, Option.some.injEq] at hj
        exact hg (hj ▸ hp)
      · exact hne hj'
    rw [Disk.setFile_files, if_neg hji]
    exact hj
  · exact fun _ _ hn => ⟨hn, .inl rfl⟩

/-- A new temporary file belongs to its process and is seen by none. -/
theorem Inv.create (h : C.Inv d) (hhidden : C.hidden name) (hfree : d.entries name = none)
    (hname : d.owner name = none) (hi : d.files i = none) :
    C.Inv (d.create p name i) ∧ C.Guar p d (d.create p name i) ∧
      ¬ C.Shown (d.create p name i) i := by
  have hvisible : ∀ {n}, ¬ C.hidden n → n ≠ name := fun hn hne => hn (hne ▸ hhidden)
  have hstored : ∀ {n}, ¬ C.hidden n → (d.create p name i).stored n = d.stored n := by
    intro n hn
    rw [Disk.create_stored, Disk.setEntry_stored, if_neg (hvisible hn)]
  have hentries : ∀ {n}, n ≠ name → (d.create p name i).entries n = d.entries n := by
    intro n hn
    rw [Disk.create_entries, Disk.setEntry_entries, if_neg hn]
  have hfiles : ∀ {j g}, d.files j = some g → (d.create p name i).files j = some g := by
    intro j g hj
    rw [Disk.create_files, Disk.setFile_files, if_neg fun hji => by simp [hji, hi] at hj]
    exact hj
  have hshown : ∀ {j}, C.Shown (d.create p name i) j → C.Shown d j := by
    rintro j ⟨n, hn, hj⟩
    exact ⟨n, hn, hstored hn ▸ hj⟩
  refine ⟨⟨?_, ?_, ?_, ?_, ?_⟩, ⟨?_, ?_, fun hj _ => hfiles hj, fun hj => .inl (hshown hj), ?_⟩, ?_⟩
  · intro n q hq
    by_cases hn : n = name
    · exact hn ▸ hhidden
    · rw [Disk.create_owner, Function.update_of_ne hn] at hq
      exact h.hidden hq
  · intro n
    rw [Disk.create_entries, Disk.create_stored, Disk.setEntry_entries, Disk.setEntry_stored]
    split
    · simp
    · exact h.current n
  · intro n j hn hj
    obtain ⟨g, hg, hwhole⟩ := h.whole hn (hstored hn ▸ hj)
    exact ⟨g, hfiles hg, hwhole⟩
  · intro n v hn hfixed hv
    rw [hentries (hvisible hn)]
    exact h.unique hn hfixed (hstored hn ▸ hv)
  · intro n hn
    have hne : n ≠ name := by
      rintro rfl
      exact (h.present hn).1 (hfree ▸ h.current n)
    rw [Disk.create_stored, Disk.setEntry_stored, if_neg hne, Disk.create_owner,
      Function.update_of_ne hne]
    exact h.present hn
  · intro n q hq
    rw [Disk.create_owner, Function.update_of_ne fun hn => by simp [hn, hname] at hq]
    exact hq
  · intro n q hq _
    exact hentries fun hn => by simp [hn, hname] at hq
  · intro n j hn _ hj
    exact ⟨(hentries (hvisible hn)).trans hj, .inl (hstored hn)⟩
  · intro hj
    obtain ⟨n, hn, hstored⟩ := hshown hj
    obtain ⟨g, hg, -⟩ := h.whole hn hstored
    rw [hi] at hg
    cases hg

/-- A file gets a name. -/
theorem Inv.publish (h : C.Inv d) (hvisible : ¬ C.hidden name) (hi : d.files i = some f)
    (hp : f.creator = some p) (hsynced : f.synced = true) (hcontent : C.content name f.data)
    (hname : d.entries name = none ∨ C.replaces p name) :
    C.Inv (d.setEntry name (some i)) ∧ C.Guar p d (d.setEntry name (some i)) := by
  have hne : ∀ {n q}, d.owner n = some q → n ≠ name := fun hq hn => hvisible (hn ▸ h.hidden hq)
  refine ⟨⟨h.hidden, ?_, ?_, ?_, ?_⟩, ⟨id, ?_, fun hj _ => hj, ?_, ?_⟩⟩
  · intro n
    rw [Disk.setEntry_entries, Disk.setEntry_stored]
    split
    · simp
    · exact h.current n
  · intro n j hn hj
    rw [Disk.setEntry_stored] at hj
    split at hj
    · next heq =>
      subst heq
      rcases List.mem_append.1 hj with hj | hj
      · exact h.whole hn hj
      · rw [List.mem_singleton, Option.some.injEq] at hj
        exact ⟨f, hj ▸ hi, hsynced, hcontent⟩
    · exact h.whole hn hj
  · intro n v hn hfixed hv
    rw [Disk.setEntry_stored] at hv
    rw [Disk.setEntry_entries]
    split at hv
    · next heq =>
      subst heq
      -- the name was free, so that the disk may have no other file there
      have hfree : d.entries n = none := hname.resolve_right (hfixed p)
      rw [if_pos rfl]
      rcases List.mem_append.1 hv with hv | hv
      · exact .inl ((h.unique hn hfixed hv).elim id fun hv => hv.trans hfree)
      · exact .inr (List.mem_singleton.1 hv)
    · next hne =>
      rw [if_neg hne]
      exact h.unique hn hfixed hv
  · intro n hn
    obtain ⟨hsome, howner⟩ := h.present hn
    refine ⟨?_, howner⟩
    rw [Disk.setEntry_stored]
    split
    · next heq =>
      subst heq
      simp [hsome]
    · exact hsome
  · intro n q hq _
    rw [Disk.setEntry_entries, if_neg (hne hq)]
  · rintro j ⟨n, hn, hj⟩
    rw [Disk.setEntry_stored] at hj
    split at hj
    · next heq =>
      subst heq
      rcases List.mem_append.1 hj with hj | hj
      · exact .inl ⟨n, hn, hj⟩
      · rw [List.mem_singleton, Option.some.injEq] at hj
        exact .inr ⟨f, hj ▸ hi, hp⟩
    · exact .inl ⟨n, hn, hj⟩
  · intro n j _ hkept hj
    have hn : n ≠ name := by
      rintro rfl
      rcases hname with hfree | hreplaces
      · rw [hfree] at hj
        cases hj
      · exact hkept hreplaces
    rw [Disk.setEntry_entries, Disk.setEntry_stored, if_neg hn, if_neg hn]
    exact ⟨hj, .inl rfl⟩

/-- A process gives up a temporary name. -/
theorem Inv.discard (h : C.Inv d) (hp : d.owner name = some p) :
    C.Inv (d.setEntry name none) := by
  have hhidden := h.hidden hp
  have hvisible : ∀ {n}, ¬ C.hidden n → n ≠ name := fun hn hne => hn (hne ▸ hhidden)
  have hstored : ∀ {n}, ¬ C.hidden n → (d.setEntry name none).stored n = d.stored n := by
    intro n hn
    rw [Disk.setEntry_stored, if_neg (hvisible hn)]
  refine ⟨h.hidden, ?_, ?_, ?_, ?_⟩
  · intro n
    rw [Disk.setEntry_entries, Disk.setEntry_stored]
    split
    · simp
    · exact h.current n
  · intro n j hn hj
    exact h.whole hn (hstored hn ▸ hj)
  · intro n v hn hfixed hv
    rw [Disk.setEntry_entries, if_neg (hvisible hn)]
    exact h.unique hn hfixed (hstored hn ▸ hv)
  · intro n hn
    obtain ⟨hsome, howner⟩ := h.present hn
    have hne : n ≠ name := by
      rintro rfl
      rw [howner] at hp
      cases hp
    rw [Disk.setEntry_stored, if_neg hne]
    exact ⟨hsome, howner⟩

/-- Removing a temporary name of one's own. -/
theorem Guar.discard (h : C.Guar p d d') (hhidden : C.hidden name) (hp : d.owner name = some p) :
    C.Guar p d (d'.setEntry name none) := by
  have hvisible : ∀ {n}, ¬ C.hidden n → n ≠ name := fun hn hne => hn (hne ▸ hhidden)
  refine ⟨h.owner, ?_, h.files, ?_, ?_⟩
  · intro n q hq hne
    rw [Disk.setEntry_entries, if_neg]
    · exact h.names hq hne
    · rintro rfl
      exact hne (Option.some.inj (hq.symm.trans hp))
  · rintro j ⟨n, hn, hj⟩
    rw [Disk.setEntry_stored, if_neg (hvisible hn)] at hj
    exact h.shown ⟨n, hn, hj⟩
  · intro n j hn hkept hj
    rw [Disk.setEntry_entries, Disk.setEntry_stored, if_neg (hvisible hn), if_neg (hvisible hn)]
    exact h.kept hn hkept hj

/-- The directory is synced. -/
theorem Inv.settle (h : C.Inv d) : C.Inv d.settle ∧ C.Guar p d d.settle := by
  have hstored : ∀ {n v}, v ∈ d.settle.stored n → v = d.entries n :=
    fun hv => List.mem_singleton.1 hv
  refine ⟨⟨h.hidden, fun n => by simp, ?_, fun _ _ hv => .inr (hstored hv), ?_⟩,
    ⟨id, fun _ _ => rfl, fun hj _ => hj, ?_, ?_⟩⟩
  · intro n j hn hj
    exact h.whole hn (hstored hj ▸ h.current n)
  · intro n hn
    obtain ⟨hsome, howner⟩ := h.present hn
    exact ⟨fun hnone => hsome (hstored hnone ▸ h.current n), howner⟩
  · rintro j ⟨n, hn, hj⟩
    exact .inl ⟨n, hn, hstored hj ▸ h.current n⟩
  · intro n j _ _ hj
    exact ⟨hj, .inr (by rw [Disk.settle_stored, hj])⟩

/-! ## Assertions -/

section
variable {Q : Type} {A : Q → Type} {ε : Type} {F P : Disk ι → Prop} {t : GoString}

def Owned (p : ι) (t : GoString) (d : Disk ι) : Prop := d.owner t = some p

/-- The temporary file of a process. -/
structure Temp (C : Publication ι) (p : ι) (t : GoString) (i : Inode) (f : File ι) (d : Disk ι) :
    Prop where
  owner : d.owner t = some p
  entry : d.entries t = some i
  file : d.files i = some f
  creator : f.creator = some p
  unshown : ¬ C.Shown d i

/-- A name and its file. -/
def Named (name : GoString) (i : Inode) (f : File ι) (d : Disk ι) : Prop :=
  d.entries name = some i ∧ d.files i = some f

/-- A name and its file on the disk, where no power failure can reach them. -/
structure Settled (name : GoString) (i : Inode) (f : File ι) (d : Disk ι) : Prop where
  stored : d.stored name = [some i]
  file : d.files i = some f
  synced : f.synced = true

theorem persistent_owned : (C.protocol A ε).Persistent (Owned p t) :=
  fun _ _ _ _ hg h => hg.owner h

/-- The others leave a temporary file alone. -/
theorem stable_temp : (C.protocol A ε).Stable p (C.Temp p t i f) := by
  intro q d d' hq hinv hg h
  have hcreator : f.creator ≠ some q := by
    rw [h.creator, ne_eq, Option.some.injEq]
    exact Ne.symm hq
  refine ⟨hg.owner h.owner, (hg.names h.owner (Ne.symm hq)).trans h.entry,
    hg.files h.file (.inl hcreator), h.creator, fun hshown => ?_⟩
  rcases hg.shown hshown with hshown | ⟨g, hg, hcreated⟩
  · exact h.unshown hshown
  · rw [h.file, Option.some.injEq] at hg
    exact hcreator (hg ▸ hcreated)

/-- Only the processes that may replace a name end that it has its file. -/
theorem Named.guar (hinv : C.Inv d) (hg : C.Guar q d d') (hvisible : ¬ C.hidden name)
    (hkept : ¬ C.replaces q name) (h : Named name i f d) : Named name i f d' :=
  ⟨(hg.kept hvisible hkept h.1).1, hg.files h.2 (.inr (hinv.entry hvisible h.1).1)⟩

theorem Settled.named (hinv : C.Inv d) (h : Settled name i f d) : Named name i f d :=
  ⟨List.mem_singleton.1 (h.stored ▸ hinv.current name), h.file⟩

theorem Named.settle (hinv : C.Inv d) (hvisible : ¬ C.hidden name) (h : Named name i f d) :
    Settled name i f d.settle := by
  obtain ⟨-, g, hg, hsynced, -⟩ := hinv.entry hvisible h.1
  obtain rfl := Option.some.inj (hg.symm.trans h.2)
  exact ⟨by simp [h.1], hg, hsynced⟩

theorem Settled.guar (hinv : C.Inv d) (hg : C.Guar q d d') (hvisible : ¬ C.hidden name)
    (hkept : ¬ C.replaces q name) (h : Settled name i f d) : Settled name i f d' := by
  have hnamed := h.named hinv
  refine ⟨?_, (hnamed.guar hinv hg hvisible hkept).2, h.synced⟩
  rcases (hg.kept hvisible hkept hnamed.1).2 with hstored | hstored
  · exact hstored.trans h.stored
  · exact hstored

theorem Settled.powerFailure (hd : d.PowerFailure d') (h : Settled name i f d) :
    Settled name i f d' := by
  have hentry := hd.entries name
  rw [h.stored, List.mem_singleton] at hentry
  exact ⟨(hd.stored name).trans (by rw [hentry]), hd.files i f h.file h.synced, h.synced⟩

/-- No other process ends the assertion, nor does the process when it gives up a temporary name. -/
structure Lasting (C : Publication ι) (A : Q → Type) (ε : Type) (p : ι) (P : Disk ι → Prop) :
    Prop where
  stable : (C.protocol A ε).Stable p P
  discard : ∀ {t d}, C.Inv d → Owned p t d → P d → P (d.setEntry t none)

theorem lasting_of_persistent (h : (C.protocol A ε).Persistent P) : C.Lasting A ε p P where
  stable := h.stable
  discard hinv hp := h hinv ((Guar.refl C p _).discard (hinv.hidden hp) hp)

theorem Lasting.forall {κ : Sort*} {P : κ → Disk ι → Prop} (h : ∀ k, C.Lasting A ε p (P k)) :
    C.Lasting A ε p fun d => ∀ k, P k d where
  stable := .forall fun k => (h k).stable
  discard hinv hp hd k := (h k).discard hinv hp (hd k)

theorem Lasting.exists {κ : Sort*} {P : κ → Disk ι → Prop} (h : ∀ k, C.Lasting A ε p (P k)) :
    C.Lasting A ε p fun d => ∃ k, P k d where
  stable := .exists fun k => (h k).stable
  discard hinv hp := fun ⟨k, hk⟩ => ⟨k, (h k).discard hinv hp hk⟩

theorem Lasting.and {P P' : Disk ι → Prop} (h : C.Lasting A ε p P) (h' : C.Lasting A ε p P') :
    C.Lasting A ε p fun d => P d ∧ P' d where
  stable := h.stable.and h'.stable
  discard hinv hp hd := ⟨h.discard hinv hp hd.1, h'.discard hinv hp hd.2⟩

theorem lasting_settled (hvisible : ¬ C.hidden name) (hkept : ∀ q ≠ p, ¬ C.replaces q name) :
    C.Lasting A ε p (Settled name i f) where
  stable q _ _ hq hinv hg h := h.guar hinv hg hvisible (hkept q hq)
  discard {t d} hinv hp h := by
    have hne : name ≠ t := fun heq => hvisible (heq ▸ hinv.hidden hp)
    exact ⟨by rw [Disk.setEntry_stored, if_neg hne]; exact h.stored, h.file, h.synced⟩

theorem Settled.unique {j : Inode} {g : File ι} (h : Settled name i f d)
    (h' : Settled name j g d) : f = g := by
  have hij := h.stored.symm.trans h'.stored
  rw [List.singleton_inj, Option.some.injEq] at hij
  subst hij
  exact Option.some.inj (h.file.symm.trans h'.file)

/-! ## The calls

Each rule keeps an assertion `F` that no process ends. -/

/-- A new temporary file is empty. -/
theorem triple_createTemp {stem : GoString} (hF : (C.protocol A ε).Persistent F)
    (hstem : ∀ name, Disk.TempName stem name → C.hidden name) :
    (C.protocol A ε).Triple p F (DiskM.createTemp stem) F
      fun t => C.Temp p t.1 t.2 ⟨[], 0o600, true, false, some p⟩ := by
  refine Protocol.Valid.perform (Protocol.stable_returns hF.stable fun _ => stable_temp) ?_
  rintro (err | ⟨name, i⟩) d d' hinv hd he
  · obtain rfl := he
    exact ⟨hinv, .refl .., .error hd⟩
  · obtain ⟨hname, hfree, howner, hi, rfl⟩ := he
    obtain ⟨hinv', hg, hshown⟩ := hinv.create (p := p) (hstem name hname) hfree howner hi
    exact ⟨hinv', hg, .ok (hF hinv hg hd)
      ⟨by simp, by simp [Disk.setEntry_entries], by simp [Disk.setFile_files], rfl, hshown⟩⟩

theorem Temp.setFile (h : C.Temp p t i f d) (hinv : C.Inv d) (f' : File ι)
    (hf' : f'.creator = f.creator) : C.Inv (d.setFile i f') ∧ C.Guar p d (d.setFile i f') ∧
      C.Temp p t i f' (d.setFile i f') := by
  obtain ⟨hinv', hg⟩ := hinv.setFile f' h.file h.creator h.unshown
  exact ⟨hinv', hg, h.owner, h.entry, by simp [Disk.setFile_files], hf'.trans h.creator, h.unshown⟩

/-- The mode of a temporary file. -/
theorem triple_chmod {mode : Nat} (hF : (C.protocol A ε).Persistent F) :
    (C.protocol A ε).Triple p (fun d => F d ∧ C.Temp p t i f d) (DiskM.chmod i mode) F
      fun _ => C.Temp p t i { f with mode, synced := false } := by
  refine Protocol.Valid.perform (Protocol.stable_returns hF.stable fun _ => stable_temp) ?_
  rintro (err | _) d d' hinv ⟨hd, htemp⟩ he
  · obtain rfl := he
    exact ⟨hinv, .refl .., .error hd⟩
  · obtain ⟨g, hg, rfl⟩ := he
    obtain rfl := Option.some.inj (hg.symm.trans htemp.file)
    obtain ⟨hinv', hguar, htemp'⟩ := htemp.setFile hinv { g with mode, synced := false } rfl
    exact ⟨hinv', hguar, .ok (hF hinv hguar hd) htemp'⟩

/-- Data is added to a temporary file. -/
theorem triple_write {data : GoString} (hF : (C.protocol A ε).Persistent F) :
    (C.protocol A ε).Triple p (fun d => F d ∧ C.Temp p t i f d) (DiskM.write i data) F
      fun _ => C.Temp p t i { f with data := f.data ++ data, synced := false } := by
  refine Protocol.Valid.perform (Protocol.stable_returns hF.stable fun _ => stable_temp) ?_
  rintro (err | _) d d' hinv ⟨hd, htemp⟩ he
  · obtain rfl | ⟨g, part, hg, -, rfl⟩ := he
    · exact ⟨hinv, .refl .., .error hd⟩
    obtain rfl := Option.some.inj (hg.symm.trans htemp.file)
    obtain ⟨hinv', hguar, -⟩ :=
      htemp.setFile hinv { g with data := g.data ++ part, synced := false } rfl
    exact ⟨hinv', hguar, .error (hF hinv hguar hd)⟩
  · obtain ⟨g, hg, rfl⟩ := he
    obtain rfl := Option.some.inj (hg.symm.trans htemp.file)
    obtain ⟨hinv', hguar, htemp'⟩ :=
      htemp.setFile hinv { g with data := g.data ++ data, synced := false } rfl
    exact ⟨hinv', hguar, .ok (hF hinv hguar hd) htemp'⟩

/-- A temporary file is synced. -/
theorem triple_sync (hF : (C.protocol A ε).Persistent F) :
    (C.protocol A ε).Triple p (fun d => F d ∧ C.Temp p t i f d) (DiskM.sync i) F
      fun _ => C.Temp p t i { f with synced := true } := by
  refine Protocol.Valid.perform (Protocol.stable_returns hF.stable fun _ => stable_temp) ?_
  rintro (err | _) d d' hinv ⟨hd, htemp⟩ he
  · obtain rfl := he
    exact ⟨hinv, .refl .., .error hd⟩
  · obtain ⟨g, hg, rfl⟩ := he
    obtain rfl := Option.some.inj (hg.symm.trans htemp.file)
    obtain ⟨hinv', hguar, htemp'⟩ := htemp.setFile hinv { g with synced := true } rfl
    exact ⟨hinv', hguar, .ok (hF hinv hguar hd) htemp'⟩

/-- A file gets a name that was free. -/
theorem triple_link (hF : (C.protocol A ε).Persistent F) (hvisible : ¬ C.hidden name)
    (hkept : ∀ q ≠ p, ¬ C.replaces q name) (hsynced : f.synced = true)
    (hcontent : C.content name f.data) :
    (C.protocol A ε).Triple p (fun d => F d ∧ C.Temp p t i f d) (DiskM.link t name) F
      fun _ => Named name i f := by
  refine Protocol.Valid.perform (Protocol.stable_returns hF.stable fun _ q d d' hq hinv hg hd =>
    Named.guar hinv hg hvisible (hkept q hq) hd) ?_
  rintro (err | _) d d' hinv ⟨hd, htemp⟩ he
  · obtain rfl := he
    exact ⟨hinv, .refl .., .error hd⟩
  · obtain ⟨j, hj, hfree, rfl⟩ := he
    obtain rfl := Option.some.inj (hj.symm.trans htemp.entry)
    obtain ⟨hinv', hguar⟩ :=
      hinv.publish hvisible htemp.file htemp.creator hsynced hcontent (.inl hfree)
    exact ⟨hinv', hguar, .ok (hF hinv hguar hd) ⟨by simp [Disk.setEntry_entries], htemp.file⟩⟩

/-- A file takes a name from another one. -/
theorem triple_rename (hF : (C.protocol A ε).Persistent F) (hvisible : ¬ C.hidden name)
    (hreplaces : C.replaces p name) (hsynced : f.synced = true)
    (hcontent : C.content name f.data) :
    (C.protocol A ε).Triple p (fun d => F d ∧ C.Temp p t i f d) (DiskM.rename t name) F
      fun _ d => (∀ q ≠ p, ¬ C.replaces q name) → Named name i f d := by
  refine Protocol.Valid.perform (Protocol.stable_returns hF.stable
    fun _ q d d' hq hinv hg hd hkept => Named.guar hinv hg hvisible (hkept q hq) (hd hkept)) ?_
  rintro (err | _) d d' hinv ⟨hd, htemp⟩ he
  · obtain rfl := he
    exact ⟨hinv, .refl .., .error hd⟩
  · obtain ⟨j, hj, rfl⟩ := he
    obtain rfl := Option.some.inj (hj.symm.trans htemp.entry)
    rw [if_neg fun hentry => htemp.unshown (hinv.entry hvisible hentry).1]
    obtain ⟨hinv₁, hguar₁⟩ :=
      hinv.publish hvisible htemp.file htemp.creator hsynced hcontent (.inr hreplaces)
    have hhidden := hinv.hidden htemp.owner
    have hguar := hguar₁.discard hhidden htemp.owner
    have hne : name ≠ t := fun heq => hvisible (heq ▸ hhidden)
    refine ⟨hinv₁.discard htemp.owner, hguar, .ok (hF hinv hguar hd) fun _ => ⟨?_, htemp.file⟩⟩
    rw [Disk.setEntry_entries, if_neg hne, Disk.setEntry_entries, if_pos rfl]

/-- Its owner may remove a temporary file. -/
theorem valid_remove (hP : C.Lasting A ε p P) :
    (C.protocol A ε).Valid p (DiskM.remove t).run (fun d => Owned p t d ∧ P d) fun _ => P := by
  refine Protocol.Valid.perform (fun _ => hP.stable) ?_
  rintro (err | _) d d' hinv ⟨hp, hd⟩ he
  · obtain rfl := he
    exact ⟨hinv, .refl .., hd⟩
  · obtain rfl := he
    exact ⟨hinv.discard hp, (Guar.refl C p d).discard (hinv.hidden hp) hp,
      hP.discard hinv hp hd⟩

/-- The disk has the directory after the sync. -/
theorem triple_syncDir {S : Disk ι → Prop} (hF : (C.protocol A ε).Persistent F)
    (hS : (C.protocol A ε).Stable p S) (hsync : ∀ d, C.Inv d → P d → S d.settle) :
    (C.protocol A ε).Triple p (fun d => F d ∧ P d) DiskM.syncDir F fun _ => S := by
  refine Protocol.Valid.perform (Protocol.stable_returns hF.stable fun _ => hS) ?_
  rintro (err | _) d d' hinv ⟨hd, hp⟩ he
  · obtain rfl := he
    exact ⟨hinv, .refl .., .error hd⟩
  · obtain rfl := he
    obtain ⟨hinv', hguar⟩ := hinv.settle (p := p)
    exact ⟨hinv', hguar, .ok (hF hinv hguar hd) (hsync d hinv hp)⟩

/-- A call that changes nothing. -/
theorem valid_idle {op : DiskOp Q} (hP : (C.protocol A ε).Stable p P)
    (hidle : ∀ (r : op.Res A ε) (d d' : Disk ι), Disk.exec p op d r d' → d' = d) :
    (C.protocol A ε).Valid p (DiskM.call A ε op) P fun _ => P := by
  refine Protocol.Valid.perform (fun _ => hP) fun r d d' hinv hd he => ?_
  obtain rfl := hidle r d d' he
  exact ⟨hinv, .refl .., hd⟩

theorem valid_close (hP : (C.protocol A ε).Stable p P) :
    (C.protocol A ε).Valid p (DiskM.close i).run P fun _ => P :=
  valid_idle hP fun _ _ _ he => he

theorem valid_openDir (hP : (C.protocol A ε).Stable p P) :
    (C.protocol A ε).Valid p DiskM.openDir.run P fun _ => P :=
  valid_idle hP fun _ _ _ he => he

theorem valid_closeDir (hP : (C.protocol A ε).Stable p P) :
    (C.protocol A ε).Valid p DiskM.closeDir.run P fun _ => P :=
  valid_idle hP fun _ _ _ he => he

theorem valid_lstat (hP : (C.protocol A ε).Stable p P) :
    (C.protocol A ε).Valid p (DiskM.lstat name).run P fun _ => P :=
  valid_idle hP fun _ _ _ he => he.1

theorem valid_readFile (hP : (C.protocol A ε).Stable p P) :
    (C.protocol A ε).Valid p (DiskM.readFile name).run P fun _ => P :=
  valid_idle hP fun _ _ _ he => he.1

theorem valid_ask {question : Q} (hP : (C.protocol A ε).Stable p P) :
    (C.protocol A ε).Valid p (DiskM.ask question).run P fun _ => P := by
  have hcall : (C.protocol A ε).Valid p (DiskM.call A ε (.ask question)) P fun _ => P :=
    valid_idle hP fun _ _ _ he => he
  exact hcall.bind fun _ => .done fun _ _ hd => hd

/-- What is read under a name that no process replaces is what the name goes on to have. -/
theorem triple_readFile (hvisible : ¬ C.hidden name) (hkept : ∀ q, ¬ C.replaces q name) :
    (C.protocol A ε).Triple p P (DiskM.readFile name) (fun _ => True)
      fun data d => ∃ i f, Named name i f d ∧ data = f.data := by
  refine Protocol.Valid.perform (Protocol.stable_returns Protocol.stable_true fun data =>
    .exists fun i => .exists fun f q d d' _ hinv hg hd =>
      ⟨hd.1.guar hinv hg hvisible (hkept q), hd.2⟩) ?_
  rintro (err | data) d d' hinv - ⟨rfl, he⟩
  · exact ⟨hinv, .refl .., .error trivial⟩
  · obtain ⟨i, f, hi, hf, hdata⟩ := he
    exact ⟨hinv, .refl .., .ok trivial ⟨i, f, ⟨hi, hf⟩, hdata⟩⟩

/-- A directory with a file is not found empty. -/
theorem triple_readDir :
    (C.protocol A ε).Triple p P DiskM.readDir (fun _ => True)
      fun names _ => names.length = 0 → ∀ name, ¬ C.present name := by
  refine Protocol.Valid.perform (Protocol.stable_returns Protocol.stable_true
    fun names _ _ _ _ _ _ hd => hd) ?_
  rintro (err | names) d d' hinv - ⟨rfl, he⟩
  · exact ⟨hinv, .refl .., .error trivial⟩
  · refine ⟨hinv, .refl .., .ok trivial fun hnil name hpresent => ?_⟩
    have hmem : name ∈ names := by
      rw [he, FinMap.mem_keys, Option.isSome_iff_ne_none]
      intro hnone
      exact (hinv.present hpresent).1 (hnone ▸ hinv.current name)
    rw [List.length_eq_zero_iff.1 hnil] at hmem
    exact absurd hmem List.not_mem_nil

end

end Publication

end InfraBox
