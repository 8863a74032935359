import InfraBox.Nfs.TreeOS

/-!
# The table of handles over a tree

What the calls of the adapter can do to its table and to the tree (`Change`), and what follows over
any number of them: each path of the table has an entry with that name (`Filesystem.Table`), the
objects of the entries have been seen in the tree (`Sound`), an entry is found by its handle when
handles do not repeat (`Keyed`), and an entry's object is nowhere else than at the entry's name when
open files were not asked under a name they no longer have (`Placed`).

Only `Rename` changes an entry that exists. `Filesystem.Table.moved_inv` says where an entry of the
table was before.
-/

namespace InfraBox.Nfs

open Config

/-! ## Changing elements of a list -/

section
variable {α β : Type} {f : β → α → α} {i : Nat}

theorem getElem?_concat {l : List α} {a b : α} :
    (l ++ [a])[i]? = some b ↔ (i = l.length ∧ b = a) ∨ l[i]? = some b := by
  rcases Nat.lt_trichotomy i l.length with hi | rfl | hi
  · simp [List.getElem?_append_left hi, Nat.ne_of_lt hi]
  · simp [eq_comm]
  · have hlen : (l ++ [a]).length ≤ i := by simp; omega
    simp [List.getElem?_eq_none hlen, List.getElem?_eq_none hi.le, Nat.ne_of_gt hi]

theorem getElem?_foldl_modify_of_not_mem {l : List (β × Nat)} {xs : List α}
    (h : i ∉ l.map Prod.snd) :
    (l.foldl (fun xs e => xs.modify e.2 (f e.1)) xs)[i]? = xs[i]? := by
  induction l generalizing xs with
  | nil => rfl
  | cons e l ih =>
    rw [List.map_cons, List.mem_cons, not_or] at h
    rw [List.foldl_cons, ih h.2, List.getElem?_modify_ne _ _ (Ne.symm h.1)]

/-- An entry that is modified once. -/
theorem getElem?_foldl_modify_of_mem {l : List (β × Nat)} {xs : List α} {b : β}
    (hnd : (l.map Prod.snd).Nodup) (h : (b, i) ∈ l) :
    (l.foldl (fun xs e => xs.modify e.2 (f e.1)) xs)[i]? = xs[i]?.map (f b) := by
  induction l generalizing xs with
  | nil => cases h
  | cons e l ih =>
    rw [List.map_cons, List.nodup_cons] at hnd
    rw [List.foldl_cons]
    rcases List.mem_cons.1 h with rfl | h
    · rw [getElem?_foldl_modify_of_not_mem hnd.1, List.getElem?_modify_eq]
      rfl
    · have hne : e.2 ≠ i := fun heq => hnd.1 (heq ▸ List.mem_map_of_mem (f := Prod.snd) h)
      rw [ih hnd.2 h, List.getElem?_modify_ne _ _ hne]

end

/-! ## Moved names -/

/-- A name moves when it is at or below the old one. -/
theorem movedName_eq_some {old new name name' : GoString} :
    movedName old new name = some name' ↔
      ∃ t, (t = [] ∨ [slash] <+: t) ∧ name = old ++ t ∧ name' = new ++ t := by
  have htrim : ∀ t, trimPrefix (old ++ t) old = t := fun t => by simp [trimPrefix]
  unfold movedName
  constructor
  · intro h
    split at h
    · next hold =>
      cases h
      rcases hold with rfl | ⟨t, rfl⟩
      · exact ⟨[], .inl rfl, by simp, by simpa using htrim []⟩
      · refine ⟨[slash] ++ t, .inr ⟨t, rfl⟩, List.append_assoc .., ?_⟩
        rw [List.append_assoc, htrim]
    · cases h
  · rintro ⟨t, ht, rfl, rfl⟩
    rw [if_pos, htrim]
    rcases ht with rfl | ⟨u, rfl⟩
    · exact .inl (List.append_nil old)
    · exact .inr ⟨u, List.append_assoc ..⟩

theorem movedName_inj {old new a b name : GoString} (ha : movedName old new a = some name)
    (hb : movedName old new b = some name) : a = b := by
  obtain ⟨t, -, rfl, rfl⟩ := movedName_eq_some.1 ha
  obtain ⟨t', -, rfl, heq⟩ := movedName_eq_some.1 hb
  rw [List.append_cancel_left heq]

/-- On the names of paths, `movedName` moves a subtree. -/
theorem movedName_pathText {exports : FinMap GoString Export} {old q : List GoString}
    {new : List GoString} {name : GoString} (hold : Exported exports old) (hq : PlainParts q) :
    movedName (pathText old) (pathText new) (pathText q) = some name ↔
      ∃ r, q = old ++ r ∧ name = pathText (new ++ r) := by
  have hbelow := hold.plain.prefix_iff hq hold.ne_nil
  unfold movedName
  constructor
  · intro h
    split at h
    · next hc =>
      cases h
      obtain ⟨r, rfl⟩ := hbelow.1 hc
      exact ⟨r, rfl, by simp [trimPrefix]⟩
    · cases h
  · rintro ⟨r, rfl, rfl⟩
    rw [if_pos (hbelow.2 ⟨r, rfl⟩)]
    simp [trimPrefix]

/-! ## The table -/

/-- Each path of the table is in an export and has an entry of that name. -/
structure Filesystem.Table (fs : Filesystem) : Prop where
  entry : ∀ {n id}, fs.paths.get n = some id → ∃ e, fs.entries[id]? = some e ∧ e.name = n
  exported : ∀ {n id}, fs.paths.get n = some id → ∃ q, n = pathText q ∧ Exported fs.exports q

namespace Filesystem

variable {fs : Filesystem} {old new : GoString}

/-- An entry has one name. -/
theorem Table.inj (h : fs.Table) {n n' : GoString} {id : Nat} (hn : fs.paths.get n = some id)
    (hn' : fs.paths.get n' = some id) : n = n' := by
  obtain ⟨e, he, rfl⟩ := h.entry hn
  obtain ⟨e', he', rfl⟩ := h.entry hn'
  rw [he] at he'
  cases he'
  rfl

/-- An entry of the table after one was added is that one or was there before. -/
theorem Table.added_inv (h : fs.Table) {e e' : HandleEntry} {n : GoString} {id : Nat}
    (hn : (fs.addEntry e).paths.get n = some id) (he : (fs.addEntry e).entries[id]? = some e') :
    (n = e.name ∧ id = fs.entries.length ∧ e' = e) ∨
      (fs.paths.get n = some id ∧ fs.entries[id]? = some e') := by
  rcases FinMap.get_set_eq_some.1 hn with ⟨rfl, rfl⟩ | ⟨-, hn⟩
  · exact .inl ⟨rfl, rfl, by simpa [Filesystem.addEntry] using he.symm⟩
  · obtain ⟨e₀, he₀, -⟩ := h.entry hn
    have hsame : (fs.addEntry e).entries[id]? = some e₀ := getElem?_concat.2 (.inr he₀)
    rw [he] at hsame
    cases hsame
    exact .inr ⟨hn, he₀⟩

/-- The table with a new entry. -/
theorem Table.addEntry (h : fs.Table) {e : HandleEntry} {q : List GoString}
    (hname : e.name = pathText q) (hq : Exported fs.exports q) : (fs.addEntry e).Table where
  entry := fun {n id} hn => by
    rcases FinMap.get_set_eq_some.1 hn with ⟨rfl, rfl⟩ | ⟨-, hn'⟩
    · exact ⟨e, by simp [Filesystem.addEntry], rfl⟩
    · obtain ⟨e', he', hname'⟩ := h.entry hn'
      exact ⟨e', getElem?_concat.2 (.inr he'), hname'⟩
  exported := fun {n id} hn => by
    rcases FinMap.get_set_eq_some.1 hn with ⟨rfl, rfl⟩ | ⟨-, hn'⟩
    · exact ⟨q, hname, hq⟩
    · exact h.exported hn'

theorem Table.forget (h : fs.Table) (name : GoString) : (fs.forget name).Table where
  entry := fun hn => h.entry (FinMap.get_erase_eq_some.1 hn).2
  exported := fun hn => h.exported (FinMap.get_erase_eq_some.1 hn).2

/-! ## The table after a rename -/

/-- What a name leads to after a rename. -/
theorem paths_moveEntries {n' : GoString} {id : Nat} :
    (fs.moveEntries old new).paths.get n' = some id ↔
      (∃ n, movedName old new n = some n' ∧ n ≠ new ∧ fs.paths.get n = some id) ∨
        ((∀ n, movedName old new n = some n' → (fs.paths.erase new).get n = none) ∧
          movedName old new n' = none ∧ n' ≠ new ∧ fs.paths.get n' = some id) := by
  have h := FinMap.get_moveKeys (m := fs.paths.erase new) (k := n') (v := id)
    (f := movedName old new) movedName_inj
  simp only [FinMap.get_erase_eq_some] at h
  exact h

/-- No entry moves twice. -/
theorem Table.moved_nodup (h : fs.Table) :
    (((fs.paths.erase new).moved (movedName old new)).map Prod.snd).Nodup := by
  refine List.Nodup.map_on ?_ (List.Nodup.of_map _ (FinMap.nodup_moved _ movedName_inj))
  rintro ⟨a, id⟩ ha ⟨b, id'⟩ hb heq
  cases heq
  obtain ⟨n, hn, hget⟩ := FinMap.mem_moved.1 ha
  obtain ⟨n', hn', hget'⟩ := FinMap.mem_moved.1 hb
  rw [h.inj (FinMap.get_erase_eq_some.1 hget).2 (FinMap.get_erase_eq_some.1 hget').2, hn'] at hn
  cases hn
  rfl

/-- An entry whose path moves gets the new name. -/
theorem Table.entry_moved (h : fs.Table) {n n' : GoString} {id : Nat} {e : HandleEntry}
    (hmove : movedName old new n = some n') (hne : n ≠ new) (hn : fs.paths.get n = some id)
    (he : fs.entries[id]? = some e) :
    (fs.moveEntries old new).entries[id]? = some { e with name := n' } := by
  have hmem : (n', id) ∈ (fs.paths.erase new).moved (movedName old new) :=
    FinMap.mem_moved.2 ⟨n, hmove, FinMap.get_erase_eq_some.2 ⟨hne, hn⟩⟩
  have hget : (fs.moveEntries old new).entries[id]? =
      fs.entries[id]?.map fun e => { e with name := n' } :=
    getElem?_foldl_modify_of_mem (f := fun n (e : HandleEntry) => { e with name := n })
      h.moved_nodup hmem
  rw [hget, he]
  rfl

/-- An entry that is not at a path that moves stays as it is. -/
theorem entry_stays {id : Nat}
    (h : ∀ n n', fs.paths.get n = some id → movedName old new n = some n' → n = new) :
    (fs.moveEntries old new).entries[id]? = fs.entries[id]? := by
  refine getElem?_foldl_modify_of_not_mem
    (f := fun n (e : HandleEntry) => { e with name := n }) fun hmem => ?_
  obtain ⟨⟨n', id'⟩, hpair, rfl⟩ := List.mem_map.1 hmem
  obtain ⟨n, hn, hget⟩ := FinMap.mem_moved.1 hpair
  obtain ⟨hne, hget⟩ := FinMap.get_erase_eq_some.1 hget
  exact hne (h n n' hget hn)

/-- Where an entry of the table was before a rename: it has moved, or stayed. -/
theorem Table.moved_inv (h : fs.Table) {n' : GoString} {id : Nat}
    (hn' : (fs.moveEntries old new).paths.get n' = some id) :
    ∃ n e, fs.paths.get n = some id ∧ fs.entries[id]? = some e ∧ n ≠ new ∧
      (fs.moveEntries old new).entries[id]? = some { e with name := n' } ∧
        (movedName old new n = some n' ∨ (movedName old new n = none ∧ n' = n)) := by
  rcases paths_moveEntries.1 hn' with ⟨n, hmove, hne, hn⟩ | ⟨-, hstay, hne, hn⟩
  · obtain ⟨e, he, -⟩ := h.entry hn
    exact ⟨n, e, hn, he, hne, h.entry_moved hmove hne hn he, .inl hmove⟩
  · obtain ⟨e, he, rfl⟩ := h.entry hn
    refine ⟨e.name, e, hn, he, hne, ?_, .inr ⟨hstay, rfl⟩⟩
    rw [entry_stays fun n n' hget hmove => ?_, he]
    rw [h.inj hget hn, hstay] at hmove
    cases hmove

/-- A rename changes nothing but the names of entries. -/
theorem Table.entries_moveEntries (h : fs.Table) {id : Nat} {e' : HandleEntry}
    (he' : (fs.moveEntries old new).entries[id]? = some e') :
    ∃ e, fs.entries[id]? = some e ∧ e'.info = e.info ∧ e'.handle = e.handle := by
  by_cases hmove : ∃ n n', fs.paths.get n = some id ∧ movedName old new n = some n' ∧ n ≠ new
  · obtain ⟨n, n', hn, hmove, hne⟩ := hmove
    obtain ⟨e, he, -⟩ := h.entry hn
    rw [h.entry_moved hmove hne hn he] at he'
    cases he'
    exact ⟨e, he, rfl, rfl⟩
  · rw [entry_stays fun n n' hn hn' => by_contra fun hne => hmove ⟨n, n', hn, hn', hne⟩] at he'
    exact ⟨e', he', rfl, rfl⟩

/-- The table after a rename. -/
theorem Table.moveEntries (h : fs.Table) {old new : List GoString} (hold : Exported fs.exports old)
    (hnew : Exported fs.exports new) :
    (fs.moveEntries (pathText old) (pathText new)).Table where
  entry := fun {n' id} hn' => by
    obtain ⟨n, e, -, -, -, he', -⟩ := h.moved_inv hn'
    exact ⟨_, he', rfl⟩
  exported := fun {n' id} hn' => by
    obtain ⟨n, e, hn, -, -, -, hmove⟩ := h.moved_inv hn'
    obtain ⟨q, rfl, hq⟩ := h.exported hn
    rcases hmove with hmove | ⟨-, rfl⟩
    · obtain ⟨r, rfl, rfl⟩ := (movedName_pathText hold hq.plain).1 hmove
      exact ⟨new ++ r, rfl, hnew.append fun k hk => hq.names k (List.mem_append_right _ hk)⟩
    · exact ⟨q, rfl, hq⟩

end Filesystem

/-! ## Changes -/

/-- No path but `name` leads to the object with the number `ino`. -/
def OnlyAt (t : Tree) (ino : Nat) (name : GoString) : Prop :=
  ∀ ⦃p n⦄, t.lookup p = some n → n.ino = ino → pathText p = name

/-- What a call of the adapter does, step by step. When `placed` holds, entries are only added for
objects that are nowhere else. -/
inductive Change (placed : Prop) : State Machine → State Machine → Prop
  | refl (s : State Machine) : Change placed s s
  | opened (s : State Machine) {l : List (Option Node)} :
      (∀ n, some n ∈ l → some n ∈ s.world.opened ∨ ∃ q, s.world.tree.lookup q = some n) →
      Change placed s ⟨s.fs, { s.world with opened := l }⟩
  | created (s : State Machine) {q : List GoString} {dir : Bool} {tree : Tree} :
      s.world.tree.create q dir = some tree → Change placed s ⟨s.fs, { s.world with tree }⟩
  | added (s : State Machine) {q : List GoString} {info : Info} :
      Exported s.fs.exports q → info.ident < s.world.tree.next →
      (placed → OnlyAt s.world.tree info.ident (pathText q)) →
      Change placed s ⟨s.fs.addEntry ⟨pathText q, info, s.world.random s.world.drawn⟩,
        { s.world with drawn := s.world.drawn + 1 }⟩
  | removed (s : State Machine) {q : List GoString} {tree : Tree} :
      Exported s.fs.exports q → s.world.tree.remove q = some tree →
      Change placed s ⟨s.fs.forget (pathText q), { s.world with tree }⟩
  | renamed (s : State Machine) {old new : List GoString} {tree : Tree} :
      Exported s.fs.exports old → Exported s.fs.exports new →
      s.world.tree.rename old new = some tree →
      Change placed s ⟨s.fs.moveEntries (pathText old) (pathText new), { s.world with tree }⟩
  | trans {s s₁ s' : State Machine} : Change placed s s₁ → Change placed s₁ s' → Change placed s s'

/-- The table is in order, and the objects it and the open files refer to were in the tree. -/
structure Sound (s : State Machine) : Prop where
  table : s.fs.Table
  known : ∀ {id : Nat} {e : HandleEntry}, s.fs.entries[id]? = some e →
    e.info.ident < s.world.tree.next
  opened : ∀ {n}, some n ∈ s.world.opened → n.ino < s.world.tree.next

/-- Every entry of the table is found by its handle, and handles come from `crypto/rand`. -/
structure Keyed (s : State Machine) : Prop where
  key : ∀ {n : GoString} {id : Nat} {e : HandleEntry},
    s.fs.paths.get n = some id → s.fs.entries[id]? = some e → s.fs.handles.get e.handle = some id
  drawn : ∀ {id : Nat} {e : HandleEntry}, s.fs.entries[id]? = some e →
    ∃ i < s.world.drawn, e.handle = s.world.random i

/-- The first `n` handles are different, from each other and from that of the virtual root. -/
structure Distinct (random : Nat → Handle) (n : Nat) : Prop where
  inj : ∀ i < n, ∀ j < n, random i = random j → i = j
  not_root : ∀ i < n, random i ≠ rootHandle

theorem Distinct.mono {random : Nat → Handle} {m n : Nat} (h : Distinct random n) (hle : m ≤ n) :
    Distinct random m :=
  ⟨fun i hi j hj => h.inj i (hi.trans_le hle) j (hj.trans_le hle),
    fun i hi => h.not_root i (hi.trans_le hle)⟩

/-- The objects of the table are at the names of their entries, or gone. -/
def Placed (s : State Machine) : Prop :=
  ∀ ⦃n : GoString⦄ ⦃id : Nat⦄ ⦃e : HandleEntry⦄,
    s.fs.paths.get n = some id → s.fs.entries[id]? = some e → OnlyAt s.world.tree e.info.ident n

section
variable {placed : Prop} {s s' : State Machine}

theorem Change.exports (h : Change placed s s') : s'.fs.exports = s.fs.exports := by
  induction h with
  | refl | opened | created | added | removed | renamed => rfl
  | trans _ _ ih ih' => exact ih'.trans ih

theorem Change.random (h : Change placed s s') : s'.world.random = s.world.random := by
  induction h with
  | refl | opened | created | added | removed | renamed => rfl
  | trans _ _ ih ih' => exact ih'.trans ih

theorem Change.drawn_le (h : Change placed s s') : s.world.drawn ≤ s'.world.drawn := by
  induction h with
  | refl | opened | created | removed | renamed => exact Nat.le_refl _
  | added => exact Nat.le_succ _
  | trans _ _ ih ih' => exact ih.trans ih'

/-- A rename does not use up numbers. -/
theorem rename_next {t t' : Tree} {old new : List GoString} (h : t.rename old new = some t') :
    t'.next = t.next := by
  by_cases heq : old = new
  · subst heq
    rw [FileTree.rename_self h]
  · exact (FileTree.rename_spec h heq).2.1

/-- Every change keeps the table sound. -/
theorem Change.sound (h : Change placed s s') (hs : Sound s) : Sound s' := by
  induction h with
  | refl => exact hs
  | opened s hl =>
    refine ⟨hs.table, hs.known, fun {n} hn => ?_⟩
    rcases hl n hn with hn | ⟨q, hq⟩
    · exact hs.opened hn
    · exact s.world.tree.bound hq
  | created s hcreate =>
    have hnext := (FileTree.create_spec hcreate).1
    refine ⟨hs.table, fun he => ?_, fun hn => ?_⟩
    · exact hnext ▸ Nat.lt_succ_of_lt (hs.known he)
    · exact hnext ▸ Nat.lt_succ_of_lt (hs.opened hn)
  | added s hq hknown _ =>
    refine ⟨hs.table.addEntry rfl hq, fun {id e} he => ?_, hs.opened⟩
    rcases getElem?_concat.1 he with ⟨-, rfl⟩ | he
    · exact hknown
    · exact hs.known he
  | removed s _ hremove =>
    have hnext := (FileTree.remove_spec hremove).1
    exact ⟨hs.table.forget _, fun he => hnext ▸ hs.known he, fun hn => hnext ▸ hs.opened hn⟩
  | renamed s hold hnew hrename =>
    have hnext := rename_next hrename
    refine ⟨hs.table.moveEntries hold hnew, fun he => ?_, fun hn => hnext ▸ hs.opened hn⟩
    obtain ⟨e, he, hinfo, -⟩ := hs.table.entries_moveEntries he
    rw [hinfo]
    exact hnext ▸ hs.known he
  | trans _ _ ih ih' => exact ih' (ih hs)

/-- Handles that do not repeat find their entries. -/
theorem Change.keyed (h : Change placed s s')
    (hd : Distinct s'.world.random s'.world.drawn) (hs : Sound s) (hk : Keyed s) : Keyed s' := by
  induction h with
  | refl | opened | created => exact ⟨hk.key, hk.drawn⟩
  | added s hq _ _ =>
    refine ⟨fun {n id e} hn he => ?_, fun {id e} he => ?_⟩
    · rcases hs.table.added_inv hn he with ⟨rfl, rfl, rfl⟩ | ⟨hn, he⟩
      · exact FinMap.get_set_self ..
      · obtain ⟨i, hi, hhandle⟩ := hk.drawn he
        refine (FinMap.get_set_ne _ _ fun heq => ?_).trans (hk.key hn he)
        have hsame := hd.inj i (Nat.lt_succ_of_lt hi) s.world.drawn (Nat.lt_succ_self _)
          (hhandle.symm.trans heq)
        exact absurd hsame (Nat.ne_of_lt hi)
    · rcases getElem?_concat.1 he with ⟨-, rfl⟩ | he
      · exact ⟨s.world.drawn, Nat.lt_succ_self _, rfl⟩
      · obtain ⟨i, hi, hhandle⟩ := hk.drawn he
        exact ⟨i, Nat.lt_succ_of_lt hi, hhandle⟩
  | removed s _ _ =>
    exact ⟨fun hn he => hk.key (FinMap.get_erase_eq_some.1 hn).2 he, hk.drawn⟩
  | renamed s hold hnew _ =>
    refine ⟨fun {n id e} hn he => ?_, fun {id e} he => ?_⟩
    · obtain ⟨n₀, e₀, hn₀, he₀, -, he', -⟩ := hs.table.moved_inv hn
      have hkey := hk.key hn₀ he₀
      cases he'.symm.trans he
      exact hkey
    · obtain ⟨e₀, he₀, -, hhandle⟩ := hs.table.entries_moveEntries he
      rw [hhandle]
      exact hk.drawn he₀
  | trans h₁ h₂ ih ih' =>
    refine ih' hd (h₁.sound hs) (ih ?_ hs hk)
    exact h₂.random ▸ hd.mono h₂.drawn_le

/-- The names in a tree are plain. -/
theorem plainParts_of_lookup {t : Tree} {p : List GoString} {n : Node} (h : t.lookup p = some n) :
    PlainParts p := fun k hk => (t.names h k hk).1

/-- The object at a path is only there. -/
theorem onlyAt_of_lookup {t : Tree} {q : List GoString} {n : Node} (h : t.lookup q = some n) :
    OnlyAt t n.ino (pathText q) := fun p m hm hino => by rw [t.unique hm h hino]

/-- An object that was only at one place is only at the place it moves to. -/
theorem OnlyAt.rename {t t' : Tree} {old new : List GoString} {ino : Nat} {n n' : GoString}
    (h : OnlyAt t ino n) (hrename : t.rename old new = some t') (hne : old ≠ new)
    (hmove : ∀ r, PlainParts (old ++ r) → n = pathText (old ++ r) → n' = pathText (new ++ r))
    (hstay : ∀ p, PlainParts p → ¬ old <+: p → n = pathText p → n' = n) : OnlyAt t' ino n' := by
  intro p m hm hino
  obtain ⟨-, -, hlookup⟩ := FileTree.rename_spec hrename hne
  rw [hlookup] at hm
  split at hm
  · next hp =>
    obtain ⟨r, rfl⟩ := hp
    rw [List.drop_left] at hm
    exact (hmove r (plainParts_of_lookup hm) (h hm hino).symm).symm
  · split at hm
    · cases hm
    · next hold =>
      rw [h hm hino]
      exact (hstay p (plainParts_of_lookup hm) hold (h hm hino).symm).symm

/-- Every change in place keeps the entries in place. -/
theorem Placed.change (hp : Placed s) (hs : Sound s) (h : Change True s s') : Placed s' := by
  induction h with
  | refl | opened => exact hp
  | created s hcreate =>
    intro n id e hn he p m hm hino
    rw [(FileTree.create_spec hcreate).2] at hm
    split at hm
    · -- the number of a new object is in no entry
      cases hm
      exact absurd hino (Nat.ne_of_gt (hs.known he))
    · exact hp hn he hm hino
  | added s _ _ honly =>
    intro n id e hn he
    rcases hs.table.added_inv hn he with ⟨rfl, -, rfl⟩ | ⟨hn, he⟩
    · exact honly trivial
    · exact hp hn he
  | removed s _ hremove =>
    intro n id e hn he p m hm hino
    rw [(FileTree.remove_spec hremove).2] at hm
    split at hm
    · cases hm
    · exact hp (FinMap.get_erase_eq_some.1 hn).2 he hm hino
  | @renamed s old new tree hold hnew hrename =>
    intro n' id e' hn' he'
    obtain ⟨n, e, hn, he, -, hmoved, hname⟩ := hs.table.moved_inv hn'
    have hplaced := hp hn he
    cases hmoved.symm.trans he'
    by_cases heq : old = new
    · -- nothing moves
      subst heq
      have htree : tree = s.world.tree := FileTree.rename_self hrename
      have hsame : n' = n := by
        rcases hname with hname | ⟨-, rfl⟩
        · obtain ⟨t, -, rfl, rfl⟩ := movedName_eq_some.1 hname
          rfl
        · rfl
      rw [hsame]
      exact htree ▸ hplaced
    · obtain ⟨q, rfl, hq⟩ := hs.table.exported hn
      refine hplaced.rename hrename heq (fun r hr hqr => ?_) fun p hplain hp hpq => ?_
      · have hmove := (movedName_pathText hold hq.plain).2
          ⟨r, hq.plain.pathText_inj hr hqr, (rfl : pathText (new ++ r) = _)⟩
        rcases hname with hname | ⟨hname, -⟩
        · exact Option.some.inj (hname.symm.trans hmove)
        · rw [hname] at hmove
          cases hmove
      · rcases hname with hname | ⟨-, rfl⟩
        · obtain ⟨r, rfl, -⟩ := (movedName_pathText hold hq.plain).1 hname
          exact absurd ⟨r, hq.plain.pathText_inj hplain hpq⟩ hp
        · rfl
  | trans h₁ _ ih ih' => exact ih' (ih hp hs) (h₁.sound hs)

end

end InfraBox.Nfs
