import InfraBox.Lib.FinMap

/-!
# Trees of files

A directory tree as an operating system keeps it, seen through paths: each path leads to at most one
object, an object is identified by its inode number, and it has one path only (there are no links).
Numbers are never reused. The operations are those of POSIX on such a tree, and fail where it makes
them fail; `FileTree.rename_spec` says where every path leads after a rename.

The names a tree may hold are a parameter, `valid`.
-/

namespace InfraBox

/-- A file or a directory. -/
structure Node where
  ino : Nat
  dir : Bool
deriving DecidableEq

/-- A tree of files. -/
structure FileTree (K : Type) [LinearOrder K] (valid : K → Prop) where
  nodes : FinMap (List K) Node
  /-- Numbers from here on have not been used. -/
  next : Nat
  parent : ∀ {p : List K} {k : K} {n : Node}, nodes.get (p ++ [k]) = some n →
    ∃ d, nodes.get p = some d ∧ d.dir = true
  unique : ∀ {p q : List K} {m n : Node}, nodes.get p = some m → nodes.get q = some n →
    m.ino = n.ino → p = q
  bound : ∀ {p : List K} {n : Node}, nodes.get p = some n → n.ino < next
  names : ∀ {p : List K} {n : Node}, nodes.get p = some n → ∀ k ∈ p, valid k

namespace FileTree

variable {K : Type} [LinearOrder K] {valid : K → Prop} {t t' : FileTree K valid}

/-- The object a path leads to. -/
def lookup (t : FileTree K valid) (p : List K) : Option Node := t.nodes.get p

/-- Whether there is an object below a path. -/
def occupied (t : FileTree K valid) (p : List K) : Bool :=
  t.nodes.any fun q _ => p <+: q && q ≠ p

theorem occupied_eq_false {p : List K} (h : t.occupied p = false) {q : List K} (hq : q ≠ []) :
    t.lookup (p ++ q) = none := by
  refine Option.eq_none_iff_forall_ne_some.2 fun n hn => ?_
  have := FinMap.any_eq_false.1 h (p ++ q) n hn
  simp [hq] at this

/-! ## Removing -/

/-- Removes a file or an empty directory. -/
def remove (t : FileTree K valid) (q : List K) : Option (FileTree K valid) :=
  if h : q ≠ [] ∧ (t.lookup q).isSome ∧ t.occupied q = false then
    some {
      nodes := t.nodes.erase q
      next := t.next
      parent := fun {p k n} hn => by
        have hkeep := (FinMap.get_erase_eq_some.1 hn).2
        obtain ⟨d, hd, hdir⟩ := t.parent hkeep
        refine ⟨d, FinMap.get_erase_eq_some.2 ⟨?_, hd⟩, hdir⟩
        rintro rfl
        have hnone : t.nodes.get (p ++ [k]) = none :=
          occupied_eq_false h.2.2 (List.cons_ne_nil k [])
        rw [hnone] at hkeep
        cases hkeep
      unique := fun hm hn =>
        t.unique (FinMap.get_erase_eq_some.1 hm).2 (FinMap.get_erase_eq_some.1 hn).2
      bound := fun hn => t.bound (FinMap.get_erase_eq_some.1 hn).2
      names := fun hn => t.names (FinMap.get_erase_eq_some.1 hn).2 }
  else none

/-- Removing changes what one path leads to. -/
theorem remove_spec {q : List K} (h : t.remove q = some t') :
    t'.next = t.next ∧ ∀ p, t'.lookup p = if p = q then none else t.lookup p := by
  unfold remove at h
  split at h
  · cases h
    refine ⟨rfl, fun p => ?_⟩
    exact (FinMap.get_erase t.nodes q p).trans (by congr)
  · cases h

/-! ## Renaming -/

/-- Where an object below `old` goes. -/
def movedPath (old new p : List K) : Option (List K) :=
  if old <+: p then some (new ++ p.drop old.length) else none

/-- A path moves when it is at or below the old one. -/
theorem movedPath_eq_some {old new p q : List K} :
    movedPath old new p = some q ↔ ∃ r, p = old ++ r ∧ q = new ++ r := by
  unfold movedPath
  split
  · next h =>
    obtain ⟨r, rfl⟩ := h
    simp only [List.drop_left, Option.some.injEq, List.append_cancel_left_eq]
    exact ⟨fun h => ⟨r, rfl, h.symm⟩, fun ⟨r', hr, h⟩ => hr ▸ h.symm⟩
  · next h =>
    refine ⟨fun h => (by cases h), ?_⟩
    rintro ⟨r, rfl, -⟩
    exact absurd ⟨r, rfl⟩ h

theorem movedPath_inj {old new a b q : List K} (ha : movedPath old new a = some q)
    (hb : movedPath old new b = some q) : a = b := by
  obtain ⟨r, rfl, rfl⟩ := movedPath_eq_some.1 ha
  obtain ⟨r', rfl, heq⟩ := movedPath_eq_some.1 hb
  rw [List.append_cancel_left heq]

/-- When an object at `old` can take the place `new`: the directory of `new` exists, `new` is not
below `old`, and what is at `new` is of the same kind and, if a directory, empty. -/
structure Renames (t : FileTree K valid) (old new : List K) : Prop where
  new_ne_nil : new ≠ []
  new_valid : ∀ k ∈ new, valid k
  apart : ¬ old <+: new
  parent : (t.lookup new.dropLast).any (·.dir) = true
  kind : (t.lookup new).all (fun m => (t.lookup old).any fun n => m.dir = n.dir) = true
  empty : t.occupied new = false
  source : (t.lookup old).isSome

/-- Where every path leads after the objects have moved. -/
theorem Renames.get_moved {old new : List K} (h : t.Renames old new) (p : List K) :
    ((t.nodes.erase new).moveKeys (movedPath old new)).get p =
      if new <+: p then t.lookup (old ++ p.drop new.length)
      else if old <+: p then none else t.lookup p := by
  have hnew : ∀ r, old ++ r ≠ new := fun r heq => h.apart ⟨r, heq⟩
  have hsource : ∀ r n, (t.nodes.erase new).get (old ++ r) = some n ↔
      t.lookup (old ++ r) = some n := fun r n => by
    rw [FinMap.get_erase_eq_some]
    exact and_iff_right (hnew r)
  refine Option.ext fun n => ?_
  rw [FinMap.get_moveKeys movedPath_inj]
  split
  · -- at or below `new` there is what was at or below `old`
    next hp =>
    obtain ⟨r, rfl⟩ := hp
    rw [List.drop_left]
    constructor
    · rintro (⟨p', hp', hn⟩ | ⟨-, -, hn⟩)
      · obtain ⟨r', rfl, heq⟩ := movedPath_eq_some.1 hp'
        rw [List.append_cancel_left heq]
        exact (hsource r' n).1 hn
      · obtain ⟨hne, hn⟩ := FinMap.get_erase_eq_some.1 hn
        have hr : r ≠ [] := by
          rintro rfl
          exact hne (by simp)
        rw [show t.nodes.get (new ++ r) = none from occupied_eq_false h.empty hr] at hn
        cases hn
    · intro hn
      exact .inl ⟨old ++ r, movedPath_eq_some.2 ⟨r, rfl, rfl⟩, (hsource r n).2 hn⟩
  next hp =>
  have hno : ∀ p', movedPath old new p' ≠ some p := fun p' hp' => by
    obtain ⟨r, -, rfl⟩ := movedPath_eq_some.1 hp'
    exact hp ⟨r, rfl⟩
  split
  · next hold =>
    refine ⟨?_, fun hn => (by cases hn)⟩
    rintro (⟨p', hp', -⟩ | ⟨-, hstay, -⟩)
    · exact absurd hp' (hno p')
    · rw [movedPath, if_pos hold] at hstay
      cases hstay
  · next hold =>
    have hpn : p ≠ new := by
      rintro rfl
      exact hp List.prefix_rfl
    have hget : (t.nodes.erase new).get p = some n ↔ t.lookup p = some n := by
      rw [FinMap.get_erase_eq_some]
      exact and_iff_right hpn
    constructor
    · rintro (⟨p', hp', -⟩ | ⟨-, -, hn⟩)
      · exact absurd hp' (hno p')
      · exact hget.1 hn
    · intro hn
      exact .inr ⟨fun p' hp' => absurd hp' (hno p'), if_neg hold, hget.2 hn⟩

/-- An object after the move was at a path of its own before. -/
theorem Renames.source_of {old new p : List K} {n : Node} (h : t.Renames old new)
    (hn : ((t.nodes.erase new).moveKeys (movedPath old new)).get p = some n) :
    (∃ r, p = new ++ r ∧ t.lookup (old ++ r) = some n) ∨
      (¬ new <+: p ∧ ¬ old <+: p ∧ t.lookup p = some n) := by
  rw [h.get_moved] at hn
  split at hn
  · next hp =>
    obtain ⟨r, rfl⟩ := hp
    rw [List.drop_left] at hn
    exact .inl ⟨r, rfl, hn⟩
  · next hp =>
    split at hn
    · cases hn
    · next hold => exact .inr ⟨hp, hold, hn⟩

instance [DecidablePred valid] (old new : List K) : Decidable (t.Renames old new) :=
  decidable_of_iff (new ≠ [] ∧ (∀ k ∈ new, valid k) ∧ ¬ old <+: new ∧
    (t.lookup new.dropLast).any (·.dir) = true ∧
    (t.lookup new).all (fun m => (t.lookup old).any fun n => m.dir = n.dir) = true ∧
    t.occupied new = false ∧ (t.lookup old).isSome)
    ⟨fun ⟨h₁, h₂, h₃, h₄, h₅, h₆, h₇⟩ => ⟨h₁, h₂, h₃, h₄, h₅, h₆, h₇⟩,
      fun h => ⟨h.new_ne_nil, h.new_valid, h.apart, h.parent, h.kind, h.empty, h.source⟩⟩

/-- Renames an object; renaming it to itself changes nothing. -/
def rename [DecidablePred valid] (t : FileTree K valid) (old new : List K) :
    Option (FileTree K valid) :=
  if old = new then if (t.lookup old).isSome then some t else none
  else if h : t.Renames old new then
    some {
      nodes := (t.nodes.erase new).moveKeys (movedPath old new)
      next := t.next
      parent := fun {p k n} hn => by
        rcases h.source_of hn with ⟨r, hr, hat⟩ | ⟨hnew, hold, hat⟩
        · rcases List.eq_nil_or_concat r with rfl | ⟨r', k', rfl⟩
          · -- `new` itself: its directory has not moved
            rw [List.append_nil] at hr
            obtain ⟨d, hd, hdir⟩ := (Option.any_eq_true _ _).1 h.parent
            rw [← hr, List.dropLast_concat] at hd
            refine ⟨d, ?_, hdir⟩
            rw [h.get_moved, if_neg, if_neg, hd]
            · exact fun hp => h.apart (hr ▸ hp.trans (List.prefix_append p [k]))
            · intro hp
              have := hp.length_le
              rw [← hr, List.length_append, List.length_singleton] at this
              omega
          · rw [List.concat_eq_append, ← List.append_assoc] at hr hat
            obtain ⟨rfl, hk⟩ := List.append_inj' hr rfl
            obtain ⟨d, hd, hdir⟩ := t.parent hat
            refine ⟨d, ?_, hdir⟩
            rw [h.get_moved, if_pos ⟨r', rfl⟩, List.drop_left]
            exact hd
        · obtain ⟨d, hd, hdir⟩ := t.parent hat
          refine ⟨d, ?_, hdir⟩
          rw [h.get_moved, if_neg fun hp => hnew (hp.trans (List.prefix_append p [k])),
            if_neg fun hp => hold (hp.trans (List.prefix_append p [k]))]
          exact hd
      unique := fun {p q m n} hm hn hino => by
        rcases h.source_of hm with ⟨r, rfl, hm'⟩ | ⟨-, hold, hm'⟩
        · rcases h.source_of hn with ⟨r', rfl, hn'⟩ | ⟨-, hold', hn'⟩
          · rw [List.append_cancel_left (t.unique hm' hn' hino)]
          · exact absurd ⟨r, t.unique hm' hn' hino⟩ hold'
        · rcases h.source_of hn with ⟨r', rfl, hn'⟩ | ⟨-, -, hn'⟩
          · exact absurd ⟨r', (t.unique hm' hn' hino).symm⟩ hold
          · exact t.unique hm' hn' hino
      bound := fun hn => by
        rcases h.source_of hn with ⟨r, -, hat⟩ | ⟨-, -, hat⟩
        · exact t.bound hat
        · exact t.bound hat
      names := fun hn k hk => by
        rcases h.source_of hn with ⟨r, rfl, hat⟩ | ⟨-, -, hat⟩
        · rcases List.mem_append.1 hk with hk | hk
          · exact h.new_valid k hk
          · exact t.names hat k (List.mem_append_right _ hk)
        · exact t.names hat k hk }
  else none

/-- Where every path leads after a rename to another path. -/
theorem rename_spec [DecidablePred valid] {old new : List K} (h : t.rename old new = some t')
    (hne : old ≠ new) :
    t.Renames old new ∧ t'.next = t.next ∧ ∀ p, t'.lookup p =
      if new <+: p then t.lookup (old ++ p.drop new.length)
      else if old <+: p then none else t.lookup p := by
  unfold rename at h
  rw [if_neg hne] at h
  split at h
  · next hc =>
    cases h
    exact ⟨hc, rfl, hc.get_moved⟩
  · cases h

theorem rename_self [DecidablePred valid] {p : List K} (h : t.rename p p = some t') : t' = t := by
  unfold rename at h
  rw [if_pos rfl] at h
  split at h
  · cases h
    rfl
  · cases h

/-! ## Creating -/

/-- Creates a file or a directory in an existing directory. -/
def create [DecidablePred valid] (t : FileTree K valid) (q : List K) (dir : Bool) :
    Option (FileTree K valid) :=
  if h : q ≠ [] ∧ (∀ k ∈ q, valid k) ∧ (t.lookup q.dropLast).any (·.dir) = true ∧
      t.lookup q = none then
    some {
      nodes := t.nodes.set q ⟨t.next, dir⟩
      next := t.next + 1
      parent := fun {p k n} hn => by
        have hne : p ≠ q → ∀ d, t.nodes.get p = some d → (t.nodes.set q ⟨t.next, dir⟩).get p =
            some d := fun hp d hd => by rw [FinMap.get_set_ne _ _ hp, hd]
        rcases FinMap.get_set_eq_some.1 hn with ⟨rfl, rfl⟩ | ⟨-, hn⟩
        · obtain ⟨d, hd, hdir⟩ := (Option.any_eq_true _ _).1 h.2.2.1
          rw [List.dropLast_concat] at hd
          exact ⟨d, hne (by simp) d hd, hdir⟩
        · obtain ⟨d, hd, hdir⟩ := t.parent hn
          refine ⟨d, hne ?_ d hd, hdir⟩
          rintro rfl
          rw [show t.nodes.get p = none from h.2.2.2] at hd
          cases hd
      unique := fun {p p' m n} hm hn hino => by
        rcases FinMap.get_set_eq_some.1 hm with ⟨hp, rfl⟩ | ⟨-, hm'⟩
        · rcases FinMap.get_set_eq_some.1 hn with ⟨hp', -⟩ | ⟨-, hn'⟩
          · exact hp.trans hp'.symm
          · exact absurd hino (Nat.ne_of_gt (t.bound hn'))
        · rcases FinMap.get_set_eq_some.1 hn with ⟨-, rfl⟩ | ⟨-, hn'⟩
          · exact absurd hino (Nat.ne_of_lt (t.bound hm'))
          · exact t.unique hm' hn' hino
      bound := fun hn => by
        rcases FinMap.get_set_eq_some.1 hn with ⟨-, rfl⟩ | ⟨-, hn⟩
        · exact Nat.lt_succ_self _
        · exact Nat.lt_succ_of_lt (t.bound hn)
      names := fun hn => by
        rcases FinMap.get_set_eq_some.1 hn with ⟨rfl, -⟩ | ⟨-, hn⟩
        · exact h.2.1
        · exact t.names hn }
  else none

/-- Creating changes what one path leads to. -/
theorem create_spec [DecidablePred valid] {q : List K} {dir : Bool} (h : t.create q dir = some t') :
    t'.next = t.next + 1 ∧
      ∀ p, t'.lookup p = if p = q then some ⟨t.next, dir⟩ else t.lookup p := by
  unfold create at h
  split at h
  · cases h
    refine ⟨rfl, fun p => ?_⟩
    exact (FinMap.get_set t.nodes q p _).trans (by congr)
  · cases h

/-- The tree that holds only its root. -/
def bare : FileTree K valid where
  nodes := FinMap.empty.set [] ⟨0, true⟩
  next := 1
  parent := fun {p k n} hn => by simp [FinMap.get_set] at hn
  unique := fun {p q m n} hm hn _ => by
    rcases FinMap.get_set_eq_some.1 hm with ⟨hp, -⟩ | ⟨-, h⟩
    · rcases FinMap.get_set_eq_some.1 hn with ⟨hq, -⟩ | ⟨-, h⟩
      · exact hp.trans hq.symm
      · simp at h
    · simp at h
  bound := fun hn => by
    rcases FinMap.get_set_eq_some.1 hn with ⟨-, rfl⟩ | ⟨-, h⟩
    · exact Nat.zero_lt_one
    · simp at h
  names := fun {p n} hn k hk => by
    rcases FinMap.get_set_eq_some.1 hn with ⟨rfl, -⟩ | ⟨-, h⟩
    · simp at hk
    · simp at h

/-- A tree that holds the given directories. -/
def ofDirs [DecidablePred valid] (dirs : List (List K)) : FileTree K valid :=
  dirs.foldl (fun t q => (t.create q true).getD t) bare

/-! ## Listing -/

/-- The objects in the directory with the number `ino`, with their names. -/
def children (t : FileTree K valid) (ino : Nat) : List (K × Node) :=
  t.nodes.entries.filterMap fun e => do
    let k ← e.1.getLast?
    let d ← t.lookup e.1.dropLast
    if d.ino = ino then some (k, e.2) else none

/-- A child of a directory is one name below it. -/
theorem mem_children {ino : Nat} {k : K} {n : Node} (h : (k, n) ∈ t.children ino) :
    ∃ p d, t.lookup p = some d ∧ d.ino = ino ∧ t.lookup (p ++ [k]) = some n := by
  simp only [children, List.mem_filterMap, Option.bind_eq_bind, Option.bind_eq_some_iff] at h
  obtain ⟨⟨q, n'⟩, hmem, k', hk, d, hd, hif⟩ := h
  split at hif
  · next hino =>
    cases hif
    refine ⟨q.dropLast, d, hd, hino, ?_⟩
    rw [List.dropLast_append_getLast? k hk]
    exact FinMap.mem_entries.1 hmem
  · cases hif

end FileTree

end InfraBox
