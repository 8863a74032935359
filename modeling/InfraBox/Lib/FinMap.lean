import Mathlib.Data.List.Sort
import Mathlib.Data.List.Lex

/-!
# Finite maps

A map value of the modelled program: a lookup function together with the strictly increasing list
of the keys it is defined on. The key list makes the size and the iterations over a map computable,
and because it is sorted, two maps with the same lookups are equal (`FinMap.ext_get`). An iteration
visits the keys in increasing order; where the program stops at the first hit, `FinMap.find` is
characterised by what every order of iteration gives (`FinMap.find_eq_some`, `FinMap.find_eq_none`).
-/

namespace InfraBox

/-- A finite map from `K` to `V`. -/
@[ext]
structure FinMap (K V : Type) [LinearOrder K] where
  keys : List K
  get : K → Option V
  sorted : keys.Pairwise (· < ·)
  mem_keys : ∀ k, k ∈ keys ↔ (get k).isSome

namespace FinMap

variable {K V W : Type} [LinearOrder K] {m : FinMap K V} {k : K} {p : K → V → Bool}

/-- Two maps with the same lookups are the same map. -/
theorem ext_get {m m' : FinMap K V} (h : ∀ k, m.get k = m'.get k) : m = m' := by
  have hget : m.get = m'.get := funext h
  have hkeys : m.keys = m'.keys := by
    refine List.Perm.eq_of_pairwise' (r := (· < ·)) m.sorted m'.sorted ?_
    refine (List.perm_ext_iff_of_nodup m.sorted.nodup m'.sorted.nodup).2 fun k => ?_
    rw [m.mem_keys, m'.mem_keys, h]
  cases m; cases m'; simp_all

instance [DecidableEq V] : DecidableEq (FinMap K V) := fun m m' =>
  decidable_of_iff (m.keys = m'.keys ∧ ∀ k ∈ m.keys, m.get k = m'.get k) <| by
    constructor
    · rintro ⟨hk, hg⟩
      refine ext_get fun k => ?_
      by_cases hm : k ∈ m.keys
      · exact hg k hm
      · have h1 := hm
        have h2 := hk ▸ hm
        rw [mem_keys, Option.not_isSome_iff_eq_none] at h1 h2
        rw [h1, h2]
    · rintro rfl
      exact ⟨rfl, fun _ _ => rfl⟩

/-- The map without entries. -/
def empty : FinMap K V := ⟨[], fun _ => none, .nil, by simp⟩

instance : Inhabited (FinMap K V) := ⟨empty⟩

@[simp] theorem get_empty (k : K) : (empty : FinMap K V).get k = none := rfl

/-- `m[k] = v`. -/
def set (m : FinMap K V) (k : K) (v : V) : FinMap K V where
  keys := if k ∈ m.keys then m.keys else m.keys.orderedInsert (· ≤ ·) k
  get k' := if k' = k then some v else m.get k'
  sorted := by
    split
    · exact m.sorted
    · next h =>
      have hle : (m.keys.orderedInsert (· ≤ ·) k).Pairwise (· ≤ ·) :=
        (m.sorted.imp le_of_lt).orderedInsert k _
      have hnd : (m.keys.orderedInsert (· ≤ ·) k).Nodup :=
        (List.perm_orderedInsert _ k m.keys).nodup_iff.2 (List.nodup_cons.2 ⟨h, m.sorted.nodup⟩)
      exact (hle.and hnd).imp fun h => lt_of_le_of_ne h.1 h.2
  mem_keys k' := by
    by_cases hk : k' = k
    · subst hk; simp only [if_true, Option.isSome_some, iff_true]; split
      · assumption
      · simp
    · simp only [hk, if_false]
      split
      · exact m.mem_keys k'
      · rw [List.mem_orderedInsert, ← m.mem_keys]; simp [hk]

@[simp] theorem get_set (m : FinMap K V) (k k' : K) (v : V) :
    (m.set k v).get k' = if k' = k then some v else m.get k' := rfl

theorem get_set_self (m : FinMap K V) (k : K) (v : V) : (m.set k v).get k = some v := by simp

theorem get_set_ne (m : FinMap K V) {k k' : K} (v : V) (h : k' ≠ k) :
    (m.set k v).get k' = m.get k' := by simp [h]

/-- An entry of the updated map is the new one or an old one under another key. -/
theorem get_set_eq_some {k k' : K} {v w : V} :
    (m.set k v).get k' = some w ↔ (k' = k ∧ v = w) ∨ (k' ≠ k ∧ m.get k' = some w) := by
  rw [get_set]
  split <;> simp_all

/-- Storing the value a key already has changes nothing. -/
theorem set_get_self {v : V} (h : m.get k = some v) : m.set k v = m := by
  refine ext_get fun k' => ?_
  rw [get_set]
  split
  · next heq => rw [heq, h]
  · rfl

/-- Overwriting an entry leaves a view of the map that does not tell the two values apart. -/
theorem map_get_set {v v' : V} (f : V → W) (hk : m.get k = some v)
    (hf : f v' = f v) (k' : K) : ((m.set k v').get k').map f = (m.get k').map f := by
  rw [get_set]
  split
  · next h => rw [h, hk, Option.map_some, Option.map_some, hf]
  · rfl

/-- Rewrites every entry with `f`, dropping those it maps to `none`. Every loop that deletes from
or updates the map it ranges over is of this form. -/
def filterMap (f : K → V → Option W) (m : FinMap K V) : FinMap K W where
  keys := m.keys.filter fun k => ((m.get k).bind (f k)).isSome
  get k := (m.get k).bind (f k)
  sorted := m.sorted.filter _
  mem_keys k := by
    simp only [List.mem_filter, m.mem_keys, and_iff_right_iff_imp]
    intro h
    cases hk : m.get k <;> simp_all

@[simp] theorem get_filterMap (f : K → V → Option W) (m : FinMap K V) (k : K) :
    (m.filterMap f).get k = (m.get k).bind (f k) := rfl

/-- The entries that satisfy `p`. -/
def filter (p : K → V → Bool) (m : FinMap K V) : FinMap K V :=
  m.filterMap fun k v => if p k v then some v else none

theorem get_filter (p : K → V → Bool) (m : FinMap K V) (k : K) :
    (m.filter p).get k = (m.get k).filter (p k) := by
  simp only [filter, get_filterMap]
  cases m.get k <;> simp [Option.filter]

/-- An entry survives `filter` exactly when it satisfies the predicate. -/
@[simp] theorem get_filter_eq_some {v : V} :
    (m.filter p).get k = some v ↔ m.get k = some v ∧ p k v := by
  rw [get_filter, Option.filter_eq_some_iff]

/-- `delete(m, k)`. -/
def erase (m : FinMap K V) (k : K) : FinMap K V := m.filter fun k' _ => k' ≠ k

@[simp] theorem get_erase (m : FinMap K V) (k k' : K) :
    (m.erase k).get k' = if k' = k then none else m.get k' := by
  simp only [erase, get_filter]
  by_cases h : k' = k <;> cases m.get k' <;> simp [h]

theorem get_erase_eq_some {k k' : K} {w : V} :
    (m.erase k).get k' = some w ↔ k' ≠ k ∧ m.get k' = some w := by
  rw [get_erase]
  split <;> simp_all

/-- Updates every value. -/
def mapVals (f : K → V → W) (m : FinMap K V) : FinMap K W := m.filterMap fun k v => some (f k v)

@[simp] theorem get_mapVals (f : K → V → W) (m : FinMap K V) (k : K) :
    (m.mapVals f).get k = (m.get k).map (f k) := by
  simp only [mapVals, get_filterMap]
  cases m.get k <;> rfl

/-- Updating every value leaves a view of the map that the update does not change. -/
theorem map_get_mapVals {f : K → V → V} (g : V → W) (h : ∀ k v, g (f k v) = g v)
    (k : K) : ((m.mapVals f).get k).map g = (m.get k).map g := by
  cases hk : m.get k <;> simp [hk, h]

/-! ## Size -/

/-- `len(m)`. -/
def size (m : FinMap K V) : Nat := m.keys.length

@[simp] theorem size_empty : (empty : FinMap K V).size = 0 := rfl

/-- A map whose keys are all keys of another is not larger. -/
theorem size_le_of_subset {m' : FinMap K W}
    (h : ∀ k, (m.get k).isSome → (m'.get k).isSome) : m.size ≤ m'.size := by
  refine (List.subperm_of_subset m.sorted.nodup fun k hk => ?_).length_le
  exact (m'.mem_keys k).2 (h k ((m.mem_keys k).1 hk))

/-- A map whose keys are among those of another, one key of which it lacks, is smaller. -/
theorem size_lt_of_subset {m' : FinMap K W} {k₀ : K}
    (h : ∀ k, (m.get k).isSome → (m'.get k).isSome) (h₀ : m.get k₀ = none)
    (h₀' : (m'.get k₀).isSome) : m.size < m'.size := by
  have hsub : (k₀ :: m.keys).Subperm m'.keys := by
    refine List.subperm_of_subset (List.nodup_cons.2 ⟨fun hk => ?_, m.sorted.nodup⟩) fun k hk => ?_
    · rw [m.mem_keys, h₀] at hk; cases hk
    · rw [m'.mem_keys]
      rcases List.mem_cons.1 hk with rfl | hk
      · exact h₀'
      · exact h k ((m.mem_keys k).1 hk)
  exact Nat.lt_of_succ_le hsub.length_le

theorem size_filterMap_le (f : K → V → Option W) (m : FinMap K V) :
    (m.filterMap f).size ≤ m.size := List.length_filter_le _ _

theorem size_set_le (m : FinMap K V) (k : K) (v : V) : (m.set k v).size ≤ m.size + 1 := by
  unfold size set
  split
  · exact Nat.le_succ _
  · rw [List.orderedInsert_length]

/-- Overwriting an entry keeps the size. -/
theorem size_set_of_mem (v : V) (h : (m.get k).isSome) :
    (m.set k v).size = m.size := by
  show (if k ∈ m.keys then m.keys else _).length = m.keys.length
  rw [if_pos ((m.mem_keys k).2 h)]

/-- Stores every value of a list under its own key. -/
theorem get_foldl_set {key : V → K} {l : List V} {w : V}
    (hnodup : (l.map key).Nodup) :
    (l.foldl (fun m v => m.set (key v) v) m).get k = some w ↔
      (w ∈ l ∧ key w = k) ∨ (k ∉ l.map key ∧ m.get k = some w) := by
  induction l generalizing m with
  | nil => simp
  | cons v l ih =>
    rw [List.map_cons, List.nodup_cons] at hnodup
    rw [List.foldl_cons, ih hnodup.2, get_set_eq_some, List.map_cons, List.mem_cons, List.mem_cons]
    constructor
    · rintro (⟨hw, rfl⟩ | ⟨hk, ⟨rfl, rfl⟩ | ⟨hne, hget⟩⟩)
      · exact .inl ⟨.inr hw, rfl⟩
      · exact .inl ⟨.inl rfl, rfl⟩
      · exact .inr ⟨not_or.2 ⟨hne, hk⟩, hget⟩
    · rintro (⟨rfl | hw, rfl⟩ | ⟨hk, hget⟩)
      · exact .inr ⟨hnodup.1, .inl ⟨rfl, rfl⟩⟩
      · exact .inl ⟨hw, rfl⟩
      · rw [not_or] at hk
        exact .inr ⟨hk.2, .inr ⟨hk.1, hget⟩⟩

/-- Each update adds one key at most. -/
theorem size_foldl_set_le (key : V → K) (l : List V) (m : FinMap K V) :
    (l.foldl (fun m v => m.set (key v) v) m).size ≤ m.size + l.length := by
  induction l generalizing m with
  | nil => exact Nat.le_refl _
  | cons v l ih =>
    have h := ih (m.set (key v) v)
    have h' := size_set_le m (key v) v
    rw [List.foldl_cons, List.length_cons]
    omega

/-! ## Iteration -/

/-- The entries, in increasing order of their keys. -/
def entries (m : FinMap K V) : List (K × V) := m.keys.filterMap fun k => (m.get k).map (k, ·)

@[simp] theorem mem_entries {v : V} :
    (k, v) ∈ m.entries ↔ m.get k = some v := by
  simp only [entries, List.mem_filterMap, Option.map_eq_some_iff, Prod.mk.injEq]
  constructor
  · rintro ⟨k', -, v', h, rfl, rfl⟩
    exact h
  · intro h
    exact ⟨k, (m.mem_keys k).2 (by simp [h]), v, h, rfl, rfl⟩

/-- The keys of the entries are the keys of the map. -/
theorem map_fst_entries (m : FinMap K V) : m.entries.map Prod.fst = m.keys := by
  have : ∀ l : List K, (∀ k ∈ l, (m.get k).isSome) →
      (l.filterMap fun k => (m.get k).map (k, ·)).map Prod.fst = l := by
    intro l
    induction l with
    | nil => simp
    | cons k l ih =>
      intro h
      obtain ⟨v, hv⟩ := Option.isSome_iff_exists.1 (h k (by simp))
      simp [hv, ih fun k' hk' => h k' (by simp [hk'])]
  exact this m.keys fun k hk => (m.mem_keys k).1 hk

/-- No entry occurs twice. -/
theorem nodup_entries (m : FinMap K V) : m.entries.Nodup :=
  List.Nodup.of_map Prod.fst (by rw [map_fst_entries]; exact m.sorted.nodup)

/-- The entries are pairwise related when the values under different keys are. -/
theorem pairwise_entries {R : K × V → K × V → Prop}
    (h : ∀ k k' v v', m.get k = some v → m.get k' = some v' → k ≠ k' → R (k, v) (k', v')) :
    m.entries.Pairwise R := by
  refine m.nodup_entries.imp_of_mem fun {e e'} he he' hne => ?_
  have hget := mem_entries.1 (show (e.1, e.2) ∈ m.entries from he)
  have hget' := mem_entries.1 (show (e'.1, e'.2) ∈ m.entries from he')
  refine h _ _ _ _ hget hget' fun heq => hne (Prod.ext heq ?_)
  rw [heq, hget'] at hget
  exact (Option.some.inj hget).symm

/-- The number of entries `filterMap` keeps. -/
theorem size_filterMap (f : K → V → Option W) (m : FinMap K V) :
    (m.filterMap f).size = m.entries.countP fun e => (f e.1 e.2).isSome := by
  have hkeys : (m.filterMap f).size =
      m.entries.countP fun e => ((m.get e.1).bind (f e.1)).isSome := by
    show (m.keys.filter _).length = _
    rw [← List.countP_eq_length_filter, ← map_fst_entries, List.countP_map]
    rfl
  rw [hkeys]
  refine List.countP_congr fun e he => ?_
  rw [mem_entries.1 (show (e.1, e.2) ∈ m.entries from he), Option.bind_some]

/-- Whether some entry satisfies `p`. -/
def any (p : K → V → Bool) (m : FinMap K V) : Bool := m.entries.any fun e => p e.1 e.2

@[simp] theorem any_eq_true :
    m.any p = true ↔ ∃ k v, m.get k = some v ∧ p k v = true := by
  simp only [any, List.any_eq_true, Prod.exists, mem_entries]

theorem any_eq_false :
    m.any p = false ↔ ∀ k v, m.get k = some v → p k v = false := by
  rw [← Bool.not_eq_true, any_eq_true]
  simp

/-- The first entry that satisfies `p`. -/
def find (p : K → V → Bool) (m : FinMap K V) : Option (K × V) := m.entries.find? fun e => p e.1 e.2

/-- What `find` returns is an entry that satisfies the predicate. -/
theorem find_eq_some {v : V}
    (h : m.find p = some (k, v)) : m.get k = some v ∧ p k v = true :=
  ⟨mem_entries.1 (List.mem_of_find?_eq_some h), by simpa using List.find?_some h⟩

/-- `find` returns nothing exactly when no entry satisfies the predicate. -/
theorem find_eq_none :
    m.find p = none ↔ ∀ k v, m.get k = some v → p k v = false := by
  simp only [find, List.find?_eq_none, Prod.forall, mem_entries, Bool.not_eq_true]

/-- When at most one entry satisfies the predicate, `find` returns it. -/
theorem find_of_unique {v : V}
    (hk : m.get k = some v) (hp : p k v = true)
    (huniq : ∀ k' v', m.get k' = some v' → p k' v' = true → k' = k) :
    m.find p = some (k, v) := by
  cases h : m.find p with
  | none => rw [find_eq_none] at h; rw [h k v hk] at hp; cases hp
  | some e =>
    obtain ⟨k', v'⟩ := e
    obtain ⟨h1, h2⟩ := find_eq_some h
    cases huniq k' v' h1 h2
    rw [hk] at h1; cases h1; rfl

/-! ## Moving entries to other keys -/

/-- Stores the pairs of a list, each under its own key. -/
theorem get_foldl_pairs {l : List (K × V)} {v : V}
    (hnodup : (l.map Prod.fst).Nodup) :
    (l.foldl (fun m e => m.set e.1 e.2) m).get k = some v ↔
      (k, v) ∈ l ∨ (k ∉ l.map Prod.fst ∧ m.get k = some v) := by
  induction l generalizing m with
  | nil => simp
  | cons e l ih =>
    obtain ⟨a, b⟩ := e
    rw [List.map_cons, List.nodup_cons] at hnodup
    rw [List.foldl_cons, ih hnodup.2, get_set_eq_some, List.map_cons, List.mem_cons, List.mem_cons,
      Prod.mk.injEq]
    constructor
    · rintro (hmem | ⟨hk, ⟨rfl, rfl⟩ | ⟨hne, hget⟩⟩)
      · exact .inl (.inr hmem)
      · exact .inl (.inl ⟨rfl, rfl⟩)
      · exact .inr ⟨not_or.2 ⟨hne, hk⟩, hget⟩
    · rintro ((⟨rfl, rfl⟩ | hmem) | ⟨hk, hget⟩)
      · exact .inr ⟨hnodup.1, .inl ⟨rfl, rfl⟩⟩
      · exact .inl hmem
      · rw [not_or] at hk
        exact .inr ⟨hk.2, .inr ⟨hk.1, hget⟩⟩

/-- The entries whose key `f` changes, under their new keys. -/
def moved (f : K → Option K) (m : FinMap K V) : List (K × V) :=
  m.entries.filterMap fun e => (f e.1).map (·, e.2)

/-- What is left of a map whose keys move. -/
theorem mem_moved {f : K → Option K} {v : V} :
    (k, v) ∈ m.moved f ↔ ∃ k', f k' = some k ∧ m.get k' = some v := by
  simp only [moved, List.mem_filterMap, Option.map_eq_some_iff, Prod.mk.injEq]
  constructor
  · rintro ⟨⟨a, b⟩, hmem, x, hx, rfl, rfl⟩
    exact ⟨a, hx, mem_entries.1 hmem⟩
  · rintro ⟨k', hk', hget⟩
    exact ⟨(k', v), mem_entries.2 hget, k, hk', rfl, rfl⟩

/-- Moves every entry whose key `f` maps to another key there, over what was stored at that key. -/
def moveKeys (f : K → Option K) (m : FinMap K V) : FinMap K V :=
  (m.moved f).foldl (fun m e => m.set e.1 e.2) (m.filter fun k _ => (f k).isNone)

/-- Keys that are moved apart stay apart. -/
theorem nodup_moved {f : K → Option K} (m : FinMap K V)
    (hf : ∀ {a b k}, f a = some k → f b = some k → a = b) : ((m.moved f).map Prod.fst).Nodup := by
  have hnd : (m.entries.map Prod.fst).Nodup := by
    rw [map_fst_entries]
    exact m.sorted.nodup
  unfold moved
  generalize m.entries = l at hnd
  induction l with
  | nil => exact .nil
  | cons e l ih =>
    rw [List.map_cons, List.nodup_cons] at hnd
    rw [List.filterMap_cons]
    cases hk : f e.1 with
    | none => exact ih hnd.2
    | some k =>
      refine List.nodup_cons.2 ⟨fun hagain => ?_, ih hnd.2⟩
      obtain ⟨pair, hpair, hfst⟩ := List.mem_map.1 hagain
      obtain ⟨e', he', hmap⟩ := List.mem_filterMap.1 hpair
      obtain ⟨x, hx, rfl⟩ := Option.map_eq_some_iff.1 hmap
      cases hfst
      exact hnd.1 (List.mem_map.2 ⟨e', he', hf hx hk⟩)

/-- An entry of the result was moved to its key, or was there and neither moved nor overwritten. -/
theorem get_moveKeys {f : K → Option K} {v : V}
    (hf : ∀ {a b k}, f a = some k → f b = some k → a = b) :
    (m.moveKeys f).get k = some v ↔ (∃ k', f k' = some k ∧ m.get k' = some v) ∨
      ((∀ k', f k' = some k → m.get k' = none) ∧ f k = none ∧ m.get k = some v) := by
  rw [moveKeys, get_foldl_pairs (m.nodup_moved hf), mem_moved, get_filter_eq_some]
  have hkey : k ∉ (m.moved f).map Prod.fst ↔ ∀ k', f k' = some k → m.get k' = none := by
    constructor
    · intro hk k' hk'
      refine Option.eq_none_iff_forall_ne_some.2 fun w hw => hk ?_
      exact List.mem_map.2 ⟨(k, w), mem_moved.2 ⟨k', hk', hw⟩, rfl⟩
    · intro h hmem
      obtain ⟨⟨a, w⟩, hpair, rfl⟩ := List.mem_map.1 hmem
      obtain ⟨k', hk', hw⟩ := mem_moved.1 hpair
      rw [h k' hk'] at hw
      cases hw
  rw [hkey, Option.isNone_iff_eq_none]
  refine or_congr Iff.rfl (and_congr Iff.rfl ?_)
  exact and_comm

end FinMap

end InfraBox
