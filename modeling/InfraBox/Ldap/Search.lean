import InfraBox.Ldap.Server

/-!
# Searches return the matching entries

`search` sends the entries that are in scope and for which the filter is true, in the order of the
directory and as many as the limit allows, and says whether there were more (`search_exact`). The
scope is stated on relative names (`InScope`); that the library compares names by their relative
names is a hypothesis (`DnLib.Correct`).
-/

namespace InfraBox.Ldap

/-! ## What a client reads -/

/-- An attribute of an entry: its type and its values. -/
def readAttribute : Packet → Option (GoString × List GoString)
  | .mk .universal .constructed 16 _ _ [.mk .universal .primitive 4 _ type _,
      .mk .universal .constructed 17 _ _ values] =>
    if values.all octetString then some (type, values.map Packet.data) else none
  | _ => none

/-- A `SearchResultEntry` of RFC 4511 in answer to message `id`: its name and its attributes. -/
def readEntry (id : Int) : Packet → Option (GoString × List (GoString × List GoString))
  | .mk .universal .constructed 16 _ _ [.mk .universal .primitive 2 (.int n) _ _,
      .mk .application .constructed 4 _ _ [.mk .universal .primitive 4 _ dn _,
        .mk .universal .constructed 16 _ _ attrs]] =>
    if n = id then (attrs.mapM readAttribute).map (dn, ·) else none
  | _ => none

/-- A `SearchResultDone`: its code and its text. -/
def readDone (id : Int) : Packet → Option (Int × GoString)
  | .mk .universal .constructed 16 _ _ [.mk .universal .primitive 2 (.int n) _ _,
      .mk .application .constructed 5 _ _ [.mk .universal .primitive 10 (.int code) _ _,
        .mk .universal .primitive 4 _ _ _, .mk .universal .primitive 4 _ text _]] =>
    if n = id then some (code, text) else none
  | _ => none

/-- An attribute that is sent only when it is asked for. -/
abbrev Operational (name : GoString) : Prop :=
  toLower name ∈ [str "namingcontexts", str "supportedldapversion", str "vendorname"]

/-- A search that asks for the attributes `requested` gets the attribute. -/
abbrev Selects (lib : DnLib) (requested : List GoString) (name : GoString) : Prop :=
  (requested = [] ∧ ¬Operational name) ∨ ∃ attr ∈ requested,
    lib.foldEq name attr = true ∨ (attr = str "*" ∧ ¬Operational name) ∨
      (attr = str "+" ∧ Operational name)

/-- What a search gets of an entry: its name, and the attributes selected, with their values unless
only the types are wanted. -/
def Entry.selected (lib : DnLib) (args : SearchArgs) (e : Entry) :
    GoString × List (GoString × List GoString) :=
  (e.dn, (e.attrs.entries.filter fun attr => Selects lib args.attributes attr.1).map fun attr =>
    (attr.1, if args.typesOnly then [] else attr.2))

section
variable {lib : DnLib}

theorem selectAttribute_iff {name : GoString} {requested : List GoString} :
    selectAttribute lib name requested = true ↔ Selects lib requested name := by
  cases requested with
  | nil => simp [selectAttribute, Selects]
  | cons attr rest => simp [selectAttribute, Selects, or_assoc]

/-- An attribute is read back. -/
theorem readAttribute_eq (name : GoString) (values : List GoString) :
    readAttribute (constructed .universal tagSequence
      [textPacket name, constructed .universal tagSet (values.map textPacket)]) =
      some (name, values) := by
  have htext : (values.map textPacket).all octetString = true := by simp [octetString, isPacket,
    textPacket, Packet.class', Packet.kind, Packet.tag]
  have hdata : (values.map textPacket).map Packet.data = values := by
    rw [List.map_map]
    exact List.map_id _
  simp only [readAttribute, constructed, textPacket, tagSequence, tagSet, tagOctetString]
  exact (if_pos htext).trans (by rw [hdata])

/-- An entry is read as it was selected. -/
theorem readEntry_packet (id : Int) (args : SearchArgs) (e : Entry) :
    readEntry id (message id (e.packet lib args.attributes args.typesOnly)) =
      some (e.selected lib args) := by
  have hselected : (e.attrs.entries.filter fun attr => selectAttribute lib attr.1 args.attributes) =
      e.attrs.entries.filter fun attr => Selects lib args.attributes attr.1 :=
    List.filter_congr fun attr _ => by rw [Bool.eq_iff_iff, selectAttribute_iff, decide_eq_true_eq]
  have hread : ∀ attrs : List (GoString × List GoString),
      (attrs.map fun attr => constructed .universal tagSequence [textPacket attr.1,
        constructed .universal tagSet (if args.typesOnly then [] else attr.2.map textPacket)]).mapM
          readAttribute =
        some (attrs.map fun attr => (attr.1, if args.typesOnly then [] else attr.2)) := by
    intro attrs
    induction attrs with
    | nil => rfl
    | cons attr rest ih =>
      have hvalues : (if args.typesOnly then [] else attr.2.map textPacket) =
          (if args.typesOnly then [] else attr.2).map textPacket := by split <;> rfl
      rw [List.map_cons, List.mapM_cons, ih, hvalues, readAttribute_eq]
      rfl
  refine (if_pos rfl).trans ((congrArg (Option.map _) (hread _)).trans ?_)
  rw [Entry.selected, ← hselected]
  rfl

end

/-! ## Requests -/

/-- The packets of a search request. -/
structure SearchPackets where
  base : Packet
  scope : Packet
  deref : Packet
  size : Packet
  seconds : Packet
  typesOnly : Packet
  filter : Packet
  attributes : Packet

def SearchPackets.children (q : SearchPackets) : List Packet :=
  [q.base, q.scope, q.deref, q.size, q.seconds, q.typesOnly, q.filter, q.attributes]

/-- The packets are well formed and ask for the search, and the connection may make it: every search
needs authorization but the one of the root DSE. -/
structure SearchPackets.Asks (q : SearchPackets) (lib : DnLib) (canSearch : Bool)
    (args : SearchArgs) : Prop where
  base_text : octetString q.base = true
  base : lib.parse q.base.data = some args.base
  scope : integer q.scope tagEnumerated = some args.scope
  scope_bounds : 0 ≤ args.scope ∧ args.scope ≤ 2
  deref : ∃ n, integer q.deref tagEnumerated = some n ∧ 0 ≤ n ∧ n ≤ 3
  size : integer q.size tagInteger = some args.size
  size_nonneg : 0 ≤ args.size
  seconds : ∃ n, integer q.seconds tagInteger = some n ∧ 0 ≤ n
  typesOnly_bool : isPacket q.typesOnly .universal .primitive tagBoolean = true
  typesOnly : args.typesOnly = q.typesOnly.isTrue
  filter : compileFilter lib q.filter = some args.filter
  attributes_sequence : isPacket q.attributes .universal .constructed tagSequence = true
  attributes_text : ∀ a ∈ q.attributes.children, octetString a = true
  attributes : args.attributes = q.attributes.children.map Packet.data
  root : args.root = (args.base.rdns.isEmpty && args.scope = 0)
  authorized : args.root = true ∨ canSearch = true

theorem boundedInteger_eq_some {p : Packet} {tag : Nat} {inBounds : Int → Bool} {n : Int} :
    boundedInteger p tag inBounds = some n ↔ integer p tag = some n ∧ inBounds n = true := by
  rw [boundedInteger, Option.filter_eq_some_iff]

section
variable {lib : DnLib} {canSearch : Bool} {op : Packet} {args : SearchArgs}

/-- The checks of `search` let exactly the well-formed and authorized requests through. -/
theorem checkSearch_ok : checkSearch lib canSearch op = .ok args ↔
    op.kind = .constructed ∧ ∃ q : SearchPackets, op.children = q.children ∧
      q.Asks lib canSearch args := by
  constructor
  · intro h
    unfold checkSearch at h
    split at h
    swap
    · cases h
    next base scope deref size seconds typesOnly filter attributes hchildren =>
    split at h
    · cases h
    next hbase =>
    split at h
    swap
    · cases h
    next n d z t hscope hderef hsize hseconds =>
    split at h
    · cases h
    next hpackets =>
    split at h
    · cases h
    next dn hdn =>
    simp only at h
    split at h
    · cases h
    next hroot =>
    split at h
    · cases h
    next f hf =>
    split at h
    · cases h
    next hattributes =>
    cases h
    rw [boundedInteger_eq_some] at hscope hderef hsize hseconds
    simp only [Bool.or_eq_true, decide_eq_true_eq, not_or, not_not, Bool.not_eq_true',
      Bool.not_eq_false] at hbase hpackets
    simp only [Bool.and_eq_true, decide_eq_true_eq] at hscope hderef hsize hseconds
    refine ⟨hbase.1, ⟨base, scope, deref, size, seconds, typesOnly, filter, attributes⟩, hchildren,
      hbase.2, hdn, hscope.1, hscope.2, ⟨d, hderef.1, hderef.2⟩, hsize.1, hsize.2,
      ⟨t, hseconds⟩, hpackets.1, rfl, hf, hpackets.2, ?_, rfl, rfl, ?_⟩
    · simpa using hattributes
    · simpa [or_iff_not_imp_left] using hroot
  · rintro ⟨hkind, q, hchildren, h⟩
    obtain ⟨d, hderef, hd⟩ := h.deref
    obtain ⟨t, hseconds, ht⟩ := h.seconds
    have hscope : boundedInteger q.scope tagEnumerated (fun n => 0 ≤ n && n ≤ 2) =
        some args.scope :=
      boundedInteger_eq_some.2 ⟨h.scope, by simpa using h.scope_bounds⟩
    have hderef : boundedInteger q.deref tagEnumerated (fun n => 0 ≤ n && n ≤ 3) = some d :=
      boundedInteger_eq_some.2 ⟨hderef, by simpa using hd⟩
    have hsize : boundedInteger q.size tagInteger (fun n => 0 ≤ n) = some args.size :=
      boundedInteger_eq_some.2 ⟨h.size, by simpa using h.size_nonneg⟩
    have hseconds : boundedInteger q.seconds tagInteger (fun n => 0 ≤ n) = some t :=
      boundedInteger_eq_some.2 ⟨hseconds, by simpa using ht⟩
    have hattributes : q.attributes.children.all octetString = true :=
      List.all_eq_true.2 h.attributes_text
    have hauthorized : (!(args.base.rdns.isEmpty && decide (args.scope = 0)) && !canSearch) =
        false := by
      rw [← h.root]
      rcases h.authorized with hroot | hcan
      · rw [hroot]; rfl
      · rw [hcan, Bool.not_true, Bool.and_false]
    simp only [checkSearch, hchildren, SearchPackets.children, hkind, h.base_text, hscope, hderef,
      hsize, hseconds, h.typesOnly_bool, h.attributes_sequence, h.base, h.filter, hattributes,
      hauthorized, ne_eq, not_true_eq_false, decide_false, Bool.not_true, Bool.or_self,
      Bool.false_eq_true, if_false]
    rw [← h.typesOnly, ← h.attributes, ← h.root]

/-- Without authorization, only the root DSE is searched. -/
theorem checkSearch_root (h : checkSearch lib canSearch op = .ok args) :
    args.root = true ∨ canSearch = true := by
  obtain ⟨-, q, -, hasks⟩ := checkSearch_ok.1 h
  exact hasks.authorized

end

/-! ## Scope -/

/-- `ldap.RelativeDN`. -/
abbrev RelativeDN := List (GoString × GoString)

/-- The library compares names by their relative names: `EqualFold` one by one, and `AncestorOfFold`
with the last ones of a longer name. -/
structure DnLib.Correct (lib : DnLib) (same : RelativeDN → RelativeDN → Prop) : Prop where
  equivalence : Equivalence same
  equalFold : ∀ a b, lib.equalFold a b = true ↔ List.Forall₂ same a.rdns b.rdns
  ancestorOfFold : ∀ a b, lib.ancestorOfFold a b = true ↔
    ∃ below rest, b.rdns = below ++ rest ∧ below ≠ [] ∧ List.Forall₂ same a.rdns rest

/-- The name is the base with the relative names `below` in front of it. -/
def Extends (same : RelativeDN → RelativeDN → Prop) (base : DN) (below : List RelativeDN)
    (dn : DN) : Prop :=
  ∃ rest, dn.rdns = below ++ rest ∧ List.Forall₂ same base.rdns rest

/-- The scopes of a search: the base itself, the entries one relative name below it, or the base and
everything below it. -/
def InScope (same : RelativeDN → RelativeDN → Prop) (args : SearchArgs) (dn : DN) : Prop :=
  (args.scope = 0 ∧ Extends same args.base [] dn) ∨
  (args.scope = 1 ∧ ∃ rdn, Extends same args.base [rdn] dn) ∨
  (args.scope = 2 ∧ ∃ below, Extends same args.base below dn)

section
variable {lib : DnLib} {same : RelativeDN → RelativeDN → Prop} {base dn : DN}

theorem DnLib.Correct.equal_iff (h : lib.Correct same) :
    lib.equalFold dn base = true ↔ Extends same base [] dn := by
  have hsymm : ∀ {l l'}, List.Forall₂ same l l' → List.Forall₂ same l' l := fun hsame =>
    List.Forall₂.flip (hsame.imp fun _ _ => h.equivalence.symm)
  rw [h.equalFold]
  exact ⟨fun hsame => ⟨dn.rdns, rfl, hsymm hsame⟩, fun ⟨_, hrest, hsame⟩ => hsymm (hrest ▸ hsame)⟩

theorem DnLib.Correct.ancestor_iff (h : lib.Correct same) :
    lib.ancestorOfFold base dn = true ↔ ∃ below, below ≠ [] ∧ Extends same base below dn := by
  rw [h.ancestorOfFold]
  exact exists_congr fun below =>
    ⟨fun ⟨rest, hrest, hne, hsame⟩ => ⟨hne, rest, hrest, hsame⟩,
      fun ⟨hne, rest, hrest, hsame⟩ => ⟨rest, hrest, hne, hsame⟩⟩

/-- A name is as much longer than the base as it has relative names in front. -/
theorem Extends.length {below : List RelativeDN} (h : Extends same base below dn) :
    dn.rdns.length = below.length + base.rdns.length := by
  obtain ⟨rest, hrest, hsame⟩ := h
  rw [hrest, List.length_append, hsame.length_eq]

/-- The test of the loop is the scope. -/
theorem SearchArgs.inScope_iff (h : lib.Correct same) {args : SearchArgs}
    (hscope : 0 ≤ args.scope ∧ args.scope ≤ 2) (e : Entry) :
    args.inScope lib e = true ↔ InScope same args e.parsedDN := by
  unfold SearchArgs.inScope InScope
  rcases (by omega : args.scope = 0 ∨ args.scope = 1 ∨ args.scope = 2) with hs | hs | hs
  · simp [hs, h.equal_iff]
  · -- one relative name below the base: an ancestor, and one shorter
    by_cases hancestor : lib.ancestorOfFold args.base e.parsedDN = true
    · obtain ⟨below, hne, hext⟩ := h.ancestor_iff.1 hancestor
      have hlen := hext.length
      simp only [hs, hancestor, ne_eq, Int.reduceEq, not_false_eq_true, decide_true, Bool.and_self,
        if_true, decide_false, Bool.false_or, decide_eq_true_eq, false_and, true_and, false_or,
        or_false]
      constructor
      · intro heq
        obtain ⟨rdn, rfl⟩ := List.length_eq_one_iff.1 (by omega : below.length = 1)
        exact ⟨rdn, hext⟩
      · rintro ⟨rdn, hext'⟩
        rw [hext'.length, List.length_singleton, Nat.add_comm]
    · have hnone : ∀ rdn, ¬ Extends same args.base [rdn] e.parsedDN := fun rdn hext =>
        hancestor (h.ancestor_iff.2 ⟨[rdn], List.cons_ne_nil _ _, hext⟩)
      simp [hs, hancestor, hnone]
  · -- the base or a name below it
    simp only [hs, ne_eq, Int.reduceEq, not_false_eq_true, decide_true, Bool.true_and, Bool.true_or,
      if_false, false_and, false_or, true_and]
    split
    · next hancestor =>
      obtain ⟨below, -, hext⟩ := h.ancestor_iff.1 hancestor
      exact iff_of_true rfl ⟨below, hext⟩
    · next hancestor =>
      rw [h.equal_iff]
      refine ⟨fun hext => ⟨[], hext⟩, fun ⟨below, hext⟩ => ?_⟩
      rcases eq_or_ne below [] with rfl | hne
      · exact hext
      · exact absurd (h.ancestor_iff.2 ⟨below, hne, hext⟩) hancestor

end

/-! ## The loop -/

/-- Nothing intervenes while the search is made: no shutdown, no time limit, no failing write. -/
structure Env.Undisturbed (env : Env) : Prop where
  written : ∀ n, env.written n = true
  stopped : ∀ i, env.stopped i = false
  expired : ∀ i, env.expired i = false

/-- The final message of a search that found `k` entries, with the limit on those sent. -/
def doneMessage (id : Int) (k limit : Nat) : Packet :=
  if k ≤ limit then message id (resultOp searchResultDone .success [])
  else message id (resultOp searchResultDone .sizeLimitExceeded (str "search size limit exceeded"))

section
variable {lib : DnLib} {env : Env} {args : SearchArgs}

/-- The result is read as it was sent. -/
theorem readDone_doneMessage (id : Int) (k limit : Nat) :
    readDone id (doneMessage id k limit) =
      some (if k ≤ limit then (0, []) else (4, str "search size limit exceeded")) := by
  unfold doneMessage
  split
  · exact if_pos rfl
  · exact if_pos rfl

theorem writeResult_undisturbed (h : env.Undisturbed) (n : Nat) (id : Int) (tag : Nat)
    (code : ResultCode) (text : String) :
    writeResult env n id tag code text = ([message id (resultOp tag code (str text))], true) := by
  rw [writeResult, if_pos (h.written n)]

/-- The loop sends the entries that match, as long as the limit allows, and says whether there were
more. -/
theorem sendEntries_eq (h : env.Undisturbed) {matching : Entry → Bool}
    (hmatching : ∀ e, (args.inScope lib e && args.filter e = .isTrue) = matching e) {limit : Nat}
    (hlimit : args.limit = limit) (id : Int) (entries : List Entry) (i count : Nat)
    (hcount : count ≤ limit) :
    sendEntries lib env id args i count entries =
      (((entries.filter matching).take (limit - count)).map (fun e =>
        message id (e.packet lib args.attributes args.typesOnly)) ++
        [doneMessage id (count + (entries.filter matching).length) limit], true) := by
  induction entries generalizing i count with
  | nil =>
    rw [sendEntries, if_neg (by rw [h.expired]; exact Bool.false_ne_true),
      writeResult_undisturbed h, List.filter_nil, List.take_nil, doneMessage, List.length_nil,
      if_pos (by omega)]
    rfl
  | cons e rest ih =>
    rw [sendEntries, if_neg (by rw [h.stopped]; exact Bool.false_ne_true),
      if_neg (by rw [h.expired]; exact Bool.false_ne_true)]
    cases hm : matching e with
    | false =>
      rw [if_pos (by have := hmatching e; rw [hm] at this; simpa [imp_iff_not_or] using this),
        ih (i + 1) count hcount, List.filter_cons_of_neg (by simp [hm])]
    | true =>
      rw [if_neg (by have := hmatching e; rw [hm] at this; simpa using this),
        List.filter_cons_of_pos hm, List.length_cons, hlimit]
      rcases Nat.eq_or_lt_of_le hcount with rfl | hlt
      · -- the limit is reached and there is one more
        rw [if_pos rfl, writeResult_undisturbed h, Nat.sub_self, List.take_zero, List.map_nil,
          List.nil_append, doneMessage, if_neg (by omega)]
      · obtain ⟨k, hk⟩ : ∃ k, limit - count = k + 1 := ⟨limit - count - 1, by omega⟩
        rw [if_neg (by omega), if_pos (h.written count), ih (i + 1) (count + 1) hlt, hk,
          List.take_succ_cons, List.map_cons, List.cons_append,
          show limit - (count + 1) = k by omega, Nat.add_right_comm, ← Nat.add_assoc]

end

/-- For every well-formed and authorized search whose base exists, and when nothing intervenes: a
client reads the names and the selected attributes of the entries in scope for which the filter is
true, in the order of the directory and up to the limit of 1000 or the smaller positive size
requested, and then success (0) exactly if there were no more of them, else `sizeLimitExceeded` (4).
-/
theorem search_exact {s : Server} {same : RelativeDN → RelativeDN → Prop}
    (hlib : s.lib.Correct same) {env : Env} (henv : env.Undisturbed) {op : Packet}
    {q : SearchPackets} {canSearch : Bool} {args : SearchArgs} (hkind : op.kind = .constructed)
    (hop : op.children = q.children) (hasks : q.Asks s.lib canSearch args)
    (hbase : ∃ e ∈ s.searched args, Extends same args.base [] e.parsedDN)
    {matching : Entry → Bool}
    (hmatching : ∀ e, matching e = true ↔
      InScope same args e.parsedDN ∧ args.filter e = .isTrue) (id : Int) :
    let found := (s.searched args).filter matching
    let limit := if 0 < args.size ∧ args.size < 1000 then args.size.toNat else 1000
    ∃ entries done, s.search env id op canSearch = (entries ++ [done], true) ∧
      entries.map (readEntry id) = (found.take limit).map (fun e => some (e.selected s.lib args)) ∧
      readDone id done = some (if found.length ≤ limit then (0, [])
        else (4, str "search size limit exceeded")) := by
  intro found limit
  have hlimit : args.limit = limit := by
    show (if 0 < args.size ∧ args.size < 1000 then args.size else 1000) = (limit : Int)
    simp only [limit]
    split
    · next h => exact (Int.toNat_of_nonneg h.1.le).symm
    · rfl
  have htest : ∀ e, (args.inScope s.lib e && args.filter e = .isTrue) = matching e := fun e => by
    rw [Bool.eq_iff_iff, hmatching, Bool.and_eq_true, decide_eq_true_eq,
      SearchArgs.inScope_iff hlib hasks.scope_bounds]
  have hfound : (s.searched args).any (fun e => s.lib.equalFold e.parsedDN args.base) = true := by
    obtain ⟨e, he, hext⟩ := hbase
    exact List.any_eq_true.2 ⟨e, he, hlib.equal_iff.2 hext⟩
  rw [Server.search, checkSearch_ok.2 ⟨hkind, q, hop, hasks⟩]
  simp only [hfound, Bool.not_true, Bool.false_eq_true, if_false]
  rw [sendEntries_eq henv htest hlimit id _ 0 0 (Nat.zero_le _), Nat.sub_zero, Nat.zero_add]
  refine ⟨_, _, rfl, ?_, readDone_doneMessage id _ _⟩
  rw [List.map_map]
  exact List.map_congr_left fun e _ => readEntry_packet id args e

/-- The sample library compares texts. -/
theorem sampleLib_correct : sampleLib.Correct Eq where
  equivalence := eq_equivalence
  equalFold a b := by
    rw [List.forall₂_eq_eq_eq]
    obtain ⟨l⟩ := a
    obtain ⟨l'⟩ := b
    simp [sampleLib]
  ancestorOfFold a b := by
    obtain ⟨l⟩ := a
    obtain ⟨l'⟩ := b
    simp only [List.forall₂_eq_eq_eq, sampleLib, Bool.and_eq_true, decide_eq_true_eq, ne_eq,
      DN.mk.injEq]
    constructor
    · rintro ⟨⟨below, rfl⟩, hne⟩
      exact ⟨below, l, rfl, by rintro rfl; exact hne rfl, rfl⟩
    · rintro ⟨below, rest, rfl, hne, rfl⟩
      exact ⟨⟨below, rfl⟩, fun h => hne (List.self_eq_append_left.1 h)⟩

/-- A search of the whole sample directory, for one entry at most. -/
def sampleQuery : SearchPackets where
  base := textPacket (str "dc=lan")
  scope := integerPacket tagEnumerated 2
  deref := integerPacket tagEnumerated 0
  size := integerPacket tagInteger 1
  seconds := integerPacket tagInteger 0
  typesOnly := .mk .universal .primitive tagBoolean (.bool false) [] []
  filter := .mk .context .primitive filterPresent .other (str "objectClass") []
  attributes := constructed .universal tagSequence []

/-- It is answered with the first of the five entries, that of the base, and that there are more. -/
theorem search_exact_limited :
    ∃ entry done, (sampleServer sampleConfig).search sampleEnv 1
        (constructed .application searchRequest sampleQuery.children) true =
        ([entry, done], true) ∧
      readEntry 1 entry = some (str "dc=lan", [(str "cn", [str "Directory"]),
        (str "dc", [str "lan"]),
        (str "objectClass", [str "top", str "domain", str "extensibleObject"])]) ∧
      readDone 1 done = some (4, str "search size limit exceeded") := by
  let s := sampleServer sampleConfig
  let args : SearchArgs := ⟨⟨[[(str "dc", str "lan")]]⟩, 2, 1, false, fun e =>
    if !knownAttribute (str "objectclass") then .undefined
    else truth (!(e.values sampleLib (str "objectclass")).isEmpty), [], false⟩
  have hasks : sampleQuery.Asks s.lib true args :=
    ⟨rfl, rfl, rfl, by decide, ⟨0, rfl, by decide⟩, rfl, by decide, ⟨0, rfl, by decide⟩, rfl, rfl,
      rfl, rfl, by simp [sampleQuery, constructed, Packet.children], rfl, rfl, .inr rfl⟩
  have hbase : ∃ e ∈ s.searched args, Extends Eq args.base [] e.parsedDN := by
    have hany : (s.searched args).any (fun e => e.parsedDN = args.base) = true := by decide +kernel
    obtain ⟨e, he, heq⟩ := List.any_eq_true.1 hany
    exact ⟨e, he, sampleLib_correct.equal_iff.1 heq⟩
  have henv : sampleEnv.Undisturbed := ⟨fun _ => rfl, fun _ => rfl, fun _ => rfl⟩
  let matching := fun e => args.inScope sampleLib e && args.filter e = .isTrue
  have hmatching : ∀ e, matching e = true ↔
      InScope Eq args e.parsedDN ∧ args.filter e = .isTrue := fun e => by
    rw [Bool.and_eq_true, decide_eq_true_eq,
      SearchArgs.inScope_iff sampleLib_correct hasks.scope_bounds]
  have hfive : ((s.searched args).filter matching).length = 5 := by decide +kernel
  have hkind : (constructed .application searchRequest sampleQuery.children).kind = .constructed :=
    rfl
  have hfirst : (((s.searched args).filter matching).take 1).map (fun e =>
      some (e.selected sampleLib args)) = [some (str "dc=lan", [(str "cn", [str "Directory"]),
        (str "dc", [str "lan"]),
        (str "objectClass", [str "top", str "domain", str "extensibleObject"])])] := by
    decide +kernel
  obtain ⟨entries, done, hsent, hentries, hdone⟩ :=
    search_exact sampleLib_correct henv hkind rfl hasks hbase hmatching 1
  have hlimit : (if 0 < args.size ∧ args.size < 1000 then args.size.toNat else 1000) = 1 := rfl
  rw [hlimit] at hentries hdone
  rw [hfive] at hdone
  obtain ⟨entry, rfl, hentry⟩ := List.map_eq_singleton_iff.1 (hentries.trans hfirst)
  exact ⟨entry, done, hsent, hentry, hdone⟩

end InfraBox.Ldap
