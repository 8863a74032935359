import InfraBox.Lib.Postings
import InfraBox.Ldap.Validate

/-!
# Group membership

`buildDirectory` records a membership four times: in the user's `memberOf`, and in the group's
`member`, `uniqueMember` and `memberUid`, the last three while it goes over the users. For an
accepted configuration every reference is to an entry that exists, and what the loops leave behind
are the two directions of one relation: the groups of a user, and the postings of a group.
-/

namespace InfraBox.Ldap

/-- The values of an attribute. -/
def Entry.attr (e : Entry) (name : String) : List GoString := (e.attrs.get (str name)).getD []

/-- The group is the user's primary group or one of the others. -/
def LDAPUser.InGroup (user : LDAPUser) (group : LDAPGroup) : Prop :=
  group.gid = user.primaryGroup ∨ group.gid ∈ user.otherGroups

instance instDecidableInGroup (user : LDAPUser) (group : LDAPGroup) :
    Decidable (user.InGroup group) := inferInstanceAs (Decidable (_ ∨ _))

/-! ## The groups of a user -/

/-- Dropping repetitions loses no member. -/
theorem mem_compact {gid : Int} : ∀ {l : List Int}, gid ∈ compact l ↔ gid ∈ l
  | [] => Iff.rfl
  | [_] => Iff.rfl
  | a :: b :: rest => by
    have ih := @mem_compact gid (b :: rest)
    rw [compact]
    split_ifs with hab
    · subst hab
      refine ih.trans ⟨.tail _, fun h => ?_⟩
      rcases List.mem_cons.1 h with rfl | h
      · exact .head _
      · exact h
    · rw [List.mem_cons, ih, ← List.mem_cons]

/-- On a sorted list equal elements are neighbours. -/
theorem compact_pairwise : ∀ {l : List Int}, l.Pairwise (· ≤ ·) → (compact l).Pairwise (· < ·)
  | [], _ => .nil
  | [_], _ => List.pairwise_singleton _ _
  | a :: b :: rest, h => by
    obtain ⟨ha, hrest⟩ := List.pairwise_cons.1 h
    have ih := compact_pairwise hrest
    rw [compact]
    split_ifs with hab
    · exact ih
    · refine List.pairwise_cons.2 ⟨fun c hc => ?_, ih⟩
      have hac : a < b := lt_of_le_of_ne (ha b (.head _)) hab
      rcases List.mem_cons.1 (mem_compact.1 hc) with rfl | hc
      · exact hac
      · exact lt_of_lt_of_le hac ((List.pairwise_cons.1 hrest).1 c hc)

theorem nodup_gids (user : LDAPUser) : user.gids.Nodup :=
  (compact_pairwise (List.pairwise_insertionSort _ _)).imp fun h => ne_of_lt h

theorem mem_gids {user : LDAPUser} {gid : Int} :
    gid ∈ user.gids ↔ gid ∈ user.primaryGroup :: user.otherGroups := by
  rw [LDAPUser.gids, mem_compact, List.mem_insertionSort]

theorem gid_mem_gids {user : LDAPUser} {group : LDAPGroup} :
    group.gid ∈ user.gids ↔ user.InGroup group := by
  rw [mem_gids, List.mem_cons, LDAPUser.InGroup]

/-! ## The loops -/

/-- A group with one member more. -/
def Entry.join (user : LDAPUser) (dn : GoString) (group : Entry) : Entry :=
  let attrs := appendValue group.attrs (str "member") dn
  let attrs := appendValue attrs (str "uniqueMember") dn
  { group with attrs := appendValue attrs (str "memberUid") user.name }

section
variable {lib : DnLib} {baseDN : GoString} {user : LDAPUser} {groups : FinMap Int Entry}

theorem get_appendValue (attrs : Attributes) (name value other : GoString) :
    ((appendValue attrs name value).get other).getD [] =
      (attrs.get other).getD [] ++ if other = name then [value] else [] := by
  rw [appendValue, FinMap.get_set]
  split_ifs with h
  · rw [h]
    rfl
  · rw [List.append_nil]

/-- The values a new member adds to each attribute of a group. -/
theorem attr_join (user : LDAPUser) (dn : GoString) (group : Entry) (name : String) :
    (group.join user dn).attr name = group.attr name ++
      ((if str name = str "member" then [dn] else []) ++
        (if str name = str "uniqueMember" then [dn] else []) ++
        if str name = str "memberUid" then [user.name] else []) := by
  simp only [Entry.attr, Entry.join, get_appendValue, List.append_assoc]

/-- The loop over the groups of a user. -/
theorem joinGroups_eq {gids : List Int} (hnodup : gids.Nodup) :
    ∀ {e : Entry} {groups : FinMap Int Entry}, (∀ gid ∈ gids, (groups.get gid).isSome) →
      ∃ e' groups', joinGroups user gids (e, groups) = some (e', groups') ∧ e'.dn = e.dn ∧
        e'.attr "memberOf" =
          e.attr "memberOf" ++ gids.filterMap (fun gid => (groups.get gid).map Entry.dn) ∧
        ∀ gid, groups'.get gid =
          (groups.get gid).map fun g => if gid ∈ gids then g.join user e.dn else g := by
  induction gids with
  | nil =>
    intro e groups _
    exact ⟨e, groups, rfl, rfl, by simp, fun gid => by simp⟩
  | cons gid rest ih =>
    intro e groups hdefined
    obtain ⟨hfresh, hnodup⟩ := List.nodup_cons.1 hnodup
    obtain ⟨group, hgroup⟩ := Option.isSome_iff_exists.1 (hdefined gid (.head _))
    have hother {k : Int} (hk : k ∈ rest) :
        (groups.set gid (group.join user e.dn)).get k = groups.get k :=
      groups.get_set_ne _ fun heq => hfresh (heq ▸ hk)
    obtain ⟨e', groups', hjoin, hdn, hmemberOf, hgroups⟩ :=
      @ih hnodup { e with attrs := appendValue e.attrs (str "memberOf") group.dn }
        (groups.set gid (group.join user e.dn))
        fun k hk => by rw [hother hk]; exact hdefined k (.tail _ hk)
    refine ⟨e', groups', ?_, hdn, ?_, fun k => ?_⟩
    · simp only [joinGroups, hgroup, Option.bind_eq_bind, Option.bind_some]
      exact hjoin
    · have hrest : rest.filterMap (fun k => ((groups.set gid (group.join user e.dn)).get k).map
          Entry.dn) = rest.filterMap fun k => (groups.get k).map Entry.dn :=
        List.filterMap_congr fun k hk => by rw [hother hk]
      rw [hmemberOf, hrest, List.filterMap_cons, hgroup]
      simp [Entry.attr, get_appendValue]
    · rw [hgroups k, FinMap.get_set]
      by_cases hk : k = gid
      · subst hk
        rw [if_pos rfl, hgroup]
        simp [hfresh]
      · rw [if_neg hk]
        simp [hk]

/-- A group with the members among the users. -/
def addMembers (lib : DnLib) (baseDN : GoString) (users : List LDAPUser) (gid : Int)
    (group : Entry) : Entry :=
  users.foldl (fun g u => if gid ∈ u.gids then g.join u (userEntry lib baseDN u).dn else g) group

/-- Members are added under the same name. -/
theorem dn_addMembers (users : List LDAPUser) (gid : Int) (group : Entry) :
    (addMembers lib baseDN users gid group).dn = group.dn := by
  induction users generalizing group with
  | nil => rfl
  | cons u users ih =>
    rw [addMembers, List.foldl_cons]
    split_ifs
    · exact (ih _).trans rfl
    · exact ih _

/-- What the members add to an attribute are the postings of the group. -/
theorem attr_addMembers {name : String} {value : LDAPUser → GoString} (users : List LDAPUser)
    (hvalue : ∀ (u : LDAPUser) (g : Entry),
      (g.join u (userEntry lib baseDN u).dn).attr name = g.attr name ++ [value u])
    (gid : Int) (group : Entry) :
    (addMembers lib baseDN users gid group).attr name =
      group.attr name ++ postings LDAPUser.gids value users gid := by
  induction users generalizing group with
  | nil => exact (List.append_nil _).symm
  | cons u users ih =>
    rw [addMembers, List.foldl_cons, postings_cons, ← List.append_assoc]
    split_ifs
    · rw [← hvalue u]
      exact ih _
    · rw [List.append_nil]
      exact ih _

/-- A user has no groups yet. -/
theorem attr_userEntry (user : LDAPUser) : (userEntry lib baseDN user).attr "memberOf" = [] := by
  have hget : (userEntry lib baseDN user).attrs.get (str "memberOf") = none := by
    simp only [userEntry, newEntry]
    split_ifs <;> simp [attributes, appendValue, str]
  rw [Entry.attr, hget]
  rfl

/-- A group has no members yet. -/
theorem attr_groupEntry {name : String} (group : LDAPGroup)
    (hname : name ∈ ["member", "uniqueMember", "memberUid"]) :
    (groupEntry lib baseDN group).attr name = [] := by
  have hother : ∀ name ∈ ["member", "uniqueMember", "memberUid"],
      str name ≠ str "gidNumber" ∧ str name ≠ str "cn" ∧ str name ≠ str "objectClass" := by
    decide
  have hget : (groupEntry lib baseDN group).attrs.get (str name) = none := by
    simp [groupEntry, newEntry, attributes, hother name hname]
  rw [Entry.attr, hget]
  rfl

/-- The loop over the users. -/
theorem joinUsers_eq {users : List LDAPUser} :
    ∀ {groups : FinMap Int Entry}, (∀ u ∈ users, ∀ gid ∈ u.gids, (groups.get gid).isSome) →
      ∃ joined groups', joinUsers lib baseDN users groups = some (joined, groups') ∧
        (joined.map fun p => (p.1.dn, p.1.attr "memberOf")) =
          (users.map fun u => ((userEntry lib baseDN u).dn,
            u.gids.filterMap fun gid => (groups.get gid).map Entry.dn)) ∧
        ∀ gid, groups'.get gid = (groups.get gid).map (addMembers lib baseDN users gid) := by
  induction users with
  | nil =>
    intro groups _
    exact ⟨[], groups, rfl, rfl, fun gid => Option.map_id'.symm⟩
  | cons u users ih =>
    intro groups hdefined
    obtain ⟨e, groups₁, hjoin, hdn, hmemberOf, hgroups₁⟩ :=
      @joinGroups_eq u _ (nodup_gids u) (userEntry lib baseDN u) groups (hdefined u (.head _))
    obtain ⟨joined, groups', hrest, hjoined, hgroups'⟩ :=
      @ih groups₁ fun v hv gid hgid => by
        rw [hgroups₁, Option.isSome_map]
        exact hdefined v (.tail _ hv) gid hgid
    -- joining changes no group's DN
    have hdns (gid : Int) : (groups₁.get gid).map Entry.dn = (groups.get gid).map Entry.dn := by
      rw [hgroups₁, Option.map_map]
      congr 1
      funext g
      dsimp only [Function.comp_apply]
      split_ifs <;> rfl
    refine ⟨(e, credentials u e.parsedDN) :: joined, groups', ?_, ?_, fun gid => ?_⟩
    · simp only [joinUsers, hjoin, hrest, Option.bind_eq_bind, Option.bind_some, Option.pure_def]
    · simp only [hdns] at hjoined
      rw [List.map_cons, List.map_cons, hjoined, hdn, hmemberOf, attr_userEntry, List.nil_append]
    · rw [hgroups', hgroups₁, Option.map_map]
      rfl

end

/-! ## The directory of an accepted configuration -/

section
variable {lib : DnLib} {cfg : LDAPConfig}

/-- The groups, before the users join them. -/
def groupMap (lib : DnLib) (cfg : LDAPConfig) : FinMap Int Entry :=
  cfg.groups.foldl (fun m group => m.set group.gid (groupEntry lib cfg.baseDN group)) .empty

/-- The map has the group of each ID. -/
theorem get_groupMap (h : Accepted lib cfg) {gid : Int} {e : Entry} :
    (groupMap lib cfg).get gid = some e ↔
      ∃ g ∈ cfg.groups, g.gid = gid ∧ groupEntry lib cfg.baseDN g = e := by
  have hkeys : ((cfg.groups.map fun g => (g.gid, groupEntry lib cfg.baseDN g)).map
      Prod.fst).Nodup := by
    rw [List.map_map]
    exact h.gids
  have hfold : groupMap lib cfg =
      (cfg.groups.map fun g => (g.gid, groupEntry lib cfg.baseDN g)).foldl
        (fun m e => m.set e.1 e.2) .empty := by rw [List.foldl_map, groupMap]
  rw [hfold, FinMap.get_foldl_pairs hkeys]
  simp [Prod.ext_iff]

theorem get_groupMap_gid (h : Accepted lib cfg) {g : LDAPGroup} (hg : g ∈ cfg.groups) :
    (groupMap lib cfg).get g.gid = some (groupEntry lib cfg.baseDN g) :=
  (get_groupMap h).2 ⟨g, hg, rfl, rfl⟩

theorem isSome_groupMap (h : Accepted lib cfg) {u : LDAPUser} (hu : u ∈ cfg.users) {gid : Int}
    (hgid : gid ∈ u.gids) : ((groupMap lib cfg).get gid).isSome := by
  obtain ⟨g, hg, rfl⟩ := List.mem_map.1 (h.defined u hu gid (mem_gids.1 hgid))
  rw [get_groupMap_gid h hg]
  rfl

/-- A loop that never fails is a map. -/
theorem mapM_eq_some_map {α β : Type} {f : α → Option β} {g : α → β} {l : List α}
    (h : ∀ a ∈ l, f a = some (g a)) : l.mapM f = some (l.map g) := by
  induction l with
  | nil => rfl
  | cons a l ih =>
    rw [List.mapM_cons, h a (.head _), ih fun b hb => h b (.tail _ hb)]
    rfl

/-- The directory is built, and what its entries hold of memberships. -/
theorem buildDirectory_eq (h : Accepted lib cfg) :
    ∃ top joined accounts, top.length = 3 ∧
      buildDirectory lib cfg = some ⟨cfg.baseDN, top ++ joined ++ cfg.groups.map (fun g =>
        addMembers lib cfg.baseDN cfg.users g.gid (groupEntry lib cfg.baseDN g)), accounts⟩ ∧
      (joined.map fun e => (e.dn, e.attr "memberOf")) =
        cfg.users.map fun u => ((userEntry lib cfg.baseDN u).dn,
          u.gids.filterMap fun gid => ((groupMap lib cfg).get gid).map Entry.dn) := by
  obtain ⟨base, hbase⟩ : ∃ base, baseEntry lib cfg.baseDN = some base := by
    obtain ⟨rdn, rest, hparse⟩ := h.baseDN
    simp [baseEntry, newEntry, hparse]
  obtain ⟨joined, groups', hjoin, hjoined, hgroups'⟩ :=
    @joinUsers_eq lib cfg.baseDN cfg.users (groupMap lib cfg) fun u hu _ => isSome_groupMap h hu
  have hentries : cfg.groups.mapM (fun g => groups'.get g.gid) = some (cfg.groups.map fun g =>
      addMembers lib cfg.baseDN cfg.users g.gid (groupEntry lib cfg.baseDN g)) := by
    refine mapM_eq_some_map fun g hg => ?_
    rw [hgroups', get_groupMap_gid h hg]
    rfl
  rw [groupMap] at hjoin
  simp only [buildDirectory, hbase, hjoin, hentries, Option.bind_eq_bind, Option.bind_some,
    Option.pure_def]
  refine ⟨_, joined.map Prod.fst, _, ?_, rfl, ?_⟩
  · rfl
  · rw [List.map_map]
    exact hjoined

end

/-! ## Names that differ in more than case -/

/-- A folding of runes that is the usual one on ASCII. -/
def Folds (fold : Nat → Nat) : Prop := ∀ b : UInt8, b < 0x80 → fold b.toNat = (lowerByte b).toNat

/-- Two texts are the same but for case. -/
def SameFold (fold : Nat → Nat) (s t : GoString) : Prop := (runes s).map fold = (runes t).map fold

/-- Lower case is a folding. -/
theorem folds_lowerRune : Folds lowerRune := by
  intro b hb
  have hlt : b.toNat < 128 := UInt8.lt_iff_toNat_lt.1 hb
  have h1 : 'A'.toNat = 65 := rfl
  have h2 : 'Z'.toNat = 90 := rfl
  unfold lowerRune
  rcases lowerByte_toNat b with ⟨hlo, hhi, hval⟩ | ⟨hout, hval⟩
  · rw [if_pos (by simp; omega), hval]
  · rw [if_neg (by simp; omega), if_neg (by omega), if_neg (by omega), hval]

/-- A name that is accepted is ASCII. -/
theorem ldapNamePattern_ascii {name : GoString} (h : ldapNamePattern name = true) :
    IsAscii name := by
  have hletter (b : UInt8) (hb : isLetter b = true) : b < 0x80 := by
    simp only [isLetter, Bool.or_eq_true, Bool.and_eq_true, decide_eq_true_eq] at hb
    rcases hb with hb | hb
    · exact lt_of_le_of_lt hb.2 (by decide)
    · exact lt_of_le_of_lt hb.2 (by decide)
  have hdigit (b : UInt8) (hb : isDigit b = true) : b < 0x80 := by
    simp only [isDigit, Bool.and_eq_true, decide_eq_true_eq] at hb
    exact lt_of_le_of_lt hb.2 (by decide)
  cases name with
  | nil => cases h
  | cons first rest =>
    simp only [ldapNamePattern, Bool.and_eq_true, Bool.or_eq_true, decide_eq_true_eq,
      List.all_eq_true] at h
    obtain ⟨⟨hfirst, -⟩, hrest⟩ := h
    refine isAscii_cons.2 ⟨?_, fun b hb => ?_⟩
    · rcases hfirst with hb | rfl
      · exact hletter first hb
      · decide
    · have hname := hrest b hb
      simp only [ldapNameByte, Bool.or_eq_true, decide_eq_true_eq] at hname
      rcases hname with (((hb | hb) | rfl) | rfl) | rfl
      · exact hletter b hb
      · exact hdigit b hb
      · decide
      · decide
      · decide

section
variable {lib : DnLib} {cfg : LDAPConfig} {fold : Nat → Nat}

theorem map_fold_ascii (hfold : Folds fold) {s : GoString} (hs : IsAscii s) :
    (s.map UInt8.toNat).map fold = (s.map lowerByte).map UInt8.toNat := by
  rw [List.map_map, List.map_map]
  exact List.map_congr_left fun b hb => hfold b (hs b hb)

/-- Texts with the same front and the same end are the same but for case only if what is between
them is. -/
theorem SameFold.middle (hfold : Folds fold) {front name name' rest : GoString}
    (hfront : IsAscii front) (hname : IsAscii name) (hname' : IsAscii name')
    (h : SameFold fold (front ++ name ++ rest) (front ++ name' ++ rest)) :
    toLower name = toLower name' := by
  rw [SameFold, runes_append_of_ascii (isAscii_append.2 ⟨hfront, hname⟩),
    runes_append_of_ascii (isAscii_append.2 ⟨hfront, hname'⟩)] at h
  simp only [List.map_append] at h
  have hlower := List.append_cancel_left (List.append_cancel_right h)
  rw [map_fold_ascii hfold hname, map_fold_ascii hfold hname'] at hlower
  rw [toLower, if_pos hname, toLower, if_pos hname']
  exact List.map_injective_iff.2 (fun _ _ => UInt8.toNat_inj.1) hlower

/-- `ldap.EscapeDN` leaves the names that `Validate` accepts as they are. -/
def DnLib.KeepsNames (lib : DnLib) : Prop :=
  ∀ name, ldapNamePattern name = true → lib.escape name = name

theorem userEntry_dn (hkeeps : lib.KeepsNames) {u : LDAPUser}
    (hname : ldapNamePattern u.name = true) (baseDN : GoString) :
    (userEntry lib baseDN u).dn = str "uid=" ++ u.name ++ (str ",ou=users," ++ baseDN) := by
  rw [← List.append_assoc, ← hkeeps u.name hname]
  simp only [userEntry, newEntry, hkeeps u.name hname]

theorem groupEntry_dn (hkeeps : lib.KeepsNames) {g : LDAPGroup}
    (hname : ldapNamePattern g.name = true) (baseDN : GoString) :
    (groupEntry lib baseDN g).dn = str "cn=" ++ g.name ++ (str ",ou=groups," ++ baseDN) := by
  rw [← List.append_assoc, ← hkeeps g.name hname]
  simp only [groupEntry, newEntry, hkeeps g.name hname]

/-- The DNs of the users and of the groups, in the order of the entries. -/
def memberDNs (lib : DnLib) (cfg : LDAPConfig) : List GoString :=
  (cfg.users.map fun u => (userEntry lib cfg.baseDN u).dn) ++
    cfg.groups.map fun g => (groupEntry lib cfg.baseDN g).dn

/-- Users and groups have names that differ in more than case. -/
theorem memberDNs_distinct (h : Accepted lib cfg) (hkeeps : lib.KeepsNames) (hfold : Folds fold) :
    (memberDNs lib cfg).Pairwise fun a b => ¬ SameFold fold a b := by
  have hascii : IsAscii (str "uid=") ∧ IsAscii (str "cn=") := by decide
  refine List.pairwise_append.2 ⟨?_, ?_, ?_⟩
  · refine List.pairwise_map.2 ((List.pairwise_map.1 h.userNames).imp_of_mem ?_)
    intro u v hu hv hne hsame
    rw [userEntry_dn hkeeps (h.userName u hu), userEntry_dn hkeeps (h.userName v hv)] at hsame
    exact hne (hsame.middle hfold hascii.1 (ldapNamePattern_ascii (h.userName u hu))
      (ldapNamePattern_ascii (h.userName v hv)))
  · refine List.pairwise_map.2 ((List.pairwise_map.1 h.groupNames).imp_of_mem ?_)
    intro f g hf hg hne hsame
    rw [groupEntry_dn hkeeps (h.groupName f hf), groupEntry_dn hkeeps (h.groupName g hg)] at hsame
    exact hne (hsame.middle hfold hascii.2 (ldapNamePattern_ascii (h.groupName f hf))
      (ldapNamePattern_ascii (h.groupName g hg)))
  · intro a ha b hb hsame
    obtain ⟨u, hu, rfl⟩ := List.mem_map.1 ha
    obtain ⟨g, hg, rfl⟩ := List.mem_map.1 hb
    rw [userEntry_dn hkeeps (h.userName u hu), groupEntry_dn hkeeps (h.groupName g hg), SameFold,
      List.append_assoc, List.append_assoc, runes_append_of_ascii hascii.1,
      runes_append_of_ascii hascii.2] at hsame
    -- the first bytes differ
    have hfirst : fold 'u'.toUInt8.toNat = fold 'c'.toUInt8.toNat := (List.cons.inj hsame).1
    rw [hfold _ (by decide), hfold _ (by decide)] at hfirst
    exact absurd hfirst (by decide)

theorem nodup_memberDNs (h : Accepted lib cfg) (hkeeps : lib.KeepsNames) :
    (memberDNs lib cfg).Nodup := by
  refine (memberDNs_distinct h hkeeps folds_lowerRune).imp ?_
  rintro a b hne rfl
  exact hne rfl

/-! ## Memberships -/

/-- The groups of a user are those it is in, each once. -/
theorem count_memberOf (h : Accepted lib cfg) (hkeeps : lib.KeepsNames) (u : LDAPUser)
    {g : LDAPGroup} (hg : g ∈ cfg.groups) :
    (u.gids.filterMap fun gid => ((groupMap lib cfg).get gid).map Entry.dn).count
      (groupEntry lib cfg.baseDN g).dn = if u.InGroup g then 1 else 0 := by
  have hdns := (List.nodup_append.1 (nodup_memberDNs h hkeeps)).2.1
  -- a group's DN is that of no other ID
  have hinj {gid gid' : Int} {dn : GoString} (hdn : ((groupMap lib cfg).get gid).map Entry.dn = dn)
      (hdn' : ((groupMap lib cfg).get gid').map Entry.dn = dn) : gid = gid' := by
    obtain ⟨e, he, rfl⟩ := Option.map_eq_some_iff.1 hdn
    obtain ⟨e', he', heq⟩ := Option.map_eq_some_iff.1 hdn'
    obtain ⟨f, hf, rfl, rfl⟩ := (get_groupMap h).1 he
    obtain ⟨f', hf', rfl, rfl⟩ := (get_groupMap h).1 he'
    rw [List.inj_on_of_nodup_map hdns hf' hf heq]
  have hself : ((groupMap lib cfg).get g.gid).map Entry.dn = (groupEntry lib cfg.baseDN g).dn := by
    rw [get_groupMap_gid h hg]
    rfl
  refine count_of_mem_iff ((nodup_gids u).filterMap fun _ _ _ => hinj) ?_
  rw [List.mem_filterMap, ← gid_mem_gids]
  constructor
  · rintro ⟨gid, hgid, heq⟩
    rw [← hinj heq hself]
    exact hgid
  · exact fun hgid => ⟨g.gid, hgid, hself⟩

/-- The members of a group are the users in it, each once. -/
theorem count_members {name : String} {value : LDAPUser → GoString}
    (hname : name ∈ ["member", "uniqueMember", "memberUid"])
    (hvalue : ∀ (u : LDAPUser) (g : Entry),
      (g.join u (userEntry lib cfg.baseDN u).dn).attr name = g.attr name ++ [value u])
    (hnodup : (cfg.users.map value).Nodup) {u : LDAPUser} (hu : u ∈ cfg.users) (g : LDAPGroup) :
    ((addMembers lib cfg.baseDN cfg.users g.gid (groupEntry lib cfg.baseDN g)).attr name).count
      (value u) = if u.InGroup g then 1 else 0 := by
  rw [attr_addMembers cfg.users hvalue, attr_groupEntry g hname, List.nil_append,
    count_postings hnodup hu]
  exact if_congr gid_mem_gids rfl rfl

/-! ## The entries -/

section entries
variable {joined : List Entry} (hjoined : (joined.map fun e => (e.dn, e.attr "memberOf")) =
  cfg.users.map fun u => ((userEntry lib cfg.baseDN u).dn,
    u.gids.filterMap fun gid => ((groupMap lib cfg).get gid).map Entry.dn))
include hjoined

/-- The entry of a user. -/
theorem getElem?_joined {i : Nat} {u : LDAPUser} (hi : cfg.users[i]? = some u) :
    ∃ user, joined[i]? = some user ∧ user.dn = (userEntry lib cfg.baseDN u).dn ∧
      user.attr "memberOf" =
        u.gids.filterMap fun gid => ((groupMap lib cfg).get gid).map Entry.dn := by
  have huser := congrArg (·[i]?) hjoined
  simp only [List.getElem?_map, hi, Option.map_some] at huser
  obtain ⟨user, huser, hpair⟩ := Option.map_eq_some_iff.1 huser
  rw [Prod.mk.injEq] at hpair
  exact ⟨user, huser, hpair⟩

/-- The DNs of the entries behind the first three. -/
theorem map_dn_joined : ((joined ++ cfg.groups.map fun g => addMembers lib cfg.baseDN cfg.users
    g.gid (groupEntry lib cfg.baseDN g)).map Entry.dn) = memberDNs lib cfg := by
  have hdns : joined.map Entry.dn = cfg.users.map fun u => (userEntry lib cfg.baseDN u).dn := by
    have hfst := congrArg (List.map Prod.fst) hjoined
    rwa [List.map_map, List.map_map] at hfst
  rw [List.map_append, hdns, List.map_map, memberDNs]
  simp only [Function.comp_def, dn_addMembers]

end entries

end

/-- Group membership is symmetric. For an accepted configuration the directory is built, with DNs
that differ in more than case; a user is in a group exactly if the group is in the user's
`memberOf`, the user's DN in the group's `member` and `uniqueMember`, and the user's name in its
`memberUid`, each of them once. -/
theorem membership_symmetric {validators : ValidateLib} {lib : DnLib} {listen tlsListen : GoString}
    {cfg : LDAPConfig} (hkeeps : lib.KeepsNames)
    (haccepted : cfg.validate validators lib listen tlsListen = .ok ()) :
    ∃ d, buildDirectory lib cfg = some d ∧
      d.entries.length = 3 + cfg.users.length + cfg.groups.length ∧
      (∀ fold, Folds fold →
        ((d.entries.drop 3).map Entry.dn).Pairwise fun a b => ¬ SameFold fold a b) ∧
      ∀ (i j : Nat) (u : LDAPUser) (g : LDAPGroup), cfg.users[i]? = some u →
        cfg.groups[j]? = some g →
        ∃ user group, d.entries[3 + i]? = some user ∧
          d.entries[3 + cfg.users.length + j]? = some group ∧
          user.dn = (userEntry lib cfg.baseDN u).dn ∧
          group.dn = (groupEntry lib cfg.baseDN g).dn ∧
          (user.attr "memberOf").count group.dn = (if u.InGroup g then 1 else 0) ∧
          (group.attr "member").count user.dn = (if u.InGroup g then 1 else 0) ∧
          (group.attr "uniqueMember").count user.dn = (if u.InGroup g then 1 else 0) ∧
          (group.attr "memberUid").count u.name = (if u.InGroup g then 1 else 0) := by
  have h := validate_ok haccepted
  obtain ⟨top, joined, accounts, htop, hbuild, hjoined⟩ := buildDirectory_eq h
  have hlength : joined.length = cfg.users.length := by
    simpa only [List.length_map] using congrArg List.length hjoined
  refine ⟨_, hbuild, ?_, fun fold hfold => ?_, fun i j u g hi hj => ?_⟩
  · simp only [List.length_append, List.length_map, htop, hlength]
  · rw [List.append_assoc, ← htop, List.drop_left, map_dn_joined hjoined]
    exact memberDNs_distinct h hkeeps hfold
  · have hu := List.mem_of_getElem? hi
    have hg := List.mem_of_getElem? hj
    obtain ⟨hilt, -⟩ := List.getElem?_eq_some_iff.1 hi
    obtain ⟨user, huser, hdn, hmemberOf⟩ := getElem?_joined hjoined hi
    have huserDNs := (List.nodup_append.1 (nodup_memberDNs h hkeeps)).1
    have hnames : (cfg.users.map LDAPUser.name).Nodup :=
      List.Nodup.of_map toLower (by rw [List.map_map]; exact h.userNames)
    refine ⟨user, addMembers lib cfg.baseDN cfg.users g.gid (groupEntry lib cfg.baseDN g), ?_, ?_,
      hdn, dn_addMembers _ _ _, ?_, ?_, ?_, ?_⟩
    · rw [List.append_assoc, List.getElem?_append_right (by omega), htop, Nat.add_sub_cancel_left,
        List.getElem?_append_left (by omega)]
      exact huser
    · have hfront : (top ++ joined).length = 3 + cfg.users.length := by
        rw [List.length_append, htop, hlength]
      rw [List.getElem?_append_right (by omega), hfront, Nat.add_sub_cancel_left,
        List.getElem?_map, hj]
      rfl
    · rw [hmemberOf, dn_addMembers]
      exact count_memberOf h hkeeps u hg
    · rw [hdn]
      exact count_members (by decide) (fun u g => attr_join u _ g "member") huserDNs hu g
    · rw [hdn]
      exact count_members (by decide) (fun u g => attr_join u _ g "uniqueMember") huserDNs hu g
    · exact count_members (by decide) (fun u g => attr_join u _ g "memberUid") hnames hu g

/-- Parsers that know one address, without mail addresses and hashes. -/
def sampleValidators : ValidateLib where
  splitHostPort s := match s.splitOn ':'.toUInt8 with
    | [host, port] => some (host, port)
    | _ => none
  parseAddr s := if s = str "192.0.2.1" then some (.v4 0xC0000201) else none
  parseMail _ := none
  bcryptCost _ := none

/-- A directory with two groups, one of them without members, and a user that names its group
twice. -/
def sampleMembers : LDAPConfig where
  baseDN := str "dc=lan"
  users := [⟨str "a", [], [], [], 0, 1, [1], true, true⟩]
  groups := [⟨str "g", 1⟩, ⟨str "h", 2⟩]

/-- One user in one group. -/
theorem membership_symmetric_sample :
    ∃ d user group, buildDirectory sampleLib sampleMembers = some d ∧
      d.entries.length = 6 ∧ d.entries[3]? = some user ∧ d.entries[4]? = some group ∧
      (user.attr "memberOf").count group.dn = 1 ∧
      (group.attr "memberUid").count (str "a") = 1 := by
  obtain ⟨d, hbuild, hlength, -, hmembers⟩ :=
    @membership_symmetric sampleValidators sampleLib (str "192.0.2.1:389") (str "192.0.2.1:636")
      sampleMembers (fun _ _ => rfl) (by decide +kernel)
  obtain ⟨user, group, huser, hgroup, -, -, hmemberOf, -, -, hmemberUid⟩ :=
    hmembers 0 0 _ _ rfl rfl
  exact ⟨d, user, group, hbuild, hlength, huser, hgroup, hmemberOf, hmemberUid⟩

end InfraBox.Ldap
