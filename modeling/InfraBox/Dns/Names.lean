import InfraBox.Lease.Invariant
import InfraBox.Dns.Server

/-!
# What names exist

The names of the zone as label lists. `Server.Serves` says what `New` leaves in a server, and the
two sources of existing names are read off as suffix tests on labels: the precomputed `staticNames`
(`Server.Serves.mem_staticNames`) and the manager's `HasName` (`hasName_iff`). A query name is a
list of labels in presentation format (`QueryName`), in which a label may hold escaped bytes; such
a name equals no stored one.
-/

namespace InfraBox

open Leasing

variable {ls : List GoString} {d : GoString}

/-- The labels of a stored name, which has no escapes. -/
def labelsOf (name : GoString) : List GoString := (trimSuffix name [dot]).splitOn dot

/-- A stored name is the text of its labels. -/
theorem render_labelsOf {n : GoString} : render (labelsOf (n ++ [dot])) = n ++ [dot] := by
  rw [labelsOf, trimSuffix_append, render_splitOn]

/-- The labels of a text. -/
theorem labelsOf_render (hne : ls ≠ []) (h : ∀ l ∈ ls, dot ∉ l) :
    labelsOf (render ls) = ls := by
  have hsplit := splitOn_render h
  obtain ⟨n, hn⟩ := exists_render_eq hne
  rw [hn] at hsplit ⊢
  rw [labelsOf, trimSuffix_append]
  rw [List.splitOn_append_cons_self] at hsplit
  exact List.append_cancel_right (hsplit.trans rfl)

/-- A label of a stored name has no dot and no backslash. -/
def PlainLabel (l : GoString) : Prop := dot ∉ l ∧ backslash ∉ l

theorem plainLabel_of_validLabel {l : GoString} (h : validLabel l = true) : PlainLabel l :=
  ⟨fun hd => (nameByte_plain (validLabel_bytes h _ hd)).2.2.2.1 rfl,
    fun hb => (nameByte_plain (validLabel_bytes h _ hb)).2.2.2.2.1 rfl⟩

/-- The labels of a record name are plain. -/
theorem RecordName.labels {d r : GoString} (h : RecordName d r) :
    render (labelsOf r) = r ∧ labelsOf r ≠ [] ∧ ∀ l ∈ labelsOf r, PlainLabel l ∧ l ≠ [] := by
  obtain ⟨n, hn, -, hr⟩ := h.host
  have hvalid : ∀ l ∈ n.splitOn dot, PlainLabel l ∧ l ≠ [] := fun l hl => by
    have := List.all_eq_true.1 hn l hl
    exact ⟨plainLabel_of_validLabel this, validLabel_ne_nil this⟩
  rcases hr with rfl | rfl
  · refine ⟨render_labelsOf, List.splitOn_ne_nil _ _, ?_⟩
    rw [labelsOf, trimSuffix_append]
    exact hvalid
  · refine ⟨render_labelsOf, List.splitOn_ne_nil _ _, ?_⟩
    have hsplit : (star :: dot :: n).splitOn dot = [star] :: n.splitOn dot :=
      List.splitOn_append_cons_self_of_not_mem (show dot ∉ [star] by decide) n
    rw [labelsOf, trimSuffix_append, hsplit, List.forall_mem_cons]
    exact ⟨⟨⟨by decide, by decide⟩, by decide⟩, hvalid⟩

/-- A query name at or below the apex: canonical labels of the presentation format. -/
structure QueryName (apex q : List GoString) : Prop where
  label : ∀ l ∈ q, isLabel l = true
  lower : ∀ l ∈ q, ∀ b ∈ l, b < 0x80 ∧ isUpper b = false
  inZone : apex <:+ q

theorem QueryName.of_cons {apex q : List GoString} {l : GoString} (h : QueryName apex (l :: q))
    (hz : apex <:+ q) : QueryName apex q :=
  ⟨fun l hl => h.label l (.tail _ hl), fun l hl => h.lower l (.tail _ hl), hz⟩

/-- The bytes of a canonical name are lower-case ASCII. -/
theorem QueryName.render_lower {apex q : List GoString} (hq : QueryName apex q) :
    ∀ b ∈ render q, b < 0x80 ∧ isUpper b = false := by
  intro b hb
  obtain ⟨l, hl, hb⟩ := List.mem_flatMap.1 hb
  rcases List.mem_append.1 hb with hb | hb
  · exact hq.lower l hl b hb
  · rw [List.mem_singleton.1 hb]; decide

/-- A name of a zone other than the root's is neither the root nor an empty label. -/
theorem QueryName.ne_root {q : List GoString} (hd : validLabels d = true)
    (hq : QueryName (d.splitOn dot) q) : q ≠ [] ∧ q ≠ [[]] := by
  obtain ⟨l, hl⟩ := List.exists_mem_of_ne_nil _ (List.splitOn_ne_nil dot d)
  have hmem := hq.inZone.subset hl
  refine ⟨List.ne_nil_of_mem hmem, ?_⟩
  rintro rfl
  exact validLabel_ne_nil (List.all_eq_true.1 hd l hl) (List.mem_singleton.1 hmem)

/-- A name whose text is that of plain labels has these labels. -/
theorem eq_of_render_eq {q m : List GoString} (hq : ∀ l ∈ q, isLabel l = true)
    (hm : ∀ l ∈ m, PlainLabel l) (h : render q = render m) : q = m :=
  render_inj hq (fun l hl => isLabel_of_plain (hm l hl).1 (hm l hl).2) h

end InfraBox

namespace InfraBox.Dns

open Leasing

/-! ## Names of the server -/

/-- The documented behaviour of `dns.NextLabel`: it skips one label and its dot, and reports the end
of the name. -/
structure NameLib.SkipsLabels (lib : NameLib) : Prop where
  nextLabel : ∀ l rest, isLabel l = true → lib.nextLabel (l ++ dot :: rest) 0 =
    (l.length + 1, decide (rest = []))

/-- The names the loop of `New` adds for a record are its nonempty label suffixes. -/
theorem mem_ancestors {lib : NameLib} (hlib : lib.SkipsLabels) {x : GoString} :
    ∀ {ls : List GoString} {fuel : Nat}, (∀ l ∈ ls, PlainLabel l ∧ l ≠ []) → ls ≠ [] →
      ls.length ≤ fuel →
      (x ∈ ancestors lib fuel (render ls) ↔ ∃ m, m ≠ [] ∧ m <:+ ls ∧ x = render m)
  | [], _, _, hne, _ => absurd rfl hne
  | l :: ls, 0, _, _, hf => by simp at hf
  | l :: ls, fuel + 1, hl, _, hf => by
    obtain ⟨⟨hplain, hl0⟩, hls⟩ := List.forall_mem_cons.1 hl
    have hnext := hlib.nextLabel l (render ls) (isLabel_of_plain hplain.1 hplain.2)
    have hroot : l ++ dot :: render ls ≠ [dot] := by
      intro h
      have := congrArg List.length h
      rw [List.length_append, List.length_cons, List.length_singleton] at this
      have := List.length_pos_iff.2 hl0
      omega
    have hdrop : (l ++ dot :: render ls).drop (l.length + 1) = render ls := by simp
    rw [render_cons, ancestors, if_neg hroot, hnext, hdrop, List.mem_cons]
    have hself : x = l ++ dot :: render ls ↔ x = render (l :: ls) := by rw [render_cons]
    rw [hself]
    cases ls with
    | nil =>
      simp only [render_nil, decide_true, if_true, List.not_mem_nil, or_false]
      refine ⟨fun h => ⟨[l], by simp, List.suffix_rfl, h⟩, ?_⟩
      rintro ⟨m, hm, hs, rfl⟩
      rcases List.suffix_cons_iff.1 hs with rfl | hs
      · rfl
      · exact absurd (List.suffix_nil.1 hs) hm
    | cons l' ls =>
      have hrest : render (l' :: ls) ≠ [] := render_ne_nil (by simp)
      simp only [hrest, decide_false, Bool.false_eq_true, if_false]
      rw [mem_ancestors hlib hls (by simp) (by simp at hf ⊢; omega)]
      refine ⟨?_, ?_⟩
      · rintro (rfl | ⟨m, hm, hs, rfl⟩)
        · exact ⟨_, by simp, List.suffix_rfl, rfl⟩
        · exact ⟨m, hm, hs.trans (List.suffix_cons _ _), rfl⟩
      · rintro ⟨m, hm, hs, rfl⟩
        rcases List.suffix_cons_iff.1 hs with rfl | hs
        · exact .inl rfl
        · exact .inr ⟨m, hm, hs, rfl⟩

/-- What `New` leaves in a server for the domain `d`. -/
structure Server.Serves (lib : NameLib) (d : GoString) (s : Server) : Prop where
  domain_valid : validLabels d = true
  domain : s.config.domain = d ++ [dot]
  nsName : s.nsName = serviceName "ns" d
  gatewayName : s.gatewayName = serviceName "gateway" d
  record : ∀ {k a}, s.config.aRecords.get k = some a → RecordName d k ∧ a.is4 = true
  staticNames : s.staticNames = [[dot], d ++ [dot], serviceName "ns" d, serviceName "gateway" d] ++
    s.config.aRecords.keys.flatMap fun name => ancestors lib name.length name

/-- The labels of `label.domain.`. -/
theorem serviceName_eq_render {label : String} :
    serviceName label d = render (str label :: d.splitOn dot) := by
  rw [render_cons, render_splitOn]
  simp [serviceName]

/-! ## What `New` builds -/

/-- The domain's final dot makes no difference to the normal form of a record name. -/
theorem normalizeARecord_dot (hd : validLabels d = true) (name : GoString) :
    normalizeARecord name (d ++ [dot]) = normalizeARecord name d := by
  simp only [normalizeARecord, trimSuffix_append, validLabels_trimSuffix hd]

/-- Every record the loop of `normalizeARecords` returns was there before or is well formed. -/
theorem normalizeARecords_ok (hd : validLabels d = true) :
    ∀ {entries : List (GoString × Addr)} {acc recs : FinMap GoString Addr},
      normalizeARecords (d ++ [dot]) entries acc = .ok recs →
      ∀ {k a}, recs.get k = some a → acc.get k = some a ∨ (RecordName d k ∧ a.is4 = true)
  | [], acc, recs, h, k, a, hk => by cases h; exact .inl hk
  | (name, ip) :: rest, acc, recs, h, k, a, hk => by
    simp only [normalizeARecords, normalizeARecord_dot hd] at h
    split at h
    · cases h
    next hne =>
    split at h
    · cases h
    split at h
    · cases h
    split at h
    · cases h
    next hip =>
    rcases normalizeARecords_ok hd h hk with hacc | hok
    · rcases FinMap.get_set_eq_some.1 hacc with ⟨rfl, rfl⟩ | ⟨-, hacc⟩
      · refine .inr ⟨(normalizeARecord_cases hd name).resolve_left hne, ?_⟩
        simp only [Bool.or_eq_true, not_or, Bool.not_eq_true', Bool.not_eq_false] at hip
        exact hip.1
      · exact .inl hacc
    · exact .inr hok

/-- What `New` builds: a server for the checked configuration. -/
theorem new_ok {lib : NameLib} {net : ListenerLib} {config : Config} {s : Server}
    (h : new lib net config = .ok s) :
    ∃ recs, s = build lib { config with
        domain := toLower (lib.fqdn (trimSpace config.domain)), aRecords := recs,
        subnet := config.subnet.masked } ∧
      validDomain (toLower (lib.fqdn (trimSpace config.domain))) = true ∧
      normalizeARecords (toLower (lib.fqdn (trimSpace config.domain))) config.aRecords.entries
        .empty = .ok recs ∧
      config.serverIP.is4 = true ∧ config.subnet.addr.is4 = true ∧
      config.subnet.contains config.serverIP = true ∧ 0 ≤ config.ttl := by
  simp only [new] at h
  split at h
  · cases h
  split at h
  · cases h
  next hdom =>
  split at h
  · cases h
  next recs hrecs =>
  split at h
  · cases h
  next hip =>
  split at h
  · cases h
  next httl =>
  have hs : s = build lib { config with
        domain := toLower (lib.fqdn (trimSpace config.domain)), aRecords := recs,
        subnet := config.subnet.masked } := by
    split at h
    · cases h; rfl
    · split at h
      · cases h
      · split at h
        · cases h
        · cases h; rfl
  simp only [Bool.or_eq_true, not_or, Bool.not_eq_true', Bool.not_eq_false] at hip
  simp only [Bool.or_eq_true, not_or, decide_eq_true_eq, not_lt] at httl
  exact ⟨recs, hs, by simpa using hdom, hrecs, hip.1.1.1, hip.1.2, hip.2, httl.1⟩

/-- A server `New` accepts serves its domain. -/
theorem new_serves {lib : NameLib} {net : ListenerLib} {config : Config} {s : Server}
    (h : new lib net config = .ok s) (hdom : s.config.domain = d ++ [dot]) :
    s.Serves lib d := by
  obtain ⟨recs, rfl, hvalid, hrecs, -⟩ := new_ok h
  have hdom : toLower (lib.fqdn (trimSpace config.domain)) = d ++ [dot] := hdom
  rw [hdom, validDomain, trimSuffix_append, Bool.and_eq_true] at hvalid
  have hns : ∀ label, str label ++ [dot] ++ (d ++ [dot]) = serviceName label d := by
    simp [serviceName]
  refine ⟨hvalid.2, hdom, ?_, ?_, fun {k a} hk => ?_, ?_⟩
  · rw [← hns "ns", ← hdom]; rfl
  · rw [← hns "gateway", ← hdom]; rfl
  · rw [hdom] at hrecs
    exact (normalizeARecords_ok hvalid.2 hrecs hk).resolve_left (by simp)
  · rw [← hns "ns", ← hns "gateway", ← hdom]; rfl

section
variable {lib : NameLib} {d : GoString} {s : Server} {q : List GoString}

/-- A record is found under the text of its labels. -/
theorem Server.Serves.record_iff (h : s.Serves lib d) (hq : ∀ l ∈ q, isLabel l = true) {a : Addr} :
    (∃ k, s.config.aRecords.get k = some a ∧ labelsOf k = q) ↔
      s.config.aRecords.get (render q) = some a := by
  refine ⟨?_, fun hk => ⟨render q, hk, ?_⟩⟩
  · rintro ⟨k, hk, rfl⟩
    rwa [(h.record hk).1.labels.1]
  · obtain ⟨hr, -, hlabels⟩ := (h.record hk).1.labels
    exact (eq_of_render_eq hq (fun l hl => (hlabels l hl).1) hr.symm).symm

/-- The precomputed names other than the root: the apex, the two service names, and what lies at or
above a record. -/
theorem Server.Serves.mem_staticNames (h : s.Serves lib d) (hlib : lib.SkipsLabels)
    (hq : ∀ l ∈ q, isLabel l = true) (hq0 : q ≠ []) (hroot : q ≠ [[]]) :
    render q ∈ s.staticNames ↔ q = d.splitOn dot ∨ q = str "ns" :: d.splitOn dot ∨
      q = str "gateway" :: d.splitOn dot ∨
      ∃ k a, s.config.aRecords.get k = some a ∧ q <:+ labelsOf k := by
  have hplain : ∀ l ∈ d.splitOn dot, PlainLabel l := fun l hl =>
    plainLabel_of_validLabel (List.all_eq_true.1 h.domain_valid l hl)
  have hservice : ∀ label, PlainLabel (str label) →
      (render q = serviceName label d ↔ q = str label :: d.splitOn dot) := fun label hl => by
    rw [serviceName_eq_render]
    refine ⟨eq_of_render_eq hq fun l hm => ?_, fun h => h ▸ rfl⟩
    rcases List.mem_cons.1 hm with rfl | hm
    · exact hl
    · exact hplain l hm
  have hroot : render q ≠ [dot] := fun heq =>
    hroot (eq_of_render_eq hq (by simp [PlainLabel]) (heq : render q = render [[]]))
  have hapex : render q = d ++ [dot] ↔ q = d.splitOn dot := by
    rw [← render_splitOn]
    exact ⟨eq_of_render_eq hq hplain, fun h => h ▸ rfl⟩
  rw [h.staticNames, List.mem_append, List.mem_flatMap]
  simp only [List.mem_cons, List.not_mem_nil, or_false, hroot, false_or, hapex,
    hservice "ns" ⟨by decide, by decide⟩, hservice "gateway" ⟨by decide, by decide⟩, or_assoc]
  refine or_congr_right (or_congr_right (or_congr_right ⟨?_, ?_⟩))
  · rintro ⟨k, hk, hmem⟩
    obtain ⟨a, ha⟩ := Option.isSome_iff_exists.1 ((FinMap.mem_keys _ k).1 hk)
    obtain ⟨hrender, hne, hlabels⟩ := (h.record ha).1.labels
    have hlen : (labelsOf k).length ≤ k.length := by
      rw [← congrArg List.length hrender]
      exact length_le_render _
    rw [← hrender, mem_ancestors hlib hlabels hne (by rw [hrender]; exact hlen)] at hmem
    obtain ⟨m, -, hm, heq⟩ := hmem
    have := eq_of_render_eq hq (fun l hl => (hlabels l (hm.subset hl)).1) heq
    exact ⟨k, a, ha, this ▸ hm⟩
  · rintro ⟨k, a, ha, hs⟩
    obtain ⟨hrender, hne, hlabels⟩ := (h.record ha).1.labels
    refine ⟨k, (FinMap.mem_keys _ k).2 (by rw [ha]; rfl), ?_⟩
    have hlen : (labelsOf k).length ≤ k.length := by
      rw [← congrArg List.length hrender]
      exact length_le_render _
    have := (mem_ancestors hlib (x := render q) hlabels hne hlen).2 ⟨q, hq0, hs, rfl⟩
    rwa [hrender] at this

end

/-! ## Names of the lease manager -/

/-- The name is the live hostname of a lease. -/
def LiveName (m : Manager) (now : Int) (l : Lease) : Prop :=
  (∃ c, m.state.leases.get c = some l) ∧ now < l.expiresAt ∧ l.hostname ≠ []

section
variable {m : Manager} {now : Int} {q : List GoString}

/-- A live hostname is the text of plain labels below the domain's. -/
theorem LiveName.labels (hw : m.state.Wf m.cfg) {l : Lease} (h : LiveName m now l) :
    ∃ pre, pre ≠ [] ∧ (∀ x ∈ pre ++ m.cfg.domain.splitOn dot, validLabel x = true) ∧
      l.hostname = render (pre ++ m.cfg.domain.splitOn dot) ∧
      labelsOf l.hostname = pre ++ m.cfg.domain.splitOn dot ∧ l.hostname.length ≤ 254 := by
  obtain ⟨⟨c, hl⟩, -, hne⟩ := h
  have hunder := (hw.lease hl).name.resolve_left hne
  obtain ⟨pre, hpre, hvalid, hr⟩ := hunder.labels
  have hdom := List.all_eq_true.1 (validLabels_of_validDNSName m.cfg.domain_valid)
  have hall : ∀ x ∈ pre ++ m.cfg.domain.splitOn dot, validLabel x = true := fun x hx =>
    (List.mem_append.1 hx).elim (hvalid x) (hdom x)
  refine ⟨pre, hpre, hall, hr, ?_, ?_⟩
  · rw [hr]
    exact labelsOf_render (by simp [hpre]) fun x hx => (plainLabel_of_validLabel (hall x hx)).1
  · obtain ⟨n, hn, hv, -⟩ := hunder
    simp only [validDNSName, Bool.and_eq_true, Bool.not_eq_true', Bool.or_eq_false_iff,
      decide_eq_false_iff_not, not_lt] at hv
    rw [hn, List.length_append, List.length_singleton]
    omega

/-- The text of a query name strictly below the domain, without its final dot. -/
theorem render_below {pre : List GoString} (hpre : pre ≠ []) :
    ∃ x, render (pre ++ d.splitOn dot) = (x ++ dot :: d) ++ [dot] := by
  obtain ⟨x, hx⟩ := exists_render_eq hpre
  refine ⟨x, ?_⟩
  rw [render_append, hx, render_splitOn]
  simp

/-- The key of a query name strictly below the domain is the name itself if it is a valid host
name, and empty otherwise. -/
theorem normalizeHostname_query (hq : QueryName (m.cfg.domain.splitOn dot) q)
    {n : GoString} (hn : render q = n ++ [dot]) (hs : dot :: m.cfg.domain <:+ n) :
    normalizeHostname (render q) m.cfg.domain = if validDNSName n then n ++ [dot] else [] := by
  have hlow : toLower n = n := toLower_eq_self fun b hb =>
    hq.render_lower b (hn ▸ List.mem_append_left _ hb)
  have hdot : dot ∈ n := hs.subset (.head _)
  simp only [normalizeHostname, canonicalDomain_of_valid m.cfg.domain_valid, hn, trimSuffix_append,
    hlow, m.cfg.domain_valid, Bool.not_true, Bool.false_or, hdot, not_true_eq_false, if_false, hs]
  split <;> simp_all

/-- A host name below the domain that is a suffix of a stored one is valid. -/
theorem validDNSName_of_suffix {n : GoString} (hn : render q = n ++ [dot])
    (hs : q <:+ ls) (hvalid : ∀ x ∈ ls, validLabel x = true) (hlen : (render ls).length ≤ 254)
    (hq0 : q ≠ []) : validDNSName n = true := by
  obtain ⟨pre, rfl⟩ := hs
  have hq : ∀ x ∈ q, validLabel x = true := fun x hx => hvalid x (List.mem_append_right _ hx)
  have hlabels : n.splitOn dot = q := by
    have := labelsOf_render hq0 fun x hx => (plainLabel_of_validLabel (hq x hx)).1
    rwa [hn, labelsOf, trimSuffix_append] at this
  have hn0 : n ≠ [] := by
    rintro rfl
    have hmem : ([] : GoString) ∈ q := hlabels ▸ .head _
    exact validLabel_ne_nil (hq _ hmem) rfl
  have hlen' : n.length ≤ 253 := by
    rw [render_append, List.length_append, hn, List.length_append, List.length_singleton] at hlen
    omega
  have hall : validLabels n = true := by
    rw [validLabels, hlabels]
    exact List.all_eq_true.2 hq
  have hpos := List.length_pos_iff.2 hn0
  simp only [validDNSName, hall, Bool.and_true, Bool.not_eq_true', Bool.or_eq_false_iff,
    decide_eq_false_iff_not]
  omega

/-- The key `HasName` looks for is the name itself, or empty when the name is at or above no live
hostname. -/
theorem hasNameKey_query (hw : m.state.Wf m.cfg) (hq : QueryName (m.cfg.domain.splitOn dot) q)
    (hq0 : q ≠ []) :
    m.cfg.hasNameKey (render q) = render q ∨ (m.cfg.hasNameKey (render q) = [] ∧
      ¬ ∃ l, LiveName m now l ∧ q <:+ labelsOf l.hostname) := by
  obtain ⟨pre, rfl⟩ := hq.inZone
  rcases eq_or_ne pre [] with rfl | hpre
  · refine .inl ?_
    have hlow : toLower m.cfg.domain = m.cfg.domain :=
      validLabels_toLower (validLabels_of_validDNSName m.cfg.domain_valid)
    simp only [List.nil_append, render_splitOn, Settings.hasNameKey, trimSuffix_append, hlow,
      if_true]
  · obtain ⟨x, hx⟩ := render_below (d := m.cfg.domain) hpre
    have hne : toLower (trimSuffix (render (pre ++ m.cfg.domain.splitOn dot)) [dot]) ≠
        m.cfg.domain := by
      have hlow : toLower (x ++ dot :: m.cfg.domain) = x ++ dot :: m.cfg.domain :=
        toLower_eq_self fun b hb => hq.render_lower b (hx ▸ List.mem_append_left _ hb)
      rw [hx, trimSuffix_append, hlow]
      intro heq
      have := congrArg List.length heq
      rw [List.length_append, List.length_cons] at this
      omega
    rw [Settings.hasNameKey, if_neg hne, normalizeHostname_query hq hx ⟨x, rfl⟩]
    split
    · exact .inl hx.symm
    · next hv =>
      refine .inr ⟨rfl, ?_⟩
      rintro ⟨l, hl, hs⟩
      obtain ⟨pre', -, hall, hr, hlabels, hlen⟩ := hl.labels hw
      rw [hlabels] at hs
      exact hv (validDNSName_of_suffix hx hs hall (hr ▸ hlen) hq0)

/-- The texts that equal the name of some labels or end with it after a dot are the names of the
labels at or below them. -/
theorem render_match_iff (hq : ∀ x ∈ q, isLabel x = true)
    (hplain : ∀ x ∈ ls, PlainLabel x) :
    render ls = render q ∨ dot :: render q <:+ render ls ↔ q <:+ ls := by
  constructor
  · rintro (heq | hsuf)
    · exact (eq_of_render_eq hq hplain heq.symm).symm ▸ List.suffix_rfl
    · have hqdot : ∀ x ∈ q, dot ∉ x := fun x hx => by
        refine not_dot_of_isLabel (hq x hx) fun hb => ?_
        have hmem : backslash ∈ render ls :=
          hsuf.subset (.tail _ (List.mem_flatMap.2 ⟨x, hx, List.mem_append_left _ hb⟩))
        obtain ⟨y, hy, hb'⟩ := List.mem_flatMap.1 hmem
        rcases List.mem_append.1 hb' with hb' | hb'
        · exact (hplain y hy).2 hb'
        · exact absurd hb' (by decide)
      obtain ⟨pre, -, heq⟩ := (dot_render_suffix_iff (fun x hx => (hplain x hx).1) hqdot).1 hsuf
      exact ⟨pre, heq.symm⟩
  · rintro ⟨pre, rfl⟩
    rcases eq_or_ne pre [] with rfl | hpre
    · exact .inl rfl
    · have hdot : ∀ x ∈ pre ++ q, dot ∉ x := fun x hx => (hplain x hx).1
      exact .inr ((dot_render_suffix_iff hdot fun x hx => hdot x (List.mem_append_right _ hx)).2
        ⟨pre, hpre, rfl⟩)

/-- `HasName` holds of the names at or above a live hostname. -/
theorem hasName_iff (hw : m.state.Wf m.cfg) (hq : QueryName (m.cfg.domain.splitOn dot) q) :
    (m.hasName now (render q)).1 = true ↔ ∃ l, LiveName m now l ∧ q <:+ labelsOf l.hostname := by
  have hq0 : q ≠ [] := fun h0 =>
    List.splitOn_ne_nil dot m.cfg.domain (List.suffix_nil.1 (h0 ▸ hq.inZone))
  -- the test of the loop, on the hostname of a live lease
  have hmatch : ∀ {l}, LiveName m now l →
      (l.hostname = render q ∨ dot :: render q <:+ l.hostname ↔ q <:+ labelsOf l.hostname) := by
    intro l hl
    obtain ⟨pre, -, hall, hr, hlabels, -⟩ := hl.labels hw
    rw [hlabels, hr]
    exact render_match_iff hq.label fun x hx => plainLabel_of_validLabel (hall x hx)
  simp only [Manager.hasName]
  rcases hasNameKey_query hw hq hq0 with hkey | ⟨hkey, hnone⟩
  · have hkey' : (m.expire now).cfg.hasNameKey (render q) = render q := hkey
    rw [hkey', if_neg (render_ne_nil hq0)]
    simp only [FinMap.any_eq_true, Bool.and_eq_true, Bool.or_eq_true, decide_eq_true_eq]
    constructor
    · rintro ⟨c, l, hl, ⟨hne, -⟩, htest⟩
      obtain ⟨hl, hlive⟩ := State.expire_leases.1 hl
      have hname : LiveName m now l := ⟨⟨c, hl⟩, hlive, hne⟩
      exact ⟨l, hname, (hmatch hname).1 htest⟩
    · rintro ⟨l, hname, hs⟩
      obtain ⟨⟨c, hl⟩, hlive, hne⟩ := hname
      exact ⟨c, l, State.expire_leases.2 ⟨hl, hlive⟩, ⟨hne, (hw.lease hl).name_free⟩,
        (hmatch ⟨⟨c, hl⟩, hlive, hne⟩).2 hs⟩
  · have hkey' : (m.expire now).cfg.hasNameKey (render q) = [] := hkey
    rw [hkey', if_pos rfl]
    exact ⟨fun h => (by cases h), fun h => absurd h hnone⟩

/-- `LookupName` finds the lease with the normalised name, if there is one. -/
theorem lookupName_eq_some (hw : m.state.Wf m.cfg) {name : GoString} {l : Lease} :
    (m.lookupName now name).1 = some l ↔
      LiveName m now l ∧ normalizeHostname name m.cfg.domain = l.hostname := by
  simp only [Manager.lookupName]
  rw [show (m.expire now).cfg = m.cfg from rfl]
  constructor
  · intro h
    split at h
    · cases h
    next hfree =>
    obtain ⟨⟨c, l'⟩, hf, rfl⟩ := Option.map_eq_some_iff.1 h
    obtain ⟨hl, hname⟩ := FinMap.find_eq_some hf
    obtain ⟨hl, hlive⟩ := State.expire_leases.1 hl
    have hname := of_decide_eq_true hname
    exact ⟨⟨⟨c, hl⟩, hlive, fun hnil => hfree (.inl (hname.symm.trans hnil))⟩, hname.symm⟩
  · rintro ⟨⟨⟨c, hl⟩, hexp, hne⟩, hname⟩
    rw [hname, if_neg (not_or.2 ⟨hne, (hw.lease hl).name_free⟩)]
    refine Option.map_eq_some_iff.2 ⟨(c, l), ?_, rfl⟩
    refine FinMap.find_of_unique (State.expire_leases.2 ⟨hl, hexp⟩) (decide_eq_true rfl) ?_
    intro c' l' hl' hname'
    exact (hw.names hl (State.expire_leases.1 hl').1 hne (of_decide_eq_true hname').symm).symm

/-- The name of a query below the domain is looked up as it is. -/
theorem lookupName_iff (hw : m.state.Wf m.cfg) (hq : QueryName (m.cfg.domain.splitOn dot) q)
    (hne : q ≠ m.cfg.domain.splitOn dot) {l : Lease} :
    (m.lookupName now (render q)).1 = some l ↔ LiveName m now l ∧ l.hostname = render q := by
  obtain ⟨pre, rfl⟩ := hq.inZone
  have hpre : pre ≠ [] := by
    rintro rfl
    exact hne rfl
  obtain ⟨x, hx⟩ := render_below (d := m.cfg.domain) hpre
  rw [lookupName_eq_some hw, normalizeHostname_query hq hx ⟨x, rfl⟩, hx]
  refine and_congr_right fun ⟨⟨c, hl⟩, _, hne'⟩ => ⟨fun h => ?_, fun h => ?_⟩
  · split at h
    · exact h.symm
    · exact absurd h.symm hne'
  · obtain ⟨n, hn, hv, -⟩ := (hw.lease hl).name.resolve_left hne'
    rw [List.append_cancel_right (h.symm.trans hn), if_pos hv, hn]

end

end InfraBox.Dns
