import InfraBox.Dns.Lookup

/-!
# Overrides of external names

`lookupExternalAddress` answers a name outside the domain from the configured records alone. The
precomputed names, with the root, are the set `Server.Static`; a name outside it is answered by the
wildcard record at its closest ancestor in it (`externalWildcard_iff`). `ExternalWalk` is the loop
as it runs, one constructor for each way an iteration can end, so that a derivation says that it
returns (`externalWildcard_walk`).
-/

namespace InfraBox.Dns

open Leasing

/-- The text of a name: that of the root is a dot. -/
def nameText (q : List GoString) : GoString := if q = [] then [dot] else render q

theorem nameText_cons (l : GoString) (q : List GoString) :
    nameText (l :: q) = l ++ dot :: render q := by
  rw [nameText, if_neg (by simp), render_cons]

/-- A record with this address is configured for the name. -/
def Server.Record (s : Server) (n : List GoString) (a : Addr) : Prop :=
  ∃ k, s.config.aRecords.get k = some a ∧ labelsOf k = n

/-- The root, the domain, the names of the server, and every name at or above a record. -/
def Server.Static (s : Server) (n : List GoString) : Prop :=
  n = [] ∨ n = labelsOf s.config.domain ∨ n = str "ns" :: labelsOf s.config.domain ∨
    n = str "gateway" :: labelsOf s.config.domain ∨
    n ≠ [] ∧ ∃ k a, s.Record k a ∧ n <:+ k

/-- The labels of a canonical name. -/
def CanonicalName (q : List GoString) : Prop := ∀ l ∈ q, isLabel l = true ∧ l ≠ []

/-- The loop of `lookupExternalAddress` returns this result when it is entered with this name. -/
inductive ExternalWalk (lib : NameLib) (s : Server) : GoString → Option (Addr × GoString) → Prop
  | root : ExternalWalk lib s [dot] none
  | last {name : GoString} : name ≠ [dot] → (lib.nextLabel name 0).2 = true →
      ExternalWalk lib s name none
  | found {name next : GoString} : name ≠ [dot] → (lib.nextLabel name 0).2 = false →
      next = name.drop (lib.nextLabel name 0).1 → next ∈ s.staticNames →
      ExternalWalk lib s name ((s.config.aRecords.get (str "*." ++ next)).map (·, next))
  | step {name next : GoString} {r : Option (Addr × GoString)} : name ≠ [dot] →
      (lib.nextLabel name 0).2 = false → next = name.drop (lib.nextLabel name 0).1 →
      next ∉ s.staticNames → ExternalWalk lib s next r → ExternalWalk lib s name r

section
variable {lib : NameLib} {s : Server} {d : GoString} {q : List GoString} {a : Addr}

theorem CanonicalName.tail {l : GoString} (h : CanonicalName (l :: q)) : CanonicalName q :=
  fun x hx => h x (.tail _ hx)

theorem CanonicalName.label (h : CanonicalName q) : ∀ l ∈ q, isLabel l = true :=
  fun l hl => (h l hl).1

theorem nameText_ne_root {l : GoString} (h : CanonicalName (l :: q)) :
    nameText (l :: q) ≠ [dot] := by
  intro heq
  have hlen := congrArg List.length heq
  have hpos := List.length_pos_iff.2 (h l (.head _)).2
  rw [nameText_cons, List.length_append, List.length_cons, List.length_singleton] at hlen
  omega

/-- The precomputed names are the texts of the names at or above something configured. -/
theorem Server.Serves.static_iff (h : s.Serves lib d) (hlib : lib.SkipsLabels)
    (hq : CanonicalName q) : nameText q ∈ s.staticNames ↔ s.Static q := by
  by_cases hq0 : q = []
  · subst hq0
    refine ⟨fun _ => .inl rfl, fun _ => ?_⟩
    rw [h.staticNames]
    exact List.mem_append_left _ (.head _)
  · have hroot : q ≠ [[]] := by
      rintro rfl
      exact (hq [] (.head _)).2 rfl
    have hdomain : labelsOf s.config.domain = d.splitOn dot := by
      rw [h.domain, labelsOf, trimSuffix_append]
    have hrecord : (∃ k a, s.config.aRecords.get k = some a ∧ q <:+ labelsOf k) ↔
        ∃ k a, s.Record k a ∧ q <:+ k := by
      constructor
      · rintro ⟨k, a, hk, hs⟩
        exact ⟨labelsOf k, a, ⟨k, hk, rfl⟩, hs⟩
      · rintro ⟨_, a, ⟨k, hk, rfl⟩, hs⟩
        exact ⟨k, a, hk, hs⟩
    rw [nameText, if_neg hq0, h.mem_staticNames hlib hq.label hq0 hroot, Server.Static, hdomain,
      hrecord]
    simp only [hq0, false_or, ne_eq, not_false_eq_true, true_and]

/-- No record is the root's, and none is the wildcard below the root. -/
theorem Server.Serves.not_record_root (h : s.Serves lib d) :
    ¬ s.Record [] a ∧ ¬ s.Record [[star]] a := by
  refine ⟨?_, ?_⟩
  · rintro ⟨k, hk, hl⟩
    exact (h.record hk).1.labels.2.1 hl
  · rintro ⟨k, hk, hl⟩
    obtain ⟨n, hn, -, hr⟩ := (h.record hk).1.host
    rcases hr with rfl | rfl
    · -- a wildcard label is not valid
      rw [labelsOf, trimSuffix_append] at hl
      have hvalid := List.all_eq_true.1 hn [star] (by rw [hl]; exact .head _)
      exact absurd hvalid (by decide)
    · have hsplit : (star :: dot :: n).splitOn dot = [star] :: n.splitOn dot :=
        List.splitOn_append_cons_self_of_not_mem (show dot ∉ [star] by decide) n
      rw [labelsOf, trimSuffix_append, hsplit] at hl
      exact List.splitOn_ne_nil _ _ (List.cons.inj hl).2

/-- A record is found under the text of its name. -/
theorem Server.Serves.get_nameText (h : s.Serves lib d) (hq : CanonicalName q) :
    s.config.aRecords.get (nameText q) = some a ↔ s.Record q a := by
  by_cases hq0 : q = []
  · subst hq0
    refine ⟨fun hk => ?_, fun hr => absurd hr h.not_record_root.1⟩
    obtain ⟨hr, -, hlabels⟩ := (h.record hk).1.labels
    exact absurd rfl (hlabels [] (by decide)).2
  · rw [nameText, if_neg hq0]
    exact (h.record_iff hq.label).symm

/-- What the loop meets at a name of more than one label. -/
theorem nextLabel_nameText (hlib : lib.SkipsLabels) {l : GoString} (hq : CanonicalName (l :: q)) :
    lib.nextLabel (nameText (l :: q)) 0 = (l.length + 1, decide (q = [])) ∧
      (nameText (l :: q)).drop (l.length + 1) = render q := by
  have hempty : render q = [] ↔ q = [] :=
    ⟨fun h => by_contra fun hne => render_ne_nil hne h, fun h => h ▸ rfl⟩
  rw [nameText_cons, hlib.nextLabel l (render q) (hq l (.head _)).1]
  refine ⟨by simp only [hempty], by simp⟩

/-- The loop returns what the model's function computes. -/
theorem externalWildcard_walk (hlib : lib.SkipsLabels) :
    ∀ {q : List GoString} {fuel : Nat}, CanonicalName q → q.length ≤ fuel →
      ExternalWalk lib s (nameText q) (s.externalWildcard lib fuel (nameText q))
  | [], 0, _, _ => .root
  | [], fuel + 1, _, _ => .root
  | l :: q, 0, _, hf => by simp at hf
  | l :: q, fuel + 1, hq, hf => by
    obtain ⟨hnext, hdrop⟩ := nextLabel_nameText hlib hq
    have hroot := nameText_ne_root hq
    rw [Server.externalWildcard, if_neg hroot, hnext, hdrop]
    cases q with
    | nil => exact .last hroot (by rw [hnext]; rfl)
    | cons l' q =>
      have hname : render (l' :: q) = nameText (l' :: q) := (if_neg (by simp)).symm
      have hmore : (lib.nextLabel (nameText (l :: l' :: q)) 0).2 = false := by rw [hnext]; rfl
      have hstep : nameText (l' :: q) =
          (nameText (l :: l' :: q)).drop (lib.nextLabel (nameText (l :: l' :: q)) 0).1 := by
        rw [hnext, hdrop, hname]
      rw [hname]
      simp only [reduceCtorEq, decide_false, Bool.false_eq_true, if_false]
      split
      · next hs => exact .found hroot hmore hstep hs
      · next hs =>
        exact .step hroot hmore hstep hs
          (externalWildcard_walk hlib hq.tail (by simp only [List.length_cons] at hf ⊢; omega))

/-- The loop finds the wildcard record at the closest ancestor among the precomputed names. -/
theorem externalWildcard_iff (h : s.Serves lib d) (hlib : lib.SkipsLabels) {zone : GoString} :
    ∀ {q : List GoString} {fuel : Nat}, CanonicalName q → q.length ≤ fuel →
      (s.externalWildcard lib fuel (nameText q) = some (a, zone) ↔
        ∃ e, IsClosestEncloser s.Static [] q e ∧ s.Record ([star] :: e) a ∧ zone = nameText e)
  | [], fuel, _, _ => by
    refine ⟨fun hw => ?_, fun ⟨e, he, _⟩ => absurd (List.suffix_nil.1 he.ancestor) he.proper⟩
    cases fuel <;> cases hw
  | l :: q, 0, _, hf => by simp at hf
  | l :: q, fuel + 1, hq, hf => by
    obtain ⟨hnext, hdrop⟩ := nextLabel_nameText hlib hq
    rw [Server.externalWildcard, if_neg (nameText_ne_root hq), hnext, hdrop]
    cases q with
    | nil =>
      -- above a single label there is only the root, which has no wildcard record
      simp only [decide_true, if_true, reduceCtorEq, false_iff]
      rintro ⟨e, he, hr, -⟩
      obtain rfl : e = [] := List.suffix_nil.1 (suffix_tail he.ancestor he.proper)
      exact h.not_record_root.2 hr
    | cons l' q =>
      have hname : render (l' :: q) = nameText (l' :: q) := (if_neg (by simp)).symm
      have hstar : str "*." ++ nameText (l' :: q) = nameText ([star] :: l' :: q) := by
        rw [nameText_cons [star], hname]; rfl
      have hcanon : CanonicalName ([star] :: l' :: q) :=
        List.forall_mem_cons.2 ⟨⟨by decide, by decide⟩, hq.tail⟩
      rw [hname]
      simp only [reduceCtorEq, decide_false, Bool.false_eq_true, if_false]
      by_cases hs : s.Static (l' :: q)
      · rw [if_pos ((h.static_iff hlib hq.tail).2 hs), hstar, Option.map_eq_some_iff]
        have hclosest : IsClosestEncloser s.Static [] (l :: l' :: q) (l' :: q) :=
          .parent hs List.nil_suffix
        constructor
        · rintro ⟨b, hb, heq⟩
          obtain ⟨rfl, rfl⟩ := Prod.mk.inj heq
          exact ⟨l' :: q, hclosest, (h.get_nameText hcanon).1 hb, rfl⟩
        · rintro ⟨e, he, hr, rfl⟩
          obtain rfl := he.unique hclosest
          exact ⟨a, (h.get_nameText hcanon).2 hr, rfl⟩
      · rw [if_neg (mt (h.static_iff hlib hq.tail).1 hs),
          externalWildcard_iff h hlib hq.tail (by simp only [List.length_cons] at hf ⊢; omega)]
        constructor
        · rintro ⟨e, he, hr⟩
          exact ⟨e, he.of_parent hs, hr⟩
        · rintro ⟨e, he, hr⟩
          rcases he.step with ⟨hs', -⟩ | ⟨-, he'⟩
          · exact absurd hs' hs
          · exact ⟨e, he', hr⟩

end

/-- The domain of a server is fully qualified, as `dns.Fqdn` makes it. -/
theorem new_serves_domain {lib : NameLib} {net : ListenerLib} {config : Config} {s : Server}
    (hfqdn : ∀ x, [dot] <:+ lib.fqdn x) (h : new lib net config = .ok s) : ∃ d, s.Serves lib d := by
  obtain ⟨x, hx⟩ := hfqdn (trimSpace config.domain)
  obtain ⟨d, hd⟩ := exists_toLower_concat_dot x
  have hdomain : s.config.domain = d ++ [dot] := by
    obtain ⟨recs, rfl, -⟩ := new_ok h
    show toLower (lib.fqdn (trimSpace config.domain)) = d ++ [dot]
    rw [← hx, hd]
  exact ⟨d, new_serves h hdomain⟩

/-- Overrides of external names, for a server that `New` accepts and every canonical name: the
lookup matches a name that has a record, with itself as the zone, or one that is not precomputed and
whose closest precomputed ancestor has a wildcard record, with the ancestor as the zone. It always
returns, and answers to such names do not depend on the leases. -/
theorem lookupExternalAddress_closest {lib : NameLib} {net : ListenerLib} {config : Config}
    {s : Server} (hlib : lib.SkipsLabels) (hfqdn : ∀ x, [dot] <:+ lib.fqdn x)
    (hnew : new lib net config = .ok s) {q : List GoString} (hq : CanonicalName q) :
    (∀ a zone, s.lookupExternalAddress lib (nameText q) = some (a, zone) ↔
      (s.Record q a ∧ zone = nameText q) ∨
      (¬ s.Static q ∧ ∃ e, IsClosestEncloser s.Static [] q e ∧ s.Record ([star] :: e) a ∧
        zone = nameText e)) ∧
    ExternalWalk lib s (nameText q)
      (s.externalWildcard lib (nameText q).length (nameText q)) ∧
    (∀ m m' now now' kind rd, lib.isSubDomain s.config.domain (nameText q) = false →
      s.reverseAuthority (nameText q) = none →
      s.answerName lib m now (nameText q) kind rd =
        s.answerName lib m' now' (nameText q) kind rd) := by
  obtain ⟨d, hs⟩ := new_serves_domain hfqdn hnew
  have hlen : q.length ≤ (nameText q).length := by
    unfold nameText
    split
    · next h => simp [h]
    · exact length_le_render q
  refine ⟨fun a zone => ?_, externalWildcard_walk hlib hq hlen, ?_⟩
  · have hstatic := hs.static_iff hlib hq
    -- a name with a record is precomputed
    have hrecord : ∀ b, s.Record q b → s.Static q := fun b hb =>
      .inr (.inr (.inr (.inr ⟨fun h0 => hs.not_record_root.1 (h0 ▸ hb), q, b, hb,
        List.suffix_rfl⟩)))
    rw [Server.lookupExternalAddress]
    cases hget : s.config.aRecords.get (nameText q) with
    | some b =>
      have hb := (hs.get_nameText hq).1 hget
      simp only [Option.some.injEq, Prod.mk.injEq]
      constructor
      · rintro ⟨rfl, rfl⟩
        exact .inl ⟨hb, rfl⟩
      · rintro (⟨ha, rfl⟩ | ⟨hno, -⟩)
        · rw [(hs.get_nameText hq).2 ha] at hget
          exact ⟨(Option.some.inj hget).symm, rfl⟩
        · exact absurd (hrecord b hb) hno
    | none =>
      have hno : ¬ s.Record q a := fun ha => by
        rw [(hs.get_nameText hq).2 ha] at hget
        cases hget
      simp only [hno, false_and, false_or]
      by_cases hq' : s.Static q
      · simp [hstatic.2 hq', hq']
      · rw [if_neg (mt hstatic.1 hq'), externalWildcard_iff hs hlib hq hlen]
        simp only [hq', not_false_eq_true, true_and]
  · intro m m' now now' kind rd hdomain hreverse
    simp only [Server.answerName, hdomain, hreverse, Bool.false_eq_true, if_false]

/-- The sample server with a wildcard record for an outside domain. -/
def overrideConfig : Config :=
  { sampleDns with aRecords := FinMap.empty.set (str "*.example.org") (.v4 0x0a000003) }

def overrideServer : Server :=
  build referenceLib { overrideConfig with
    domain := str "lan."
    aRecords := FinMap.empty.set (str "*.example.org.") (.v4 0x0a000003) }

/-- A name two labels below the outside domain gets the wildcard's address. -/
theorem lookupExternalAddress_closest_override :
    let q := [str "a", str "b", str "example", str "org"]
    ∃ a zone, overrideServer.lookupExternalAddress referenceLib (nameText q) = some (a, zone) ∧
      ((overrideServer.Record q a ∧ zone = nameText q) ∨
        (¬ overrideServer.Static q ∧ ∃ e, IsClosestEncloser overrideServer.Static [] q e ∧
          overrideServer.Record ([star] :: e) a ∧ zone = nameText e)) := by
  intro q
  have hnew : new referenceLib ⟨fun _ _ => none, fun _ _ _ => false⟩ overrideConfig =
      .ok overrideServer := rfl
  have hfqdn : ∀ x, [dot] <:+ referenceLib.fqdn x := fun x => by
    simp only [referenceLib]
    split
    · next h => exact h
    · exact List.suffix_append _ _
  have hq : CanonicalName q := by unfold CanonicalName; decide
  have heval : overrideServer.lookupExternalAddress referenceLib (nameText q) =
      some (.v4 0x0a000003, str "example.org.") := by decide +kernel
  exact ⟨_, _, heval, ((lookupExternalAddress_closest referenceLib_skipsLabels hfqdn hnew hq).1
    _ _).1 heval⟩

end InfraBox.Dns
