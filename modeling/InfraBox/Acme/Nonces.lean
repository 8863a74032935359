import InfraBox.Lib.Base64
import InfraBox.Lib.FinMap
import InfraBox.Lib.LinkedList
import InfraBox.Lib.Run
import InfraBox.Lib.Time

/-!
# Replay nonces

`acmeauth.Verifier` hands out nonces and accepts each of them once. It keeps the outstanding ones in
a queue, oldest first, and in a map from the nonce to its element of the queue, through which a
nonce is taken out of the middle of the queue. `Verifier.Wf` says that the two agree. Then the
verifier is a list of entries (`Verifier.outstanding`) on which a new nonce is an eviction from the
front and an append at the back, and a consumption a removal (`Verifier.Wf.nonce`,
`Verifier.Wf.consume`); what `replay_protection` says of runs is proved of that list.
-/

namespace InfraBox.Acme

/-! ## The verifier -/

def maxNonces : Nat := 8192

def nonceTTL : Int := 10 * minute

/-- `nonceEntry`. -/
structure NonceEntry where
  value : GoString
  expires : Int
deriving DecidableEq

/-- The nonces of a `Verifier`. -/
structure Verifier where
  nonces : FinMap GoString (Element NonceEntry)
  queue : LinkedList NonceEntry

/-- The nonces of `New`. -/
def Verifier.new : Verifier := ⟨.empty, .empty⟩

/-- The loop of `Nonce`: the front of the queue is dropped while it has expired or there is no room
for another nonce. -/
def Verifier.makeRoom (v : Verifier) (now : Int) : Verifier :=
  match _h : v.queue.front with
  | none => v
  | some first =>
    if v.nonces.size < maxNonces ∧ now < first.value.expires then v
    else Verifier.makeRoom ⟨v.nonces.erase first.value.value, v.queue.remove first⟩ now
termination_by v.queue.elements.length
decreasing_by exact LinkedList.length_remove_lt _h

/-- `Verifier.Nonce`, given the random bytes or the error of reading them. -/
def Verifier.nonce (v : Verifier) (now : Int) :
    Except GoString GoString → Except GoString GoString × Verifier
  | .error e => (.error (str "generate ACME nonce: " ++ e), v)
  | .ok random =>
    let nonce := base64Encode random
    let v := v.makeRoom now
    let (element, queue) := v.queue.pushBack ⟨nonce, now + nonceTTL⟩
    (.ok nonce, ⟨v.nonces.set nonce element, queue⟩)

/-- `Verifier.consume`. -/
def Verifier.consume (v : Verifier) (now : Int) (nonce : GoString) : Bool × Verifier :=
  match v.nonces.get nonce with
  | none => (false, v)
  | some element =>
    (decide (now < element.value.expires), ⟨v.nonces.erase nonce, v.queue.remove element⟩)

/-! ## The list of outstanding nonces -/

/-- What is left of the outstanding nonces when room is made for another one. -/
def evict (now : Int) : List NonceEntry → List NonceEntry
  | [] => []
  | e :: rest =>
    if (e :: rest).length < maxNonces ∧ now < e.expires then e :: rest else evict now rest

theorem evict_suffix (now : Int) : ∀ l : List NonceEntry, evict now l <:+ l
  | [] => List.suffix_refl _
  | e :: rest => by
    unfold evict
    split
    · exact List.suffix_refl _
    · exact (evict_suffix now rest).trans (List.suffix_cons e rest)

theorem length_evict_lt (now : Int) : ∀ l : List NonceEntry, (evict now l).length < maxNonces
  | [] => Nat.zero_lt_succ _
  | e :: rest => by
    unfold evict
    split
    · next h => exact h.1
    · exact length_evict_lt now rest

/-- From a list within the bound, an entry is evicted when it has expired, or because it is the
front of a full list. -/
theorem evicted_cases {now : Int} : ∀ {l : List NonceEntry} {e : NonceEntry},
    l.length ≤ maxNonces → e ∈ l → e ∉ evict now l →
      e.expires ≤ now ∨ (l.length = maxNonces ∧ l.head? = some e)
  | [], e, _, he, _ => by cases he
  | a :: rest, e, hlen, he, hout => by
    unfold evict at hout
    split at hout
    · exact absurd he hout
    next h =>
    rw [List.length_cons] at hlen h
    rcases List.mem_cons.1 he with rfl | he
    · by_cases hexp : e.expires ≤ now
      · exact .inl hexp
      · exact .inr ⟨by rw [List.length_cons]; omega, rfl⟩
    · rcases evicted_cases (by omega) he hout with hexp | ⟨hfull, -⟩
      · exact .inl hexp
      · omega

/-! ## The map and the queue agree -/

/-- The outstanding nonces, oldest first. -/
def Verifier.outstanding (v : Verifier) : List NonceEntry := v.queue.elements.map Element.value

/-- The map and the queue hold the same nonces, and each entry of the map refers to its own
element of the queue. -/
structure Verifier.Wf (v : Verifier) : Prop where
  listed : ∀ {n e}, v.nonces.get n = some e → e ∈ v.queue.elements ∧ e.value.value = n
  indexed : ∀ {e}, e ∈ v.queue.elements → v.nonces.get e.value.value = some e

section
variable {v : Verifier}

/-- The map has as many nonces as the queue. -/
theorem Verifier.Wf.size_eq (h : v.Wf) : v.nonces.size = v.outstanding.length := by
  have hperm : v.nonces.entries.Perm (v.queue.elements.map fun e => (e.value.value, e)) := by
    refine (List.perm_ext_iff_of_nodup v.nonces.nodup_entries
      (v.queue.nodup.map fun a b hab => (Prod.mk.inj hab).2)).2 fun ⟨n, e⟩ => ?_
    rw [FinMap.mem_entries, List.mem_map]
    constructor
    · intro hn
      obtain ⟨he, hv⟩ := h.listed hn
      exact ⟨e, he, by rw [hv]⟩
    · rintro ⟨a, ha, heq⟩
      obtain ⟨rfl, rfl⟩ := Prod.mk.inj heq
      exact h.indexed ha
  have hlen := hperm.length_eq
  rw [List.length_map] at hlen
  rw [Verifier.outstanding, List.length_map, ← hlen, FinMap.size, ← FinMap.map_fst_entries,
    List.length_map]

/-- A nonce that is not in the map is not outstanding. -/
theorem Verifier.Wf.get_eq_none (h : v.Wf) {n : GoString}
    (hn : n ∉ v.outstanding.map NonceEntry.value) :
    v.nonces.get n = none := by
  refine Option.eq_none_iff_forall_ne_some.2 fun e he => hn ?_
  obtain ⟨hmem, hv⟩ := h.listed he
  exact hv ▸ List.mem_map_of_mem (List.mem_map_of_mem hmem)

theorem Verifier.wf_new : Verifier.new.Wf where
  listed h := by cases h
  indexed h := by cases h

/-- Taking a nonce out of the map and its element out of the queue keeps them in step. -/
theorem Verifier.Wf.remove (h : v.Wf) {e : Element NonceEntry} (he : e ∈ v.queue.elements) :
    Verifier.Wf ⟨v.nonces.erase e.value.value, v.queue.remove e⟩ where
  listed {n a} ha := by
    obtain ⟨hne, ha⟩ := FinMap.get_erase_eq_some.1 ha
    obtain ⟨hmem, hv⟩ := h.listed ha
    refine ⟨(LinkedList.mem_remove he).2 ⟨hmem, fun heq => hne ?_⟩, hv⟩
    rw [← hv, heq]
  indexed {a} ha := by
    obtain ⟨hmem, hne⟩ := (LinkedList.mem_remove he).1 ha
    refine FinMap.get_erase_eq_some.2 ⟨fun hv => hne ?_, h.indexed hmem⟩
    have hget := h.indexed hmem
    rw [hv, h.indexed he] at hget
    exact (Option.some.inj hget).symm

/-- Making room is an eviction from the list. -/
theorem Verifier.Wf.makeRoom (h : v.Wf) (now : Int) :
    (v.makeRoom now).Wf ∧ (v.makeRoom now).outstanding = evict now v.outstanding := by
  fun_induction Verifier.makeRoom v now with
  | case1 v hfront =>
    have hnil : v.queue.elements = [] := List.head?_eq_none_iff.1 hfront
    exact ⟨h, by simp only [Verifier.outstanding, hnil, List.map_nil, evict]⟩
  | case2 v first hfront hroom =>
    obtain ⟨rest, hrest⟩ := LinkedList.front_eq_some.1 hfront
    refine ⟨h, ?_⟩
    rw [h.size_eq] at hroom
    simp only [Verifier.outstanding, hrest, List.map_cons] at hroom ⊢
    rw [evict, if_pos hroom]
  | case3 v first hfront hfull ih =>
    obtain ⟨rest, hrest⟩ := LinkedList.front_eq_some.1 hfront
    obtain ⟨hwf, hout⟩ := ih (h.remove (hrest ▸ .head _))
    refine ⟨hwf, hout.trans ?_⟩
    rw [h.size_eq] at hfull
    simp only [Verifier.outstanding, LinkedList.elements_remove_front hrest]
    simp only [Verifier.outstanding, hrest, List.map_cons] at hfull ⊢
    rw [evict, if_neg hfull]

/-- A new nonce evicts from the front and goes to the back. -/
theorem Verifier.Wf.nonce (h : v.Wf) (now : Int) {random : GoString}
    (hfresh : base64Encode random ∉ v.outstanding.map NonceEntry.value) :
    (v.nonce now (.ok random)).2.Wf ∧ (v.nonce now (.ok random)).2.outstanding =
      evict now v.outstanding ++ [⟨base64Encode random, now + nonceTTL⟩] := by
  obtain ⟨hwf, hout⟩ := h.makeRoom now
  have hnew : base64Encode random ∉ (v.makeRoom now).outstanding.map NonceEntry.value := fun hmem =>
    hfresh (((hout ▸ evict_suffix now v.outstanding).sublist.map _).subset hmem)
  have hnone := hwf.get_eq_none hnew
  refine ⟨⟨fun {n e} he => ?_, fun {e} he => ?_⟩, ?_⟩
  · rcases FinMap.get_set_eq_some.1 he with ⟨rfl, rfl⟩ | ⟨hne, he⟩
    · exact ⟨List.mem_append_right _ (.head _), rfl⟩
    · obtain ⟨hmem, hv⟩ := hwf.listed he
      exact ⟨List.mem_append_left _ hmem, hv⟩
  · rcases List.mem_append.1 he with he | he
    · have hget := hwf.indexed he
      refine (FinMap.get_set_ne _ _ fun heq => ?_).trans hget
      rw [heq, hnone] at hget
      cases hget
    · rw [List.mem_singleton.1 he]
      exact FinMap.get_set_self ..
  · rw [← hout]
    exact List.map_append

/-- A consumption removes the nonce, and succeeds if it was outstanding and has not expired. -/
theorem Verifier.Wf.consume (h : v.Wf) (now : Int) (n : GoString) :
    (v.consume now n).2.Wf ∧
    (v.consume now n).2.outstanding = v.outstanding.filter (fun e => e.value ≠ n) ∧
    ((v.consume now n).1 = true ↔ ∃ e ∈ v.outstanding, e.value = n ∧ now < e.expires) := by
  unfold Verifier.consume
  split
  next hnone =>
    have hout : ∀ e ∈ v.outstanding, e.value ≠ n := by
      rintro e he rfl
      obtain ⟨a, ha, rfl⟩ := List.mem_map.1 he
      rw [h.indexed ha] at hnone
      cases hnone
    refine ⟨h, ?_, ?_⟩
    · exact (List.filter_eq_self.2 fun e he => decide_eq_true (hout e he)).symm
    · simp only [Bool.false_eq_true, false_iff]
      rintro ⟨e, he, hv, -⟩
      exact hout e he hv
  next element hget =>
    obtain ⟨hmem, rfl⟩ := h.listed hget
    -- of the queue's elements, only this one carries the nonce
    have honly : ∀ a ∈ v.queue.elements, a.value.value = element.value.value → a = element := by
      intro a ha hv
      have := h.indexed ha
      rw [hv, hget] at this
      exact (Option.some.inj this).symm
    refine ⟨h.remove hmem, ?_, ?_⟩
    · rw [Verifier.outstanding, Verifier.outstanding, List.filter_map]
      refine congrArg _ (List.filter_congr fun a ha => ?_)
      refine decide_eq_decide.2 (not_congr ⟨fun hid => ?_, fun hv => ?_⟩)
      · rw [LinkedList.eq_of_id ha hmem hid]
      · rw [honly a ha hv]
    · simp only [decide_eq_true_eq]
      constructor
      · exact fun hlt => ⟨_, List.mem_map_of_mem hmem, rfl, hlt⟩
      · rintro ⟨e, he, hv, hlt⟩
        obtain ⟨a, ha, rfl⟩ := List.mem_map.1 he
        rwa [honly a ha hv] at hlt

end

/-! ## Runs -/

/-- A verifier and its last clock reading. -/
structure VerifierProcess where
  verifier : Verifier
  clock : Int

/-- A call of one of the two methods, with its clock reading and result. -/
inductive VerifierLabel where
  | nonce (now : Int) (random result : Except GoString GoString)
  | consume (now : Int) (nonce : GoString) (result : Bool)

/-- One call. The mutex makes calls atomic, and the clock does not go back. -/
inductive VerifierStep : VerifierProcess → VerifierLabel → VerifierProcess → Prop
  | nonce {p : VerifierProcess} (now : Int) (random : Except GoString GoString) : p.clock ≤ now →
      VerifierStep p (.nonce now random (p.verifier.nonce now random).1)
        ⟨(p.verifier.nonce now random).2, now⟩
  | consume {p : VerifierProcess} (now : Int) (n : GoString) : p.clock ≤ now →
      VerifierStep p (.consume now n (p.verifier.consume now n).1)
        ⟨(p.verifier.consume now n).2, now⟩

/-- The entry of the nonce a call returns. -/
def VerifierLabel.issued : VerifierLabel → Option NonceEntry
  | .nonce now _ (.ok n) => some ⟨n, now + nonceTTL⟩
  | _ => none

/-- What a call that returned a nonce looks like. -/
theorem VerifierLabel.issued_eq_some {label : VerifierLabel} {e : NonceEntry}
    (h : label.issued = some e) :
    ∃ now random, label = .nonce now random (.ok e.value) ∧ e.expires = now + nonceTTL := by
  cases label with
  | consume => cases h
  | nonce now random result =>
    cases result with
    | error => cases h
    | ok n =>
      cases h
      exact ⟨now, random, rfl, rfl⟩

/-- The nonces returned in a run, in order. -/
def issued (tr : Trace VerifierProcess VerifierLabel) : List NonceEntry :=
  tr.filterMap fun t => t.label.issued

/-- The random nonces of a run are fresh: no two of them are the same. -/
def Fresh (tr : Trace VerifierProcess VerifierLabel) : Prop :=
  ((issued tr).map NonceEntry.value).Nodup

theorem issued_append (tr tr' : Trace VerifierProcess VerifierLabel) :
    issued (tr ++ tr') = issued tr ++ issued tr' := List.filterMap_append

theorem Fresh.of_append {tr tr' : Trace VerifierProcess VerifierLabel}
    (h : Fresh (tr ++ tr')) : Fresh tr := by
  rw [Fresh, issued_append, List.map_append] at h
  exact h.of_append_left

/-- The nonce of the last call of a run with fresh nonces was not returned before. -/
theorem Fresh.not_issued {tr : Trace VerifierProcess VerifierLabel}
    {t : Transition VerifierProcess VerifierLabel} (h : Fresh (tr ++ [t])) {e : NonceEntry}
    (he : t.label.issued = some e) : e.value ∉ (issued tr).map NonceEntry.value := by
  have hlast : issued [t] = [e] := by
    simp only [issued, List.filterMap_cons, he, List.filterMap_nil]
  rw [Fresh, issued_append, List.map_append, hlast] at h
  exact fun hmem => (List.nodup_append.1 h).2.2 _ hmem _ (.head _) rfl

/-- What a run has made of the verifier. -/
structure VerifierInv (tr : Trace VerifierProcess VerifierLabel) (p : VerifierProcess) :
    Prop where
  wf : p.verifier.Wf
  bounded : p.verifier.outstanding.length ≤ maxNonces
  /-- The outstanding nonces are some of those returned, in the same order. -/
  ordered : p.verifier.outstanding.Sublist (issued tr)
  /-- A nonce that was accepted has been returned and is not outstanding any more. -/
  spent : ∀ t ∈ tr, ∀ now n, t.label = .consume now n true →
    n ∈ (issued tr).map NonceEntry.value ∧ n ∉ p.verifier.outstanding.map NonceEntry.value

section
variable {start : Int} {tr : Trace VerifierProcess VerifierLabel}
  {p p' : VerifierProcess} {label : VerifierLabel}

/-- A call with a fresh nonce keeps the invariant. -/
theorem VerifierInv.step (h : VerifierInv tr p) (hs : VerifierStep p label p')
    (hfresh : Fresh (tr ++ [⟨p, label, p'⟩])) : VerifierInv (tr ++ [⟨p, label, p'⟩]) p' := by
  cases hs with
  | nonce now random hle =>
    cases random with
    | error e =>
      have hissued : issued (tr ++ [⟨p, .nonce now (.error e) (p.verifier.nonce now (.error e)).1,
          ⟨(p.verifier.nonce now (.error e)).2, now⟩⟩]) = issued tr := by
        rw [issued_append]
        exact List.append_nil _
      refine ⟨h.wf, h.bounded, hissued ▸ h.ordered, fun t ht now n hl => ?_⟩
      rw [hissued]
      rcases List.mem_append.1 ht with ht | ht
      · exact h.spent t ht now n hl
      · rw [List.mem_singleton.1 ht] at hl
        cases hl
    | ok random =>
      have hnew := hfresh.not_issued rfl
      obtain ⟨hwf, hout⟩ := h.wf.nonce now
        fun hmem => hnew ((h.ordered.map _).subset hmem)
      have hsub := (evict_suffix now p.verifier.outstanding).sublist
      refine ⟨hwf, ?_, ?_, fun t ht now' n hl => ?_⟩
      · simp only [hout, List.length_append, List.length_singleton]
        exact length_evict_lt now _
      · simp only [hout, issued_append]
        exact (hsub.trans h.ordered).append (.refl _)
      · rcases List.mem_append.1 ht with ht | ht
        · obtain ⟨hin, hgone⟩ := h.spent t ht now' n hl
          simp only [hout, issued_append, List.map_append, List.mem_append, not_or]
          refine ⟨.inl hin, fun hmem => hgone ((hsub.map _).subset hmem), fun hmem => hnew ?_⟩
          rwa [List.mem_singleton.1 hmem] at hin
        · rw [List.mem_singleton.1 ht] at hl
          cases hl
  | consume now n hle =>
    obtain ⟨hwf, hout, hok⟩ := h.wf.consume now n
    have hissued : issued (tr ++ [⟨p, .consume now n (p.verifier.consume now n).1,
        ⟨(p.verifier.consume now n).2, now⟩⟩]) = issued tr := by
      rw [issued_append]
      exact List.append_nil _
    have hsub : (p.verifier.consume now n).2.outstanding.Sublist p.verifier.outstanding :=
      hout ▸ List.filter_sublist
    refine ⟨hwf, hsub.length_le.trans h.bounded, hissued ▸ hsub.trans h.ordered,
      fun t ht now' n' hl => ?_⟩
    rw [hissued]
    rcases List.mem_append.1 ht with ht | ht
    · obtain ⟨hin, hgone⟩ := h.spent t ht now' n' hl
      exact ⟨hin, fun hmem => hgone ((hsub.map _).subset hmem)⟩
    · rw [List.mem_singleton.1 ht] at hl
      obtain ⟨-, rfl, hres⟩ := VerifierLabel.consume.inj hl
      obtain ⟨e, he, rfl, -⟩ := hok.1 hres
      refine ⟨(h.ordered.map _).subset (List.mem_map_of_mem he), fun hmem => ?_⟩
      obtain ⟨a, ha, hv⟩ := List.mem_map.1 hmem
      simp only [hout, List.mem_filter, decide_eq_true_eq] at ha
      exact ha.2 hv

theorem VerifierInv.of_run (hrun : Run VerifierStep ⟨.new, start⟩ tr p) (hfresh : Fresh tr) :
    VerifierInv tr p := by
  refine hrun.induction (P := fun tr p => Fresh tr → VerifierInv tr p) (fun _ => ?_)
    (fun tr p label p' _ ih hs hfresh => (ih hfresh.of_append).step hs hfresh) hfresh
  exact ⟨Verifier.wf_new, Nat.zero_le _, .refl _, fun t ht => by cases ht⟩

/-- The nonces that are accepted are those that are outstanding and have not expired. -/
theorem VerifierStep.accepted_iff (hs : VerifierStep p label p') (h : VerifierInv tr p) {now : Int}
    {n : GoString} {result : Bool} (hl : label = .consume now n result) :
    result = true ↔ ∃ e ∈ p.verifier.outstanding, e.value = n ∧ now < e.expires := by
  cases hs with
  | nonce => cases hl
  | consume _ _ hle =>
    obtain ⟨rfl, rfl, rfl⟩ := VerifierLabel.consume.inj hl
    exact (h.wf.consume _ _).2.2

/-- A nonce that is returned is outstanding. -/
theorem VerifierInv.returned (h : VerifierInv tr p) (hs : VerifierStep p label p')
    (hfresh : Fresh (tr ++ [⟨p, label, p'⟩])) {now : Int} {random : Except GoString GoString}
    {n : GoString} (hl : label = .nonce now random (.ok n)) :
    ⟨n, now + nonceTTL⟩ ∈ p'.verifier.outstanding := by
  cases hs with
  | consume => cases hl
  | nonce _ random hle =>
    obtain ⟨rfl, rfl, hresult⟩ := VerifierLabel.nonce.inj hl
    cases random with
    | error => cases hresult
    | ok random =>
      cases hresult
      have hnew := hfresh.not_issued rfl
      rw [(h.wf.nonce _ fun hmem => hnew ((h.ordered.map _).subset hmem)).2]
      exact List.mem_append_right _ (.head _)

/-- How an outstanding nonce is lost in one call. -/
theorem VerifierInv.dropped (h : VerifierInv tr p) (hs : VerifierStep p label p')
    (hfresh : Fresh (tr ++ [⟨p, label, p'⟩])) {e : NonceEntry}
    (he : e ∈ p.verifier.outstanding) (hout : e ∉ p'.verifier.outstanding) :
    (∃ now result, label = .consume now e.value result) ∨
    ∃ now random result, label = .nonce now random result ∧
      (e.expires ≤ now ∨
        (p.verifier.outstanding.length = maxNonces ∧ p.verifier.outstanding.head? = some e)) := by
  cases hs with
  | nonce now random hle =>
    refine .inr ⟨now, random, _, rfl, ?_⟩
    cases random with
    | error e => exact absurd he hout
    | ok random =>
      have hnew := hfresh.not_issued rfl
      obtain ⟨-, hpost⟩ := h.wf.nonce now
        fun hmem => hnew ((h.ordered.map _).subset hmem)
      simp only [hpost, List.mem_append, not_or] at hout
      exact evicted_cases h.bounded he hout.1
  | consume now n hle =>
    obtain ⟨-, hpost, -⟩ := h.wf.consume now n
    obtain rfl : e.value = n := by
      by_contra hne
      refine hout ?_
      simp only [hpost, List.mem_filter]
      exact ⟨he, decide_eq_true hne⟩
    exact .inl ⟨now, _, rfl⟩

end

/-- In every run with fresh nonces, a nonce is accepted at most once, and only within ten minutes of
its return. The map and the queue hold the same nonces, at most 8192, in the order of their return.
A nonce is outstanding from its return until it is consumed, has expired, or is the oldest of 8192
when another one is returned; and what is accepted is exactly what is outstanding and has not
expired. -/
theorem replay_protection {start : Int} {tr : Trace VerifierProcess VerifierLabel}
    {p : VerifierProcess} (hrun : Run VerifierStep ⟨.new, start⟩ tr p) (hfresh : Fresh tr) :
    (∀ before x between y after t₁ t₂ n, tr = before ++ x :: between ++ y :: after →
      x.label = .consume t₁ n true → y.label ≠ .consume t₂ n true) ∧
    (∀ before x after now n, tr = before ++ x :: after → x.label = .consume now n true →
      ∃ t ∈ before, ∃ issuedAt random, t.label = .nonce issuedAt random (.ok n) ∧
        now < issuedAt + nonceTTL) ∧
    p.verifier.Wf ∧
    p.verifier.nonces.size ≤ maxNonces ∧
    p.verifier.outstanding.Sublist (issued tr) ∧
    (∀ t ∈ tr, ∀ e ∈ t.pre.verifier.outstanding, e ∉ t.post.verifier.outstanding →
      (∃ now result, t.label = .consume now e.value result) ∨
      ∃ now random result, t.label = .nonce now random result ∧
        (e.expires ≤ now ∨ (maxNonces ≤ t.pre.verifier.nonces.size ∧
          t.pre.verifier.outstanding.head? = some e))) ∧
    (∀ t ∈ tr, ∀ now random n, t.label = .nonce now random (.ok n) →
      ⟨n, now + nonceTTL⟩ ∈ t.post.verifier.outstanding) ∧
    ∀ t ∈ tr, ∀ now n result, t.label = .consume now n result →
      (result = true ↔ ∃ e ∈ t.pre.verifier.outstanding, e.value = n ∧ now < e.expires) := by
  have hinv := VerifierInv.of_run hrun hfresh
  -- what is known at a call in the middle of the run
  have hmid : ∀ {before x after}, tr = before ++ x :: after →
      VerifierInv before x.pre ∧ VerifierStep x.pre x.label x.post ∧ Fresh (before ++ [x]) := by
    rintro before x after rfl
    obtain ⟨hpre, hstep, -⟩ := hrun.mid_inv
    have hx : Fresh (before ++ [x]) := by
      rw [List.append_cons] at hfresh
      exact hfresh.of_append
    exact ⟨.of_run hpre hx.of_append, hstep, hx⟩
  refine ⟨?_, ?_, hinv.wf, hinv.wf.size_eq ▸ hinv.bounded, hinv.ordered, ?_, ?_, ?_⟩
  · intro before x between y after t₁ t₂ n htr hx hy
    obtain ⟨hy', hstep, -⟩ := hmid htr
    obtain ⟨-, hgone⟩ := hy'.spent x (by simp) t₁ n hx
    obtain ⟨e, he, rfl, -⟩ := (hstep.accepted_iff hy' hy).1 rfl
    exact hgone (List.mem_map_of_mem he)
  · intro before x after now n htr hx
    obtain ⟨hpre, hstep, -⟩ := hmid htr
    obtain ⟨e, he, rfl, hlt⟩ := (hstep.accepted_iff hpre hx).1 rfl
    obtain ⟨t, ht, hissued⟩ := List.mem_filterMap.1 (hpre.ordered.subset he)
    obtain ⟨at', random, hl, hexp⟩ := VerifierLabel.issued_eq_some hissued
    exact ⟨t, ht, at', random, hl, hexp ▸ hlt⟩
  · intro t ht e he hout
    obtain ⟨before, after, htr⟩ := List.append_of_mem ht
    obtain ⟨hpre, hstep, hx⟩ := hmid htr
    rw [hpre.wf.size_eq]
    refine (hpre.dropped hstep hx he hout).imp_right ?_
    rintro ⟨now, random, result, hl, hcase⟩
    exact ⟨now, random, result, hl, hcase.imp_right fun h => ⟨h.1.ge, h.2⟩⟩
  · intro t ht now random n hl
    obtain ⟨before, after, htr⟩ := List.append_of_mem ht
    obtain ⟨hpre, hstep, hx⟩ := hmid htr
    exact hpre.returned hstep hx hl
  · intro t ht now n result hl
    obtain ⟨before, after, htr⟩ := List.append_of_mem ht
    obtain ⟨hpre, hstep, -⟩ := hmid htr
    exact hstep.accepted_iff hpre hl

/-- A nonce that is returned, accepted and refused when it comes again. -/
theorem replay_protection_replayed :
    let v₁ := (Verifier.new.nonce 1 (.ok [1, 2, 3])).2
    let v₂ := (v₁.consume 2 (str "AQID")).2
    (v₁.consume 2 (str "AQID")).1 = true ∧ (v₂.consume 3 (str "AQID")).1 ≠ true := by
  intro v₁ v₂
  have hrun : Run VerifierStep ⟨.new, 0⟩ _ _ :=
    .cons (.nonce 1 (.ok [1, 2, 3]) (by decide)) <|
    .cons (.consume 2 (str "AQID") (by decide)) <|
    .cons (.consume 3 (str "AQID") (by decide)) (.nil _)
  have hfirst : (v₁.consume 2 (str "AQID")).1 = true := by decide +kernel
  refine ⟨hfirst, fun hsecond => ?_⟩
  exact (replay_protection hrun (List.nodup_singleton _)).1 [_] _ [] _ [] 2 3 (str "AQID") rfl
    (congrArg (VerifierLabel.consume 2 _) hfirst) (congrArg (VerifierLabel.consume 3 _) hsecond)

end InfraBox.Acme
