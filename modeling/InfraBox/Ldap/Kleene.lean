import InfraBox.Lib.Formula
import InfraBox.Ldap.Filter

/-!
# Filters are formulas of strong Kleene logic

`compileFilter` runs one loop with early returns for conjunctions, disjunctions and negations. What
it computes is a formula over the leaves of the filter (`parseFilter`), evaluated in strong
three-valued logic: on the chain false, undefined, true a conjunction is the least of its parts, a
disjunction the greatest, and negation turns the chain around (`compileFilter_eq`).

`filter_kleene` is the consequence for filters as they arrive.
-/

namespace InfraBox.Ldap

/-! ## Three truth values -/

/-- The position on the chain false, undefined, true. -/
def Match.rank : Match → Nat
  | .isFalse => 0
  | .undefined => 1
  | .isTrue => 2

instance : LinearOrder Match := LinearOrder.lift' Match.rank fun a b h => by
  cases a <;> cases b <;> first | rfl | cases h

instance : BoundedOrder Match where
  top := .isTrue
  bot := .isFalse
  le_top a := by cases a <;> decide
  bot_le a := by cases a <;> decide

/-- Negation turns the chain around. -/
def Match.negation : Negation Match where
  neg
    | .isFalse => .isTrue
    | .undefined => .undefined
    | .isTrue => .isFalse
  neg_neg v := by cases v <;> rfl
  anti {v w} := by cases v <;> cases w <;> decide

/-! ## The loop of the connectives -/

section
variable (e : Entry) (fs : List EntryFilter)

/-- The loop of a conjunction returns the least value; an undefined part before counts. -/
theorem combine_and (undefined : Bool) : combine filterAnd e undefined fs =
    (if undefined then .undefined else ⊤) ⊓ meetOf (fs.map (· e)) := by
  induction fs generalizing undefined with
  | nil => cases undefined <;> rfl
  | cons f fs ih =>
    rw [List.map_cons, meetOf_cons]
    cases hv : f e with
    | isFalse =>
      have hstep : combine filterAnd e undefined (f :: fs) = ⊥ := by
        simp only [combine, hv]
        rfl
      rw [hstep, show Match.isFalse = ⊥ from rfl, bot_inf_eq, inf_bot_eq]
    | undefined =>
      have hstep : combine filterAnd e undefined (f :: fs) = combine filterAnd e true fs := by
        cases undefined <;> simp [combine, hv, filterAnd, filterOr, filterNot]
      rw [hstep, ih, if_pos rfl]
      cases undefined with
      | true => rw [if_pos rfl, inf_left_idem]
      | false => rw [if_neg Bool.false_ne_true, top_inf_eq]
    | isTrue =>
      have hstep : combine filterAnd e undefined (f :: fs) = combine filterAnd e undefined fs := by
        simp [combine, hv, filterAnd, filterOr, filterNot]
      rw [hstep, ih, show Match.isTrue = ⊤ from rfl, top_inf_eq]

/-- The loop of a disjunction returns the greatest value. -/
theorem combine_or (undefined : Bool) : combine filterOr e undefined fs =
    (if undefined then .undefined else ⊥) ⊔ joinOf (fs.map (· e)) := by
  induction fs generalizing undefined with
  | nil => cases undefined <;> rfl
  | cons f fs ih =>
    rw [List.map_cons, joinOf_cons]
    cases hv : f e with
    | isFalse =>
      have hstep : combine filterOr e undefined (f :: fs) = combine filterOr e undefined fs := by
        simp [combine, hv, filterAnd, filterOr, filterNot]
      rw [hstep, ih, show Match.isFalse = ⊥ from rfl, bot_sup_eq]
    | undefined =>
      have hstep : combine filterOr e undefined (f :: fs) = combine filterOr e true fs := by
        cases undefined <;> simp [combine, hv, filterAnd, filterOr, filterNot]
      rw [hstep, ih, if_pos rfl]
      cases undefined with
      | true => rw [if_pos rfl, sup_left_idem]
      | false => rw [if_neg Bool.false_ne_true, bot_sup_eq]
    | isTrue =>
      have hstep : combine filterOr e undefined (f :: fs) = ⊤ := by
        simp only [combine, hv]
        rfl
      rw [hstep, show Match.isTrue = ⊤ from rfl, top_sup_eq, sup_top_eq]

/-- The loop of a negation returns at its only part. -/
theorem combine_not (undefined : Bool) (f : EntryFilter) :
    combine filterNot e undefined (f :: fs) = Match.negation.neg (f e) := by
  cases hv : f e <;> simp only [combine, hv] <;> rfl

end

/-! ## Filters as formulas -/

/-- A leaf of a filter, with the name of its attribute in lower case. -/
inductive Leaf where
  | present (name : GoString)
  | equality (name value : GoString)
  | substrings (name : GoString) (parts : List Packet)

def Leaf.name : Leaf → GoString
  | .present name => name
  | .equality name _ => name
  | .substrings name _ => name

/-- The value of an equality test is of the attribute's kind. -/
def assertable (lib : DnLib) (name value : GoString) : Bool :=
  if dnAttribute name then (lib.parse value).isSome
  else if intAttribute name then (parseInt64 value).isSome
  else knownAttribute name

/-- What a leaf says of an entry. -/
def Leaf.eval (lib : DnLib) (e : Entry) : Leaf → Match
  | .present name =>
    if !knownAttribute name then .undefined else truth (!(e.values lib name).isEmpty)
  | .equality name value =>
    if !assertable lib name value then .undefined
    else truth ((e.values lib name).any fun candidate => equalAttribute lib name candidate value)
  | .substrings name parts =>
    if !knownAttribute name || dnAttribute name || intAttribute name then .undefined
    else truth ((e.values lib name).any fun value => matchParts lib parts (lib.lower value))

/-- The leaf of an equality filter. -/
def parseEquality : List Packet → Option (Formula Leaf)
  | [type, assertion] =>
    if !octetString type || !octetString assertion || toLower type.data = [] then none
    else some (.atom (.equality (toLower type.data) assertion.data))
  | _ => none

/-- The leaf of a substring filter. -/
def parseSubstrings : List Packet → Option (Formula Leaf)
  | [type, sequence] =>
    if !octetString type || !isPacket sequence .universal .constructed tagSequence ||
        sequence.children.isEmpty || toLower type.data = [] || !partsValid true sequence.children
    then none
    else some (.atom (.substrings (toLower type.data) sequence.children))
  | _ => none

mutual

/-- The formula a filter packet stands for; `none` for a packet that is no filter. -/
def parseFilter : Packet → Option (Formula Leaf)
  | .mk class' kind tag _ data children =>
    if class' ≠ .context then none
    else if tag = filterPresent then
      if kind ≠ .primitive || data = [] then none else some (.atom (.present (toLower data)))
    else if kind ≠ .constructed then none
    else if tag = filterAnd then
      if children.isEmpty then none else (parseFilters children).map .all
    else if tag = filterOr then
      if children.isEmpty then none else (parseFilters children).map .any
    else if tag = filterNot then
      match parseFilters children with
      | some [f] => some (.not f)
      | _ => none
    else if tag = filterEqualityMatch then parseEquality children
    else if tag = filterSubstrings then parseSubstrings children
    else none

def parseFilters : List Packet → Option (List (Formula Leaf))
  | [] => some []
  | p :: ps =>
    match parseFilter p with
    | none => none
    | some f => (parseFilters ps).map (f :: ·)

end

/-- The meaning of a formula over leaves, as a filter. -/
def denote (lib : DnLib) (t : Formula Leaf) : EntryFilter :=
  fun e => t.eval Match.negation fun leaf => leaf.eval lib e

section
variable (lib : DnLib)

theorem denote_all (ts : List (Formula Leaf)) (e : Entry) :
    denote lib (.all ts) e = meetOf ((ts.map (denote lib)).map (· e)) := by
  rw [denote, Formula.eval, Formula.evalList_eq, List.map_map]
  rfl

theorem denote_any (ts : List (Formula Leaf)) (e : Entry) :
    denote lib (.any ts) e = joinOf ((ts.map (denote lib)).map (· e)) := by
  rw [denote, Formula.eval, Formula.evalList_eq, List.map_map]
  rfl

theorem compileEquality_eq : ∀ children : List Packet,
    compileEquality lib children = (parseEquality children).map (denote lib)
  | [] | [_] | _ :: _ :: _ :: _ => rfl
  | [type, assertion] => by
    simp only [compileEquality, parseEquality]
    split
    · rfl
    · rfl

theorem compileSubstrings_eq : ∀ children : List Packet,
    compileSubstrings lib children = (parseSubstrings children).map (denote lib)
  | [] | [_] | _ :: _ :: _ :: _ => rfl
  | [type, sequence] => by
    simp only [compileSubstrings, parseSubstrings]
    split
    · rfl
    · rfl

/-- The filters of the parts, if all of them are filters. -/
theorem compileFilters_eq_some {ps : List Packet} {fs : List EntryFilter} :
    compileFilters lib ps = some fs ↔ ps.map (compileFilter lib) = fs.map some := by
  induction ps generalizing fs with
  | nil => cases fs <;> simp [compileFilters]
  | cons p ps ih =>
    rw [compileFilters, List.map_cons]
    cases compileFilter lib p with
    | none => cases fs <;> simp
    | some f =>
      cases fs with
      | nil => simp
      | cons g gs => simp [Option.map_eq_some_iff, ih, and_comm]

/-- A conjunction takes the least value of its parts. -/
theorem compileFilter_and (value : Value) (data : GoString) (children : List Packet) :
    compileFilter lib (.mk .context .constructed filterAnd value data children) =
      if children.isEmpty then none
      else (compileFilters lib children).map fun fs e => meetOf (fs.map (· e)) := by
  have hcombine : ∀ fs e, combine filterAnd e false fs = meetOf (fs.map (· e)) := fun fs e => by
    rw [combine_and, if_neg Bool.false_ne_true, top_inf_eq]
  simp only [compileFilter, hcombine]
  simp [filterAnd, filterNot, filterPresent]

/-- A disjunction takes the greatest value of its parts. -/
theorem compileFilter_or (value : Value) (data : GoString) (children : List Packet) :
    compileFilter lib (.mk .context .constructed filterOr value data children) =
      if children.isEmpty then none
      else (compileFilters lib children).map fun fs e => joinOf (fs.map (· e)) := by
  have hcombine : ∀ fs e, combine filterOr e false fs = joinOf (fs.map (· e)) := fun fs e => by
    rw [combine_or, if_neg Bool.false_ne_true, bot_sup_eq]
  simp only [compileFilter, hcombine]
  simp [filterOr, filterNot, filterPresent]

/-- A negation turns the value of its only part around, and is no filter without one or with
several. -/
theorem compileFilter_not (value : Value) (data : GoString) (children : List Packet) :
    compileFilter lib (.mk .context .constructed filterNot value data children) =
      match compileFilters lib children with
      | some [f] => some fun e => Match.negation.neg (f e)
      | _ => none := by
  have hnode : compileFilter lib (.mk .context .constructed filterNot value data children) =
      if children.length ≠ 1 then none
      else (compileFilters lib children).map fun fs e => combine filterNot e false fs := by
    rw [compileFilter]
    cases children with
    | nil => rfl
    | cons c cs => simp [filterNot, filterPresent, filterAnd, filterOr]
  rw [hnode]
  cases hfs : compileFilters lib children with
  | none =>
    rw [Option.map_none, ite_self]
  | some fs =>
    have hlength : fs.length = children.length := by
      simpa using congrArg List.length ((compileFilters_eq_some lib).1 hfs).symm
    rw [← hlength]
    match fs with
    | [] | _ :: _ :: _ => rfl
    | [f] =>
      refine congrArg some (funext fun e => ?_)
      exact combine_not e [] false f

mutual

/-- The function `compileFilter` returns is the meaning of the filter's formula. -/
theorem compileFilter_eq : ∀ p : Packet,
    compileFilter lib p = (parseFilter p).map (denote lib)
  | .mk class' kind tag value data children => by
    have ih := compileFilters_eq children
    rcases eq_or_ne class' .context with rfl | hclass
    swap
    · simp [compileFilter, parseFilter, hclass]
    rcases eq_or_ne tag filterPresent with rfl | hpresent
    · simp only [compileFilter, parseFilter, ne_eq, not_true_eq_false, if_false, if_true]
      split
      · rfl
      · rfl
    rcases eq_or_ne kind .constructed with rfl | hkind
    swap
    · simp [compileFilter, parseFilter, hpresent, hkind]
    rcases eq_or_ne tag filterAnd with rfl | hand
    · rw [compileFilter_and, ih, parseFilter]
      simp only [hpresent, ne_eq, not_true_eq_false, if_false, if_true]
      split
      · rfl
      · rw [Option.map_map, Option.map_map]
        exact congrArg (Option.map · _) (funext fun ts => funext fun e =>
          (denote_all lib ts e).symm)
    rcases eq_or_ne tag filterOr with rfl | hor
    · rw [compileFilter_or, ih, parseFilter]
      simp only [hpresent, hand, ne_eq, not_true_eq_false, if_false, if_true]
      split
      · rfl
      · rw [Option.map_map, Option.map_map]
        exact congrArg (Option.map · _) (funext fun ts => funext fun e =>
          (denote_any lib ts e).symm)
    rcases eq_or_ne tag filterNot with rfl | hnot
    · rw [compileFilter_not, ih, parseFilter]
      simp only [hpresent, hand, hor, ne_eq, not_true_eq_false, if_false, if_true]
      cases parseFilters children with
      | none => rfl
      | some ts =>
        match ts with
        | [] | [_] | _ :: _ :: _ => rfl
    · rw [compileFilter, parseFilter]
      simp only [hpresent, hand, hor, hnot, decide_false, Bool.or_self, Bool.false_eq_true, ne_eq,
        not_true_eq_false, if_false]
      split
      · exact compileEquality_eq lib children
      split
      · exact compileSubstrings_eq lib children
      · rfl

/-- All parts of a list are compiled to their meaning. -/
theorem compileFilters_eq : ∀ ps : List Packet,
    compileFilters lib ps = (parseFilters ps).map (List.map (denote lib))
  | [] => rfl
  | p :: ps => by
    rw [compileFilters, parseFilters, compileFilter_eq p, compileFilters_eq ps]
    cases parseFilter p with
    | none => rfl
    | some f => cases parseFilters ps with
      | none => rfl
      | some fs => rfl

end

/-! ## Rearranging a filter -/

/-- One part that is refused is enough. -/
theorem compileFilters_eq_none {ps : List Packet} :
    compileFilters lib ps = none ↔ none ∈ ps.map (compileFilter lib) := by
  induction ps with
  | nil => simp [compileFilters]
  | cons p ps ih =>
    rw [compileFilters, List.map_cons, List.mem_cons]
    cases compileFilter lib p with
    | none => simp
    | some f => simp only [Option.map_eq_none_iff, ih, reduceCtorEq, false_or]

/-- Parts that compile to the same filters, in any order and number, give the same value to every
function of the set of their values. -/
theorem compileFilters_map_congr {cs cs' : List Packet} {value : List Match → Match}
    (h : ∀ x, x ∈ cs.map (compileFilter lib) ↔ x ∈ cs'.map (compileFilter lib))
    (hvalue : ∀ {vs vs'}, (∀ v, v ∈ vs ↔ v ∈ vs') → value vs = value vs') :
    (if cs.isEmpty then none else
        (compileFilters lib cs).map fun fs (e : Entry) => value (fs.map (· e))) =
      if cs'.isEmpty then none else
        (compileFilters lib cs').map fun fs (e : Entry) => value (fs.map (· e)) := by
  have hempty : cs.isEmpty = cs'.isEmpty := by
    cases cs with
    | nil => cases cs' with
      | nil => rfl
      | cons c' _ => simpa using (h (compileFilter lib c')).2 (by simp)
    | cons c _ => cases cs' with
      | nil => simpa using (h (compileFilter lib c)).1 (by simp)
      | cons _ _ => rfl
  rw [hempty]
  cases hfs : compileFilters lib cs with
  | none =>
    have hfs' : compileFilters lib cs' = none :=
      (compileFilters_eq_none lib).2 ((h none).1 ((compileFilters_eq_none lib).1 hfs))
    rw [hfs']
  | some fs =>
    cases hfs' : compileFilters lib cs' with
    | none =>
      have := (compileFilters_eq_none lib).2 ((h none).2 ((compileFilters_eq_none lib).1 hfs'))
      rw [hfs] at this
      cases this
    | some fs' =>
      rw [compileFilters_eq_some] at hfs hfs'
      have hmem : ∀ f, f ∈ fs ↔ f ∈ fs' := fun f => by
        have := h (some f)
        rw [hfs, hfs'] at this
        simpa using this
      simp only [Option.map_some]
      congr 2
      funext e
      refine hvalue fun v => ?_
      simp only [List.mem_map, hmem]

end

/-- The second filter is the first with the parts of conjunctions and disjunctions, at any depth, in
another order and number. -/
inductive Rearranged : Packet → Packet → Prop
  | refl (p : Packet) : Rearranged p p
  | parts {tag : Nat} {value value' : Value} {data data' : GoString} {cs cs' : List Packet}
      (there back : Packet → Packet) : tag = filterAnd ∨ tag = filterOr →
      (∀ c ∈ cs, there c ∈ cs') → (∀ c ∈ cs, Rearranged c (there c)) →
      (∀ c ∈ cs', back c ∈ cs) → (∀ c ∈ cs', Rearranged (back c) c) →
      Rearranged (.mk .context .constructed tag value data cs)
        (.mk .context .constructed tag value' data' cs')
  | negation {value value' : Value} {data data' : GoString} {p p' : Packet} : Rearranged p p' →
      Rearranged (.mk .context .constructed filterNot value data [p])
        (.mk .context .constructed filterNot value' data' [p'])

section
variable {lib : DnLib}

/-- A rearranged filter compiles to the same function. -/
theorem Rearranged.compileFilter_eq {p p' : Packet} (h : Rearranged p p') :
    compileFilter lib p = compileFilter lib p' := by
  induction h with
  | refl => rfl
  | @parts tag _ _ _ _ cs cs' there back htag hthere _ hback _ ihthere ihback =>
    have hmem : ∀ x, x ∈ cs.map (compileFilter lib) ↔ x ∈ cs'.map (compileFilter lib) := by
      intro x
      simp only [List.mem_map]
      constructor
      · rintro ⟨c, hc, rfl⟩
        exact ⟨there c, hthere c hc, (ihthere c hc).symm⟩
      · rintro ⟨c, hc, rfl⟩
        exact ⟨back c, hback c hc, ihback c hc⟩
    rcases htag with rfl | rfl
    · rw [compileFilter_and, compileFilter_and]
      exact compileFilters_map_congr lib hmem meetOf_congr
    · rw [compileFilter_or, compileFilter_or]
      exact compileFilters_map_congr lib hmem joinOf_congr
  | negation _ ih => simp only [compileFilter_not, compileFilters, ih]

/-! ## Negation -/

/-- The negation of a filter. -/
def negated (p : Packet) : Packet := constructed .context filterNot [p]

theorem compileFilter_negated (p : Packet) : compileFilter lib (negated p) =
    (compileFilter lib p).map fun f e => Match.negation.neg (f e) := by
  rw [negated, constructed, compileFilter_not]
  simp only [compileFilters]
  cases compileFilter lib p with
  | none => rfl
  | some f => rfl

/-- Negating every part of a list. -/
theorem compileFilters_negated (ps : List Packet) : compileFilters lib (ps.map negated) =
    (compileFilters lib ps).map (List.map fun f e => Match.negation.neg (f e)) := by
  induction ps with
  | nil => rfl
  | cons p ps ih =>
    rw [List.map_cons, compileFilters, compileFilters, ih, compileFilter_negated]
    cases compileFilter lib p with
    | none => rfl
    | some f => cases compileFilters lib ps with
      | none => rfl
      | some fs => rfl

/-- A combination of parts under a negation is the dual combination of the negated parts. -/
theorem compileFilters_dual {value dual : List Match → Match}
    (h : ∀ vs, Match.negation.neg (value vs) = dual (vs.map Match.negation.neg))
    (cs : List Packet) :
    (if cs.isEmpty then none else
        (compileFilters lib cs).map fun fs (e : Entry) => value (fs.map (· e))).map
          (fun f e => Match.negation.neg (f e)) =
      if (cs.map negated).isEmpty then none else
        (compileFilters lib (cs.map negated)).map fun fs (e : Entry) => dual (fs.map (· e)) := by
  rw [compileFilters_negated, List.isEmpty_map]
  split
  · rfl
  · rw [Option.map_map, Option.map_map]
    refine congrArg (Option.map · _) (funext fun fs => funext fun e => ?_)
    simp only [Function.comp_apply, h, List.map_map]
    rfl

/-- The negation of a conjunction is the disjunction of the negations. -/
theorem compileFilter_negated_and (cs : List Packet) :
    compileFilter lib (negated (constructed .context filterAnd cs)) =
      compileFilter lib (constructed .context filterOr (cs.map negated)) := by
  rw [compileFilter_negated, constructed, constructed, compileFilter_and, compileFilter_or]
  exact compileFilters_dual (Negation.neg_meetOf _) cs

/-- The negation of a disjunction is the conjunction of the negations. -/
theorem compileFilter_negated_or (cs : List Packet) :
    compileFilter lib (negated (constructed .context filterOr cs)) =
      compileFilter lib (constructed .context filterAnd (cs.map negated)) := by
  rw [compileFilter_negated, constructed, constructed, compileFilter_and, compileFilter_or]
  exact compileFilters_dual (Negation.neg_joinOf _) cs

/-! ## Unknown attributes -/

/-- All names of a list are known. -/
theorem knownAttribute_of_mem {names : List String} {name : GoString}
    (hnames : ∀ n ∈ names, knownAttribute (str n) = true) (h : name ∈ names.map str) :
    knownAttribute name = true := by
  obtain ⟨n, hn, rfl⟩ := List.mem_map.1 h
  exact hnames n hn

/-- Only tests of known attributes are ever carried out. -/
theorem knownAttribute_of_assertable {name value : GoString}
    (h : assertable lib name value = true) : knownAttribute name = true := by
  unfold assertable at h
  split at h
  · next hdn => exact knownAttribute_of_mem (by decide) (of_decide_eq_true hdn)
  split at h
  · next hint => exact knownAttribute_of_mem (by decide) (of_decide_eq_true hint)
  · exact h

/-- A leaf on an unknown attribute is undefined. -/
theorem Leaf.eval_unknown {leaf : Leaf} (h : knownAttribute leaf.name = false) (e : Entry) :
    leaf.eval lib e = .undefined := by
  cases leaf with
  | present name | substrings name _ =>
    have h : knownAttribute name = false := h
    simp [Leaf.eval, h]
  | equality name value =>
    have hno : assertable lib name value = false := by
      rw [← Bool.not_eq_true]
      intro hyes
      cases (knownAttribute_of_assertable hyes).symm.trans h
    simp [Leaf.eval, hno]

/-- A leaf looks at the values of its attribute only. -/
theorem Leaf.eval_congr {leaf : Leaf} {e e' : Entry}
    (h : knownAttribute leaf.name = true → e.values lib leaf.name = e'.values lib leaf.name) :
    leaf.eval lib e = leaf.eval lib e' := by
  cases hknown : knownAttribute leaf.name with
  | false => rw [Leaf.eval_unknown hknown, Leaf.eval_unknown hknown]
  | true =>
    have h := h hknown
    cases leaf with
    | present name | equality name value | substrings name parts =>
      simp only [Leaf.name] at h
      simp only [Leaf.eval, h]

end

/-- The filter under so many negations. -/
def negations (n : Nat) (p : Packet) : Packet := negated^[n] p

/-- Filters are evaluated in strong Kleene logic: the function `compileFilter` returns is the value
of the filter's formula on the chain false, undefined, true. So the order and number of the parts of
conjunctions and disjunctions do not matter, the laws of De Morgan hold, only known attributes
count, and a leaf on an unknown one is undefined under any number of negations. -/
theorem filter_kleene (lib : DnLib) :
    (∀ p, compileFilter lib p = (parseFilter p).map fun t e =>
      t.eval Match.negation fun leaf => leaf.eval lib e) ∧
    (∀ p p', Rearranged p p' → compileFilter lib p = compileFilter lib p') ∧
    (∀ cs, compileFilter lib (negated (constructed .context filterAnd cs)) =
        compileFilter lib (constructed .context filterOr (cs.map negated)) ∧
      compileFilter lib (negated (constructed .context filterOr cs)) =
        compileFilter lib (constructed .context filterAnd (cs.map negated))) ∧
    (∀ p f, compileFilter lib p = some f → ∀ e e' : Entry,
      (∀ name, knownAttribute name = true → e.values lib name = e'.values lib name) →
      f e = f e') ∧
    (∀ p leaf, parseFilter p = some (.atom leaf) → knownAttribute leaf.name = false →
      ∀ n, ∃ f, compileFilter lib (negations n p) = some f ∧ ∀ e, f e = .undefined) := by
  refine ⟨compileFilter_eq lib, fun p p' h => h.compileFilter_eq,
    fun cs => ⟨compileFilter_negated_and cs, compileFilter_negated_or cs⟩, ?_, ?_⟩
  · intro p f hf e e' hagree
    rw [compileFilter_eq] at hf
    obtain ⟨t, -, rfl⟩ := Option.map_eq_some_iff.1 hf
    have hleaves : (fun leaf : Leaf => leaf.eval lib e) = fun leaf => leaf.eval lib e' :=
      funext fun leaf => Leaf.eval_congr (hagree leaf.name)
    simp only [denote, hleaves]
  · intro p leaf hp hunknown n
    induction n with
    | zero =>
      refine ⟨denote lib (.atom leaf), ?_, fun e => Leaf.eval_unknown hunknown e⟩
      rw [negations, Function.iterate_zero, id, compileFilter_eq, hp, Option.map_some]
    | succ n ih =>
      obtain ⟨f, hf, hundefined⟩ := ih
      refine ⟨fun e => Match.negation.neg (f e), ?_,
        fun e => congrArg Match.negation.neg (hundefined e)⟩
      rw [negations, Function.iterate_succ_apply', compileFilter_negated]
      rw [negations] at hf
      rw [hf, Option.map_some]

end InfraBox.Ldap
