import InfraBox.Lib.Text

/-!
# File names

`path/filepath` on Unix. A name is read as a `Path`: whether it starts at the root, and its parts
after empty and `.` parts are dropped and each `..` has cancelled the part before it. `clean` is the
text of that path, and reading it back gives the path again (`parsePath_toString`), so on clean
names lexical questions are questions about lists of parts. The one that matters here is whether one
name lies at or below another (`isLocal_rel`).
-/

namespace InfraBox

variable {parts : List GoString} {name : GoString}

def slash : UInt8 := '/'.toUInt8

def dotDot : GoString := [dot, dot]

/-! ## Names and paths -/

/-- `filepath.IsAbs`. -/
def isAbs (name : GoString) : Bool := name.head? = some slash

/-- What `Clean` computes of a name. -/
@[ext]
structure Path where
  rooted : Bool
  parts : List GoString
deriving DecidableEq

/-- One part more, on the reversed list of the parts kept so far. At the root `..` is dropped, and
in a relative name it stays when there is nothing for it to cancel. -/
def pushPart (rooted : Bool) (stack : List GoString) (part : GoString) : List GoString :=
  if part = [] ∨ part = [dot] then stack
  else if part = dotDot then
    match stack with
    | [] => if rooted then [] else [dotDot]
    | top :: rest => if top = dotDot then dotDot :: stack else rest
  else part :: stack

/-- The path of a name. -/
def parsePath (name : GoString) : Path where
  rooted := isAbs name
  parts := ((name.splitOn slash).foldl (pushPart (isAbs name)) []).reverse

/-- The parts joined by slashes. -/
def joinParts (parts : List GoString) : GoString := [slash].intercalate parts

/-- The text of a path. -/
def Path.toString (p : Path) : GoString :=
  if p.rooted then slash :: joinParts p.parts
  else if p.parts = [] then [dot] else joinParts p.parts

/-- `filepath.Clean`. -/
def clean (name : GoString) : GoString := (parsePath name).toString

/-- `filepath.Join` of two elements. -/
def joinPath (dir name : GoString) : GoString :=
  if dir ≠ [] then clean (dir ++ slash :: name) else if name ≠ [] then clean name else []

/-- `filepath.Dir`. -/
def dirOf (name : GoString) : GoString :=
  clean (name.reverse.dropWhile (· ≠ slash)).reverse

/-- `filepath.Base`. -/
def baseOf (name : GoString) : GoString :=
  if name = [] then [dot]
  else match name.reverse.dropWhile (· = slash) with
    | [] => [slash]
    | rest => (rest.takeWhile (· ≠ slash)).reverse

/-- `filepath.Abs`, given the current directory. -/
def absPath (cwd name : GoString) : GoString := if isAbs name then clean name else joinPath cwd name

/-! ## Clean paths -/

/-- The paths names are read as: no part is empty, `.`, or contains a slash, and `..` occurs only at
the start of a relative path. -/
structure Path.Wf (p : Path) : Prop where
  plain : ∀ part ∈ p.parts, part ≠ [] ∧ part ≠ [dot] ∧ slash ∉ part
  ups : ∃ k rest, p.parts = List.replicate k dotDot ++ rest ∧ dotDot ∉ rest ∧
    (p.rooted = true → k = 0)

/-- The reversed parts of a path. -/
def StackWf (rooted : Bool) (stack : List GoString) : Prop := Path.Wf ⟨rooted, stack.reverse⟩

section
variable {rooted : Bool} {stack : List GoString} {part : GoString}

/-- Another part is pushed. -/
theorem StackWf.cons (h : StackWf rooted stack) (hne : part ≠ []) (hdot : part ≠ [dot])
    (hdd : part ≠ dotDot) (hs : slash ∉ part) : StackWf rooted (part :: stack) := by
  obtain ⟨k, rest, hparts, hrest, hk⟩ := h.ups
  have hparts : stack.reverse = List.replicate k dotDot ++ rest := hparts
  refine ⟨fun q hq => ?_, k, rest ++ [part], ?_, ?_, hk⟩
  · rcases List.mem_cons.1 (List.mem_reverse.1 hq) with rfl | hq
    · exact ⟨hne, hdot, hs⟩
    · exact h.plain q (List.mem_reverse.2 hq)
  · show (part :: stack).reverse = _
    rw [List.reverse_cons, hparts, List.append_assoc]
  · simp only [List.mem_append, List.mem_singleton, not_or]
    exact ⟨hrest, hdd.symm⟩

/-- A part is taken back by `..`. -/
theorem StackWf.pop (h : StackWf rooted (part :: stack)) (hdd : part ≠ dotDot) :
    StackWf rooted stack := by
  obtain ⟨k, rest, hparts, hrest, hk⟩ := h.ups
  have hparts : (part :: stack).reverse = List.replicate k dotDot ++ rest := hparts
  rw [List.reverse_cons] at hparts
  refine ⟨fun q hq => h.plain q (List.mem_reverse.2 (.tail _ (List.mem_reverse.1 hq))), ?_⟩
  rcases List.eq_nil_or_concat rest with rfl | ⟨init, last, rfl⟩
  · exfalso
    rw [List.append_nil] at hparts
    have : part ∈ List.replicate k dotDot := hparts ▸ by simp
    exact hdd (List.eq_of_mem_replicate this)
  · rw [List.concat_eq_append, ← List.append_assoc] at hparts
    obtain ⟨hinit, -⟩ := List.append_inj' hparts rfl
    exact ⟨k, init, hinit, fun hmem => hrest (by simp [hmem]), hk⟩

/-- With `..` on top, everything below is `..` too, and another one is pushed. -/
theorem StackWf.up (h : StackWf rooted (dotDot :: stack)) :
    StackWf rooted (dotDot :: dotDot :: stack) := by
  obtain ⟨k, rest, hparts, hrest, hk⟩ := h.ups
  have hparts : (dotDot :: stack).reverse = List.replicate k dotDot ++ rest := hparts
  rw [List.reverse_cons] at hparts
  have hnil : rest = [] := by
    rcases List.eq_nil_or_concat rest with rfl | ⟨init, last, rfl⟩
    · rfl
    · rw [List.concat_eq_append, ← List.append_assoc] at hparts
      obtain ⟨-, hlast⟩ := List.append_inj' hparts rfl
      cases hlast
      simp at hrest
  subst hnil
  rw [List.append_nil] at hparts
  refine ⟨fun q hq => ?_, k + 1, [], ?_, by simp, fun hr => ?_⟩
  · rcases List.mem_cons.1 (List.mem_reverse.1 hq) with rfl | hq
    · decide
    · exact h.plain q (List.mem_reverse.2 hq)
  · show (dotDot :: dotDot :: stack).reverse = _
    rw [List.reverse_cons, List.reverse_cons, hparts, List.append_nil, List.replicate_succ']
  · have := hk hr
    subst this
    simp at hparts

/-- One part of a name keeps the stack normal. -/
theorem StackWf.push (h : StackWf rooted stack) (hs : slash ∉ part) :
    StackWf rooted (pushPart rooted stack part) := by
  unfold pushPart
  split
  · exact h
  next hpart =>
  rw [not_or] at hpart
  split
  · cases stack with
    | nil =>
      cases rooted with
      | true => exact ⟨by simp, 0, [], rfl, by simp, fun _ => rfl⟩
      | false =>
        refine ⟨fun q hq => ?_, 1, [], rfl, by simp, fun h => by cases h⟩
        rw [List.mem_singleton.1 (hq : q ∈ [dotDot])]
        decide
    | cons top tail =>
      simp only
      split
      · next htop =>
        subst htop
        exact h.up
      · next htop => exact h.pop htop
  · next hdd => exact h.cons hpart.1 hpart.2 hdd hs

end

theorem StackWf.foldl {rooted : Bool} : ∀ {parts stack : List GoString}, StackWf rooted stack →
    (∀ part ∈ parts, slash ∉ part) → StackWf rooted (parts.foldl (pushPart rooted) stack)
  | [], _, h, _ => h
  | part :: _, _, h, hs =>
    (h.push (hs part (.head _))).foldl fun q hq => hs q (.tail _ hq)

/-- Names are read as well-formed paths. -/
theorem parsePath_wf (name : GoString) : (parsePath name).Wf :=
  have hempty : StackWf (parsePath name).rooted [] := ⟨by simp, 0, [], rfl, by simp, fun _ => rfl⟩
  hempty.foldl fun _ h => not_mem_of_mem_splitOn h

/-- Pushing the parts of a path keeps them all. -/
theorem foldl_pushPart_plain {rooted : Bool} : ∀ {parts stack : List GoString},
    (∀ part ∈ parts, part ≠ [] ∧ part ≠ [dot]) → dotDot ∉ parts →
      parts.foldl (pushPart rooted) stack = parts.reverse ++ stack
  | [], _, _, _ => rfl
  | part :: parts, stack, hplain, hdd => by
    have hpush : pushPart rooted stack part = part :: stack := by
      unfold pushPart
      have hne : part ≠ dotDot := fun h => hdd (h ▸ .head _)
      rw [if_neg (not_or.2 (hplain part (.head _))), if_neg hne]
    rw [List.foldl_cons, hpush, foldl_pushPart_plain (fun q hq => hplain q (.tail _ hq))
      fun h => hdd (.tail _ h), List.reverse_cons, List.append_assoc]
    rfl

/-- Leading `..` parts are kept. -/
theorem foldl_pushPart_ups : ∀ k n, (List.replicate k dotDot).foldl (pushPart false)
    (List.replicate n dotDot) = List.replicate (k + n) dotDot
  | 0, n => by simp
  | k + 1, n => by
    have hpush : pushPart false (List.replicate n dotDot) dotDot =
        List.replicate (n + 1) dotDot := by
      cases n <;> rfl
    rw [List.replicate_succ, List.foldl_cons, hpush, foldl_pushPart_ups k (n + 1),
      Nat.add_right_comm, Nat.add_assoc]

/-- A normal path is read as itself. -/
theorem Path.Wf.foldl {p : Path} (h : p.Wf) :
    (p.parts.foldl (pushPart p.rooted) []).reverse = p.parts := by
  obtain ⟨k, rest, hparts, hrest, hk⟩ := h.ups
  have hplain : ∀ part ∈ rest, part ≠ [] ∧ part ≠ [dot] := fun part hpart =>
    have := h.plain part (hparts ▸ List.mem_append_right _ hpart)
    ⟨this.1, this.2.1⟩
  rw [hparts, List.foldl_append]
  cases hr : p.rooted with
  | true =>
    rw [hk hr, foldl_pushPart_plain hplain hrest]
    simp
  | false =>
    have := foldl_pushPart_ups k 0
    simp only [List.replicate_zero, Nat.add_zero] at this
    rw [this, foldl_pushPart_plain hplain hrest]
    simp

/-- The text of a clean relative path with parts does not start at the root. -/
theorem isAbs_joinParts (hne : parts ≠ [])
    (h : ∀ part ∈ parts, part ≠ [] ∧ slash ∉ part) : isAbs (joinParts parts) = false := by
  match parts, hne with
  | part :: rest, _ =>
    obtain ⟨hpart, hs⟩ := h part (.head _)
    obtain ⟨b, bs, rfl⟩ := List.exists_cons_of_ne_nil hpart
    have hb : b ≠ slash := fun heq => hs (heq ▸ .head _)
    have hhead : (joinParts ((b :: bs) :: rest)).head? = some b := by
      cases rest <;> rfl
    simp [isAbs, hhead, hb]

/-- Reading the text of a path gives the path. -/
theorem parsePath_toString {p : Path} (h : p.Wf) : parsePath p.toString = p := by
  obtain ⟨rooted, parts⟩ := p
  have hfold := h.foldl
  have hslash : ∀ part ∈ parts, slash ∉ part := fun part hpart => (h.plain part hpart).2.2
  cases rooted with
  | true =>
    cases parts with
    | nil => rfl
    | cons part rest =>
      have hsplit : (slash :: joinParts (part :: rest)).splitOn slash = [] :: part :: rest := by
        rw [List.splitOn_cons_eq_if_modifyHead, if_pos (beq_self_eq_true _), joinParts,
          List.splitOn_intercalate _ hslash (by simp)]
      show Path.mk true (((slash :: joinParts (part :: rest)).splitOn slash).foldl
        (pushPart true) []).reverse = _
      rw [hsplit]
      exact congrArg (Path.mk true) hfold
  | false =>
    cases parts with
    | nil => rfl
    | cons part rest =>
      have habs : isAbs (joinParts (part :: rest)) = false :=
        isAbs_joinParts (by simp) fun q hq => ⟨(h.plain q hq).1, (h.plain q hq).2.2⟩
      show parsePath (joinParts (part :: rest)) = _
      rw [parsePath, habs, joinParts, List.splitOn_intercalate _ hslash (by simp)]
      exact congrArg (Path.mk false) hfold

theorem Path.toString_inj {p q : Path} (hp : p.Wf) (hq : q.Wf) (h : p.toString = q.toString) :
    p = q := by
  rw [← parsePath_toString hp, h, parsePath_toString hq]

/-! ## Absolute names -/

section
variable {name dir : GoString}

/-- The name of a rooted path. -/
theorem toString_of_abs (h : isAbs name = true) :
    clean name = slash :: joinParts (parsePath name).parts :=
  if_pos h

theorem isAbs_clean (h : isAbs name = true) : isAbs (clean name) = true := by
  rw [toString_of_abs h]
  exact decide_eq_true rfl

theorem parsePath_clean (name : GoString) : parsePath (clean name) = parsePath name :=
  parsePath_toString (parsePath_wf name)

/-- A clean name has at least a dot. -/
theorem clean_ne_nil (name : GoString) : clean name ≠ [] := by
  have hwf := parsePath_wf name
  rw [clean, Path.toString]
  split
  · simp
  split
  · simp
  next hne =>
  obtain ⟨part, rest, hparts⟩ := List.exists_cons_of_ne_nil hne
  obtain ⟨hpart, -⟩ := hwf.plain part (hparts ▸ .head _)
  rw [hparts]
  cases rest <;> simp [joinParts, List.intercalate_cons_cons, hpart]

theorem clean_clean (name : GoString) : clean (clean name) = clean name := by
  rw [clean, parsePath_clean, clean]

/-- No part of an absolute name is `..`. -/
theorem dotDot_not_mem (h : isAbs name = true) : dotDot ∉ (parsePath name).parts := by
  obtain ⟨k, rest, hparts, hrest, hk⟩ := (parsePath_wf name).ups
  rw [hparts, hk h]
  exact hrest

/-- Joining a name to an absolute one. -/
theorem joinPath_abs (h : isAbs dir = true) (name : GoString) :
    joinPath dir name = clean (dir ++ slash :: name) ∧ isAbs (dir ++ slash :: name) = true := by
  obtain ⟨b, bs, rfl⟩ : ∃ b bs, dir = b :: bs := by
    cases dir with
    | nil => cases h
    | cons b bs => exact ⟨b, bs, rfl⟩
  exact ⟨if_pos (by simp), h⟩

/-- A plain part is one that stands for itself. -/
def PlainPart (part : GoString) : Prop :=
  part ≠ [] ∧ part ≠ [dot] ∧ part ≠ dotDot ∧ slash ∉ part

/-- Joining a plain part adds it at the end. -/
theorem parts_joinPath (h : isAbs dir = true) {part : GoString} (hp : PlainPart part) :
    (parsePath (joinPath dir part)).parts = (parsePath dir).parts ++ [part] := by
  obtain ⟨heq, habs⟩ := joinPath_abs h part
  obtain ⟨hne, hdot, hdd, hs⟩ := hp
  have hsplit : (dir ++ slash :: part).splitOn slash = dir.splitOn slash ++ [part] := by
    rw [List.splitOn_append_cons_self, List.splitOn_eq_singleton hs]
  rw [heq, parsePath_clean]
  simp only [parsePath, habs, h, hsplit, List.foldl_append]
  rw [foldl_pushPart_plain (by simp [hne, hdot]) (by simpa using Ne.symm hdd)]
  simp

end

/-- An absolute name in the form `clean` gives it. -/
structure CleanAbs (name : GoString) : Prop where
  abs : isAbs name = true
  clean_eq : clean name = name

theorem CleanAbs.ne_nil (h : CleanAbs name) : name ≠ [] := by
  rintro rfl
  cases h.abs

theorem cleanAbs_clean (h : isAbs name = true) : CleanAbs (clean name) :=
  ⟨isAbs_clean h, clean_clean name⟩

theorem cleanAbs_joinPath {dir : GoString} (h : isAbs dir = true) (name : GoString) :
    CleanAbs (joinPath dir name) := by
  obtain ⟨heq, habs⟩ := joinPath_abs h name
  exact heq ▸ ⟨isAbs_clean habs, clean_clean _⟩

theorem CleanAbs.toString_eq (h : CleanAbs name) :
    Path.toString ⟨true, (parsePath name).parts⟩ = name :=
  (toString_of_abs h.abs).symm.trans h.clean_eq

/-! ## Absolute names as lists of parts -/

/-- The text of an absolute path with at least one part. -/
def pathText (parts : List GoString) : GoString := parts.flatMap (slash :: ·)

@[simp] theorem pathText_append (a b : List GoString) :
    pathText (a ++ b) = pathText a ++ pathText b := List.flatMap_append

theorem pathText_eq_cons : ∀ {parts : List GoString}, parts ≠ [] →
    pathText parts = slash :: joinParts parts
  | [], h => absurd rfl h
  | [p], _ => by simp [pathText, joinParts, List.intercalate]
  | p :: q :: rest, _ => by
    have ih := pathText_eq_cons (List.cons_ne_nil q rest)
    rw [pathText, List.flatMap_cons, ← pathText, ih]
    simp [joinParts, List.intercalate]

/-- The parts of an absolute name in the form `clean` gives it. -/
def PlainParts (parts : List GoString) : Prop := ∀ part ∈ parts, PlainPart part

theorem PlainParts.wf (h : PlainParts parts) : Path.Wf ⟨true, parts⟩ :=
  ⟨fun part hp => ⟨(h part hp).1, (h part hp).2.1, (h part hp).2.2.2⟩, 0, parts, rfl,
    fun hdd => (h _ hdd).2.2.1 rfl, fun _ => rfl⟩

theorem PlainParts.append {a b : List GoString} (ha : PlainParts a) (hb : PlainParts b) :
    PlainParts (a ++ b) := fun part hp => (List.mem_append.1 hp).elim (ha part) (hb part)

theorem plainParts_parsePath (h : isAbs name = true) :
    PlainParts (parsePath name).parts := fun part hp => by
  obtain ⟨hne, hdot, hs⟩ := (parsePath_wf name).plain part hp
  exact ⟨hne, hdot, fun hdd => dotDot_not_mem h (hdd ▸ hp), hs⟩

/-- Plain parts are read back from their text. -/
theorem PlainParts.parsePath_pathText (h : PlainParts parts)
    (hne : parts ≠ []) :
      CleanAbs (pathText parts) ∧ (parsePath (pathText parts)).parts = parts := by
  have htext : pathText parts = Path.toString ⟨true, parts⟩ := pathText_eq_cons hne
  have hparse := parsePath_toString h.wf
  rw [← htext] at hparse
  refine ⟨⟨?_, ?_⟩, by rw [hparse]⟩
  · rw [pathText_eq_cons hne]
    rfl
  · rw [clean, hparse, htext]

/-- A clean absolute name below the root is the text of its parts. -/
theorem CleanAbs.pathText_eq (h : CleanAbs name) (hne : name ≠ [slash]) :
    pathText (parsePath name).parts = name ∧ (parsePath name).parts ≠ [] := by
  have hparts : (parsePath name).parts ≠ [] := fun h0 => by
    have htext := h.toString_eq
    rw [h0] at htext
    exact hne htext.symm
  exact ⟨(pathText_eq_cons hparts).trans h.toString_eq, hparts⟩

/-- The text of plain parts determines them. -/
theorem PlainParts.pathText_inj {a b : List GoString} (ha : PlainParts a) (hb : PlainParts b)
    (h : pathText a = pathText b) : a = b := by
  by_cases hne : a = []
  · subst hne
    cases b with
    | nil => rfl
    | cons p b => simp [pathText] at h
  · by_cases hne' : b = []
    · subst hne'
      cases a with
      | nil => rfl
      | cons p a => simp [pathText] at h
    · rw [← (ha.parsePath_pathText hne).2, ← (hb.parsePath_pathText hne').2, h]

/-- A name continues another one with a slash exactly when its parts continue the other's. -/
theorem PlainParts.prefix_iff {a q : List GoString} (ha : PlainParts a) (hq : PlainParts q)
    (hne : a ≠ []) :
    (pathText q = pathText a ∨ pathText a ++ [slash] <+: pathText q) ↔ a <+: q := by
  constructor
  · rintro (h | ⟨t, ht⟩)
    · exact hq.pathText_inj ha h ▸ List.prefix_rfl
    · have hq' : q ≠ [] := by
        rintro rfl
        simp [pathText] at ht
      -- split both texts at the slashes
      have hsplit : ∀ {parts : List GoString}, PlainParts parts → parts ≠ [] →
          (joinParts parts).splitOn slash = parts := fun {parts} hp hn =>
        List.splitOn_intercalate _ (fun l hl => (hp l hl).2.2.2) hn
      rw [pathText_eq_cons hne, pathText_eq_cons hq', List.cons_append, List.cons_append,
        List.append_assoc, List.singleton_append] at ht
      have heq := congrArg (List.splitOn slash) (List.cons.inj ht).2
      rw [List.splitOn_append_cons_self, hsplit ha hne, hsplit hq hq'] at heq
      exact ⟨_, heq⟩
  · rintro ⟨rest, rfl⟩
    cases rest with
    | nil => exact .inl (by simp)
    | cons p rest =>
      refine .inr ⟨p ++ pathText rest, ?_⟩
      simp [pathText]

/-- The directory of an absolute name is absolute. -/
theorem isAbs_dirOf (h : isAbs name = true) : isAbs (dirOf name) = true := by
  refine isAbs_clean ?_
  match name, h with
  | b :: bs, h =>
    have hb : b = slash := by simpa [isAbs] using h
    subst hb
    rw [List.reverse_cons, List.dropWhile_append]
    split <;> simp [isAbs, slash]

section
variable {parts : List GoString} {part : GoString}

theorem Path.Wf.init (h : Path.Wf ⟨true, parts ++ [part]⟩) : Path.Wf ⟨true, parts⟩ := by
  obtain ⟨k, rest, hparts, hrest, hk⟩ := h.ups
  obtain rfl : k = 0 := hk rfl
  refine ⟨fun q hq => h.plain q (List.mem_append_left _ hq), 0, parts, rfl, fun hmem => ?_,
    fun _ => rfl⟩
  have hparts : parts ++ [part] = rest := hparts
  exact hrest (hparts ▸ List.mem_append_left _ hmem)

/-- The text of a rooted path ends in its last part, after a slash. -/
theorem toString_concat (parts : List GoString) (part : GoString) : ∃ dir,
    Path.toString ⟨true, parts ++ [part]⟩ = dir ++ slash :: part ∧
      (parts = [] ∧ dir = [] ∨ parts ≠ [] ∧ dir = Path.toString ⟨true, parts⟩) := by
  induction parts with
  | nil => exact ⟨[], by simp [Path.toString, joinParts], .inl ⟨rfl, rfl⟩⟩
  | cons p ps ih =>
    refine ⟨Path.toString ⟨true, p :: ps⟩, ?_, .inr ⟨by simp, rfl⟩⟩
    obtain ⟨dir, heq, hcase⟩ := ih
    have heq : slash :: joinParts (ps ++ [part]) = dir ++ slash :: part := heq
    show slash :: joinParts (p :: (ps ++ [part])) = slash :: (joinParts (p :: ps) ++ slash :: part)
    rcases hcase with ⟨rfl, rfl⟩ | ⟨hne, rfl⟩
    · simp [joinParts]
    · obtain ⟨q, qs, rfl⟩ := List.exists_cons_of_ne_nil hne
      have hcons : ∀ ls : List GoString, joinParts (p :: q :: ls) =
          p ++ slash :: joinParts (q :: ls) := fun ls => by
        simp [joinParts, List.intercalate_cons_cons]
      have heq' : slash :: joinParts (q :: (qs ++ [part])) =
          slash :: (joinParts (q :: qs) ++ slash :: part) := heq
      rw [List.cons_append, hcons, List.cons.inj heq' |>.2, hcons]
      simp

/-- The directory of a rooted path drops its last part. -/
theorem dirOf_toString (h : Path.Wf ⟨true, parts ++ [part]⟩) :
    dirOf (Path.toString ⟨true, parts ++ [part]⟩) = Path.toString ⟨true, parts⟩ := by
  obtain ⟨dir, heq, hcase⟩ := toString_concat parts part
  have hs : slash ∉ part := (h.plain part (by simp)).2.2
  have hpre : ((dir ++ slash :: part).reverse.dropWhile (· ≠ slash)).reverse = dir ++ [slash] := by
    have hall : ∀ b ∈ part.reverse, decide (b ≠ slash) = true := fun b hb =>
      decide_eq_true fun h => hs (h ▸ List.mem_reverse.1 hb)
    rw [List.reverse_append, List.reverse_cons, List.append_assoc,
      List.dropWhile_append_of_pos hall]
    simp
  have hwf := h.init
  rw [heq, dirOf, hpre, clean]
  refine congrArg _ ?_
  rcases hcase with ⟨rfl, rfl⟩ | ⟨-, rfl⟩
  · rfl
  · -- the final slash adds an empty part
    have habs : isAbs (Path.toString ⟨true, parts⟩ ++ [slash]) = true := rfl
    have habs' : isAbs (Path.toString ⟨true, parts⟩) = true := rfl
    have hsplit : (Path.toString ⟨true, parts⟩ ++ [slash]).splitOn slash =
        (Path.toString ⟨true, parts⟩).splitOn slash ++ [[]] := by
      rw [List.splitOn_append_cons_self]
      rfl
    have hparse := parsePath_toString hwf
    unfold parsePath at hparse ⊢
    rw [habs, hsplit, List.foldl_append]
    rw [habs'] at hparse
    exact hparse

/-- The base of a rooted path is its last part. -/
theorem baseOf_toString (h : Path.Wf ⟨true, parts ++ [part]⟩) :
    baseOf (Path.toString ⟨true, parts ++ [part]⟩) = part := by
  obtain ⟨dir, heq, -⟩ := toString_concat parts part
  obtain ⟨hne, -, hs⟩ := h.plain part (by simp)
  obtain ⟨init, last, rfl⟩ := (List.eq_nil_or_concat part).resolve_left hne
  rw [List.concat_eq_append] at *
  have hlast : last ≠ slash := fun h => hs (h ▸ by simp)
  rw [heq, baseOf, if_neg (by simp)]
  have hrev : (dir ++ slash :: (init ++ [last])).reverse =
      last :: (init.reverse ++ slash :: dir.reverse) := by simp
  rw [hrev, List.dropWhile_cons_of_neg (by simpa using hlast)]
  have hall : ∀ b ∈ last :: init.reverse, decide (b ≠ slash) = true := fun b hb =>
    decide_eq_true fun h => hs (h ▸ by simpa [or_comm] using hb)
  simp only
  rw [← List.cons_append, List.takeWhile_append_of_pos hall]
  simp

end

/-! ## Relative names -/

/-- Two lists of parts without their common beginning. -/
def stripCommon : List GoString → List GoString → List GoString × List GoString
  | a :: as, b :: bs => if a = b then stripCommon as bs else (a :: as, b :: bs)
  | as, bs => (as, bs)

/-- `filepath.Rel`. The current directory is never consulted, so there is no result when only one
name is absolute, or when it would have to lead out of a directory that `..` stands for. -/
def relPath (base target : GoString) : Option GoString :=
  let base := parsePath base
  let target := parsePath target
  if target.toString = base.toString then some [dot]
  else if base.rooted ≠ target.rooted then none
  else
    let (up, down) := stripCommon base.parts
      (if !target.rooted && target.parts = [] then [[dot]] else target.parts)
    if up.head? = some dotDot then none
    else some (joinParts (List.replicate up.length dotDot ++ down))

/-- `filepath.IsLocal`. -/
def isLocal (name : GoString) : Bool :=
  if isAbs name || name = [] then false
  else
    let dots := (name.splitOn slash).any fun part => part = [dot] || part = dotDot
    let name := if dots then clean name else name
    name ≠ dotDot && !(dotDot ++ [slash]).isPrefixOf name

/-- `fs.ValidPath`. -/
def validPath (name : GoString) : Bool :=
  validString name && (name = [dot] ||
    (name.splitOn slash).all fun part => part ≠ [] && part ≠ [dot] && part ≠ dotDot)

/-- The common front of two lists is taken off. -/
theorem stripCommon_spec : ∀ (as bs : List GoString), ∃ common,
    as = common ++ (stripCommon as bs).1 ∧ bs = common ++ (stripCommon as bs).2 ∧
      ((stripCommon as bs).1 = [] ↔ as <+: bs)
  | [], bs => ⟨[], rfl, rfl, by simp [stripCommon]⟩
  | a :: as, [] => ⟨[], rfl, rfl, by simp [stripCommon]⟩
  | a :: as, b :: bs => by
    rw [stripCommon]
    split
    · next heq =>
      obtain ⟨common, has, hbs, hiff⟩ := stripCommon_spec as bs
      refine ⟨a :: common, congrArg _ has, heq ▸ congrArg _ hbs, ?_⟩
      rw [hiff, heq, List.prefix_cons_inj]
    · next hne =>
      refine ⟨[], rfl, rfl, ?_⟩
      simp [List.cons_prefix_cons, hne]

/-- Parts that do not start with `..` make a local name. -/
theorem isLocal_joinParts (hne : parts ≠ [])
    (h : ∀ part ∈ parts, PlainPart part) : isLocal (joinParts parts) = true := by
  have habs : isAbs (joinParts parts) = false :=
    isAbs_joinParts hne fun part hp => ⟨(h part hp).1, (h part hp).2.2.2⟩
  have hsplit : (joinParts parts).splitOn slash = parts :=
    List.splitOn_intercalate slash (fun part hp => (h part hp).2.2.2) hne
  have hdots : parts.any (fun part => part = [dot] || part = dotDot) = false := by
    refine List.any_eq_false.2 fun part hp => ?_
    simp [(h part hp).2.1, (h part hp).2.2.1]
  -- a name that starts with `..` has it as its first part
  have hup : joinParts parts ≠ dotDot ∧ ¬ dotDot ++ [slash] <+: joinParts parts := by
    constructor
    · intro heq
      rw [heq] at hsplit
      exact (h dotDot (hsplit ▸ by decide)).2.2.1 rfl
    · rintro ⟨rest, heq⟩
      rw [← heq, List.append_assoc, List.singleton_append,
        List.splitOn_append_cons_self_of_not_mem (by decide)] at hsplit
      exact (h dotDot (hsplit ▸ .head _)).2.2.1 rfl
  have hempty : joinParts parts ≠ [] := by
    intro heq
    rw [heq] at hsplit
    exact (h [] (hsplit ▸ by decide)).1 rfl
  have hno : (dotDot ++ [slash]).isPrefixOf (joinParts parts) = false :=
    Bool.eq_false_iff.2 fun h => hup.2 (List.isPrefixOf_iff_prefix.1 h)
  simp [isLocal, habs, hsplit, hdots, hempty, hup.1, hno]

/-- A clean relative path that starts with `..` is not local. -/
theorem isLocal_up {p : Path} (h : p.Wf) (hr : p.rooted = false) {rest : List GoString}
    (hp : p.parts = dotDot :: rest) : p.toString ≠ [dot] ∧ isLocal p.toString = false := by
  have htext : p.toString = joinParts (dotDot :: rest) := by
    rw [Path.toString, hr, hp]
    rfl
  have hslash : ∀ part ∈ dotDot :: rest, slash ∉ part := fun part hpart =>
    (h.plain part (hp ▸ hpart)).2.2
  have hdots : ((joinParts (dotDot :: rest)).splitOn slash).any
      (fun part => part = [dot] || part = dotDot) = true := by
    rw [joinParts, List.splitOn_intercalate slash hslash (by simp)]
    simp
  have hclean : clean (joinParts (dotDot :: rest)) = joinParts (dotDot :: rest) := by
    rw [← htext, clean, parsePath_toString h]
  rw [htext]
  simp only [isLocal, hdots, hclean]
  cases rest with
  | nil => decide
  | cons part rest =>
    have hup : (dotDot ++ [slash]).isPrefixOf (joinParts (dotDot :: part :: rest)) = true := rfl
    refine ⟨fun h => ?_, by simp [hup]⟩
    rw [h] at hup
    cases hup

/-- Of two absolute names, the relative one is local exactly if the one lies at or below the
other. -/
theorem isLocal_rel {base target : GoString} (hb : isAbs base = true) (ht : isAbs target = true) :
    (∃ r, relPath base target = some r ∧ (r = [dot] ∨ isLocal r = true)) ↔
      (parsePath base).parts <+: (parsePath target).parts := by
  have hrb : (parsePath base).rooted = true := hb
  have hrt : (parsePath target).rooted = true := ht
  by_cases heq : parsePath target = parsePath base
  · rw [relPath, heq, if_pos rfl]
    simp
  have hne : (parsePath target).toString ≠ (parsePath base).toString := fun h =>
    heq (Path.toString_inj (parsePath_wf _) (parsePath_wf _) h)
  obtain ⟨common, hbase, htarget, hiff⟩ :=
    stripCommon_spec (parsePath base).parts (parsePath target).parts
  rw [← hiff]
  simp only [relPath, if_neg hne, hrb, hrt, ne_eq, not_true_eq_false, if_false, Bool.not_true,
    Bool.false_and, Bool.false_eq_true]
  generalize hup : (stripCommon (parsePath base).parts (parsePath target).parts).1 = up at *
  generalize (stripCommon (parsePath base).parts (parsePath target).parts).2 = down at *
  have hplain : ∀ {name : GoString}, isAbs name = true → ∀ part ∈ (parsePath name).parts,
      PlainPart part := fun {name} h part hp =>
    have hwf := (parsePath_wf name).plain part hp
    ⟨hwf.1, hwf.2.1, fun hdd => dotDot_not_mem h (hdd ▸ hp), hwf.2.2⟩
  have hupPlain : ∀ part ∈ up, PlainPart part := fun part hp =>
    hplain hb part (hbase ▸ List.mem_append_right _ hp)
  have hdownPlain : ∀ part ∈ down, PlainPart part := fun part hp =>
    hplain ht part (htarget ▸ List.mem_append_right _ hp)
  have hhead : ¬ up.head? = some dotDot := fun h =>
    (hupPlain dotDot (List.mem_of_mem_head? h)).2.2.1 rfl
  rw [if_neg hhead]
  simp only [Option.some.injEq, exists_eq_left']
  cases up with
  | nil =>
    have hdown : down ≠ [] := by
      rintro rfl
      exact heq (Path.ext (hrt.trans hrb.symm) (htarget.trans hbase.symm))
    exact iff_of_true (.inr (isLocal_joinParts hdown hdownPlain)) rfl
  | cons part up =>
    have hwf : Path.Wf ⟨false, List.replicate (part :: up).length dotDot ++ down⟩ := by
      refine ⟨fun q hq => ?_, _, down, rfl, fun h => (hdownPlain _ h).2.2.1 rfl,
        fun h => by cases h⟩
      rcases List.mem_append.1 hq with hq | hq
      · rw [List.eq_of_mem_replicate hq]; decide
      · exact ⟨(hdownPlain q hq).1, (hdownPlain q hq).2.1, (hdownPlain q hq).2.2.2⟩
    exact iff_of_false (not_or.2 ((isLocal_up hwf rfl rfl).imp_right Bool.eq_false_iff.1)) (by simp)

end InfraBox
