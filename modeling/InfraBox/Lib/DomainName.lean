import InfraBox.Lib.Text

/-!
# Domain names as label lists

The text of a fully qualified domain name is its labels, each followed by a dot (`render`). For
labels without dots the suffix tests a program makes on texts are suffix tests on label lists
(`dot_render_suffix_iff`). `isLabel` also admits the labels of the presentation format, in which a
backslash escapes the byte after it; the text still determines the labels (`render_inj`).
-/

namespace InfraBox

/-- The text of a fully qualified name: each label followed by a dot. -/
def render (ls : List GoString) : GoString := ls.flatMap fun l => l ++ [dot]

@[simp] theorem render_nil : render [] = [] := rfl

theorem render_cons (l : GoString) (ls : List GoString) :
    render (l :: ls) = l ++ dot :: render ls := by
  simp [render, List.flatMap_cons]

theorem render_append (ls ls' : List GoString) : render (ls ++ ls') = render ls ++ render ls' := by
  simp [render]

theorem render_ne_nil {ls : List GoString} (h : ls ≠ []) : render ls ≠ [] := by
  cases ls with
  | nil => exact absurd rfl h
  | cons l ls => rw [render_cons]; simp

/-- A text ends in a dot. -/
theorem exists_render_eq {ls : List GoString} (h : ls ≠ []) : ∃ n, render ls = n ++ [dot] := by
  obtain ⟨init, last, rfl⟩ := (List.eq_nil_or_concat ls).resolve_left h
  refine ⟨render init ++ last, ?_⟩
  rw [List.concat_eq_append, render_append, render_cons]
  simp

/-- A text has at least one byte per label. -/
theorem length_le_render (ls : List GoString) : ls.length ≤ (render ls).length := by
  induction ls with
  | nil => exact le_refl _
  | cons l ls ih =>
    rw [render_cons, List.length_append, List.length_cons, List.length_cons]
    omega

/-- A text is its labels, joined by dots, and a final dot. -/
theorem render_eq_intercalate {ls : List GoString} (h : ls ≠ []) :
    render ls = [dot].intercalate ls ++ [dot] := by
  induction ls with
  | nil => exact absurd rfl h
  | cons l ls ih =>
    cases ls with
    | nil => simp [render_cons]
    | cons l' ls =>
      rw [render_cons, ih (by simp), List.intercalate_cons_cons]
      simp

/-- The text without its final dot, split at its dots, has the labels back. -/
theorem render_splitOn (s : GoString) : render (s.splitOn dot) = s ++ [dot] := by
  rw [render_eq_intercalate (List.splitOn_ne_nil _ _), List.intercalate_splitOn]

/-- Splitting the text of a name gives its labels and the empty string after the final dot. -/
theorem splitOn_render {ls : List GoString} (h : ∀ l ∈ ls, dot ∉ l) :
    (render ls).splitOn dot = ls ++ [[]] := by
  induction ls with
  | nil => rfl
  | cons l ls ih =>
    rw [render_cons, List.splitOn_append_cons_self_of_not_mem (h l (.head _)),
      ih fun l' hl' => h l' (.tail _ hl')]
    rfl

/-- A text ends in a dot and another text exactly when its labels end in the other's, and it has
more of them. -/
theorem dot_render_suffix_iff {n m : List GoString} (hn : ∀ l ∈ n, dot ∉ l)
    (hm : ∀ l ∈ m, dot ∉ l) :
    dot :: render m <:+ render n ↔ ∃ pre, pre ≠ [] ∧ n = pre ++ m := by
  constructor
  · rintro ⟨x, hx⟩
    refine ⟨x.splitOn dot, List.splitOn_ne_nil _ _, ?_⟩
    have := congrArg (List.splitOn dot) hx
    rw [List.splitOn_append_cons_self, splitOn_render hm, splitOn_render hn,
      ← List.append_assoc] at this
    exact (List.append_cancel_right this).symm
  · rintro ⟨pre, hpre, rfl⟩
    obtain ⟨pre', l, rfl⟩ := List.eq_nil_or_concat pre |>.resolve_left hpre
    refine ⟨render pre' ++ l, ?_⟩
    rw [List.concat_eq_append, render_append, render_append, render_cons]
    simp

/-- A text is a zone's or lies below it, every dot being taken to separate two labels. -/
def AtOrBelow (name zone : GoString) : Prop := name = zone ∨ dot :: zone <:+ name

theorem AtOrBelow.trans {a b c : GoString} (h : AtOrBelow a b) (h' : AtOrBelow b c) :
    AtOrBelow a c := by
  rcases h' with rfl | h'
  · exact h
  · rcases h with rfl | h
    · exact .inr h'
    · exact .inr (h'.trans ((List.suffix_cons _ _).trans h))

/-- More labels in front of a name give a name below it. -/
theorem atOrBelow_append (pre ls : List GoString) : AtOrBelow (render (pre ++ ls)) (render ls) := by
  rw [render_append]
  by_cases hpre : pre = []
  · exact .inl (by rw [hpre]; rfl)
  · obtain ⟨t, ht⟩ := exists_render_eq hpre
    exact .inr ⟨t, by rw [ht]; simp⟩

/-- On names without escapes the test of texts compares labels. -/
theorem atOrBelow_render_iff {n m : List GoString} (hn : ∀ l ∈ n, dot ∉ l)
    (hm : ∀ l ∈ m, dot ∉ l) : AtOrBelow (render n) (render m) ↔ m <:+ n := by
  rw [AtOrBelow, dot_render_suffix_iff hn hm]
  constructor
  · rintro (heq | ⟨pre, -, rfl⟩)
    · have := congrArg (List.splitOn dot) heq
      rw [splitOn_render hn, splitOn_render hm] at this
      exact List.append_cancel_right this ▸ List.suffix_rfl
    · exact List.suffix_append _ _
  · rintro ⟨pre, rfl⟩
    cases pre with
    | nil => exact .inl rfl
    | cons l pre => exact .inr ⟨l :: pre, by simp, rfl⟩

/-! ## Labels in the presentation format -/

/-- A label as a resolver writes it: every dot in it is escaped, and no escape is left open. -/
def isLabel : GoString → Bool
  | [] => true
  | [c] => c != dot && c != backslash
  | c :: d :: s => if c = backslash then isLabel s else c != dot && isLabel (d :: s)

/-- Without a backslash a label has no dots. -/
theorem not_dot_of_isLabel {l : GoString} (h : isLabel l = true) (hb : backslash ∉ l) :
    dot ∉ l := by
  fun_induction isLabel l with
  | case1 => simp
  | case2 c => simp only [bne_iff_ne, ne_eq, Bool.and_eq_true] at h; simp [Ne.symm h.1]
  | case3 d s ih => exact absurd (.head _) hb
  | case4 c d s hc ih =>
    simp only [bne_iff_ne, ne_eq, Bool.and_eq_true] at h
    rw [List.mem_cons, not_or] at hb ⊢
    exact ⟨Ne.symm h.1, ih h.2 hb.2⟩

/-- A string without dots and backslashes is a label. -/
theorem isLabel_of_plain {l : GoString} (hd : dot ∉ l) (hb : backslash ∉ l) : isLabel l = true := by
  fun_induction isLabel l with
  | case1 => rfl
  | case2 c =>
    simp only [List.mem_singleton] at hd hb
    simp [Ne.symm hd, Ne.symm hb]
  | case3 d s ih => exact absurd (.head _) hb
  | case4 c d s hc ih =>
    rw [List.mem_cons, not_or] at hd hb
    simp [Ne.symm hd.1, ih hd.2 hb.2]

/-- The number of bytes before the first dot that is not escaped. -/
def labelLength : GoString → Nat
  | [] => 0
  | [c] => if c = dot then 0 else 1
  | c :: d :: s =>
    if c = backslash then labelLength s + 2
    else if c = dot then 0 else labelLength (d :: s) + 1

theorem labelLength_dot (rest : GoString) : labelLength (dot :: rest) = 0 := by
  have hne : dot ≠ backslash := by decide
  cases rest <;> simp [labelLength, hne]

/-- A label ends at the first dot that is not escaped. -/
theorem labelLength_append {l : GoString} (h : isLabel l = true) (rest : GoString) :
    labelLength (l ++ dot :: rest) = l.length := by
  fun_induction isLabel l with
  | case1 => exact labelLength_dot rest
  | case2 c =>
    simp only [bne_iff_ne, ne_eq, Bool.and_eq_true] at h
    simp [labelLength, h.1, h.2, labelLength_dot]
  | case3 d s ih => simp [labelLength, ih h]
  | case4 c d s hc ih =>
    simp only [bne_iff_ne, ne_eq, Bool.and_eq_true] at h
    have := ih h.2
    simp_all [labelLength]

/-- A text determines its labels. -/
theorem render_inj {ls ls' : List GoString} (h : ∀ l ∈ ls, isLabel l = true)
    (h' : ∀ l ∈ ls', isLabel l = true) (heq : render ls = render ls') : ls = ls' := by
  induction ls generalizing ls' with
  | nil =>
    cases ls' with
    | nil => rfl
    | cons l ls' => exact absurd heq.symm (render_ne_nil (by simp))
  | cons l ls ih =>
    cases ls' with
    | nil => exact absurd heq (render_ne_nil (by simp))
    | cons l' ls' =>
      rw [render_cons, render_cons] at heq
      have hlen : l.length = l'.length := by
        rw [← labelLength_append (h l (.head _)) (render ls), heq,
          labelLength_append (h' l' (.head _))]
      obtain ⟨rfl, hrest⟩ := List.append_inj heq hlen
      rw [ih (fun x hx => h x (.tail _ hx)) (fun x hx => h' x (.tail _ hx)) (List.cons.inj hrest).2]

/-- Removing labels from the second text, at most `n` of them, leads to the first. -/
def labelSuffix (parent : GoString) : Nat → GoString → Bool
  | 0, child => child = parent
  | n + 1, child =>
    child = parent || (child ≠ [] && labelSuffix parent n (child.drop (labelLength child + 1)))

/-- That is a suffix test on labels. -/
theorem labelSuffix_render {p : List GoString} (hp : ∀ l ∈ p, isLabel l = true) (hne : p ≠ []) :
    ∀ {c : List GoString} {n : Nat}, (∀ l ∈ c, isLabel l = true) → c.length ≤ n →
      (labelSuffix (render p) n (render c) = true ↔ p <:+ c)
  | [], n, _, _ => by
    cases n <;> simp [labelSuffix, render_ne_nil hne, hne]
  | l :: c, 0, _, hn => by simp at hn
  | l :: c, n + 1, hc, hn => by
    have hdrop : (render (l :: c)).drop (labelLength (render (l :: c)) + 1) = render c := by
      rw [render_cons, labelLength_append (hc l (.head _))]
      simp
    have heq : render (l :: c) = render p ↔ p = l :: c :=
      ⟨fun h => (render_inj hc hp h).symm, fun h => h ▸ rfl⟩
    have ih := labelSuffix_render hp hne (n := n) (fun x hx => hc x (.tail _ hx))
      (by simpa using hn)
    rw [labelSuffix, hdrop, Bool.or_eq_true, Bool.and_eq_true, decide_eq_true_eq, decide_eq_true_eq,
      heq, ih, List.suffix_cons_iff]
    exact or_congr_right ⟨And.right, fun h => ⟨render_ne_nil (by simp), h⟩⟩

end InfraBox
