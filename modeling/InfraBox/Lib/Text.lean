import Mathlib.Algebra.Group.Int.Defs
import Mathlib.Algebra.Group.Nat.Defs
import Mathlib.Data.List.Lex
import Mathlib.Order.Defs.LinearOrder

/-!
# Byte strings

The strings of the modelled language are byte sequences; iterating over one decodes UTF-8, and an
ill-formed byte decodes to U+FFFD. `segments` is that decoding, with the bytes each rune was read
from, so that `runes`, `validString`, `toLower` and `trimSpace` are all stated over it. Names that
pass a check are ASCII, and on ASCII the decoding is bytewise (`segments_of_ascii`); every law the
rest of the development uses is reduced to that case.
-/

namespace InfraBox

variable {s : GoString}

/-- A string: its bytes. -/
abbrev GoString := List UInt8

instance instLinearOrderUInt8 : LinearOrder UInt8 where
  le_refl a := UInt8.le_refl a
  le_trans _ _ _ := UInt8.le_trans
  le_antisymm _ _ := UInt8.le_antisymm
  le_total := UInt8.le_total
  lt_iff_le_not_ge a b := by rw [UInt8.not_le]; exact ⟨fun h => ⟨UInt8.le_of_lt h, h⟩, fun h => h.2⟩
  toDecidableLE := inferInstance

instance instLawfulBEqGoString : LawfulBEq GoString := inferInstance

/-- The bytes of an ASCII literal. -/
def str (s : String) : GoString := s.toList.map Char.toUInt8

def dot : UInt8 := '.'.toUInt8
def hyphen : UInt8 := '-'.toUInt8
def star : UInt8 := '*'.toUInt8
def backslash : UInt8 := '\\'.toUInt8

/-! ## UTF-8 -/

/-- `utf8.RuneError`, the rune an ill-formed byte decodes to. -/
def runeError : Nat := 0xFFFD

/-- The second byte a lead byte of a multi-byte sequence accepts. -/
def acceptsSecond (b c : UInt8) : Bool :=
  if b = 0xE0 then 0xA0 ≤ c && c ≤ 0xBF
  else if b = 0xED then 0x80 ≤ c && c ≤ 0x9F
  else if b = 0xF0 then 0x90 ≤ c && c ≤ 0xBF
  else if b = 0xF4 then 0x80 ≤ c && c ≤ 0x8F
  else 0x80 ≤ c && c ≤ 0xBF

/-- A continuation byte after the second. -/
def isCont (c : UInt8) : Bool := 0x80 ≤ c && c ≤ 0xBF

/-- The low `n` bits of a byte. -/
def lowBits (b : UInt8) (n : Nat) : Nat := b.toNat % 2 ^ n

/-- `utf8.DecodeRuneInString` at a nonempty string: its first rune, and the number of bytes after
the first that belong to it. A byte that starts no well-formed sequence is `runeError` alone. -/
def decodeRune (b : UInt8) (s : GoString) : Nat × Nat :=
  if b < 0x80 then (b.toNat, 0)
  else match s with
    | [] => (runeError, 0)
    | c :: s =>
      if 0xC2 ≤ b && b ≤ 0xDF && acceptsSecond b c then (lowBits b 5 * 64 + lowBits c 6, 1)
      else match s with
        | [] => (runeError, 0)
        | d :: s =>
          if 0xE0 ≤ b && b ≤ 0xEF && acceptsSecond b c && isCont d then
            (lowBits b 4 * 4096 + lowBits c 6 * 64 + lowBits d 6, 2)
          else match s with
            | [] => (runeError, 0)
            | e :: _ =>
              if 0xF0 ≤ b && b ≤ 0xF4 && acceptsSecond b c && isCont d && isCont e then
                (lowBits b 3 * 262144 + lowBits c 6 * 4096 + lowBits d 6 * 64 + lowBits e 6, 3)
              else (runeError, 0)

/-- The decoding loop, with the number of bytes still to skip. -/
def segmentsFrom : Nat → GoString → List (Nat × GoString)
  | _, [] => []
  | 0, b :: s => ((decodeRune b s).1, b :: s.take (decodeRune b s).2) ::
      segmentsFrom (decodeRune b s).2 s
  | n + 1, _ :: s => segmentsFrom n s

/-- The runes of a string, each with the bytes it was decoded from. -/
def segments (s : GoString) : List (Nat × GoString) := segmentsFrom 0 s

/-- The runes a `range` loop visits. -/
def runes (s : GoString) : List Nat := (segments s).map Prod.fst

/-- `utf8.ValidString`: no byte of the string is ill-formed. -/
def validString (s : GoString) : Bool :=
  (segments s).all fun seg => !(seg.1 = runeError && seg.2.length = 1)

/-- `utf8.AppendRune`. -/
def encodeRune (r : Nat) : GoString :=
  if r < 0x80 then [UInt8.ofNat r]
  else if r < 0x800 then [UInt8.ofNat (0xC0 + r / 64), UInt8.ofNat (0x80 + r % 64)]
  else if r < 0x10000 then
    [UInt8.ofNat (0xE0 + r / 4096), UInt8.ofNat (0x80 + r / 64 % 64), UInt8.ofNat (0x80 + r % 64)]
  else [UInt8.ofNat (0xF0 + r / 262144), UInt8.ofNat (0x80 + r / 4096 % 64),
    UInt8.ofNat (0x80 + r / 64 % 64), UInt8.ofNat (0x80 + r % 64)]

/-- Every byte of the string is ASCII. -/
def IsAscii (s : GoString) : Prop := ∀ b ∈ s, b < 0x80

instance (s : GoString) : Decidable (IsAscii s) :=
  List.decidableBAll (fun b : UInt8 => b < 0x80) s

@[simp] theorem isAscii_nil : IsAscii [] := by simp [IsAscii]

theorem isAscii_cons {b : UInt8} : IsAscii (b :: s) ↔ b < 0x80 ∧ IsAscii s := by
  simp [IsAscii]

theorem isAscii_append {s t : GoString} : IsAscii (s ++ t) ↔ IsAscii s ∧ IsAscii t := by
  simp only [IsAscii, List.mem_append]
  exact ⟨fun h => ⟨fun b hb => h b (.inl hb), fun b hb => h b (.inr hb)⟩,
    fun h b hb => hb.elim (h.1 b) (h.2 b)⟩

theorem decodeRune_of_ascii {b : UInt8} (s : GoString) (h : b < 0x80) :
    decodeRune b s = (b.toNat, 0) := by
  unfold decodeRune; rw [if_pos h]

/-- An ASCII string decodes byte by byte. -/
theorem segments_of_ascii (h : IsAscii s) :
    segments s = s.map fun b => (b.toNat, [b]) := by
  unfold segments
  induction s with
  | nil => rfl
  | cons b s ih =>
    rw [isAscii_cons] at h
    rw [segmentsFrom, decodeRune_of_ascii s h.1, List.map_cons, ih h.2]
    rfl

theorem runes_of_ascii (h : IsAscii s) : runes s = s.map UInt8.toNat := by
  rw [runes, segments_of_ascii h, List.map_map]; rfl

/-- ASCII decodes byte by byte, whatever follows. -/
theorem runes_append_of_ascii (h : IsAscii s) (t : GoString) :
    runes (s ++ t) = s.map UInt8.toNat ++ runes t := by
  induction s with
  | nil => rfl
  | cons b s ih =>
    rw [isAscii_cons] at h
    have hstep : runes (b :: s ++ t) = b.toNat :: runes (s ++ t) := by
      rw [List.cons_append, runes, segments, segmentsFrom, decodeRune_of_ascii _ h.1]
      rfl
    rw [hstep, ih h.2]
    rfl

/-- A rune below 0x80 starts at an ASCII byte: the multi-byte forms are never overlong. -/
theorem decodeRune_lt {b : UInt8} (h : (decodeRune b s).1 < 0x80) : b < 0x80 := by
  by_contra hb
  have h1 : 128 ≤ b.toNat := by simpa [UInt8.lt_iff_toNat_lt] using hb
  unfold decodeRune at h
  rw [if_neg hb] at h
  split at h
  · simp [runeError] at h
  · next c s =>
    split at h
    · next hc =>
      simp only [Bool.and_eq_true, decide_eq_true_eq, UInt8.le_iff_toNat_le,
        UInt8.reduceToNat] at hc
      simp only [lowBits] at h
      omega
    · split at h
      · simp [runeError] at h
      · split at h
        · next hd =>
          simp only [Bool.and_eq_true, decide_eq_true_eq, UInt8.le_iff_toNat_le,
            UInt8.reduceToNat] at hd
          obtain ⟨⟨⟨hb0, hb1⟩, hsec⟩, -⟩ := hd
          simp only [lowBits] at h
          -- the lead byte E0 contributes nothing, so its second byte has to be large
          by_cases he : b = 0xE0
          · subst he
            simp [acceptsSecond, UInt8.le_iff_toNat_le] at hsec h
            omega
          · have : b.toNat ≠ 224 := fun h => he (UInt8.toNat_inj.1 h)
            omega
        · split at h
          · simp [runeError] at h
          · split at h
            · next hd =>
              simp only [Bool.and_eq_true, decide_eq_true_eq, UInt8.le_iff_toNat_le,
                UInt8.reduceToNat] at hd
              obtain ⟨⟨⟨⟨hb0, hb1⟩, hsec⟩, -⟩, -⟩ := hd
              simp only [lowBits] at h
              by_cases he : b = 0xF0
              · subst he
                simp [acceptsSecond, UInt8.le_iff_toNat_le] at hsec h
                omega
              · have : b.toNat ≠ 240 := fun h => he (UInt8.toNat_inj.1 h)
                omega
            · simp [runeError] at h

/-- A string all of whose runes are below 0x80 is ASCII. -/
theorem isAscii_of_runes (h : ∀ r ∈ runes s, r < 0x80) : IsAscii s := by
  unfold runes segments at h
  induction s with
  | nil => exact isAscii_nil
  | cons b s ih =>
    rw [segmentsFrom, List.map_cons, List.forall_mem_cons] at h
    have hb := decodeRune_lt h.1
    rw [decodeRune_of_ascii s hb] at h
    exact isAscii_cons.2 ⟨hb, ih h.2⟩

/-- The loop that looks for a rune above 127 finds one in every string that is not ASCII. -/
theorem any_runes_high : ((runes s).any fun c => 127 < c) = true ↔ ¬ IsAscii s := by
  rw [← not_iff_not, not_not, Bool.not_eq_true, List.any_eq_false]
  constructor
  · intro h
    refine isAscii_of_runes fun r hr => ?_
    have := h r hr
    rw [decide_eq_true_eq] at this
    omega
  · intro h r hr
    rw [runes_of_ascii h] at hr
    obtain ⟨b, hb, rfl⟩ := List.mem_map.1 hr
    have := UInt8.lt_iff_toNat_lt.1 (h b hb)
    simp only [UInt8.reduceToNat] at this
    rw [decide_eq_true_eq]
    omega

/-- A `range` loop over ASCII-only tests is a loop over the bytes. -/
theorem all_runes {p : Nat → Bool} (hp : ∀ r, p r = true → r < 0x80) (s : GoString) :
    (runes s).all p = true ↔ ∀ b ∈ s, p b.toNat = true := by
  constructor
  · intro h
    rw [List.all_eq_true] at h
    have ha : IsAscii s := isAscii_of_runes fun r hr => hp r (h r hr)
    rw [runes_of_ascii ha] at h
    exact fun b hb => h b.toNat (List.mem_map_of_mem hb)
  · intro h
    have ha : IsAscii s := fun b hb => by
      have := hp _ (h b hb)
      simpa [UInt8.lt_iff_toNat_lt] using this
    rw [runes_of_ascii ha, List.all_eq_true]
    intro r hr
    obtain ⟨b, hb, rfl⟩ := List.mem_map.1 hr
    exact h b hb

/-! ## Case -/

/-- An ASCII upper-case letter. -/
def isUpper (b : UInt8) : Bool := 'A'.toUInt8 ≤ b && b ≤ 'Z'.toUInt8

/-- The lower case of an ASCII byte. -/
def lowerByte (b : UInt8) : UInt8 := if isUpper b then b + 32 else b

/-- The string with its ASCII letters in lower case. -/
def foldCase (s : GoString) : GoString := s.map lowerByte

/-- Lower case moves upper-case letters to a range without any, and leaves the rest. -/
theorem lowerByte_toNat (b : UInt8) :
    (65 ≤ b.toNat ∧ b.toNat ≤ 90 ∧ (lowerByte b).toNat = b.toNat + 32) ∨
      ((b.toNat < 65 ∨ 90 < b.toNat) ∧ lowerByte b = b) := by
  have hA : 'A'.toUInt8.toNat = 65 := rfl
  have hZ : 'Z'.toUInt8.toNat = 90 := rfl
  simp only [lowerByte, isUpper, Bool.and_eq_true, decide_eq_true_eq, UInt8.le_iff_toNat_le, hA, hZ]
  split
  · next h =>
    refine .inl ⟨h.1, h.2, ?_⟩
    rw [UInt8.toNat_add, show (32 : UInt8).toNat = 32 from rfl]
    omega
  · exact .inr ⟨by omega, rfl⟩

theorem lowerByte_lowerByte (b : UInt8) : lowerByte (lowerByte b) = lowerByte b := by
  rcases lowerByte_toNat b with ⟨hlo, hhi, hb⟩ | ⟨-, hb⟩
  · rcases lowerByte_toNat (lowerByte b) with ⟨hlo', hhi', -⟩ | ⟨-, hb'⟩
    · omega
    · exact hb'
  · rw [hb, hb]

theorem lowerByte_lt {b : UInt8} : lowerByte b < 0x80 ↔ b < 0x80 := by
  rcases lowerByte_toNat b with ⟨hlo, hhi, hb⟩ | ⟨-, hb⟩
  · simp only [UInt8.lt_iff_toNat_lt, hb, UInt8.reduceToNat]
    omega
  · rw [hb]

theorem lowerByte_eq_dot {b : UInt8} : lowerByte b = dot ↔ b = dot := by
  rcases lowerByte_toNat b with ⟨hlo, hhi, hb⟩ | ⟨-, hb⟩
  · have hdot : dot.toNat = 46 := rfl
    rw [← UInt8.toNat_inj, ← UInt8.toNat_inj, hb, hdot]
    omega
  · rw [hb]

theorem foldCase_foldCase (s : GoString) : foldCase (foldCase s) = foldCase s := by
  simp only [foldCase, List.map_map, Function.comp_def, lowerByte_lowerByte]

theorem isAscii_foldCase : IsAscii (foldCase s) ↔ IsAscii s := by
  simp only [IsAscii, foldCase, List.forall_mem_map, lowerByte_lt]

/-- `unicode.ToLower`, exactly on ASCII and on the two other runes whose lower case is ASCII (U+0130
and the Kelvin sign U+212A). The remaining runes above 0x7F are kept: their lower case is above 0x7F
as well, so a name that has one is refused, differs from every ASCII name it is compared with, or is
compared under case folding. -/
def lowerRune (r : Nat) : Nat :=
  if 'A'.toNat ≤ r && r ≤ 'Z'.toNat then r + 32
  else if r = 0x130 then 'i'.toNat
  else if r = 0x212A then 'k'.toNat
  else r

/-- `strings.ToLower`. -/
def toLower (s : GoString) : GoString :=
  if IsAscii s then s.map lowerByte else (runes s).flatMap fun r => encodeRune (lowerRune r)

/-- Lower-case ASCII strings are fixed by `toLower`. -/
theorem toLower_eq_self (h : ∀ b ∈ s, b < 0x80 ∧ isUpper b = false) :
    toLower s = s := by
  have ha : IsAscii s := fun b hb => (h b hb).1
  rw [toLower, if_pos ha]
  conv_rhs => rw [← List.map_id s]
  exact List.map_congr_left fun b hb => by simp [lowerByte, (h b hb).2]

/-- A dot is no part of a rune that starts before it. -/
theorem decodeRune_concat_dot (b : UInt8) (s : GoString) :
    (decodeRune b (s ++ [dot])).2 ≤ s.length := by
  have hsecond : acceptsSecond b dot = false := by
    unfold acceptsSecond
    split_ifs <;> rfl
  have hcont : isCont dot = false := rfl
  unfold decodeRune
  split
  · exact Nat.zero_le _
  · match s with
    | [] => simp [hsecond]
    | [c] =>
      simp only [List.cons_append, List.nil_append, hcont, Bool.and_false]
      split <;> simp
    | [c, d] =>
      simp only [List.cons_append, List.nil_append, hcont, Bool.and_false]
      split
      · simp
      · split <;> simp
    | c :: d :: e :: s =>
      simp only [List.cons_append]
      split
      · simp
      · split
        · simp
        · split <;> simp

/-- A final dot is a rune of its own. -/
theorem runes_concat_dot (s : GoString) : ∃ rs, runes (s ++ [dot]) = rs ++ [dot.toNat] := by
  have key : ∀ (s : GoString) (n : Nat), n ≤ s.length →
      ∃ segs, segmentsFrom n (s ++ [dot]) = segs ++ [(dot.toNat, [dot])] := by
    intro s
    induction s with
    | nil =>
      intro n hn
      obtain rfl : n = 0 := by simpa using hn
      exact ⟨[], rfl⟩
    | cons b s ih =>
      intro n hn
      cases n with
      | zero =>
        obtain ⟨segs, hsegs⟩ := ih _ (decodeRune_concat_dot b s)
        exact ⟨_ :: segs, by rw [List.cons_append, segmentsFrom, hsegs]; rfl⟩
      | succ n =>
        obtain ⟨segs, hsegs⟩ := ih n (by simpa using hn)
        exact ⟨segs, by rw [List.cons_append, segmentsFrom, hsegs]⟩
  obtain ⟨segs, hsegs⟩ := key s 0 (Nat.zero_le _)
  exact ⟨segs.map Prod.fst, by rw [runes, segments, hsegs, List.map_append]; rfl⟩

/-- The lower case of a fully qualified name is fully qualified. -/
theorem exists_toLower_concat_dot (s : GoString) : ∃ t, toLower (s ++ [dot]) = t ++ [dot] := by
  unfold toLower
  split
  · exact ⟨s.map lowerByte, by rw [List.map_append]; rfl⟩
  · obtain ⟨rs, hrs⟩ := runes_concat_dot s
    exact ⟨rs.flatMap fun r => encodeRune (lowerRune r), by
      rw [hrs, List.flatMap_append]; rfl⟩

/-! ## Trimming -/

/-- `strings.TrimSuffix`. -/
def trimSuffix (s suffix : GoString) : GoString :=
  if suffix <:+ s then s.take (s.length - suffix.length) else s

@[simp] theorem trimSuffix_append (s suffix : GoString) : trimSuffix (s ++ suffix) suffix = s := by
  simp [trimSuffix]

theorem trimSuffix_of_not_suffix {s suffix : GoString} (h : ¬ suffix <:+ s) :
    trimSuffix s suffix = s := if_neg h

/-- Lower case keeps a final dot, and makes none. -/
theorem foldCase_trimSuffix (s : GoString) :
    foldCase (trimSuffix s [dot]) = trimSuffix (foldCase s) [dot] := by
  rcases List.eq_nil_or_concat s with rfl | ⟨t, b, rfl⟩
  · rfl
  rw [foldCase, foldCase, List.concat_eq_append, List.map_append, List.map_singleton]
  rcases eq_or_ne b dot with rfl | hb
  · rw [show lowerByte dot = dot from rfl, trimSuffix_append, trimSuffix_append]
  · have hlast : ∀ {u : GoString} {x : UInt8}, x ≠ dot → ¬ [dot] <:+ u ++ [x] := by
      rintro u x hx ⟨v, heq⟩
      exact hx (List.append_singleton_inj.1 heq).2.symm
    rw [trimSuffix_of_not_suffix (hlast hb),
      trimSuffix_of_not_suffix (hlast fun h => hb (lowerByte_eq_dot.1 h)), List.map_append,
      List.map_singleton]

/-- On ASCII strings lower case and trimming commute. -/
theorem toLower_trimSuffix (h : IsAscii s) :
    toLower (trimSuffix s [dot]) = trimSuffix (foldCase s) [dot] := by
  have htrim : IsAscii (trimSuffix s [dot]) := by
    unfold trimSuffix
    split
    · exact fun b hb => h b (List.mem_of_mem_take hb)
    · exact h
  rw [toLower, if_pos htrim]
  exact foldCase_trimSuffix s

/-- `strings.TrimPrefix`. -/
def trimPrefix (s pre : GoString) : GoString := if pre <+: s then s.drop pre.length else s

/-- `unicode.IsSpace`. -/
def isSpace (r : Nat) : Bool :=
  (9 ≤ r && r ≤ 13) || r = 32 || r = 0x85 || r = 0xA0 || r = 0x1680 || (0x2000 ≤ r && r ≤ 0x200A) ||
    r = 0x2028 || r = 0x2029 || r = 0x202F || r = 0x205F || r = 0x3000

/-- `strings.TrimSpace`. -/
def trimSpace (s : GoString) : GoString :=
  ((((segments s).dropWhile fun seg => isSpace seg.1).reverse.dropWhile
    fun seg => isSpace seg.1).reverse).flatMap Prod.snd

/-- A loop that drops a prefix of hits drops nothing when there are none. -/
theorem dropWhile_eq_self {α : Type} {p : α → Bool} {l : List α} (h : ∀ a ∈ l, p a = false) :
    l.dropWhile p = l := by
  cases l with
  | nil => rfl
  | cons a l => rw [List.dropWhile_cons_of_neg (by simp [h a])]

/-- An ASCII string without white space is fixed by `trimSpace`. -/
theorem trimSpace_eq_self (ha : IsAscii s)
    (h : ∀ b ∈ s, isSpace b.toNat = false) : trimSpace s = s := by
  have hseg : ∀ seg ∈ s.map fun b : UInt8 => (b.toNat, [b]), isSpace seg.1 = false := by
    intro seg hseg
    obtain ⟨b, hb, rfl⟩ := List.mem_map.1 hseg
    exact h b hb
  rw [trimSpace, segments_of_ascii ha, dropWhile_eq_self hseg, dropWhile_eq_self
    (fun seg hs => hseg seg (List.mem_reverse.1 hs)), List.reverse_reverse, List.flatMap_map]
  induction s with
  | nil => rfl
  | cons b s ih =>
    rw [List.flatMap_cons, ih (isAscii_cons.1 ha).2 (fun c hc => h c (.tail _ hc))
      (fun seg hs => hseg seg (.tail _ hs))]
    rfl

/-! ## Splitting -/

/-- The pieces of a split have no separator. -/
theorem not_mem_of_mem_splitOn {sep : UInt8} {s l : GoString} (h : l ∈ s.splitOn sep) :
    sep ∉ l := by
  induction s generalizing l with
  | nil => simp only [List.splitOn_nil, List.mem_singleton] at h; subst h; simp
  | cons b s ih =>
    rw [List.splitOn_cons_eq_if_modifyHead] at h
    split at h
    · rcases List.mem_cons.1 h with rfl | h
      · simp
      · exact ih h
    · next hb =>
      cases hs : s.splitOn sep with
      | nil => exact absurd hs (List.splitOn_ne_nil _ _)
      | cons x xs =>
        rw [hs, List.modifyHead_cons] at h
        rcases List.mem_cons.1 h with rfl | h
        · rw [List.mem_cons, not_or]
          exact ⟨fun hd => hb (by simp [hd]), ih (by rw [hs]; exact .head _)⟩
        · exact ih (by rw [hs]; exact .tail _ h)

/-! ## Numbers -/

def isDigit (b : UInt8) : Bool := '0'.toUInt8 ≤ b && b ≤ '9'.toUInt8

/-- `strconv.ParseUint(s, 10, 8)`. -/
def parseUint8 (s : GoString) : Option Nat :=
  if s ≠ [] && s.all isDigit then
    let n := s.foldl (fun n b => n * 10 + (b.toNat - '0'.toNat)) 0
    if n < 256 then some n else none
  else none

/-- `strconv.FormatUint(n, 10)`, for numbers of at most three digits. -/
def formatUint8 (n : Nat) : GoString :=
  let digit (d : Nat) : UInt8 := UInt8.ofNat ('0'.toNat + d)
  if n < 10 then [digit n]
  else if n < 100 then [digit (n / 10), digit (n % 10)]
  else [digit (n / 100), digit (n / 10 % 10), digit (n % 10)]

/-- A number is read back from its text. -/
theorem parseUint8_formatUint8 : ∀ n < 256, parseUint8 (formatUint8 n) = some n := by
  decide +kernel

end InfraBox
