import InfraBox.Lib.Bytes

/-!
# Record marking

`readRecord` and `writeRecord` of `internal/nfsserver/protocol.go`. A record comes in fragments,
each behind a marker with its size and a bit that is set on the last one. One step of the reader
takes one fragment, whatever follows it (`readFragments_fragment`); from it come the round trip over
every fragmentation and the two limits.
-/

namespace InfraBox.Nfs

def maxRecord : Nat := 2 <<< 20

/-- What a call of `readRecord` leaves: what it returned, the size of its buffer at that time, and
what the stream still delivers. -/
structure RecordRead where
  value : Except ReadError GoString
  buffered : Nat
  rest : Stream

/-- The loop of `readRecord`, when `left` more fragments may come. -/
def readFragments : (left : Nat) → (result : GoString) → Stream → RecordRead
  | 0, result, s => ⟨.error (.other (str "too many NFS record fragments")), result.length, s⟩
  | left + 1, result, s =>
    match s.readFull 4 with
    | (.error err, s) => ⟨.error err, result.length, s⟩
    | (.ok marker, s) =>
      let value := uint32 marker
      let size := (value &&& 0x7fffffff).toNat
      if (size : Int) > maxRecord - result.length then
        ⟨.error (.other (str "NFS record exceeds 2 MiB")), result.length, s⟩
      else
        -- the buffer grows before the fragment is read into it
        match s.readFull size with
        | (.error err, s) => ⟨.error err, result.length + size, s⟩
        | (.ok data, s) =>
          if value &&& 0x80000000 ≠ 0 then ⟨.ok (result ++ data), result.length + size, s⟩
          else readFragments left (result ++ data) s

def readRecord (s : Stream) : RecordRead := readFragments 64 [] s

/-- What `writeRecord` writes. -/
def writeRecord (data : GoString) : GoString :=
  putUint32 (UInt32.ofNat data.length ||| 0x80000000) ++ data

/-! ## Fragments -/

/-- The marker of a fragment. -/
def marker (last : Bool) (size : Nat) : UInt32 :=
  UInt32.ofNat size ||| if last then 0x80000000 else 0

/-- A fragment of a record. -/
def fragment (last : Bool) (data : GoString) : GoString :=
  putUint32 (marker last data.length) ++ data

/-- A record in the given fragments. -/
def framed : List GoString → GoString
  | [] => []
  | [data] => fragment true data
  | data :: fragments => fragment false data ++ framed fragments

/-- Several reads of a stream, one after the other. -/
def readRecords : Nat → Stream → Except ReadError (List GoString) × Stream
  | 0, s => (.ok [], s)
  | n + 1, s =>
    match readRecord s with
    | ⟨.error err, _, s⟩ => (.error err, s)
    | ⟨.ok record, _, s⟩ =>
      match readRecords n s with
      | (.error err, s) => (.error err, s)
      | (.ok records, s) => (.ok (record :: records), s)

theorem writeRecord_eq (data : GoString) : writeRecord data = framed [data] := by
  simp [writeRecord, framed, fragment, marker]

/-- A marker as a number. -/
theorem marker_toNat (last : Bool) {size : Nat} (h : size < 2 ^ 31) :
    (marker last size).toNat = size + if last then 2 ^ 31 else 0 := by
  have hsize : (UInt32.ofNat size).toNat = size :=
    UInt32.toNat_ofNat_of_lt' (Nat.lt_trans h (by decide))
  cases last with
  | false => simp [marker, hsize]
  | true =>
    have hor := Nat.two_pow_add_eq_or_of_lt h 1
    simp only [marker, if_true, UInt32.toNat_or, hsize]
    rw [Nat.or_comm, Nat.add_comm]
    simpa using hor.symm

theorem toNat_and_size (value : UInt32) : (value &&& 0x7fffffff).toNat = value.toNat % 2 ^ 31 := by
  rw [UInt32.toNat_and]
  exact Nat.and_two_pow_sub_one_eq_mod _ 31

theorem and_last_ne_zero (value : UInt32) : value &&& 0x80000000 ≠ 0 ↔ 2 ^ 31 ≤ value.toNat := by
  rw [ne_eq, ← UInt32.toNat_inj, UInt32.toNat_and]
  exact and_top_bit_ne_zero value.toNat_lt

theorem marker_size (last : Bool) {size : Nat} (h : size < 2 ^ 31) :
    (marker last size &&& 0x7fffffff).toNat = size := by
  rw [toNat_and_size, marker_toNat last h]
  split_ifs <;> omega

theorem marker_last (last : Bool) {size : Nat} (h : size < 2 ^ 31) :
    marker last size &&& 0x80000000 ≠ 0 ↔ last = true := by
  rw [and_last_ne_zero, marker_toNat last h]
  cases last with
  | false => simpa using h
  | true => simp

/-! ## One fragment -/

section
variable {left : Nat} {result data : GoString} {last : Bool} {rest : Stream}
  {fragments : List GoString}

/-- A marker that announces too much ends the loop before anything of the fragment is read. -/
theorem readFragments_large {size : Nat} (hsize : size < 2 ^ 31)
    (h : maxRecord < result.length + size) :
    readFragments (left + 1) result (rest.prepend (putUint32 (marker last size))) =
      ⟨.error (.other (str "NFS record exceeds 2 MiB")), result.length, rest⟩ := by
  have hexceeds : (size : Int) > maxRecord - result.length := by omega
  rw [readFragments, readFull_prepend (length_putUint32 _)]
  simp only [uint32_putUint32, marker_size last hsize, if_pos hexceeds]

/-- A fragment that fits is taken from the stream, and the last one ends the loop. -/
theorem readFragments_fragment (h : result.length + data.length ≤ maxRecord) :
    readFragments (left + 1) result (rest.prepend (fragment last data)) =
      if last then ⟨.ok (result ++ data), result.length + data.length, rest⟩
      else readFragments left (result ++ data) rest := by
  have hsize : data.length < 2 ^ 31 := by
    have : maxRecord < 2 ^ 31 := by decide
    omega
  have hfits : ¬ (data.length : Int) > maxRecord - result.length := by omega
  rw [fragment, prepend_append, readFragments, readFull_prepend (length_putUint32 _)]
  simp only [uint32_putUint32, marker_size last hsize, if_neg hfits, readFull_prepend rfl,
    marker_last last hsize]

/-! ## Whole records -/

/-- From any point of the loop, a record in fragments that fit is read to its end. -/
theorem readFragments_framed (hne : fragments ≠ []) (hleft : fragments.length ≤ left)
    (hfits : result.length + fragments.flatten.length ≤ maxRecord) :
    readFragments left result (rest.prepend (framed fragments)) =
      ⟨.ok (result ++ fragments.flatten), result.length + fragments.flatten.length, rest⟩ := by
  induction fragments using framed.induct generalizing left result with
  | case1 => exact absurd rfl hne
  | case2 data =>
    obtain ⟨left, rfl⟩ : ∃ n, left = n + 1 := ⟨left - 1, by simp at hleft; omega⟩
    rw [framed, readFragments_fragment (by simpa using hfits)]
    simp
  | case3 data fragments hrest ih =>
    obtain ⟨left, rfl⟩ : ∃ n, left = n + 1 := ⟨left - 1, by simp at hleft; omega⟩
    simp only [List.flatten_cons, List.length_append] at hfits
    have hframed : framed (data :: fragments) = fragment false data ++ framed fragments := by
      rw [framed]; exact hrest
    rw [hframed, prepend_append, readFragments_fragment (by omega)]
    rw [if_neg Bool.false_ne_true, ih hrest (by simpa using hleft)]
    · simp [Nat.add_assoc]
    · rw [List.length_append]; omega

/-- The buffer never grows over the limit, whatever the stream delivers. -/
theorem readFragments_buffered {s : Stream} (h : result.length ≤ maxRecord) :
    (readFragments left result s).buffered ≤ maxRecord := by
  induction left generalizing result s with
  | zero => exact h
  | succ left ih =>
    rw [readFragments]
    split
    · exact h
    · dsimp only
      split
      · exact h
      · split
        · dsimp only; omega
        · rename_i hdata
          have hlen := (readFull_ok hdata).2
          split
          · dsimp only; omega
          · refine ih ?_
            rw [List.length_append, hlen]; omega

/-- `readRecord` returned an error. -/
def RecordRead.Failed (r : RecordRead) : Prop := ∃ err, r.value = .error err

/-- A fragment that is not the last one is taken from the stream, or the read fails. -/
theorem readFragments_failed_or (hsize : data.length < 2 ^ 31) :
    (readFragments (left + 1) result (rest.prepend (fragment false data))).Failed ∨
      readFragments (left + 1) result (rest.prepend (fragment false data)) =
        readFragments left (result ++ data) rest := by
  by_cases hfits : result.length + data.length ≤ maxRecord
  · exact .inr (readFragments_fragment hfits)
  · rw [fragment, prepend_append, readFragments_large hsize (by omega)]
    exact .inl ⟨_, rfl⟩

/-- The fragments of a stream that goes on without a last one, as far as they can be announced. -/
def unfinished (fragments : List GoString) : GoString := fragments.flatMap (fragment false)

/-- Such fragments are refused on the way, or they are all taken. -/
theorem readFragments_unfinished (hsize : ∀ data ∈ fragments, data.length < 2 ^ 31) :
    (readFragments left result (rest.prepend (unfinished fragments))).Failed ∨
      (fragments.length ≤ left ∧
        readFragments left result (rest.prepend (unfinished fragments)) =
          readFragments (left - fragments.length) (result ++ fragments.flatten) rest) := by
  induction fragments generalizing left result with
  | nil => exact .inr ⟨Nat.zero_le _, by simp [unfinished]⟩
  | cons data fragments ih =>
    cases left with
    | zero => exact .inl ⟨_, rfl⟩
    | succ left =>
      rw [unfinished, List.flatMap_cons, prepend_append]
      rcases readFragments_failed_or (hsize _ (.head _)) with hfailed | heq
      · exact .inl hfailed
      rw [heq]
      rcases ih (fun d hd => hsize d (.tail _ hd)) with hfailed | ⟨hleft, htaken⟩
      · exact .inl hfailed
      · refine .inr ⟨Nat.succ_le_succ hleft, htaken.trans ?_⟩
        rw [List.length_cons, Nat.add_sub_add_right, List.flatten_cons, List.append_assoc]

theorem readFragments_many (hsize : ∀ data ∈ fragments, data.length < 2 ^ 31)
    (hleft : left ≤ fragments.length) :
    (readFragments left result (rest.prepend (unfinished fragments))).Failed := by
  rcases readFragments_unfinished hsize with hfailed | ⟨-, htaken⟩
  · exact hfailed
  · rw [htaken, Nat.sub_eq_zero_of_le hleft]
    exact ⟨_, rfl⟩

/-- Too much data is refused. -/
theorem readFragments_oversized {size : Nat} (hsize : ∀ data ∈ fragments, data.length < 2 ^ 31)
    (hnext : size < 2 ^ 31) (h : maxRecord < result.length + fragments.flatten.length + size) :
    (readFragments left result
      ((rest.prepend (putUint32 (marker last size))).prepend (unfinished fragments))).Failed := by
  rcases readFragments_unfinished hsize with hfailed | ⟨-, htaken⟩
  · exact hfailed
  rw [htaken]
  cases left - fragments.length with
  | zero => exact ⟨_, rfl⟩
  | succ left =>
    rw [readFragments_large hnext (by rw [List.length_append]; exact h)]
    exact ⟨_, rfl⟩

/-- A record is read back from its fragments. -/
theorem readRecord_framed (hne : 1 ≤ fragments.length) (hcount : fragments.length ≤ 64)
    (hsize : fragments.flatten.length ≤ maxRecord) :
    readRecord (rest.prepend (framed fragments)) =
      ⟨.ok fragments.flatten, fragments.flatten.length, rest⟩ := by
  have hne : fragments ≠ [] := List.ne_nil_of_length_pos hne
  rw [readRecord, readFragments_framed hne hcount (by simpa using hsize)]
  simp

/-- Records are read back in order. -/
theorem readRecords_written {records : List GoString}
    (h : ∀ data ∈ records, data.length ≤ maxRecord) :
    readRecords records.length (rest.prepend (records.flatMap writeRecord)) =
      (.ok records, rest) := by
  induction records with
  | nil => rfl
  | cons data records ih =>
    have hfits : [data].flatten.length ≤ maxRecord := by simpa using h data (.head _)
    rw [List.length_cons, readRecords, List.flatMap_cons, prepend_append, writeRecord_eq,
      readRecord_framed (by simp) (by simp) hfits]
    simp [ih fun d hd => h d (.tail _ hd)]

end

/-- Record marking: a record of at most 2 MiB is read back from every way to cut it into at most 64
fragments, whatever follows, and records written one after the other are read back in order. A
stream with 64 fragments before the last one, or with more than 2 MiB, is refused, and the buffer
never holds more than 2 MiB. -/
theorem record_marking :
    (∀ (fragments : List GoString) (rest : Stream), 1 ≤ fragments.length → fragments.length ≤ 64 →
      fragments.flatten.length ≤ maxRecord →
      ∃ n, readRecord (rest.prepend (framed fragments)) = ⟨.ok fragments.flatten, n, rest⟩) ∧
    (∀ (records : List GoString) (rest : Stream), (∀ data ∈ records, data.length ≤ maxRecord) →
      readRecords records.length (rest.prepend (records.flatMap writeRecord)) =
        (.ok records, rest)) ∧
    (∀ (fragments : List GoString) (rest : Stream), (∀ data ∈ fragments, data.length < 2 ^ 31) →
      64 ≤ fragments.length → (readRecord (rest.prepend (unfinished fragments))).Failed) ∧
    (∀ (fragments : List GoString) (last : Bool) (size : Nat) (rest : Stream),
      (∀ data ∈ fragments, data.length < 2 ^ 31) → size < 2 ^ 31 →
      maxRecord < fragments.flatten.length + size →
      (readRecord ((rest.prepend (putUint32 (marker last size))).prepend
        (unfinished fragments))).Failed) ∧
    ∀ s : Stream, (readRecord s).buffered ≤ maxRecord := by
  refine ⟨?_, ?_, ?_, ?_, ?_⟩
  · intro fragments rest hne hcount hsize
    exact ⟨_, readRecord_framed hne hcount hsize⟩
  · intro records rest h
    exact readRecords_written h
  · intro fragments rest hsize hcount
    exact readFragments_many hsize hcount
  · intro fragments last size rest hsize hnext htotal
    exact readFragments_oversized hsize hnext (by simpa using htotal)
  · intro s
    exact readFragments_buffered (Nat.zero_le _)

/-- Three fragments, two records, and two streams that are refused. -/
theorem record_marking_sample :
    (∃ n, readRecord ⟨framed [[1], [], [2, 3]] ++ [9], .eof⟩ = ⟨.ok [1, 2, 3], n, ⟨[9], .eof⟩⟩) ∧
    readRecords 2 ⟨[[1, 2], []].flatMap writeRecord ++ [9], .eof⟩ =
      (.ok [[1, 2], []], ⟨[9], .eof⟩) ∧
    (readRecord ⟨unfinished (List.replicate 64 []) ++ [9], .eof⟩).Failed ∧
    (readRecord ⟨unfinished [[1]] ++ (putUint32 (marker true maxRecord) ++ [9]), .eof⟩).Failed := by
  refine ⟨?_, ?_, ?_, ?_⟩
  · exact record_marking.1 [[1], [], [2, 3]] ⟨[9], .eof⟩ (by decide) (by decide) (by decide)
  · exact record_marking.2.1 [[1, 2], []] ⟨[9], .eof⟩ (by decide)
  · exact record_marking.2.2.1 (List.replicate 64 []) ⟨[9], .eof⟩ (by simp) (by simp)
  · exact record_marking.2.2.2.1 [[1]] true maxRecord ⟨[9], .eof⟩ (by decide) (by decide)
      (by decide)

end InfraBox.Nfs
