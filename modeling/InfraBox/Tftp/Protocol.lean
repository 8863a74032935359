import InfraBox.Lib.Decimal
import InfraBox.Lib.FilePath
import InfraBox.Lib.Time

/-!
# TFTP packets

The packets of `internal/tftpserver/protocol.go`. A `ReadRequest` is what an accepted request asks
for; its block size lies between the bounds a `blksize` option is checked against, which is what
makes the block loop of a transfer come to an end. The block size is that of the request's `blksize`
option, which the server may only lower, or the default (`parseRequest_negotiated`).
-/

namespace InfraBox.Tftp

def opRead : UInt16 := 1
def opWrite : UInt16 := 2
def opData : UInt16 := 3
def opAck : UInt16 := 4
def opError : UInt16 := 5
def opOptionAck : UInt16 := 6
def maxRequestSize : Nat := 512
def defaultBlockSize : Nat := 512
def maxBlockSize : Nat := 1468
def defaultTimeout : Int := 3 * second
def maxAttempts : Nat := 5

/-- `binary.BigEndian.PutUint16`. -/
def putUint16 (n : UInt16) : GoString := [(n >>> 8).toUInt8, n.toUInt8]

/-- `binary.BigEndian.Uint16`; callers check that there are two bytes. -/
def uint16 : GoString → UInt16
  | a :: b :: _ => a.toUInt16 <<< 8 ||| b.toUInt16
  | _ => 0

/-- `readRequest`: the file, and the options the server accepted, in the order of the request. -/
structure ReadRequest where
  filename : GoString
  blockSize : Nat
  timeout : Int
  options : List (GoString × GoString)
  le_blockSize : 8 ≤ blockSize
  blockSize_le : blockSize ≤ maxBlockSize

/-- `readRequest.optionAck`; `none` when no option was accepted. -/
def ReadRequest.optionAck (r : ReadRequest) (size : Nat) : Option GoString :=
  if r.options = [] then none
  else some (putUint16 opOptionAck ++ r.options.flatMap fun (key, value) =>
    key ++ [0] ++ (if key = str "tsize" then formatNat size else value) ++ [0])

/-- `errorPacket`. -/
def errorPacket (code : UInt16) (message : GoString) : GoString :=
  putUint16 opError ++ putUint16 code ++ message ++ [0]

/-- A DATA packet of `transfer`. -/
def dataPacket (block : UInt16) (data : GoString) : GoString :=
  putUint16 opData ++ putUint16 block ++ data

/-! ## The packets on the wire -/

/-- A block number on the wire, which wraps around. -/
def numberBytes (k : Nat) : GoString := [UInt8.ofNat (k / 256), UInt8.ofNat k]

/-- The option acknowledgement on the wire, unless no option was accepted: operation 6, and each
name and value with a zero byte after it. The value of `tsize` is the size of the file. -/
def optionBytes (options : List (GoString × GoString)) (size : Nat) : Option GoString :=
  if options = [] then none
  else some ([0, 6] ++ options.flatMap fun (name, value) =>
    name ++ [0] ++ (if name = str "tsize" then formatNat size else value) ++ [0])

theorem ReadRequest.optionAck_eq (r : ReadRequest) (size : Nat) :
    r.optionAck size = optionBytes r.options size := rfl

/-- A block number in two bytes. -/
theorem putUint16_ofNat (k : Nat) : putUint16 (UInt16.ofNat k) = numberBytes k := by
  have hhigh : (UInt16.ofNat k >>> 8).toUInt8 = UInt8.ofNat (k / 256) := by
    apply UInt8.toNat_inj.1
    simp [UInt16.toNat_shiftRight, Nat.shiftRight_eq_div_pow]
    omega
  have hlow : (UInt16.ofNat k).toUInt8 = UInt8.ofNat k := by
    apply UInt8.toNat_inj.1
    simp
  rw [putUint16, hhigh, hlow]
  rfl

theorem dataPacket_eq (k : Nat) (data : GoString) :
    dataPacket (UInt16.ofNat k) data = [0, 3] ++ numberBytes k ++ data := by
  rw [dataPacket, putUint16_ofNat]
  rfl

/-- Two bytes as a number. -/
theorem toNat_uint16 (a b : UInt8) (s : GoString) :
    (uint16 (a :: b :: s)).toNat = a.toNat * 256 + b.toNat := by
  have ha : a.toNat < 256 := a.toNat_lt
  have hb : b.toNat < 2 ^ 8 := b.toNat_lt
  have hshift : (a.toNat <<< 8) % 65536 = a.toNat <<< 8 := by
    rw [Nat.shiftLeft_eq]
    omega
  simp only [uint16, UInt16.toNat_or, UInt16.toNat_shiftLeft, UInt8.toNat_toUInt16]
  rw [show (8 : UInt16).toNat % 16 = 8 from rfl, hshift, ← Nat.shiftLeft_add_eq_or_of_lt hb,
    Nat.shiftLeft_eq]

/-- The four bytes that the checks of `exchange` take for an acknowledgement. -/
theorem eq_ack {data : GoString} {k : Nat} (hlen : data.length = 4) (hop : uint16 data = opAck)
    (hblock : uint16 (data.drop 2) = UInt16.ofNat k) : data = [0, 4] ++ numberBytes k := by
  obtain ⟨a, b, c, d, rfl⟩ : ∃ a b c d, data = [a, b, c, d] := List.length_eq_four.1 hlen
  have hop := congrArg UInt16.toNat hop
  have hblock := congrArg UInt16.toNat hblock
  rw [toNat_uint16] at hop
  rw [List.drop_succ_cons, List.drop_succ_cons, List.drop_zero, toNat_uint16,
    UInt16.toNat_ofNat'] at hblock
  have hb := b.toNat_lt
  have hd := d.toNat_lt
  have hc := c.toNat_lt
  have ha : a = 0 := UInt8.toNat_inj.1 (by simp [opAck] at hop ⊢; omega)
  have hb : b = 4 := UInt8.toNat_inj.1 (by simp [opAck] at hop ⊢; omega)
  have hc : c = UInt8.ofNat (k / 256) := UInt8.toNat_inj.1 (by simp; omega)
  have hd : d = UInt8.ofNat k := UInt8.toNat_inj.1 (by simp; omega)
  rw [ha, hb, hc, hd]
  rfl

/-! ## Requests -/

/-- The functions that see the case of text in any script: `strings.ToLower` and
`strings.EqualFold`. -/
structure Folding where
  toLower : GoString → GoString
  equalFold : GoString → GoString → Bool

/-- `protocolError`. -/
structure ProtocolError where
  code : UInt16
  message : GoString
deriving DecidableEq

/-- The `switch` of `parseRequest` for one option. Unrecognized options are left out. -/
def parseOption (key value : GoString) (r : ReadRequest) : Except ProtocolError ReadRequest :=
  if key = str "blksize" then
    match parseUint 16 value with
    | none => .error ⟨8, str "invalid blksize"⟩
    | some n =>
      if h : n < 8 ∨ n > 65464 then .error ⟨8, str "invalid blksize"⟩
      else .ok { r with
        blockSize := min n maxBlockSize
        options := r.options ++ [(key, formatNat (min n maxBlockSize))]
        le_blockSize := Nat.le_min.2 ⟨Nat.le_of_not_lt fun hlt => h (.inl hlt), by decide⟩
        blockSize_le := Nat.min_le_right _ _ }
  else if key = str "timeout" then
    match parseUint 8 value with
    | none => .error ⟨8, str "invalid timeout"⟩
    | some n =>
      if n = 0 then .error ⟨8, str "invalid timeout"⟩
      else .ok { r with timeout := n * second, options := r.options ++ [(key, value)] }
  else if key = str "tsize" then
    match parseUint 64 value with
    | none => .error ⟨8, str "read tsize must be zero"⟩
    | some n =>
      if n ≠ 0 then .error ⟨8, str "read tsize must be zero"⟩
      else .ok { r with options := r.options ++ [(key, str "0")] }
  else .ok r

/-- The option loop of `parseRequest`. -/
def parseOptions (fold : Folding) :
    List GoString → (seen : List GoString) → ReadRequest → Except ProtocolError ReadRequest
  | key :: value :: fields, seen, r =>
    let key := fold.toLower key
    if key = [] ∨ value = [] ∨ key ∈ seen then .error ⟨8, str "invalid or duplicate option"⟩
    else
      match parseOption key value r with
      | .error err => .error err
      | .ok r => parseOptions fold fields (key :: seen) r
  | _, _, r => .ok r

/-- The fields of a request, between the operation and the last byte. -/
def requestFields (packet : GoString) : List GoString :=
  (packet.take (packet.length - 1)).drop 2 |>.splitOn 0

/-- The request before its options are read. -/
def defaultRequest (filename : GoString) : ReadRequest where
  filename := filename
  blockSize := defaultBlockSize
  timeout := defaultTimeout
  options := []
  le_blockSize := by decide
  blockSize_le := by decide

/-- `parseRequest`. -/
def parseRequest (fold : Folding) (packet : GoString) : Except ProtocolError ReadRequest :=
  if packet.length < 4 ∨ packet.length > maxRequestSize ∨ packet.getLast? ≠ some 0 then
    .error ⟨4, str "malformed request"⟩
  else if uint16 packet ≠ opRead then .error ⟨4, str "expected read request"⟩
  else
    match requestFields packet with
    | filename :: mode :: options =>
      if options.length % 2 ≠ 0 then .error ⟨4, str "malformed request fields"⟩
      else if !validPath filename || filename = [dot] || backslash ∈ filename then
        .error ⟨2, str "filename must be a valid relative path"⟩
      else if !fold.equalFold mode (str "octet") then
        .error ⟨4, str "only octet mode is supported"⟩
      else parseOptions fold options [] (defaultRequest filename)
    | _ => .error ⟨4, str "malformed request fields"⟩

/-! ## The block size of a request -/

/-- The names and values of options. -/
def optionPairs : List GoString → List (GoString × GoString)
  | key :: value :: fields => (key, value) :: optionPairs fields
  | _ => []

/-- No option of the list is a `blksize`. -/
def NoBlksize (fold : Folding) (pairs : List (GoString × GoString)) : Prop :=
  ∀ p ∈ pairs, fold.toLower p.1 ≠ str "blksize"

/-- Some option of the list is a `blksize` of `n`. -/
def HasBlksize (fold : Folding) (pairs : List (GoString × GoString)) (n : Nat) : Prop :=
  ∃ p ∈ pairs, fold.toLower p.1 = str "blksize" ∧ parseUint 16 p.2 = some n

section
variable {fold : Folding} {key value : GoString} {fields seen : List GoString} {r r' : ReadRequest}

/-- A `blksize` option sets the block size and is acknowledged with it. -/
theorem parseOption_blksize (h : parseOption (str "blksize") value r = .ok r') :
    ∃ n, parseUint 16 value = some n ∧ r'.blockSize = min n maxBlockSize ∧
      r'.options = r.options ++ [(str "blksize", formatNat r'.blockSize)] := by
  rw [parseOption, if_pos rfl] at h
  split at h
  · cases h
  · rename_i n hn
    split at h
    · cases h
    · cases h
      exact ⟨n, hn, rfl, rfl⟩

/-- Another option leaves the block size. -/
theorem parseOption_other (hkey : key ≠ str "blksize") (h : parseOption key value r = .ok r') :
    r'.blockSize = r.blockSize ∧
      ∀ v, (str "blksize", v) ∈ r'.options ↔ (str "blksize", v) ∈ r.options := by
  rw [parseOption, if_neg hkey] at h
  split_ifs at h
  · split at h
    · cases h
    · split at h
      · cases h
      · cases h
        exact ⟨rfl, by simp [hkey.symm]⟩
  · split at h
    · cases h
    · split at h
      · cases h
      · cases h
        exact ⟨rfl, by simp [hkey.symm]⟩
  · cases h
    exact ⟨rfl, fun v => Iff.rfl⟩

/-- One round of the option loop. -/
theorem parseOptions_cons (h : parseOptions fold (key :: value :: fields) seen r = .ok r') :
    fold.toLower key ∉ seen ∧ ∃ r₁, parseOption (fold.toLower key) value r = .ok r₁ ∧
      parseOptions fold fields (fold.toLower key :: seen) r₁ = .ok r' := by
  rw [parseOptions] at h
  split at h
  · cases h
  · rename_i hbad
    split at h
    · cases h
    · rename_i r₁ hoption
      exact ⟨fun hseen => hbad (.inr (.inr hseen)), r₁, hoption, h⟩

/-- An option that was seen does not come again. -/
theorem parseOptions_seen (h : parseOptions fold fields seen r = .ok r') (hkey : key ∈ seen) :
    ∀ p ∈ optionPairs fields, fold.toLower p.1 ≠ key := by
  induction fields using optionPairs.induct generalizing seen r with
  | case1 key' value fields ih =>
    obtain ⟨hnew, r₁, -, hrest⟩ := parseOptions_cons h
    intro p hp
    rcases List.mem_cons.1 hp with rfl | hp
    · rintro rfl
      exact hnew hkey
    · exact ih hrest (.tail _ hkey) p hp
  | case2 fields hfields =>
    intro p hp
    rw [optionPairs.eq_2 _ hfields] at hp
    cases hp

/-- The block size after the loop, and what is acknowledged of it. -/
theorem parseOptions_blksize (h : parseOptions fold fields seen r = .ok r') :
    (NoBlksize fold (optionPairs fields) ∧ r'.blockSize = r.blockSize ∧
      ∀ v, (str "blksize", v) ∈ r'.options ↔ (str "blksize", v) ∈ r.options) ∨
    ∃ n, HasBlksize fold (optionPairs fields) n ∧ r'.blockSize = min n maxBlockSize ∧
      ∀ v, (str "blksize", v) ∈ r'.options ↔
        (str "blksize", v) ∈ r.options ∨ v = formatNat r'.blockSize := by
  induction fields using optionPairs.induct generalizing seen r with
  | case1 key value fields ih =>
    obtain ⟨-, r₁, hoption, hrest⟩ := parseOptions_cons h
    rw [optionPairs]
    by_cases hkey : fold.toLower key = str "blksize"
    · -- the option is seen, so the rest of the loop leaves the block size
      rw [hkey] at hoption hrest
      obtain ⟨n, hn, hsize, hoptions⟩ := parseOption_blksize hoption
      rcases ih hrest with ⟨-, hsize', hoptions'⟩ | ⟨_, ⟨p, hp, hkey', -⟩, -⟩
      · refine .inr ⟨n, ⟨_, .head _, hkey, hn⟩, hsize'.trans hsize, fun v => ?_⟩
        rw [hoptions', hoptions, List.mem_append, List.mem_singleton, hsize']
        simp
      · exact absurd hkey' (parseOptions_seen hrest (.head _) p hp)
    · obtain ⟨hsize, hoptions⟩ := parseOption_other hkey hoption
      rcases ih hrest with ⟨hno, hsize', hoptions'⟩ | ⟨n, ⟨p, hp, hhas⟩, hsize', hoptions'⟩
      · refine .inl ⟨?_, hsize'.trans hsize, fun v => (hoptions' v).trans (hoptions v)⟩
        intro p hp
        rcases List.mem_cons.1 hp with rfl | hp
        · exact hkey
        · exact hno p hp
      · exact .inr ⟨n, ⟨p, .tail _ hp, hhas⟩, hsize', fun v => by rw [hoptions', hoptions]⟩
  | case2 fields hfields =>
    have hnil : optionPairs fields = [] := optionPairs.eq_2 _ hfields
    rw [parseOptions.eq_2 _ _ _ _ hfields] at h
    cases h
    rw [hnil]
    exact .inl ⟨List.forall_mem_nil _, rfl, fun v => Iff.rfl⟩

end

/-- The block size of a request: that of its `blksize` option, lowered to the largest one the server
sends and acknowledged as it is used, or the default. -/
def Negotiated (fold : Folding) (packet : GoString) (r : ReadRequest) : Prop :=
  let pairs := optionPairs ((requestFields packet).drop 2)
  (∃ n, HasBlksize fold pairs n ∧ r.blockSize = min n maxBlockSize ∧
    ∀ v, (str "blksize", v) ∈ r.options ↔ v = formatNat r.blockSize) ∨
  (NoBlksize fold pairs ∧ r.blockSize = defaultBlockSize ∧ ∀ v, (str "blksize", v) ∉ r.options)

/-- The options of a request that is accepted. -/
theorem parseRequest_negotiated {fold : Folding} {packet : GoString} {r : ReadRequest}
    (h : parseRequest fold packet = .ok r) : Negotiated fold packet r := by
  unfold parseRequest at h
  split_ifs at h
  split at h
  · rename_i filename mode options hfields
    split_ifs at h
    have hpairs : (requestFields packet).drop 2 = options := by rw [hfields]; rfl
    unfold Negotiated
    rw [hpairs]
    rcases parseOptions_blksize h with ⟨hno, hsize, hoptions⟩ | ⟨n, hhas, hsize, hoptions⟩
    · exact .inr ⟨hno, hsize, fun v => by rw [hoptions]; simp [defaultRequest]⟩
    · exact .inl ⟨n, hhas, hsize, fun v => by rw [hoptions]; simp [defaultRequest]⟩
  · cases h

/-! Samples: a request without options, and functions that see the case of ASCII text. -/

def sampleFolding : Folding := ⟨toLower, fun a b => toLower a = toLower b⟩

def sampleRRQ : GoString := putUint16 opRead ++ str "a" ++ [0] ++ str "octet" ++ [0]

end InfraBox.Tftp
