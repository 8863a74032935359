import InfraBox.Acme.Server

/-!
# The ACME server: executing a run

A step of the process is determined by what happens and by what the surroundings answer, so a run
can be computed from a script (`Process.exec`). A script is refused when it goes back in time, draws
an identifier again or writes what cannot be encoded; what is computed from the others is a run
(`Process.exec_run`).
-/

namespace InfraBox.Acme

/-- What happens in a step; `result n` is the return of the `n`-th validation in flight. -/
inductive Event (crypto : Crypto) where
  | call (op : Op crypto)
  | result (n : Nat) (returned : Option Target)
  | crash
  | start (modTime : Int)

section
variable (cfg : Config) {crypto : Crypto} (codec : Codec crypto)

/-- The step an event causes, if the process can take it; it ends at the time `now`. -/
def Process.next (env : Env) (now : Int) (p : Process crypto) :
    Event crypto → Option (Label crypto × Process crypto)
  | .call op =>
    match p.server with
    | none => none
    | some srv =>
      let action := op.action cfg codec srv env
      let r := srv.perform p.disk env.outcome action
      if action.allows env.outcome then
        some (.call op env r.1, ⟨r.2.2, some r.2.1, now, env.ids ++ p.ids⟩)
      else none
  | .result n returned =>
    match p.server with
    | none => none
    | some srv =>
      match srv.validations.drop n with
      | [] => none
      | t :: later =>
        let srv : Server crypto := ⟨srv.state, srv.activity, srv.validations.take n ++ later⟩
        let action := challengeResult cfg srv env t returned
        let r := srv.perform p.disk env.outcome action
        if action.allows env.outcome then
          some (.result t returned env r.1, ⟨r.2.2, some r.2.1, now, env.ids ++ p.ids⟩)
        else none
  | .crash => some (.crash, { p with server := none })
  | .start modTime =>
    match p.server with
    | some _ => none
    | none =>
      let r := newServer cfg crypto env modTime p.disk
      some (.start env modTime, ⟨r.2, r.1, now, env.ids ++ p.ids⟩)

end

/-- The surroundings of a scripted step. The clock reads `first` before the point `turn` of the
handler and `last` from there on. -/
structure Scene where
  first : Int
  last : Int
  turn : Nat := 0
  ordered : 0 < first ∧ first ≤ last := by decide
  lookup : Nat → GoString → Option Target := fun _ _ => none
  random : List GoString := []
  signCSR : GoString → List GoString → Except SignError GoString := fun _ _ => .error .failed
  createCRL : List RevocationEntry → Int → Option GoString := fun _ _ => none
  outcome : Outcome := .committed
  busy : Nat := 0

/-- A clock that changes once. -/
def Scene.clock (s : Scene) : Clock where
  read p _ := if p < s.turn then s.first else s.last
  pos p _ := by
    have := s.ordered
    split <;> omega
  mono p i p' i' h := by
    have := s.ordered
    split <;> split <;> omega

def Scene.env (s : Scene) : Env where
  clock := s.clock
  lookup := s.lookup
  random := s.random
  signCSR := s.signCSR
  createCRL := s.createCRL
  outcome := s.outcome
  busy := s.busy

theorem Scene.within (s : Scene) {lo : Int} (h : lo ≤ s.first) : s.env.Within lo s.last := by
  intro p i
  have := s.ordered
  simp only [Scene.env, Scene.clock]
  split <;> omega

instance (env : Env) (ids : List GoString) : Decidable (env.Fresh ids) :=
  decidable_of_iff ((∀ data ∈ env.random, data.length = 24) ∧ env.ids.Nodup ∧
    ∀ id ∈ env.ids, id ∉ ids) ⟨fun ⟨h, h', h''⟩ => ⟨h, h', h''⟩, fun h => ⟨h.1, h.2, h.3⟩⟩

section
variable (cfg : Config) {crypto : Crypto} (codec : Codec crypto)

/-- The run of a script. -/
def Process.exec : List (Event crypto × Scene) → Process crypto →
    Option (Trace (Process crypto) (Label crypto) × Process crypto)
  | [], p => some ([], p)
  | (e, s) :: rest, p =>
    if p.clock ≤ s.first ∧ s.env.Fresh p.ids then
      match p.next cfg codec s.env s.last e with
      | none => none
      | some (l, p') => (p'.exec rest).map fun r => (⟨p, l, p'⟩ :: r.1, r.2)
    else none

variable {cfg} {codec} {p p' : Process crypto} {l : Label crypto}

/-- What is computed is a step, and its handler has the surroundings it was computed with. -/
theorem Process.next_step {env : Env} {now : Int} {e : Event crypto}
    (h : p.next cfg codec env now e = some (l, p')) (hw : env.Within p.clock now)
    (hf : env.Fresh p.ids) :
    Step cfg codec p l p' ∧ ∀ env', l.env = some env' → env' = env := by
  obtain ⟨disk, server, clock, ids⟩ := p
  cases e with
  | call op =>
    cases server with
    | none => cases h
    | some srv =>
      simp only [Process.next] at h
      split at h
      · next hallows =>
        cases h
        exact ⟨.call hw hf hallows rfl, fun _ henv => (Option.some.inj henv).symm⟩
      · cases h
  | result n returned =>
    cases server with
    | none => cases h
    | some srv =>
      obtain ⟨st, activity, validations⟩ := srv
      simp only [Process.next] at h
      split at h
      · cases h
      next t later hdrop =>
      split at h
      case isFalse => cases h
      next hallows =>
      cases h
      have hsplit : validations = validations.take n ++ t :: later := by
        rw [← hdrop, List.take_append_drop]
      generalize validations.take n = earlier at hsplit hallows
      subst hsplit
      exact ⟨.result hw hf hallows rfl, fun _ henv => (Option.some.inj henv).symm⟩
  | crash =>
    cases h
    exact ⟨.crash, fun _ henv => (by cases henv)⟩
  | start modTime =>
    cases server with
    | some srv => cases h
    | none =>
      cases h
      exact ⟨.start hw hf rfl, fun _ henv => (Option.some.inj henv).symm⟩

/-- What is computed from a script is a run, whose handlers have surroundings of the script. -/
theorem Process.exec_run {script : List (Event crypto × Scene)}
    {tr : Trace (Process crypto) (Label crypto)}
    (h : p.exec cfg codec script = some (tr, p')) :
    Run (Step cfg codec) p tr p' ∧
      ∀ t ∈ tr, ∀ env, t.label.env = some env → ∃ e ∈ script, env = e.2.env := by
  induction script generalizing p tr with
  | nil =>
    cases h
    exact ⟨.nil _, fun _ ht => (by cases ht)⟩
  | cons e rest ih =>
    obtain ⟨e, s⟩ := e
    simp only [Process.exec] at h
    split at h
    · next hok =>
      split at h
      · cases h
      next l p₁ hnext =>
      obtain ⟨⟨tr', p₂⟩, hrest, heq⟩ := Option.map_eq_some_iff.1 h
      cases heq
      obtain ⟨hstep, hfirst⟩ := Process.next_step hnext (s.within hok.1) hok.2
      obtain ⟨hrun, hlater⟩ := ih hrest
      refine ⟨.cons hstep hrun, fun t ht env henv => ?_⟩
      rcases List.mem_cons.1 ht with rfl | ht
      · exact ⟨(e, s), .head _, hfirst env henv⟩
      · obtain ⟨e', he', heq⟩ := hlater t ht env henv
        exact ⟨e', .tail _ he', heq⟩
    · cases h

end

/-! ## A deployment to run -/

/-- A key is its own thumbprint, a certificate is its serial number and the days until it expires,
and a revocation list is its number, the days until the next one and the serial numbers of
certificates that were revoked in the first second. -/
def sampleCrypto : Crypto where
  thumbprint key := if key = [] then none else some key
  thumbprint_zero := rfl
  isPublic key := key ≠ []
  pemDecode pem := some (str "CERTIFICATE", pem)
  parseCertificate der :=
    match der with
    | [serial, days] => some {
        raw := der
        serialNumber := serial.toNat
        notAfter := days.toNat * (24 * hour)
        isCA := false
        dnsNames := [str "a.lan"]
        otherNames := 0
        publicKey := [serial] }
    | _ => none
  leafSigned _ := true
  parseRevocationList der :=
    match der with
    | number :: days :: serials => some {
        number := some number.toNat
        nextUpdate := days.toNat * (24 * hour)
        entries := serials.map fun serial => ⟨serial.toNat, 0, 1⟩ }
    | _ => none
  listSigned _ := true

/-- Every payload is an order of one name, an acknowledgement, a request for a certificate or the
revocation of the certificate `[7, 1]`, as the handler takes it. -/
def sampleCodec : Codec sampleCrypto where
  accountInput _ := some default
  orderInput _ := some ⟨[⟨str "dns", str "a.lan"⟩], [], []⟩
  keyChangeInput _ := none
  revocationInput _ := some ⟨base64Encode [7, 1], 1⟩
  statusMember _ := some (str "deactivated")
  csrMember _ := some [1]
  members _ := some 0
  text _ := none
  texts _ := none
  parseURL _ := none
  pathUnescape _ := none
  mailName _ := none
  base64Decode text := if text = [1] then some [1] else some [7, 1]
  verifyKeyChange _ _ := .error (failure 400 "malformed" "invalid key change")

def sampleConfig : Config := ⟨str "https://ca.lan", str "lan", str "root"⟩

/-- The `n`-th random value of the sample runs, and the identifier made of it. -/
def sampleRandom (n : UInt8) : GoString := List.replicate 24 n

def sampleID (n : UInt8) : GoString := base64Encode (sampleRandom n)

def sampleTarget : Target := ⟨.v4 0x0a000005, [1]⟩

/-- A request signed with the key `[9]`. -/
def sampleRequest (keyID : GoString) : Request sampleCrypto := ⟨[1], [9], keyID, [9], rfl⟩

/-- A request of the first account. -/
def sampleSigned : Request sampleCrypto := sampleRequest (sampleConfig.accountURL (sampleID 1))

/-- A start, an account, and an order of the account. -/
def sampleOrder : List (Event sampleCrypto × Scene) :=
  [(.start 5, { first := 10, last := 10 }),
    (.call (.newAccount (sampleRequest []) [1]),
      { first := 20, last := 20, random := [sampleRandom 1] }),
    (.call (.newOrder sampleSigned (sampleID 1) [1]), {
      first := 30
      last := 30
      lookup := fun _ _ => some sampleTarget
      random := [sampleRandom 2, sampleRandom 3, sampleRandom 4] })]

/-- The lookups and the certificate of a finalization of the sample order. -/
def sampleFinalize : Scene where
  first := 50
  last := 50
  lookup := fun _ _ => some sampleTarget
  signCSR := fun _ _ => .ok [7, 1]
  random := [sampleRandom 5]

/-- The challenge of the order and its certificate. -/
def sampleIssue : List (Event sampleCrypto × Scene) :=
  [(.call (.challenge sampleSigned (sampleID 1) (sampleID 3)), { first := 40, last := 40 }),
    (.result 0 (some sampleTarget), { first := 45, last := 45 }),
    (.call (.finalize sampleSigned (sampleID 1) (sampleID 2)), sampleFinalize)]

/-- The transitions and the end of a run of the sample deployment. -/
def sampleTrace (script : List (Event sampleCrypto × Scene)) :
    Trace (Process sampleCrypto) (Label sampleCrypto) :=
  (((Process.initial 1).exec sampleConfig sampleCodec script).map Prod.fst).getD []

def sampleEnd (script : List (Event sampleCrypto × Scene)) : Process sampleCrypto :=
  (((Process.initial 1).exec sampleConfig sampleCodec script).map Prod.snd).getD (.initial 1)

theorem sampleTrace_run {script : List (Event sampleCrypto × Scene)}
    (h : ((Process.initial 1).exec sampleConfig sampleCodec script).isSome) :
    Run (Step sampleConfig sampleCodec) (.initial 1) (sampleTrace script) (sampleEnd script) := by
  obtain ⟨⟨tr, p⟩, heq⟩ := Option.isSome_iff_exists.1 h
  rw [sampleTrace, sampleEnd, heq]
  exact (Process.exec_run heq).1

theorem sampleTrace_env {script : List (Event sampleCrypto × Scene)} :
    ∀ t ∈ sampleTrace script, ∀ env, t.label.env = some env → ∃ e ∈ script, env = e.2.env := by
  rw [sampleTrace]
  cases heq : (Process.initial 1).exec sampleConfig sampleCodec script with
  | none => exact fun _ ht => (by cases ht)
  | some r => exact (Process.exec_run heq).2

end InfraBox.Acme
