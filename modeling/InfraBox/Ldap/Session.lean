import InfraBox.Lib.Run
import InfraBox.Ldap.Search

/-!
# Authorization of searches

Along every sequence of messages on a connection, the directory is searched only while the last bind
request was answered with success for an enabled account that may search (`Server.handle_next` is
what one message does to the authorization). Without such a bind the output does not depend on the
users and groups. Both are `session_authorization`.
-/

namespace InfraBox.Ldap

/-! ## Binds -/

/-- The accounts of a directory are the credentials of the configured users. -/
theorem joinGroups_parsedDN {user : LDAPUser} : ∀ {gids : List Int} {e e' : Entry}
    {groups groups' : FinMap Int Entry}, joinGroups user gids (e, groups) = some (e', groups') →
      e'.parsedDN = e.parsedDN
  | [], _, _, _, _, h => by cases h; rfl
  | gid :: rest, e, e', groups, groups', h => by
    simp only [joinGroups, Option.bind_eq_bind, Option.bind_eq_some_iff] at h
    obtain ⟨group, -, h⟩ := h
    exact (joinGroups_parsedDN h).trans rfl

/-- Each user has an account. -/
theorem joinUsers_accounts {lib : DnLib} {baseDN : GoString} : ∀ {users : List LDAPUser}
    {groups groups' : FinMap Int Entry} {joined : List (Entry × Account)},
    joinUsers lib baseDN users groups = some (joined, groups') →
      joined.map Prod.snd =
        users.map fun user => credentials user (userEntry lib baseDN user).parsedDN
  | [], _, _, _, h => by cases h; rfl
  | user :: rest, groups, groups', joined, h => by
    simp only [joinUsers, Option.bind_eq_bind, Option.bind_eq_some_iff] at h
    obtain ⟨⟨e, groups₁⟩, hjoin, ⟨users, groups₂⟩, hrest, heq⟩ := h
    cases heq
    rw [List.map_cons, List.map_cons, joinUsers_accounts hrest, joinGroups_parsedDN hjoin]

/-- The accounts of a new server. -/
theorem Server.new_users {lib : DnLib} {hashes : Hashes} {cfg : LDAPConfig} {s : Server}
    (h : Server.new lib hashes cfg = some s) : s.lib = lib ∧ s.hashes = hashes ∧
      s.directory.baseDN = cfg.baseDN ∧ s.directory.users =
        cfg.users.map fun user => credentials user (userEntry lib cfg.baseDN user).parsedDN := by
  simp only [Server.new, Option.map_eq_some_iff] at h
  obtain ⟨directory, hdir, rfl⟩ := h
  simp only [buildDirectory, Option.bind_eq_bind, Option.bind_eq_some_iff] at hdir
  obtain ⟨base, -, ⟨users, groups⟩, hjoin, entries, -, heq⟩ := hdir
  cases heq
  exact ⟨rfl, rfl, rfl, joinUsers_accounts hjoin⟩

/-- The bind names the user and has its password. -/
def Authenticates (lib : DnLib) (hashes : Hashes) (baseDN : GoString) (op : Packet)
    (user : LDAPUser) : Prop :=
  ∃ version name auth dn, op.children = [version, name, auth] ∧ lib.parse name.data = some dn ∧
    lib.equalFold (userEntry lib baseDN user).parsedDN dn = true ∧
    (credentials user (userEntry lib baseDN user).parsedDN).valid hashes auth.data = true

/-- A bind is refused searching, or it is decided by the password of an account. -/
theorem Server.bind_cases (s : Server) (env : Env) (op : Packet) : (s.bind env op).2 = false ∨
    ∃ version name auth dn, op.children = [version, name, auth] ∧
      s.lib.parse name.data = some dn ∧ s.bind env op = s.authenticate dn auth.data := by
  unfold Server.bind
  split
  next version name auth hchildren =>
    repeat' split
    all_goals first
      | exact .inl rfl
      | skip
    next hdn _ _ => exact .inr ⟨version, name, auth, _, hchildren, hdn, rfl⟩
  · exact .inl rfl

/-- A password that allows searching is that of an enabled account that may search. -/
theorem Server.authenticate_allowed {s : Server} {dn : DN} {password : GoString}
    (h : (s.authenticate dn password).2 = true) : (s.authenticate dn password).1 = .success ∧
      ∃ user ∈ s.directory.users, user.disabled = false ∧ user.canSearch = true ∧
        s.lib.equalFold user.dn dn = true ∧ user.valid s.hashes password = true := by
  unfold Server.authenticate at h ⊢
  split at h
  next user hfind =>
    split at h
    next hvalid =>
      have hmatch := List.find?_some hfind
      simp only [Bool.and_eq_true, Bool.not_eq_true'] at hmatch
      simp only [hvalid, if_true, true_and]
      exact ⟨user, List.mem_of_find?_eq_some hfind, hmatch.2, h, hmatch.1, hvalid⟩
    · cases h
  · cases h

/-- A bind that allows searching has succeeded for a user that may search. -/
theorem Server.bind_allowed {lib : DnLib} {hashes : Hashes} {cfg : LDAPConfig} {s : Server}
    (hs : Server.new lib hashes cfg = some s) (env : Env) (op : Packet)
    (h : (s.bind env op).2 = true) : (s.bind env op).1 = .success ∧
      ∃ user ∈ cfg.users, user.disabled = false ∧ user.canSearch = true ∧
        Authenticates lib hashes cfg.baseDN op user := by
  obtain ⟨rfl, rfl, -, husers⟩ := Server.new_users hs
  rcases s.bind_cases env op with hfalse | ⟨version, name, auth, dn, hchildren, hdn, heq⟩
  · rw [hfalse] at h
    cases h
  · rw [heq] at h ⊢
    obtain ⟨hcode, account, hmem, hdisabled, hcan, hfold, hvalid⟩ := authenticate_allowed h
    rw [husers] at hmem
    obtain ⟨user, huser, rfl⟩ := List.mem_map.1 hmem
    exact ⟨hcode, user, huser, hdisabled, hcan, version, name, auth, dn, hchildren, hdn, hfold,
      hvalid⟩

/-! ## One message -/

/-- The message is a bind request, well formed or not. -/
def Input.Binds (input : Input) (op : Packet) : Prop :=
  (∃ id, requestEnvelope input.packet = some (id, op)) ∧ op.tag = bindRequest

/-- The result of a bind request, and whether it allows searching. -/
def Server.bindResult (s : Server) (session : Session) (input : Input) :
    Option (ResultCode × Bool) :=
  if input.env.cancelled then none
  else match requestEnvelope input.packet with
    | none => none
    | some (_, op) =>
      if op.tag ≠ bindRequest then none
      else if validateControls input.packet ≠ .success then
        some (validateControls input.packet, false)
      else if maxBindAttempts < session.attempts + 1 then some (.adminLimitExceeded, false)
      else some (s.bind input.env op)

theorem writeResult_eq_true {env : Env} {n : Nat} {id : Int} {tag : Nat} {code : ResultCode}
    {text : String} {output : List Packet}
    (h : writeResult env n id tag code text = (output, true)) :
    output = [message id (resultOp tag code (str text))] := by
  unfold writeResult at h
  split at h
  · exact (Prod.mk.inj h).1.symm
  · cases h

theorem Session.after_eq_some {session session' : Session} {reply : Reply} {output : List Packet}
    (h : session.after reply = (output, some session')) :
    session' = session ∧ reply = (output, true) := by
  obtain ⟨sent, ok⟩ := reply
  cases ok <;> simp_all [Session.after]

/-- What a message that leaves the connection open does to the authorization: a bind request sets it
to what its result allows, and any other message leaves it. -/
theorem Server.handle_next {s : Server} {session session' : Session} {input : Input}
    {output : List Packet} (h : s.handle session input = (output, some session')) :
    (session'.canSearch = session.canSearch ∧ ∀ op, ¬ input.Binds op) ∨
    ∃ id op code text, requestEnvelope input.packet = some (id, op) ∧ op.tag = bindRequest ∧
      s.bindResult session input = some (code, session'.canSearch) ∧
      output = [message id (resultOp bindResponse code (str text))] ∧
      (session'.canSearch = true → s.bind input.env op = (code, true) ∧ text = "") := by
  unfold Server.handle at h
  simp only at h
  split at h
  · cases h
  next hcancel =>
  split at h
  · cases h
  next id op henv =>
  by_cases hbind : op.tag = bindRequest
  swap
  · -- no other message touches the authorization
    have hnot : ∀ op', ¬ input.Binds op' := by
      rintro op' ⟨⟨id', henv'⟩, htag⟩
      rw [henv] at henv'
      cases henv'
      exact hbind htag
    refine .inl ⟨?_, hnot⟩
    simp only [if_neg hbind] at h
    split at h
    · cases h
    split at h
    · cases h
      rfl
    split at h
    · cases h
    split at h
    · rw [(Session.after_eq_some h).1]
    split at h
    · rw [(Session.after_eq_some h).1]
    · rw [(Session.after_eq_some h).1]
  · have hresponse : responseType op.tag = some bindResponse := by rw [hbind]; rfl
    have hunbind : op.tag ≠ unbindRequest := by rw [hbind]; decide
    have habandon : op.tag ≠ abandonRequest := by rw [hbind]; decide
    simp only [if_neg hunbind, if_neg habandon, hresponse, if_pos hbind] at h
    refine .inr ⟨id, op, ?_⟩
    have hresult : s.bindResult session input =
        if validateControls input.packet ≠ .success then
          some (validateControls input.packet, false)
        else if maxBindAttempts < session.attempts + 1 then some (.adminLimitExceeded, false)
        else some (s.bind input.env op) := by
      simp only [Server.bindResult, henv, if_neg hcancel, hbind, ne_eq, not_true_eq_false, if_false]
    rw [hresult]
    split at h
    next hcontrols =>
      obtain ⟨rfl, hwrite⟩ := Session.after_eq_some h
      exact ⟨_, "unsupported or malformed controls", henv, hbind, if_pos hcontrols,
        writeResult_eq_true hwrite, fun h => by cases h⟩
    next hcontrols =>
    split at h
    · cases h
    next hlimit =>
    obtain ⟨rfl, hwrite⟩ := Session.after_eq_some h
    refine ⟨(s.bind input.env op).1, "", henv, hbind, ?_, writeResult_eq_true hwrite,
      fun hallowed => ⟨Prod.ext rfl hallowed, rfl⟩⟩
    rw [if_neg hcontrols, if_neg hlimit]

/-! ## Runs -/

/-- A message of a connection and what the server wrote for it. -/
structure Label where
  input : Input
  output : List Packet

/-- One message on a connection that is open; a closed connection takes no steps. -/
inductive Step (s : Server) : Option Session → Label → Option Session → Prop
  | message (session : Session) (input : Input) :
      Step s (some session) ⟨input, (s.handle session input).1⟩ (s.handle session input).2

/-- The step carries out a search of the directory, one that is not for the root DSE. -/
def Searches (lib : DnLib) (t : Transition (Option Session) Label) : Prop :=
  ∃ session id op args, t.pre = some session ∧ t.label.input.env.cancelled = false ∧
    requestEnvelope t.label.input.packet = some (id, op) ∧ op.tag = searchRequest ∧
    validateControls t.label.input.packet = .success ∧
    checkSearch lib session.canSearch op = .ok args ∧ args.root = false

/-- The last bind request of the steps was answered with success, for an enabled user that may
search. -/
def Authorized (lib : DnLib) (hashes : Hashes) (cfg : LDAPConfig)
    (tr : Trace (Option Session) Label) : Prop :=
  ∃ before b after id op, tr = before ++ b :: after ∧
    requestEnvelope b.label.input.packet = some (id, op) ∧ op.tag = bindRequest ∧
    b.label.output = [message id (resultOp bindResponse .success [])] ∧
    (∀ t ∈ after, ∀ op, ¬ t.label.input.Binds op) ∧
    ∃ user ∈ cfg.users, user.disabled = false ∧ user.canSearch = true ∧
      Authenticates lib hashes cfg.baseDN op user

/-- A connection that may search has been authorized. -/
theorem authorized_of_run {lib : DnLib} {hashes : Hashes} {cfg : LDAPConfig} {s : Server}
    (hs : Server.new lib hashes cfg = some s) {tr : Trace (Option Session) Label}
    {session : Session} (hrun : Run (Step s) (some .start) tr (some session))
    (hcan : session.canSearch = true) : Authorized lib hashes cfg tr := by
  refine hrun.induction (P := fun tr conn => ∀ session, conn = some session →
    session.canSearch = true → Authorized lib hashes cfg tr) ?_ ?_ session rfl hcan
  · intro session heq hcan
    cases heq
    cases hcan
  · intro tr conn label conn' _ ih hstep session' heq hcan
    cases hstep with
    | message session input =>
      have hhandle : s.handle session input = ((s.handle session input).1, some session') :=
        Prod.ext rfl heq
      rcases Server.handle_next hhandle with
        ⟨hkeep, hnot⟩ | ⟨id, op, code, text, henv, htag, -, hout, hbind⟩
      · obtain ⟨before, b, after, id, op, rfl, henv, htag, hout, hafter, huser⟩ :=
          ih session rfl (hkeep ▸ hcan)
        refine ⟨before, b, after ++ [_], id, op, List.append_assoc .., henv, htag, hout, ?_, huser⟩
        intro t ht
        rcases List.mem_append.1 ht with ht | ht
        · exact hafter t ht
        · rw [List.mem_singleton.1 ht]
          exact hnot
      · obtain ⟨hresult, rfl⟩ := hbind hcan
        obtain ⟨hcode, huser⟩ := Server.bind_allowed hs input.env op (congrArg Prod.snd hresult)
        rw [hresult] at hcode
        obtain rfl : code = .success := hcode
        exact ⟨tr, _, [], id, op, rfl, henv, htag, hout, by simp, huser⟩

/-! ## Two directories -/

/-- The results of the bind requests of a connection. -/
def Server.bindResults (s : Server) : Session → List Input → List (ResultCode × Bool)
  | _, [] => []
  | session, input :: rest =>
    (s.bindResult session input).toList ++
      match (s.handle session input).2 with
      | none => []
      | some session => s.bindResults session rest

section
variable {s₁ s₂ : Server}

/-- Without authorization, a search depends on the base name only. -/
theorem Server.search_unauthorized (hlib : s₁.lib = s₂.lib)
    (hbase : s₁.directory.baseDN = s₂.directory.baseDN) (env : Env) (id : Int) (op : Packet) :
    s₁.search env id op false = s₂.search env id op false := by
  unfold Server.search
  rw [hlib]
  split
  · rfl
  next args hargs =>
    have hroot := (checkSearch_root hargs).resolve_right Bool.false_ne_true
    simp only [Server.searched, hroot, if_true, hlib, hbase]

/-- Without authorization, the reply to a message depends on the result of the bind, if it is one,
and on the base name. -/
theorem Server.handle_unauthorized (hlib : s₁.lib = s₂.lib)
    (hbase : s₁.directory.baseDN = s₂.directory.baseDN) {session : Session}
    (hcan : session.canSearch = false) {input : Input}
    (hbind : s₁.bindResult session input = s₂.bindResult session input) :
    s₁.handle session input = s₂.handle session input := by
  unfold Server.handle
  simp only
  split
  · rfl
  next hcancel =>
  split
  · rfl
  next id op henv =>
  by_cases htag : op.tag = bindRequest
  · simp only [Server.bindResult, henv, if_neg hcancel, htag, ne_eq, not_true_eq_false, if_false]
      at hbind
    split
    · rfl
    split
    · rfl
    split
    · rfl
    split
    · rfl
    next hcontrols =>
    split
    · rfl
    next hlimit =>
    rw [if_neg hcontrols, if_neg hlimit, if_neg hcontrols, if_neg hlimit, Option.some.injEq]
      at hbind
    rw [hbind]
  · simp only [if_neg htag, hcan, search_unauthorized hlib hbase]

/-- Whether a message has a bind result does not depend on the directory. -/
theorem Server.isSome_bindResult (session : Session) (input : Input) :
    (s₁.bindResult session input).isSome = (s₂.bindResult session input).isSome := by
  unfold Server.bindResult
  split
  · rfl
  split
  · rfl
  split
  · rfl
  split
  · rfl
  split
  · rfl
  · rfl

/-- Two servers with the same base name write the same on a connection, if its binds have the same
results and allow no searches. -/
theorem Server.serve_unauthorized (hlib : s₁.lib = s₂.lib)
    (hbase : s₁.directory.baseDN = s₂.directory.baseDN) : ∀ {inputs : List Input}
    {session : Session}, session.canSearch = false →
      (s₁.bindResults session inputs).map Prod.fst = (s₂.bindResults session inputs).map Prod.fst →
      (∀ r ∈ s₁.bindResults session inputs, r.2 = false) →
      (∀ r ∈ s₂.bindResults session inputs, r.2 = false) →
      s₁.serve session inputs = s₂.serve session inputs
  | [], _, _, _, _, _ => rfl
  | input :: rest, session, hcan, hcodes, hnone₁, hnone₂ => by
    rw [Server.bindResults] at hnone₁ hnone₂
    rw [Server.bindResults, Server.bindResults] at hcodes
    have hsome : (s₁.bindResult session input).isSome = (s₂.bindResult session input).isSome :=
      Server.isSome_bindResult session input
    have hresult : s₁.bindResult session input = s₂.bindResult session input := by
      cases h₁ : s₁.bindResult session input with
      | none =>
        rw [h₁] at hsome
        exact (Option.isSome_eq_false_iff.1 hsome.symm |> Option.isNone_iff_eq_none.1).symm
      | some r₁ =>
        rw [h₁] at hsome hcodes hnone₁
        obtain ⟨r₂, h₂⟩ := Option.isSome_iff_exists.1 hsome.symm
        rw [h₂] at hcodes hnone₂ ⊢
        refine congrArg some (Prod.ext (List.cons.inj hcodes).1 ?_)
        exact (hnone₁ r₁ (.head _)).trans (hnone₂ r₂ (.head _)).symm
    have hhandle := handle_unauthorized hlib hbase hcan hresult
    rw [Server.serve, Server.serve, hhandle]
    rw [hhandle, hresult, List.map_append, List.map_append] at hcodes
    rw [hhandle] at hnone₁
    have hrest := List.append_cancel_left hcodes
    cases hnext : s₂.handle session input with
    | mk output next =>
      rw [hnext] at hrest hnone₁ hnone₂
      cases next with
      | none => rfl
      | some session' =>
        have hcan' : session'.canSearch = false := by
          rcases Server.handle_next hnext with ⟨hkeep, -⟩ | ⟨_, _, code, _, -, -, hbind, -⟩
          · rw [hkeep, hcan]
          · exact hnone₂ _ (List.mem_append_left _ (by rw [hbind]; exact .head _))
        exact congrArg (output :: ·) (serve_unauthorized hlib hbase hcan' hrest
          (fun r hr => hnone₁ r (List.mem_append_right _ hr))
          fun r hr => hnone₂ r (List.mem_append_right _ hr))

end

/-- For every connection, a search of the directory is carried out only if the last bind request on
it was answered with success for an enabled user that may search. And for two configurations with
the same base name, a connection whose binds have the same results in both and allow searching in
neither has the same output. -/
theorem session_authorization (lib : DnLib) (hashes : Hashes) :
    (∀ cfg s tr conn, Server.new lib hashes cfg = some s → Run (Step s) (some .start) tr conn →
      ∀ before t after, tr = before ++ t :: after → Searches lib t →
        Authorized lib hashes cfg before) ∧
    (∀ cfg₁ cfg₂ s₁ s₂ inputs, Server.new lib hashes cfg₁ = some s₁ →
      Server.new lib hashes cfg₂ = some s₂ → cfg₁.baseDN = cfg₂.baseDN →
      (s₁.bindResults .start inputs).map Prod.fst = (s₂.bindResults .start inputs).map Prod.fst →
      (∀ r ∈ s₁.bindResults .start inputs, r.2 = false) →
      (∀ r ∈ s₂.bindResults .start inputs, r.2 = false) →
      s₁.serve .start inputs = s₂.serve .start inputs) := by
  constructor
  · rintro cfg s tr conn hs hrun before t after rfl
      ⟨session, id, op, args, hpre, -, -, -, -, hargs, hroot⟩
    obtain ⟨hbefore, -, -⟩ := hrun.mid_inv
    rw [hpre] at hbefore
    refine authorized_of_run hs hbefore ((checkSearch_root hargs).resolve_left ?_)
    rw [hroot]
    exact Bool.false_ne_true
  · intro cfg₁ cfg₂ s₁ s₂ inputs hs₁ hs₂ hbase hcodes hnone₁ hnone₂
    obtain ⟨hlib₁, -, hbase₁, -⟩ := Server.new_users hs₁
    obtain ⟨hlib₂, -, hbase₂, -⟩ := Server.new_users hs₂
    exact Server.serve_unauthorized (hlib₁.trans hlib₂.symm)
      (hbase₁.trans (hbase.trans hbase₂.symm)) rfl hcodes hnone₁ hnone₂

/-! ## A sample connection -/

/-- A bind request. -/
def sampleBind (name password : GoString) : Input where
  packet := message 1 (constructed .application bindRequest
    [integerPacket tagInteger 3, textPacket name, .mk .context .primitive 0 .other password []])
  env := sampleEnv

/-- A search of the whole directory. -/
def sampleSearch : Input where
  packet := message 2 (constructed .application searchRequest
    [textPacket (str "dc=lan"), integerPacket tagEnumerated 2, integerPacket tagEnumerated 0,
      integerPacket tagInteger 0, integerPacket tagInteger 0,
      .mk .universal .primitive tagBoolean (.bool false) [] [],
      .mk .context .primitive filterPresent .other (str "objectClass") [],
      constructed .universal tagSequence []])
  env := sampleEnv

/-- A bind with the right password authorizes the search after it; without it, the search says the
same of an empty directory. -/
theorem session_authorization_sample :
    (∃ b, Authorized sampleLib sampleHashes sampleConfig [b] ∧
      b.label.input = sampleBind (str "uid=a,ou=users,dc=lan") (str "p")) ∧
    (sampleServer sampleConfig).serve .start [sampleSearch] =
      (sampleServer ⟨str "dc=lan", [], []⟩).serve .start [sampleSearch] := by
  have hnew : ∀ users groups, (buildDirectory sampleLib ⟨str "dc=lan", users, groups⟩).isSome →
      Server.new sampleLib sampleHashes ⟨str "dc=lan", users, groups⟩ =
        some (sampleServer ⟨str "dc=lan", users, groups⟩) := by
    intro users groups h
    obtain ⟨directory, hdir⟩ := Option.isSome_iff_exists.1 h
    rw [Server.new, sampleServer, hdir]
    rfl
  have hsome : Server.new sampleLib sampleHashes sampleConfig = some (sampleServer sampleConfig) :=
    hnew _ _ (by decide +kernel)
  have hempty := hnew [] [] (by decide +kernel)
  constructor
  · let s := sampleServer sampleConfig
    let bind := sampleBind (str "uid=a,ou=users,dc=lan") (str "p")
    have hbind : (s.handle .start bind).2 = some ⟨true, 1⟩ := by decide +kernel
    have hrun : Run (Step s) (some .start) _ _ :=
      .cons (hbind ▸ .message .start bind : Step s _ ⟨bind, (s.handle .start bind).1⟩
        (some ⟨true, 1⟩)) (.cons (.message ⟨true, 1⟩ sampleSearch) (.nil _))
    exact ⟨_, (session_authorization sampleLib sampleHashes).1 _ _ _ _ hsome hrun [_] _ [] rfl
      ⟨⟨true, 1⟩, 2, _, _, rfl, rfl, rfl, rfl, by decide +kernel, rfl, rfl⟩, rfl⟩
  · exact (session_authorization sampleLib sampleHashes).2 _ _ _ _ _ hsome hempty rfl
      (by decide +kernel) (by decide +kernel) (by decide +kernel)

end InfraBox.Ldap
