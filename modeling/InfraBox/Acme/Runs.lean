import InfraBox.Acme.Changes

/-!
# The ACME server: its snapshots in a run

The process has a snapshot in the file and, while a server runs, one in memory. Every snapshot after
a step is one from before it, or comes from one by mutations and a prune (`Step.view`). So the
snapshots of a run satisfy the invariant (`Step.inv`), and a property of snapshots that mutations
preserve passes from step to step (`Step.preserves`).
-/

namespace InfraBox.Acme

/-! ## Published snapshots -/

section
variable {crypto : Crypto} {c : Context crypto} {st st' : State}

/-- What a handler publishes: the snapshot as it was, or changed by mutations and pruned; and the
challenge it serves may be retried. -/
inductive Publishes (c : Context crypto) (st : State) : State → Prop
  | same : Publishes c st st
  | pruned {next : State} {now : Int} : Mutations c st next →
      (∃ p i, now = c.env.clock.read p i) → Publishes c st (next.prune c.activity now)
  | retried {st' : State} {id : GoString} : Publishes c st st' → c.challenged = some id →
      Publishes c st (retryInterruptedChallenge id st')

theorem Publishes.mutations (h : Publishes c st st') : Mutations c st st' := by
  induction h with
  | same => exact .refl
  | pruned hm hnow => exact hm.tail (.prune hnow)
  | retried _ hc ih => exact ih.tail (.retry hc)

/-- A property that mutations preserve from states with the invariant. -/
theorem Mutations.preserves {P : State → Prop} (hm : Mutations c st st')
    (hids : ∀ id ∈ c.env.ids, validID id = true) (hinv : st.Inv c.cfg crypto) (h : P st)
    (hstep : ∀ s s', Mutation c s s' → s.Inv c.cfg crypto → P s → P s') : P st' := by
  induction hm with
  | refl => exact h
  | tail hm hs ih => exact hstep _ _ hs (Mutations.inv hm hids hinv) ih

/-- What holds of every snapshot of the process. -/
structure State.Sound (cfg : Config) (crypto : Crypto) (ids : List GoString) (st : State) :
    Prop where
  inv : st.Inv cfg crypto
  settled : st.Settled
  uses : st.Uses ids
  active : st.Active

theorem State.Uses.mono {ids ids' : List GoString} (h : st.Uses ids) (hsub : ids ⊆ ids') :
    st.Uses ids' where
  accounts id a ha := hsub (h.accounts id a ha)
  orders id o ho := hsub (h.orders id o ho)
  authorizations id a ha := hsub (h.authorizations id a ha)
  certificates id cert hcert := hsub (h.certificates id cert hcert)

theorem State.Sound.mono {cfg : Config} {ids ids' : List GoString} (h : st.Sound cfg crypto ids)
    (hsub : ids ⊆ ids') : st.Sound cfg crypto ids' :=
  ⟨h.inv, h.settled, h.uses.mono hsub, h.active⟩

theorem Env.Fresh.valid {env : Env} {ids : List GoString} (h : env.Fresh ids) :
    ∀ id ∈ env.ids, validID id = true := by
  intro id hid
  obtain ⟨data, hdata, rfl⟩ := List.mem_map.1 hid
  exact validID_base64Encode (h.length data hdata)

/-- After mutations and a prune with the activity of the request every account has been active. -/
theorem Mutations.active_prune (hm : Mutations c st st') (h : st.Active) (now : Int) :
    (st'.prune c.activity now).Active := by
  have hst : ∀ id a, st'.accounts.get id = some a → 0 < a.active c.activity id := by
    induction hm with
    | refl =>
      intro id a ha
      rw [Account.active_eq_max]
      have := h id a ha
      omega
    | tail _ hs ih => exact hs.active ih
  intro id a' ha'
  obtain ⟨a, ha, rfl⟩ := State.of_prune_accounts ha'
  exact hst id a ha

/-- A published snapshot is sound if the one it comes from is. -/
theorem Publishes.sound (h : Publishes c st st') (hs : st.Sound c.cfg crypto c.used)
    (hfresh : c.env.Fresh c.used) : st'.Sound c.cfg crypto (c.env.ids ++ c.used) := by
  have hids := hfresh.valid
  have huses : ∀ {s}, Mutations c st s → s.Uses (c.env.ids ++ c.used) := fun hm =>
    hm.preserves hids hs.inv (hs.uses.mono (List.subset_append_right _ _))
      fun _ _ hm hinv hu => hm.uses hinv hu
  refine ⟨Mutations.inv h.mutations hids hs.inv, ?_, huses h.mutations, ?_⟩
  · induction h with
    | same => exact hs.settled
    | pruned _ _ => exact State.settled_prune
    | @retried st' id _ _ ih =>
      obtain ⟨auths, heq⟩ := retryInterruptedChallenge_frame id st'
      exact heq ▸ ih
  · induction h with
    | same => exact hs.active
    | pruned hm _ => exact hm.active_prune hs.active _
    | @retried st' id _ _ ih =>
      obtain ⟨auths, heq⟩ := retryInterruptedChallenge_frame id st'
      exact heq ▸ ih

end

/-! ## Recovery -/

section
variable {cfg : Config} {crypto : Crypto} {ids : List GoString} {st : State}

/-- The empty snapshot. -/
theorem State.sound_initial (cfg : Config) (crypto : Crypto) (ids : List GoString) :
    (State.initial cfg).Sound cfg crypto ids := by
  have hempty : ∀ {V : Type} {P : GoString → V → Prop} (id : GoString) (v : V),
      (FinMap.empty : FinMap GoString V).get id = some v → P id v := fun id v h => by
    rw [FinMap.get_empty] at h
    cases h
  exact ⟨⟨⟨rfl, rfl, rfl⟩, ⟨hempty, hempty⟩, ⟨hempty, hempty⟩, ⟨hempty, hempty⟩,
    ⟨Nat.zero_le _, hempty⟩, fun h => absurd rfl h⟩, hempty, ⟨hempty, hempty, hempty, hempty⟩,
    hempty⟩

/-- Accounts that have been active do not get the creation times of their orders again. -/
theorem legacyOrders_of_active {now : Nat → Int} {orders : List (GoString × Order)} {i : Nat}
    {accounts : FinMap GoString Account}
    (h : ∀ e ∈ orders, 0 < ((accounts.get e.2.accountID).getD default).lastActive) :
    legacyOrders now orders i accounts = accounts := by
  induction orders generalizing i with
  | nil => rfl
  | cons e rest ih =>
    have hpos := h e (.head _)
    rw [legacyOrders, if_neg fun hzero => by omega, ih fun e' he' => h e' (.tail _ he')]

/-- Recovery resets the challenges and changes nothing else. -/
theorem State.Sound.recover (h : st.Sound cfg crypto ids) (now : Nat → Int) (modTime : Int) :
    st.recover now modTime = st.reset := by
  have horders : legacyOrders now st.orders.entries 0 st.accounts = st.accounts := by
    refine legacyOrders_of_active fun e he => ?_
    have ho := (h.inv.linked.order e.1 e.2 (FinMap.mem_entries.1 he)).account
    obtain ⟨a, ha⟩ := Option.isSome_iff_exists.1 ho
    rw [ha]
    exact h.active _ a ha
  have hmap : (st.accounts.mapVals fun _ a =>
      if a.lastActive = 0 then { a with lastActive := modTime } else a) = st.accounts := by
    refine FinMap.ext_get fun id => ?_
    rw [FinMap.get_mapVals]
    cases ha : st.accounts.get id with
    | none => rfl
    | some a =>
      have := h.active id a ha
      rw [Option.map_some, if_neg (by omega)]
  rw [State.recover, horders, hmap]
  rfl

/-- Snapshots that are equal up to interrupted challenges have the same authorizations up to
these. -/
theorem State.authorization_of_reset {st st' : State} {id : GoString} {a' : Authorization}
    (heq : st'.reset = st.reset) (h : st'.authorizations.get id = some a') :
    ∃ a, st.authorizations.get id = some a ∧ a.shape = a'.shape ∧ a.status = a'.status := by
  have hget : st'.reset.authorizations.get id = some a'.reset := by
    rw [State.reset, FinMap.get_mapVals, h, Option.map_some]
  rw [heq, State.reset, FinMap.get_mapVals, Option.map_eq_some_iff] at hget
  obtain ⟨a, ha, hreset⟩ := hget
  refine ⟨a, ha, ?_, ?_⟩
  · rw [← a.reset_shape, hreset, a'.reset_shape]
  · rw [← a.reset_status, hreset, a'.reset_status]

/-- A retried challenge is reset. -/
theorem State.reset_retry (id : GoString) (st : State) :
    (retryInterruptedChallenge id st).reset = st.reset := by
  unfold retryInterruptedChallenge
  split
  · rfl
  next a ha =>
  split
  · next hst =>
    refine State.ext rfl rfl rfl rfl rfl rfl (FinMap.ext_get fun k => ?_) rfl rfl rfl rfl
    simp only [State.reset, FinMap.get_mapVals, FinMap.get_set]
    split
    · next heq => simp [heq, ha, Authorization.reset, hst.2]
    · rfl
  · rfl

theorem Commit.reset_interrupted (cm : Commit crypto) (st : State) :
    (cm.interrupted st).reset = st.reset := by
  unfold Commit.interrupted
  split
  · rfl
  · exact State.reset_retry _ _

/-- Resetting leaves the accounts. -/
theorem State.accounts_eq_of_reset {st st' : State} (h : st'.reset = st.reset) :
    st'.accounts = st.accounts := by
  have heq : st'.reset.accounts = st.reset.accounts := by rw [h]
  exact heq

/-- What a start restores: the stored snapshot, reset. -/
theorem restore_ok {now : Nat → Int} {modTime : Int} {disk : Option State}
    (hs : (disk.getD (.initial cfg)).Sound cfg crypto ids)
    (h : restore cfg crypto now modTime disk = .ok st) : st = (disk.getD (.initial cfg)).reset := by
  unfold restore at h
  split at h
  · cases h
    rfl
  · split at h
    · cases h
    cases h
    exact hs.recover now modTime

/-- How a start ends: without a change, or with the restored snapshot pruned. -/
theorem newServer_cases {env : Env} {modTime : Int} {disk disk' : Option State}
    {server : Option (Server crypto)}
    (h : newServer cfg crypto env modTime disk = (server, disk')) :
    (server = none ∧ disk' = disk) ∨
      ∃ st, restore cfg crypto (env.clock.read 0) modTime disk = .ok st ∧
        disk' = some (st.prune .empty (env.clock.now 1)) ∧
        (server = none ∨ server = some ⟨st.prune .empty (env.clock.now 1), .empty, []⟩) := by
  unfold newServer at h
  split at h
  · cases h
    exact .inl ⟨rfl, rfl⟩
  next st hst =>
  dsimp only at h
  split at h <;> cases h
  · exact .inl ⟨rfl, rfl⟩
  · exact .inr ⟨st, hst, rfl, .inl rfl⟩
  · exact .inr ⟨st, hst, rfl, .inr rfl⟩

/-- How a start ends: without a change, or with the stored snapshot reset and pruned. -/
theorem newServer_eq {env : Env} {modTime : Int} {disk disk' : Option State}
    {server : Option (Server crypto)} (hs : (disk.getD (.initial cfg)).Sound cfg crypto ids)
    (h : newServer cfg crypto env modTime disk = (server, disk')) :
    (server = none ∧ disk' = disk) ∨
      ∃ next, next = (disk.getD (.initial cfg)).reset.prune .empty (env.clock.now 1) ∧
        disk' = some next ∧ (server = none ∨ server = some ⟨next, .empty, []⟩) := by
  rcases newServer_cases h with hsame | ⟨st, hst, hdisk, hserver⟩
  · exact .inl hsame
  · exact .inr ⟨_, by rw [restore_ok hs hst], hdisk, hserver⟩

end

/-! ## The snapshots of a process -/

section
variable {crypto : Crypto}

/-- The snapshot a start would read. -/
def Process.stored (cfg : Config) (p : Process crypto) : State := p.disk.getD (.initial cfg)

/-- The snapshots of a process. -/
inductive Process.View (cfg : Config) (p : Process crypto) : State → Prop
  | stored : View cfg p (p.stored cfg)
  | memory {srv : Server crypto} : p.server = some srv → View cfg p srv.state

/-- The account is active and has this key. -/
def Process.HasKey (p : Process crypto) (accountID thumbprint : GoString) : Prop :=
  ∃ srv a, p.server = some srv ∧ srv.state.accounts.get accountID = some a ∧ a.status = .valid ∧
    a.thumbprint = thumbprint

/-- What the handler of a step does, given the memory of the server. -/
def Label.action (cfg : Config) (codec : Codec crypto) (srv : Server crypto) :
    Label crypto → Option (Action crypto)
  | .call op env _ => some (op.action cfg codec srv env)
  | .result t returned env _ => some (challengeResult cfg srv env t returned)
  | .crash => none
  | .start _ _ => none

/-- The answer of the handler of a step. -/
def Label.answer : Label crypto → Option (Answer crypto)
  | .call _ _ answer => some answer
  | .result _ _ _ answer => some answer
  | .crash => none
  | .start _ _ => none

/-- The authorization whose challenge a step serves. -/
def Label.challenged : Label crypto → Option GoString
  | .call op _ _ => op.challenged
  | .result t _ _ _ => some t.authID
  | .crash => none
  | .start _ _ => none

/-- What the mutations of a step are part of. A result is a proof only if the account still has the
key the validation was made with. -/
def Label.context (cfg : Config) (p : Process crypto) (activity : FinMap GoString Int)
    (strict : Prop) : Label crypto → Option (Context crypto)
  | .call op env _ => some {
      cfg, env, activity, strict
      used := p.ids
      challenged := op.challenged
      proof := fun _ _ => False
      creates := op.creates
      restart := false }
  | .result t returned env _ => some {
      cfg, env, activity, strict
      used := p.ids
      challenged := some t.authID
      proof := fun t' target =>
        t' = t ∧ returned = some target ∧ p.HasKey t.accountID t.signed.thumbprint
      creates := false
      restart := false }
  | .crash => none
  | .start env _ => some {
      cfg, env, activity, strict
      used := p.ids
      challenged := none
      proof := fun _ _ => False
      creates := false
      restart := true }

/-- The context of a step. -/
structure Fits (cfg : Config) (p : Process crypto) (l : Label crypto) (p' : Process crypto)
    (strict : Prop) (c : Context crypto) : Prop where
  context : ∃ activity, l.context cfg p activity strict = some c
  within : c.env.Within p.clock p'.clock
  fresh : c.env.Fresh p.ids
  ids : p'.ids = c.env.ids ++ p.ids

theorem Fits.eqs {cfg : Config} {p p' : Process crypto} {l : Label crypto} {strict : Prop}
    {c : Context crypto} (h : Fits cfg p l p' strict c) :
    c.cfg = cfg ∧ c.used = p.ids ∧ c.strict = strict := by
  obtain ⟨activity, heq⟩ := h.context
  cases l <;> cases heq <;> exact ⟨rfl, rfl, rfl⟩

/-- What an issuance may count on: serial numbers are new. -/
def Label.Strict (p : Process crypto) : Label crypto → Prop
  | .call _ env _ => ∀ srv, p.server = some srv → FreshSerials srv env
  | _ => True

/-- What holds at every point of a run. -/
structure Process.Inv (cfg : Config) (p : Process crypto) : Prop where
  sound : ∀ v, p.View cfg v → v.Sound cfg crypto p.ids
  synced : ∀ srv, p.server = some srv → ∃ st, p.disk = some st ∧ st.reset = srv.state.reset
  tickets : ∀ srv, p.server = some srv → ∀ t ∈ srv.validations, t.authID ∈ p.ids

/-- A process without a file. -/
theorem Process.inv_initial (cfg : Config) (start : Int) :
    (Process.initial start : Process crypto).Inv cfg where
  sound v hv := by
    cases hv with
    | stored => exact State.sound_initial cfg crypto _
    | memory hsrv => cases hsrv
  synced := nofun
  tickets := nofun

/-! ## Steps -/

variable {cfg : Config} {codec : Codec crypto} {p p' : Process crypto} {l : Label crypto}
  {strict : Prop} {c : Context crypto}

/-- The activity map an action leaves. -/
def Action.activity : Action crypto → FinMap GoString Int
  | .reply activity _ => activity
  | .commit activity _ => activity

section
variable {srv srv' : Server crypto} {disk disk' : Option State} {outcome : Outcome}
  {action : Action crypto} {answer : Answer crypto}

/-- What a failed commit leaves is published. -/
theorem Commits.interrupted {st st' : State} {cm : Commit crypto} (hcm : Commits c st cm)
    (h : Publishes c st st') : Publishes c st (cm.interrupted st') := by
  unfold Commit.interrupted
  split
  · exact h
  · next id hid => exact h.retried (hcm.retry.symm.trans hid)

/-- An action leaves published snapshots in memory and in the file. -/
theorem Server.perform_publishes (h : srv.perform disk outcome action = (answer, srv', disk'))
    (hact : c.activity = action.activity)
    (hcm : ∀ cm, action = .commit c.activity cm → Commits c srv.state cm) :
    Publishes c srv.state srv'.state ∧
      (disk' = disk ∨ ∃ st, disk' = some st ∧ Publishes c srv.state st) := by
  cases action with
  | reply activity r =>
    cases h
    exact ⟨.same, .inl rfl⟩
  | commit activity cm =>
    have hcm := hcm cm (by rw [hact]; rfl)
    have hnext : Publishes c srv.state (cm.next.prune activity cm.now) := by
      have := Publishes.pruned hcm.next hcm.now
      rwa [hact] at this
    cases outcome <;> cases h
    · exact ⟨hcm.interrupted .same, .inl rfl⟩
    · exact ⟨hcm.interrupted hnext, .inr ⟨_, rfl, hnext⟩⟩
    · exact ⟨hnext, .inr ⟨_, rfl, hnext⟩⟩

/-- An action leaves the memory and the file equal up to interrupted challenges. -/
theorem Server.perform_synced (hsync : ∃ st, disk = some st ∧ st.reset = srv.state.reset)
    (h : srv.perform disk outcome action = (answer, srv', disk')) :
    ∃ st, disk' = some st ∧ st.reset = srv'.state.reset := by
  obtain ⟨st, rfl, heq⟩ := hsync
  cases action with
  | reply activity r =>
    cases h
    exact ⟨st, rfl, heq⟩
  | commit activity cm =>
    cases outcome <;> cases h
    · exact ⟨st, rfl, heq.trans (cm.reset_interrupted _).symm⟩
    · exact ⟨_, rfl, (cm.reset_interrupted _).symm⟩
    · exact ⟨_, rfl, rfl⟩

/-- An action adds at most the validation it answers with. -/
theorem Server.perform_validations
    (h : srv.perform disk outcome action = (answer, srv', disk')) :
    srv'.validations = answer.tickets ++ srv.validations ∧
      ∀ t, answer = .validate t → ∃ activity cm, action = .commit activity cm ∧
        cm.answer = .validate t ∧ srv'.state = cm.next.prune activity cm.now := by
  cases action with
  | reply activity r =>
    cases h
    exact ⟨rfl, nofun⟩
  | commit activity cm =>
    cases outcome <;> cases h
    · exact ⟨rfl, nofun⟩
    · exact ⟨rfl, nofun⟩
    · exact ⟨rfl, fun t ht => ⟨activity, cm, rfl, ht, rfl⟩⟩

end

/-- A step is that of a handler, a crash or a start. -/
theorem Step.kinds (h : Step cfg codec p l p') :
    (∃ srv action, p.server = some srv ∧ l.action cfg codec srv = some action) ∨
      (l = .crash ∧ p' = { p with server := none }) ∨
      ∃ env modTime, l = .start env modTime ∧ p.server = none ∧
        newServer cfg crypto env modTime p.disk = (p'.server, p'.disk) := by
  cases h with
  | call _ _ _ _ | result _ _ _ _ => exact .inl ⟨_, _, rfl, rfl⟩
  | crash => exact .inr (.inl ⟨rfl, rfl⟩)
  | start _ _ hnew => exact .inr (.inr ⟨_, _, rfl, rfl, hnew⟩)

/-- A call is made while a server runs. -/
theorem Step.call_server {op : Op crypto} {env : Env} {answer : Answer crypto}
    (h : Step cfg codec p (.call op env answer) p') : ∃ srv, p.server = some srv := by
  cases h
  exact ⟨_, rfl⟩

/-- The handler of a step is carried out; the validations in flight do not matter to it. -/
theorem Step.performs (h : Step cfg codec p l p') {srv : Server crypto} {action : Action crypto}
    (hsrv : p.server = some srv) (hact : l.action cfg codec srv = some action) :
    ∃ env answer srv' validations, l.env = some env ∧ l.answer = some answer ∧
      p'.server = some srv' ∧
      (⟨srv.state, srv.activity, validations⟩ : Server crypto).perform p.disk env.outcome action =
        (answer, srv', p'.disk) := by
  cases h with
  | call _ _ _ hperf | result _ _ _ hperf =>
    cases hsrv
    cases hact
    exact ⟨_, _, _, _, rfl, rfl, rfl, hperf⟩
  | crash => cases hact
  | start _ _ _ => cases hsrv

/-- What the handler of a step commits comes from the memory by mutations. -/
theorem Step.commits (h : Step cfg codec p l p') (hp : p.Inv cfg) (hstrict : strict → l.Strict p)
    {srv : Server crypto} {action : Action crypto} (hsrv : p.server = some srv)
    (hact : l.action cfg codec srv = some action) :
    ∃ c, Fits cfg p l p' strict c ∧ c.restart = false ∧ c.challenged = l.challenged ∧
      c.activity = action.activity ∧
      ∀ cm, action = .commit c.activity cm → Commits c srv.state cm := by
  have hs := hp.sound _ (.memory hsrv)
  cases h with
  | call hwithin hfresh _ _ =>
    cases hsrv
    cases hact
    refine ⟨_, ⟨⟨_, rfl⟩, hwithin, hfresh, rfl⟩, rfl, rfl, rfl, fun cm hcm => ?_⟩
    exact Op.commits codec rfl rfl ⟨hs.inv, hs.settled, hs.uses, hfresh⟩ rfl
      (fun h => hstrict h _ rfl) hcm
  | result hwithin hfresh _ _ =>
    cases hsrv
    cases hact
    refine ⟨_, ⟨⟨_, rfl⟩, hwithin, hfresh, rfl⟩, rfl, rfl, rfl, fun cm hcm => ?_⟩
    exact challengeResult_commits rfl (fun target acc hres hacc hvalid hthumb =>
      ⟨rfl, hres, _, acc, rfl, hacc, hvalid, hthumb⟩) hs.settled hcm
  | crash => cases hact
  | start _ _ _ => cases hsrv

/-- The handler of a step leaves published snapshots in memory and in the file. -/
theorem Step.publishes (h : Step cfg codec p l p') (hp : p.Inv cfg) (hstrict : strict → l.Strict p)
    {srv : Server crypto} {action : Action crypto} (hsrv : p.server = some srv)
    (hact : l.action cfg codec srv = some action) :
    ∃ c srv', Fits cfg p l p' strict c ∧ c.restart = false ∧ c.challenged = l.challenged ∧
      p'.server = some srv' ∧ Publishes c srv.state srv'.state ∧
      (p'.disk = p.disk ∨ ∃ st, p'.disk = some st ∧ Publishes c srv.state st) := by
  obtain ⟨env, answer, srv', validations, -, -, hsrv', hperf⟩ := h.performs hsrv hact
  obtain ⟨c, hf, hr, hc, hactivity, hcm⟩ := h.commits hp hstrict hsrv hact
  obtain ⟨hmem, hdisk⟩ := Server.perform_publishes hperf hactivity hcm
  exact ⟨c, srv', hf, hr, hc, hsrv', hmem, hdisk⟩

/-- Every snapshot after a step is one from before it or is published from one. -/
theorem Step.view (h : Step cfg codec p l p') (hp : p.Inv cfg) (hstrict : strict → l.Strict p)
    {v' : State} (hv : p'.View cfg v') :
    ∃ v, p.View cfg v ∧ (v' = v ∨ ∃ c, Fits cfg p l p' strict c ∧ Publishes c v v') := by
  rcases h.kinds with ⟨srv, action, hsrv, hact⟩ | ⟨rfl, rfl⟩ | ⟨env, modTime, rfl, -, hnew⟩
  · obtain ⟨c, srv', hf, -, -, hsrv', hmem, hdisk⟩ := h.publishes hp hstrict hsrv hact
    cases hv with
    | stored =>
      rcases hdisk with hdisk | ⟨st, hdisk, hst⟩
      · exact ⟨_, .stored, .inl (by rw [Process.stored, hdisk, Process.stored])⟩
      · exact ⟨_, .memory hsrv, .inr ⟨c, hf, by rwa [Process.stored, hdisk]⟩⟩
    | memory hsrv₁ =>
      cases hsrv'.symm.trans hsrv₁
      exact ⟨_, .memory hsrv, .inr ⟨c, hf, hmem⟩⟩
  · cases hv with
    | stored => exact ⟨_, .stored, .inl rfl⟩
    | memory hsrv => cases hsrv
  · cases h with
    | @start disk disk' server clock now ids env modTime hwithin hfresh hnew =>
      rcases newServer_eq (hp.sound _ .stored) hnew with ⟨rfl, rfl⟩ | ⟨next, rfl, rfl, hserver⟩
      · cases hv with
        | stored => exact ⟨_, .stored, .inl rfl⟩
        | memory hsrv => cases hsrv
      · have heq : v' = (disk.getD (.initial cfg)).reset.prune .empty (env.clock.now 1) := by
          cases hv with
          | stored => rfl
          | memory hsrv => rcases hserver with rfl | rfl <;> cases hsrv; rfl
        rw [heq]
        exact ⟨_, .stored, .inr ⟨_, ⟨⟨.empty, rfl⟩, hwithin, hfresh, rfl⟩,
          .pruned (.single (.reset rfl)) ⟨1, 0, rfl⟩⟩⟩

/-- A call of the validator is the answer to an acknowledgement of a pending challenge, signed with
the key of the account. -/
theorem Step.acknowledged {op : Op crypto} {env : Env} {t : Ticket crypto}
    (h : Step cfg codec p (.call op env (.validate t)) p') (hp : p.Inv cfg) :
    op = .challenge t.signed t.accountID t.authID ∧ p.HasKey t.accountID t.signed.thumbprint ∧
      ∃ srv srv' a, p.server = some srv ∧ p'.server = some srv' ∧
        srv.state.authorizations.get t.authID = some a ∧ a.accountID = t.accountID ∧
        a.status = .pending ∧ a.challengeStatus ≠ .processing ∧ a.name = t.name ∧
        a.token = t.token ∧ srv'.validations = t :: srv.validations := by
  obtain ⟨srv, hsrv⟩ := h.call_server
  obtain ⟨c, -, -, hc, hactivity, hcm⟩ := h.commits hp (False.elim : False → _) hsrv rfl
  cases h with
  | @call disk disk' _ srv' clock now ids _ _ _ hwithin hfresh _ hperf =>
    cases hsrv
    obtain ⟨hval, hticket⟩ := Server.perform_validations hperf
    obtain ⟨activity, cm, hact, hans, -⟩ := hticket t rfl
    rw [hact] at hactivity
    have hop := (hcm cm (by rw [hact, hactivity]; rfl)).answer t hans
    cases op with
    | challenge signed accountID id =>
      obtain ⟨a, acc, ha, hid, hst, hch, hacc, hvalid, hthumb, -, hans', -⟩ :=
        challenge_commit codec hact
      cases hans'.symm.trans hans
      exact ⟨rfl, ⟨srv, acc, rfl, hacc, hvalid, hthumb⟩, srv, srv', a, rfl, rfl, ha, hid, hst, hch,
        rfl, rfl, hval⟩
    | _ => cases hc.symm.trans hop

/-- The calls of the validator after a step. -/
theorem Step.validations (h : Step cfg codec p l p') {srv' : Server crypto}
    (hsrv' : p'.server = some srv') :
    (∃ srv op env answer, l = .call op env answer ∧ p.server = some srv ∧
      srv'.validations = answer.tickets ++ srv.validations) ∨
    (∃ srv earlier later t r env answer, l = .result t r env answer ∧ p.server = some srv ∧
      srv.validations = earlier ++ t :: later ∧ srv'.validations = earlier ++ later) ∨
    (∃ env modTime, l = .start env modTime ∧ srv'.validations = []) := by
  cases h with
  | @call disk disk' srv srv₁ clock now ids op env answer _ _ _ hperf =>
    cases hsrv'
    exact .inl ⟨srv, op, env, answer, rfl, rfl, (Server.perform_validations hperf).1⟩
  | @result disk disk' st activity earlier later t srv₁ clock now ids r env answer _ _ _ hperf =>
    cases hsrv'
    obtain ⟨hval, hticket⟩ := Server.perform_validations hperf
    refine .inr (.inl ⟨_, earlier, later, t, r, env, answer, rfl, rfl, rfl, ?_⟩)
    cases answer with
    | respond _ => exact hval
    | validate t' =>
      obtain ⟨activity', cm, hact, hans, -⟩ := hticket t' rfl
      obtain ⟨-, -, -, -, -, -, ⟨r, hr⟩, -⟩ := challengeResult_commit hact
      cases hr.symm.trans hans
  | crash => cases hsrv'
  | @start disk disk' server clock now ids env modTime _ _ hnew =>
    refine .inr (.inr ⟨env, modTime, rfl, ?_⟩)
    rcases newServer_cases hnew with ⟨rfl, -⟩ | ⟨st, -, -, rfl | rfl⟩
    · cases hsrv'
    · cases hsrv'
    · cases hsrv'
      rfl

theorem Step.clock_le (h : Step cfg codec p l p') : p.clock ≤ p'.clock := by
  cases h with
  | call hwithin _ _ _ | result hwithin _ _ _ | start hwithin _ _ =>
    exact (hwithin 0 0).1.trans (hwithin 0 0).2
  | crash => exact Int.le_refl _

theorem Step.ids_subset (h : Step cfg codec p l p') : p.ids ⊆ p'.ids := by
  cases h with
  | call _ _ _ _ | result _ _ _ _ | start _ _ _ => exact List.subset_append_right _ _
  | crash => exact List.Subset.refl _

/-- The invariant holds after every step. -/
theorem Step.inv (h : Step cfg codec p l p') (hp : p.Inv cfg) : p'.Inv cfg where
  sound v' hv' := by
    obtain ⟨v, hv, rfl | ⟨c, hf, hpub⟩⟩ := h.view hp (False.elim : False → l.Strict p) hv'
    · exact (hp.sound _ hv).mono h.ids_subset
    · obtain ⟨rfl, hused, -⟩ := hf.eqs
      have hs := hused ▸ hp.sound v hv
      have := hpub.sound hs (hused ▸ hf.fresh)
      rwa [hf.ids, ← hused]
  synced srv' hsrv' := by
    cases h with
    | call _ _ _ hperf =>
      cases hsrv'
      exact Server.perform_synced (hp.synced _ rfl) hperf
    | @result disk disk' st activity earlier later t _ _ _ _ _ _ _ _ _ _ hperf =>
      cases hsrv'
      have hsync : ∃ s, disk = some s ∧ s.reset = st.reset :=
        hp.synced ⟨st, activity, earlier ++ t :: later⟩ rfl
      exact Server.perform_synced hsync hperf
    | crash => cases hsrv'
    | start _ _ hnew =>
      rcases newServer_eq (hp.sound _ .stored) hnew with ⟨rfl, -⟩ | ⟨next, -, rfl, rfl | rfl⟩
      · cases hsrv'
      · cases hsrv'
      · cases hsrv'
        exact ⟨next, rfl, rfl⟩
  tickets srv' hsrv' t ht := by
    have hids := h.ids_subset
    rcases h.validations hsrv' with ⟨srv, op, env, answer, rfl, hsrv, heq⟩ |
      ⟨srv, earlier, later, t', r, env, answer, rfl, hsrv, heq, heq'⟩ | ⟨env, modTime, -, heq⟩
    · rw [heq, List.mem_append] at ht
      rcases ht with ht | ht
      · cases answer with
        | respond _ => cases ht
        | validate t' =>
          cases List.mem_singleton.1 ht
          obtain ⟨-, -, srv, srv', a, hsrv, -, ha, -⟩ := h.acknowledged hp
          exact hids ((hp.sound _ (.memory hsrv)).uses.authorizations _ _ ha)
      · exact hids (hp.tickets srv hsrv t ht)
    · refine hids (hp.tickets srv hsrv t ?_)
      rw [heq', List.mem_append] at ht
      rw [heq, List.mem_append, List.mem_cons]
      exact ht.imp_right .inr
    · rw [heq] at ht
      cases ht

/-- The invariant holds at the end of every run. -/
theorem Process.inv_of_run {start : Int} {tr : Trace (Process crypto) (Label crypto)}
    (h : Run (Step cfg codec) (.initial start) tr p) : p.Inv cfg :=
  h.invariant (Process.inv_initial cfg start) fun _ _ _ hp hs => hs.inv hp

/-- A property of the snapshots that the mutations of a step preserve holds after the step. -/
theorem Step.preserves {P : State → Prop} (h : Step cfg codec p l p') (hp : p.Inv cfg)
    (hstrict : strict → l.Strict p) (hP : ∀ v, p.View cfg v → P v)
    (hstep : ∀ c s s', Fits cfg p l p' strict c → s.Inv cfg crypto → Mutation c s s' → P s → P s') :
    ∀ v', p'.View cfg v' → P v' := by
  intro v' hv'
  obtain ⟨v, hv, rfl | ⟨c, hf, hpub⟩⟩ := h.view hp hstrict hv'
  · exact hP _ hv
  · obtain ⟨hcfg, -, -⟩ := hf.eqs
    exact hpub.mutations.preserves hf.fresh.valid (hcfg ▸ (hp.sound v hv).inv) (hP v hv)
      fun s s' hm hinv => hstep c s s' hf (hcfg ▸ hinv) hm

/-- A property of the snapshots that every mutation preserves which does not create the record `id`
holds from then on, because identifiers are not drawn twice. -/
theorem Process.persists {P : State → Prop} {id : GoString}
    {tr : Trace (Process crypto) (Label crypto)} (hp : p.Inv cfg) (hid : id ∈ p.ids)
    (hP : ∀ v, p.View cfg v → P v) (hrun : Run (Step cfg codec) p tr p')
    (hone : ∀ (c : Context crypto) s s', id ∉ c.env.ids → s.Inv c.cfg crypto → Mutation c s s' →
      P s → P s') : ∀ v, p'.View cfg v → P v := by
  refine (hrun.invariant (I := fun q => q.Inv cfg ∧ id ∈ q.ids ∧ ∀ v, q.View cfg v → P v)
    ⟨hp, hid, hP⟩ fun q l q' ⟨hq, hqid, hv⟩ hs => ?_).2.2
  refine ⟨hs.inv hq, hs.ids_subset hqid, ?_⟩
  refine hs.preserves hq (False.elim : False → _) hv fun c s s' hf hinv hm => ?_
  exact hone c s s' (fun hnew => hf.fresh.unused _ hnew hqid) (hf.eqs.1 ▸ hinv) hm

/-- The snapshots of a process are equal up to interrupted challenges. -/
theorem Process.Inv.view_reset (hp : p.Inv cfg) {v : State} (hv : p.View cfg v) :
    v.reset = (p.stored cfg).reset := by
  cases hv with
  | stored => rfl
  | memory hsrv =>
    obtain ⟨st, hdisk, heq⟩ := hp.synced _ hsrv
    rw [Process.stored, hdisk, Option.getD_some, heq]

end

end InfraBox.Acme
