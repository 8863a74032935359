import InfraBox.Acme.Runs
import InfraBox.Acme.Exec
import InfraBox.Lib.Durable

/-!
# The ACME server: idle accounts

`touchAccount` notes the activity of an account in memory only; the next commit writes it to the
file along with its own changes, and a crash before that loses it. `prune` drops an account when it
has been idle for 30 days and no order that is kept refers to it. So the activity the process still
knows of (`Known`) is below the time an account counts as active, in memory (`Process.Remembers`)
and in the file (`Process.Stores`), and an account disappears only when all of it is 30 days old
(`idle_accounts_expire`).
-/

namespace InfraBox.Acme

variable {env : Env} {e : GoString × Int} {a : Account}

/-! ## What the handlers note -/

section
variable {cfg : Config} {crypto : Crypto} {codec : Codec crypto} {srv : Server crypto} {env : Env}

/-- The activity map a handler leaves: unchanged, what `activeAccount` returned, or with a reading
for an account whose key is registered again. -/
inductive Touches (cfg : Config) (srv : Server crypto) (env : Env) :
    FinMap GoString Int → Prop
  | unchanged : Touches cfg srv env srv.activity
  | active {signed : Request crypto} {id : GoString} {a : Account} {k : Nat}
      {activity : FinMap GoString Int} :
      activeAccount cfg srv (env.clock.now k) signed id = .ok (a, activity) →
      Touches cfg srv env activity
  | registered {id : GoString} {a : Account} : srv.state.accounts.get id = some a →
      Touches cfg srv env (srv.activity.set a.id (env.clock.now 0))

/-- A revocation may touch the account that asks for it. -/
theorem canRevoke_touches {signed : Request crypto} {issued : Certificate} {leaf : Leaf} {ok : Bool}
    {activity : FinMap GoString Int}
    (h : canRevoke cfg srv env signed issued leaf = (ok, activity)) :
    Touches cfg srv env activity := by
  simp only [canRevoke] at h
  repeat' split at h
  all_goals cases h
  · exact .unchanged
  · exact .active ‹_›
  · exact .unchanged

/-- `finalize` touches its account only. -/
theorem finalize_touches (signed : Request crypto) (accountID id : GoString) :
    Touches cfg srv env (finalize cfg codec srv env signed accountID id).activity := by
  have hprep : ∀ {r}, prepareSigning cfg codec srv env signed accountID id = r →
      (∀ action, r = .error action → Touches cfg srv env action.activity) ∧
      ∀ s, r = .ok s → Touches cfg srv env s.activity := by
    rintro r rfl
    unfold prepareSigning
    dsimp only
    constructor
    all_goals
      intro x hx
      repeat' split at hx
      all_goals cases hx
    all_goals first
      | exact .unchanged
      | exact .active ‹_›
  unfold finalize
  split
  · exact (hprep ‹_›).1 _ rfl
  next s hs =>
  repeat' split
  all_goals exact (hprep hs).2 s rfl

/-- What the handlers do to the activity map. -/
theorem Op.touches (op : Op crypto) :
    Touches cfg srv env (op.action cfg codec srv env).activity := by
  cases op with
  | newAccount signed source =>
    simp only [Op.action, Acme.newAccount]
    repeat' split
    all_goals first
      | exact .unchanged
      | exact .registered (FinMap.find_eq_some ‹_›).1
  | finalize signed accountID id => exact finalize_touches signed accountID id
  | revokeCertificate signed =>
    simp only [Op.action, Acme.revokeCertificate]
    repeat' split
    all_goals first
      | exact .unchanged
      | exact canRevoke_touches ‹_›
  | serveCRL head =>
    simp only [Op.action, Acme.serveCRL]
    repeat' split
    all_goals exact .unchanged
  | account | accountOrders | keyChange | newOrder | getOrder | getAuthorization | challenge
  | getCertificate =>
    simp only [Op.action, Acme.account, Acme.accountOrders, Acme.keyChange, Acme.newOrder,
      Acme.getOrder, Acme.getAuthorization, Acme.challenge, Acme.getCertificate]
    repeat' split
    all_goals first
      | exact .unchanged
      | exact .active ‹_›

/-- The end of a validation touches its account. -/
theorem challengeResult_touches (t : Ticket crypto) (returned : Option Target) :
    Touches cfg srv env (challengeResult cfg srv env t returned).activity := by
  unfold challengeResult
  dsimp only
  repeat' split
  all_goals first
    | exact .unchanged
    | exact .active ‹_›

/-- What the handler of a step does to the activity map. -/
theorem Label.touches {l : Label crypto} {action : Action crypto}
    (hact : l.action cfg codec srv = some action) (henv : l.env = some env) :
    Touches cfg srv env action.activity := by
  cases l with
  | call op env' answer =>
    cases hact
    cases henv
    exact op.touches
  | result t returned env' answer =>
    cases hact
    cases henv
    exact challengeResult_touches t returned
  | crash => cases hact
  | start => cases hact

/-- A handler leaves the activity map as it is, or notes one reading. -/
theorem Touches.eq {activity : FinMap GoString Int} (h : Touches cfg srv env activity) :
    activity = srv.activity ∨ ∃ id k, activity = srv.activity.set id (env.clock.now k) := by
  cases h with
  | unchanged => exact .inl rfl
  | active hok =>
    obtain ⟨-, -, -, heq⟩ := activeAccount_ok cfg hok
    exact .inr ⟨_, _, heq⟩
  | registered _ => exact .inr ⟨_, _, rfl⟩

end

/-! ## Recorded activity -/

section
variable {crypto : Crypto} (cfg : Config) (codec : Codec crypto)

/-- The step records activity of an account at a reading of the clock: it creates the account,
`activeAccount` accepts its request as one of the account, or it registers the key again. -/
inductive Notes (t : Transition (Process crypto) (Label crypto)) : GoString × Int → Prop
  | created {srv srv' : Server crypto} {signed : Request crypto} {source id : GoString} {env : Env}
      {answer : Answer crypto} : t.label = .call (.newAccount signed source) env answer →
      t.pre.server = some srv → t.post.server = some srv' → srv.state.accounts.get id = none →
      (srv'.state.accounts.get id).isSome → Notes t (id, env.clock.now 4)
  | authenticated {srv : Server crypto} {action : Action crypto} {env : Env}
      {signed : Request crypto} {id : GoString} {a : Account} {k : Nat} :
      t.pre.server = some srv → t.label.action cfg codec srv = some action →
      t.label.env = some env →
      activeAccount cfg srv (env.clock.now k) signed id = .ok (a, action.activity) →
      Notes t (id, env.clock.now k)
  | registered {srv : Server crypto} {signed : Request crypto} {source k : GoString} {env : Env}
      {answer : Answer crypto} {a : Account} :
      t.label = .call (.newAccount signed source) env answer → t.pre.server = some srv →
      srv.state.accounts.find (fun _ a => a.thumbprint = signed.thumbprint) = some (k, a) →
      (newAccount cfg codec srv env signed source).activity =
        srv.activity.set a.id (env.clock.now 0) →
      Notes t (a.id, env.clock.now 0)

/-- The process dies. -/
def Crashes (t : Transition (Process crypto) (Label crypto)) : Prop := t.label = .crash

/-- The handler of the step commits and the new file is in place. -/
def Flushes (t : Transition (Process crypto) (Label crypto)) : Prop :=
  ∃ srv activity cm env, t.pre.server = some srv ∧
    t.label.action cfg codec srv = some (.commit activity cm) ∧ t.label.env = some env ∧
    env.outcome ≠ .failedBefore

/-- Activity the process has not lost: recorded since the last crash, or persisted by a commit
after it was recorded. -/
def Known (tr : Trace (Process crypto) (Label crypto)) (id : GoString) (time : Int) :
    Prop :=
  Volatile (Notes cfg codec) Crashes tr (id, time) ∨
    Durable (Notes cfg codec) Crashes (Flushes cfg codec) tr (id, time)

end

/-! ## Activity times of a snapshot -/

/-- The times noted for an account are `time` or later, and it counts as active then or later. -/
structure State.Floor (st : State) (activity : FinMap GoString Int) (id : GoString) (time : Int) :
    Prop where
  noted : ∀ x, activity.get id = some x → time ≤ x
  active : ∀ a, st.accounts.get id = some a → time ≤ a.active activity id

section
variable {crypto : Crypto} {c : Context crypto} {st st' : State} {activity : FinMap GoString Int}
  {id : GoString} {time now : Int}

theorem State.Floor.congr (h : st.Floor activity id time) (heq : st'.accounts = st.accounts) :
    st'.Floor activity id time :=
  ⟨h.noted, fun a ha => h.active a (heq ▸ ha)⟩

theorem State.Floor.mono (h : st.Floor activity id now) (hle : time ≤ now) :
    st.Floor activity id time :=
  ⟨fun x hx => hle.trans (h.noted x hx), fun a ha => hle.trans (h.active a ha)⟩

/-- A time that is noted. -/
theorem State.floor_set (st : State) (activity : FinMap GoString Int) (id : GoString) (now : Int) :
    st.Floor (activity.set id now) id now := by
  refine ⟨fun x hx => ?_, fun a _ => ?_⟩
  · rw [FinMap.get_set_self] at hx
    cases hx
    exact Int.le_refl _
  · rw [Account.active_eq_max, FinMap.get_set_self, Option.getD_some]
    exact Int.le_max_right _ _

/-- A later reading may be noted for any account. -/
theorem State.Floor.set (h : st.Floor activity id time) (key : GoString) (hle : time ≤ now) :
    st.Floor (activity.set key now) id time := by
  by_cases hkey : key = id
  · subst hkey
    exact (st.floor_set activity key now).mono hle
  · have hget : (activity.set key now).get id = activity.get id :=
      FinMap.get_set_ne _ _ (Ne.symm hkey)
    refine ⟨fun x hx => h.noted x (hget ▸ hx), fun a ha => ?_⟩
    rw [Account.active_eq_max, hget, ← Account.active_eq_max]
    exact h.active a ha

/-- The mutations of a step keep the activity of accounts that it does not create. -/
theorem State.Floor.mutations (h : st.Floor c.activity id time) (hm : Mutations c st st')
    (hid : id ∉ c.env.ids) : st'.Floor c.activity id time := by
  refine ⟨h.noted, ?_⟩
  induction hm with
  | refl => exact h.active
  | tail _ hs ih =>
    intro a' ha'
    rw [Account.active_eq_max]
    cases hs.account ha' with
    | @kept a ha _ hle | @updated a ha _ hle =>
      have := ih a ha
      rw [Account.active_eq_max] at this
      omega
    | added hmem _ => exact absurd hmem hid
    | blank _ _ hpos =>
      -- the account is gone, but its order was requested by an account that was active just now
      cases hx : c.activity.get id with
      | none =>
        rw [hx] at hpos
        exact absurd hpos (Int.lt_irrefl 0)
      | some x =>
        have := h.noted x hx
        rw [Option.getD_some]
        omega

/-- Pruning writes the activity to the accounts, so that the map may be cleared. -/
theorem State.floor_prune (h : ∀ a, st.accounts.get id = some a → time ≤ a.active activity id) :
    (st.prune activity now).Floor .empty id time := by
  refine ⟨fun x hx => (by rw [FinMap.get_empty] at hx; cases hx), fun a' ha' => ?_⟩
  obtain ⟨a, ha, rfl⟩ := State.of_prune_accounts ha'
  rw [Account.active_eq_max]
  have := h a ha
  dsimp only
  omega

end

/-! ## Steps -/

section
variable {crypto : Crypto} {cfg : Config} {codec : Codec crypto} {p p' : Process crypto}
  {l : Label crypto} {srv : Server crypto} {action : Action crypto} {id : GoString} {time : Int}

/-- What an action leaves: the accounts there were and the activity map of the handler; or, when
the new file is in place, pruned accounts and an empty map. -/
theorem Server.perform_accounts {srv' : Server crypto} {disk disk' : Option State}
    {outcome : Outcome} {answer : Answer crypto}
    (h : srv.perform disk outcome action = (answer, srv', disk')) :
    (srv'.state.accounts = srv.state.accounts ∧ srv'.activity = action.activity ∧ disk' = disk ∧
      ∀ activity cm, action = .commit activity cm → outcome = .failedBefore) ∨
    ∃ cm, action = .commit action.activity cm ∧ srv'.activity = .empty ∧
      srv'.state.accounts = (cm.next.prune action.activity cm.now).accounts := by
  cases action with
  | reply activity r =>
    cases h
    exact .inl ⟨rfl, rfl, rfl, fun _ _ heq => (by cases heq)⟩
  | commit activity cm =>
    have hint := fun st => State.accounts_eq_of_reset (cm.reset_interrupted st)
    cases outcome <;> cases h
    · exact .inl ⟨hint _, rfl, rfl, fun _ _ _ => rfl⟩
    · exact .inr ⟨cm, rfl, rfl, hint _⟩
    · exact .inr ⟨cm, rfl, rfl, rfl⟩

/-- No later step draws the identifier. -/
def Process.Drawn (p : Process crypto) (id : GoString) : Prop := id ∈ p.ids ∨ id = []

theorem Process.Drawn.not_mem (h : p.Drawn id) (hfresh : env.Fresh p.ids) :
    id ∉ env.ids := by
  intro hmem
  rcases h with hold | rfl
  · exact hfresh.unused id hmem hold
  · exact validID_ne_nil (hfresh.valid [] hmem) rfl

theorem Step.drawn (h : Step cfg codec p l p') (hid : p.Drawn id) : p'.Drawn id :=
  hid.imp_left fun hmem => h.ids_subset hmem

/-- A reading of the handler of a step is taken during the step. -/
theorem Step.within (h : Step cfg codec p l p') (henv : l.env = some env) (k : Nat) :
    p.clock ≤ env.clock.now k ∧ env.clock.now k ≤ p'.clock := by
  cases h with
  | call hwithin _ _ _ | result hwithin _ _ _ | start hwithin _ _ =>
    cases henv
    exact hwithin k 0
  | crash => cases henv

/-- What the handler of a step notes is later than what was known before. -/
theorem Step.floor_activity (h : Step cfg codec p l p') (hsrv : p.server = some srv)
    (hact : l.action cfg codec srv = some action) (hpast : time ≤ p.clock)
    (hf : srv.state.Floor srv.activity id time) : srv.state.Floor action.activity id time := by
  obtain ⟨env, -, -, -, henv, -, -, -⟩ := h.performs hsrv hact
  rcases (Label.touches hact henv).eq with heq | ⟨key, k, heq⟩
  · rwa [heq]
  · rw [heq]
    exact hf.set key (hpast.trans (h.within henv k).1)

/-- The snapshot a handler commits keeps the activity of the accounts. -/
theorem Step.floor_next (h : Step cfg codec p l p') (hp : p.Inv cfg) (hsrv : p.server = some srv)
    {cm : Commit crypto} (hact : l.action cfg codec srv = some (.commit action.activity cm))
    (hid : p.Drawn id) (hf : srv.state.Floor action.activity id time) :
    cm.next.Floor action.activity id time := by
  obtain ⟨c, hfits, -, -, hactivity, hcm⟩ := h.commits hp (False.elim : False → _) hsrv hact
  have hc : c.activity = action.activity := hactivity
  have hcommits := hcm cm (by rw [hc])
  rw [← hc] at hf ⊢
  exact hf.mutations hcommits.next (hid.not_mem hfits.fresh)

/-- The handler of a step keeps the activity of the accounts in memory, and what it writes to the
file is the memory with nothing left to write. -/
theorem Step.floor (h : Step cfg codec p l p') (hp : p.Inv cfg) (hsrv : p.server = some srv)
    (hact : l.action cfg codec srv = some action) (hid : p.Drawn id)
    (hf : srv.state.Floor action.activity id time) :
    ∃ srv', p'.server = some srv' ∧ srv'.state.Floor srv'.activity id time ∧
      (p'.disk = p.disk ∨ srv'.activity = .empty) := by
  obtain ⟨env, answer, srv', validations, -, -, hsrv', hperf⟩ := h.performs hsrv hact
  rcases Server.perform_accounts hperf with
    ⟨hsame, hactivity, hdisk, -⟩ | ⟨cm, heq, hempty, hpruned⟩
  · refine ⟨srv', hsrv', ?_, .inl hdisk⟩
    rw [hactivity]
    exact hf.congr hsame
  · refine ⟨srv', hsrv', ?_, .inr hempty⟩
    rw [heq] at hact
    have hnext := h.floor_next hp hsrv hact hid hf
    rw [hempty]
    exact (State.floor_prune hnext.active).congr hpruned

/-- The file has the accounts of the memory. -/
theorem Process.Inv.accounts_eq (hp : p.Inv cfg) {v : State} (hv : p.View cfg v) :
    v.accounts = (p.stored cfg).accounts :=
  State.accounts_eq_of_reset (hp.view_reset hv)

/-- When nothing is left to write the file keeps the activity of the accounts as the memory does. -/
theorem Process.Inv.floor_stored (hp : p.Inv cfg) (hsrv : p.server = some srv)
    (hempty : srv.activity = .empty) (hf : srv.state.Floor srv.activity id time) :
    (p.stored cfg).Floor .empty id time := by
  rw [hempty] at hf
  exact hf.congr (hp.accounts_eq (.memory hsrv)).symm

/-! ## The names of accounts -/

/-- Accounts are stored under their identifiers, but for the blank ones a new order leaves whose
account was just pruned. -/
def State.Named (st : State) : Prop :=
  ∀ id a, st.accounts.get id = some a → a.id = id ∨ a.id = []

/-- Accounts are stored under their identifiers. -/
theorem Mutation.named {c : Context crypto} {st st' : State} (hm : Mutation c st st')
    (h : st.Named) : st'.Named := by
  intro id a' ha'
  have hc := hm.accounts
  generalize st'.accounts = accounts at hc ha'
  cases hc with
  | same => exact h id a' ha'
  | pruned _ =>
    obtain ⟨a, ha, rfl⟩ := State.of_prune_accounts ha'
    exact h id a ha
  | added hn =>
    rcases FinMap.get_set_eq_some.1 ha' with ⟨rfl, rfl⟩ | ⟨-, hold⟩
    · exact .inl hn.id_eq
    · exact h id a' hold
  | noted =>
    rcases FinMap.get_set_eq_some.1 ha' with ⟨rfl, rfl⟩ | ⟨-, hold⟩
    · cases hg : st.accounts.get id with
      | none => exact .inr rfl
      | some a => exact h id a hg
    · exact h id a' hold
  | updated hu =>
    rcases FinMap.get_set_eq_some.1 ha' with ⟨rfl, rfl⟩ | ⟨-, hold⟩
    · rw [hu.id_eq]
      exact h id _ hu.get
    · exact h id a' hold

/-- So they are at every point of a run. -/
theorem Process.named_of_run {start : Int} {tr : Trace (Process crypto) (Label crypto)}
    (h : Run (Step cfg codec) (.initial start) tr p) : ∀ v, p.View cfg v → v.Named := by
  refine (h.invariant (I := fun q => q.Inv cfg ∧ ∀ v, q.View cfg v → v.Named) ⟨?_, ?_⟩
    fun q l q' hq hs => ⟨hs.inv hq.1, ?_⟩).2
  · exact Process.inv_initial cfg start
  · intro v hv id a ha
    cases hv with
    | stored =>
      have hnone : (State.initial cfg).accounts.get id = none := FinMap.get_empty id
      cases hnone.symm.trans ha
    | memory hsrv => cases hsrv
  · exact hs.preserves hq.1 (False.elim : False → _) hq.2
      fun c s s' _ _ hm hnamed => hm.named hnamed

/-! ## What a run remembers -/

/-- The memory accounts for activity that was recorded. -/
structure Process.Remembers (p : Process crypto) (e : GoString × Int) : Prop where
  drawn : p.Drawn e.1
  past : e.2 ≤ p.clock
  floor : ∃ srv, p.server = some srv ∧ srv.state.Floor srv.activity e.1 e.2

/-- The file accounts for activity that was recorded, and so does the memory while a server runs. -/
structure Process.Stores (cfg : Config) (p : Process crypto) (e : GoString × Int) : Prop where
  drawn : p.Drawn e.1
  past : e.2 ≤ p.clock
  stored : (p.stored cfg).Floor .empty e.1 e.2
  memory : ∀ srv, p.server = some srv → srv.state.Floor srv.activity e.1 e.2

/-- A new account is active from its creation on. -/
theorem Step.floor_created (h : Step cfg codec p l p') {signed : Request crypto} {source : GoString}
    {answer : Answer crypto} {srv' : Server crypto}
    (hl : l = .call (.newAccount signed source) env answer) (hsrv : p.server = some srv)
    (hsrv' : p'.server = some srv') (hnone : srv.state.accounts.get id = none)
    (hsome : (srv'.state.accounts.get id).isSome) :
    srv'.state.Floor srv'.activity id (env.clock.now 4) := by
  subst hl
  obtain ⟨_, _, srv₁, _, -, -, hsrv₁, hperf⟩ := h.performs hsrv rfl
  cases hsrv₁.symm.trans hsrv'
  rcases Server.perform_accounts hperf with ⟨hsame, -⟩ | ⟨cm, heq, hempty, hpruned⟩
  · rw [hsame, hnone] at hsome
    cases hsome
  obtain ⟨-, -, -, -, -, -, -, newID, contact, -, hnext⟩ := newAccount_commit codec heq
  rw [hempty]
  refine (State.floor_prune fun a ha => ?_).congr hpruned
  rw [hnext] at ha
  rcases FinMap.get_set_eq_some.1 ha with ⟨rfl, rfl⟩ | ⟨-, hold⟩
  · rw [Account.active_eq_max]
    exact Int.le_max_left _ _
  · rw [State.get_prune_accounts_none _ _ hnone] at hold
    cases hold

/-- The activity a step records of an account that is not new is noted in the map. -/
theorem Notes.activity {t : Transition (Process crypto) (Label crypto)} {action : Action crypto}
    (hn : Notes cfg codec t (id, time)) (hsrv : t.pre.server = some srv)
    (hact : t.label.action cfg codec srv = some action) :
    srv.state.accounts.get id = none ∨ srv.state.Floor action.activity id time := by
  generalize he : (id, time) = e at hn
  cases hn with
  | created hl hsrv₁ _ hnone _ =>
    cases he
    cases hsrv₁.symm.trans hsrv
    exact .inl hnone
  | authenticated hsrv₁ hact₁ _ hok =>
    cases he
    cases hsrv₁.symm.trans hsrv
    cases hact₁.symm.trans hact
    obtain ⟨-, -, -, heq⟩ := activeAccount_ok cfg hok
    rw [heq]
    exact .inr (State.floor_set _ _ _ _)
  | registered hl hsrv₁ _ hset =>
    cases he
    cases hsrv₁.symm.trans hsrv
    rw [hl] at hact
    cases hact
    refine .inr ?_
    show srv.state.Floor (newAccount cfg codec srv _ _ _).activity _ _
    rw [hset]
    exact State.floor_set _ _ _ _

/-- Activity that is noted is remembered. -/
theorem Step.remembers_set (h : Step cfg codec p l p') (hp : p.Inv cfg)
    (hsrv : p.server = some srv) {action : Action crypto} {k : Nat}
    (hact : l.action cfg codec srv = some action) (henv : l.env = some env) (hid : p.Drawn id)
    (hset : action.activity = srv.activity.set id (env.clock.now k)) :
    p'.Remembers (id, env.clock.now k) := by
  have hf : srv.state.Floor action.activity id (env.clock.now k) :=
    hset ▸ State.floor_set _ _ _ _
  obtain ⟨srv', hsrv', hfloor, -⟩ := h.floor hp hsrv hact hid hf
  exact ⟨h.drawn hid, (h.within henv k).2, srv', hsrv', hfloor⟩

/-- What a step records is remembered. -/
theorem Step.remembers_notes (h : Step cfg codec p l p') (hp : p.Inv cfg)
    (hnamed : ∀ v, p.View cfg v → v.Named)
    (hn : Notes cfg codec ⟨p, l, p'⟩ e) : p'.Remembers e := by
  cases hn with
  | created hl hsrv hsrv' hnone hsome =>
    cases hl
    obtain ⟨a, ha⟩ := Option.isSome_iff_exists.1 hsome
    have huses := ((h.inv hp).sound _ (.memory hsrv')).uses
    exact ⟨.inl (huses.accounts _ a ha), (h.within rfl 4).2, _, hsrv',
      h.floor_created rfl hsrv hsrv' hnone hsome⟩
  | authenticated hsrv hact henv hok =>
    obtain ⟨hget, -, -, hset⟩ := activeAccount_ok cfg hok
    have huses := (hp.sound _ (.memory hsrv)).uses
    exact h.remembers_set hp hsrv hact henv (.inl (huses.accounts _ _ hget)) hset
  | registered hl hsrv hfind hset =>
    cases hl
    obtain ⟨hget, -⟩ := FinMap.find_eq_some hfind
    have huses := (hp.sound _ (.memory hsrv)).uses
    have hid : p.Drawn _ := (hnamed _ (.memory hsrv) _ _ hget).imp_left
      fun heq => heq ▸ huses.accounts _ _ hget
    exact h.remembers_set hp hsrv rfl rfl hid hset

/-- What is remembered is remembered until the process dies. -/
theorem Step.remembers (h : Step cfg codec p l p') (hp : p.Inv cfg) (hlive : l ≠ .crash)
    (hr : p.Remembers e) : p'.Remembers e := by
  obtain ⟨hid, hpast, srv, hsrv, hf⟩ := hr
  rcases h.kinds with ⟨srv₁, action, hsrv₁, hact⟩ | ⟨hcrash, -⟩ | ⟨_, _, -, hdown, -⟩
  · cases hsrv₁.symm.trans hsrv
    obtain ⟨srv', hsrv', hfloor, -⟩ :=
      h.floor hp hsrv hact hid (h.floor_activity hsrv hact hpast hf)
    exact ⟨h.drawn hid, hpast.trans h.clock_le, srv', hsrv', hfloor⟩
  · exact absurd hcrash hlive
  · cases hdown.symm.trans hsrv

/-- What is stored stays stored. -/
theorem Step.stores (h : Step cfg codec p l p') (hp : p.Inv cfg)
    (hs : p.Stores cfg e) : p'.Stores cfg e := by
  have hid := h.drawn hs.drawn
  have hpast := hs.past.trans h.clock_le
  rcases h.kinds with ⟨srv, action, hsrv, hact⟩ | ⟨-, rfl⟩ | ⟨env, modTime, -, -, hnew⟩
  · have hf := h.floor_activity hsrv hact hs.past (hs.memory srv hsrv)
    obtain ⟨srv', hsrv', hfloor, hdisk⟩ := h.floor hp hsrv hact hs.drawn hf
    refine ⟨hid, hpast, ?_, fun srv₁ hsrv₁ => ?_⟩
    · rcases hdisk with hdisk | hempty
      · rw [Process.stored, hdisk]
        exact hs.stored
      · exact (h.inv hp).floor_stored hsrv' hempty hfloor
    · cases hsrv'.symm.trans hsrv₁
      exact hfloor
  · exact ⟨hid, hpast, hs.stored, fun _ hsrv => (by cases hsrv)⟩
  · rcases newServer_eq (hp.sound _ .stored) hnew with ⟨hdown, hdisk⟩ | ⟨next, rfl, hdisk, hserver⟩
    · refine ⟨hid, hpast, ?_, fun srv hsrv => (by cases hdown.symm.trans hsrv)⟩
      rw [Process.stored, hdisk]
      exact hs.stored
    · have hfloor : ((p.disk.getD (.initial cfg)).reset.prune .empty (env.clock.now 1)).Floor
          .empty e.1 e.2 := State.floor_prune hs.stored.active
      refine ⟨hid, hpast, ?_, fun srv hsrv => ?_⟩
      · rw [Process.stored, hdisk]
        exact hfloor
      · rcases hserver with hnone | hsome
        · cases hnone.symm.trans hsrv
        · cases hsome.symm.trans hsrv
          exact hfloor

/-- A commit stores what is remembered. -/
theorem Step.stores_flush (h : Step cfg codec p l p') (hp : p.Inv cfg)
    (hflush : Flushes cfg codec ⟨p, l, p'⟩) (hr : p'.Remembers e) :
    p'.Stores cfg e := by
  obtain ⟨hid, hpast, srv', hsrv', hf⟩ := hr
  obtain ⟨srv, activity, cm, env, hsrv, hact, henv, hout⟩ := hflush
  obtain ⟨env₁, answer, srv₁, _, henv₁, -, hsrv₁, hperf⟩ := h.performs hsrv hact
  cases henv₁.symm.trans henv
  cases hsrv₁.symm.trans hsrv'
  rcases Server.perform_accounts hperf with ⟨-, -, -, hbefore⟩ | ⟨cm, -, hempty, -⟩
  · exact absurd (hbefore activity cm rfl) hout
  · refine ⟨hid, hpast, (h.inv hp).floor_stored hsrv' hempty hf, fun srv₂ hsrv₂ => ?_⟩
    cases hsrv'.symm.trans hsrv₂
    exact hf

/-- At the end of every run the memory accounts for the activity recorded since the last crash, and
the file for the activity that was persisted. -/
theorem Process.retains {start : Int} {tr : Trace (Process crypto) (Label crypto)}
    (h : Run (Step cfg codec) (.initial start) tr p) (e : GoString × Int) :
    (Volatile (Notes cfg codec) Crashes tr e → p.Remembers e) ∧
      (Durable (Notes cfg codec) Crashes (Flushes cfg codec) tr e → p.Stores cfg e) := by
  refine h.retains (fun q => q.Remembers e) (fun q => q.Stores cfg e) (fun hrun hs hn => ?_)
    (fun hrun hs hlive hr => ?_) (fun hrun hs hst => ?_) fun hrun hs hflush hr => ?_
  · exact hs.remembers_notes (Process.inv_of_run hrun) (Process.named_of_run hrun) hn
  · exact hs.remembers (Process.inv_of_run hrun) hlive hr
  · exact hs.stores (Process.inv_of_run hrun) hst
  · exact hs.stores_flush (Process.inv_of_run hrun) hflush hr

/-! ## Accounts that disappear -/

/-- The accounts are still there under their identifiers. -/
def State.Retains (st st' : State) : Prop :=
  ∀ id a, st.accounts.get id = some a → ∃ a', st'.accounts.get id = some a' ∧ a'.id = a.id

/-- A call of `prune`: the snapshot, the activity map and the reading of the clock. -/
structure Pruning where
  state : State
  activity : FinMap GoString Int
  now : Int

/-- The calls of `prune` in a step whose result is published: by a commit, before an account or an
order is created, and by the start of a server. -/
inductive Prunes {crypto : Crypto} (cfg : Config) (codec : Codec crypto) (p : Process crypto) :
    Label crypto → Pruning → Prop
  | commit {l : Label crypto} {srv : Server crypto} {activity : FinMap GoString Int}
      {cm : Commit crypto} : p.server = some srv →
      l.action cfg codec srv = some (.commit activity cm) →
      Prunes cfg codec p l ⟨cm.next, activity, cm.now⟩
  | newAccount {srv : Server crypto} {signed : Request crypto} {source : GoString} {env : Env}
      {answer : Answer crypto} {activity : FinMap GoString Int} {cm : Commit crypto} :
      p.server = some srv → newAccount cfg codec srv env signed source = .commit activity cm →
      Prunes cfg codec p (.call (.newAccount signed source) env answer)
        ⟨srv.state, activity, env.clock.now 3⟩
  | newOrder {srv : Server crypto} {signed : Request crypto} {accountID source : GoString}
      {env : Env} {answer : Answer crypto} {activity : FinMap GoString Int} {cm : Commit crypto} :
      p.server = some srv →
      newOrder cfg codec srv env signed accountID source = .commit activity cm →
      Prunes cfg codec p (.call (.newOrder signed accountID source) env answer)
        ⟨srv.state, activity, env.clock.now 4⟩
  | start {env : Env} {modTime : Int} {st : State} :
      restore cfg crypto (env.clock.read 0) modTime p.disk = .ok st →
      Prunes cfg codec p (.start env modTime) ⟨st, .empty, env.clock.now 1⟩

variable {env : Env} {activity : FinMap GoString Int} {cm : Commit crypto} {st st' : State}

theorem State.Retains.of_eq (h : st'.accounts = st.accounts) : st.Retains st' :=
  fun _ a ha => ⟨a, h ▸ ha, rfl⟩

/-- An order that is noted keeps the accounts. -/
theorem State.retains_noteOrder (st : State) (accountID : GoString) (now : Int) :
    st.Retains (st.noteOrder accountID now) := by
  intro k b hb
  by_cases hk : k = accountID
  · subst hk
    refine ⟨{ b with recentOrders := b.recentOrders ++ [now] }, ?_, rfl⟩
    rw [State.noteOrder, hb]
    exact FinMap.get_set_self _ _ _
  · exact ⟨b, (FinMap.get_set_ne _ _ hk).trans hb, rfl⟩

/-- Pruning keeps an account, or drops it when it is idle and no order that is kept refers to it. -/
theorem State.prune_account (ha : st.accounts.get id = some a)
    (activity : FinMap GoString Int) (now : Int) :
    (∃ a', (st.prune activity now).accounts.get id = some a' ∧ a'.id = a.id) ∨
      ((st.prune activity now).accounts.get id = none ∧
        a.active activity id + accountIdleLifetime ≤ now ∧
        ∀ k o, st.orders.get k = some o → o.live now = true → o.accountID ≠ id) := by
  rcases State.get_prune_accounts activity now ha with hkept | hgone
  · exact .inl ⟨_, hkept, rfl⟩
  · exact .inr hgone

/-- An update leaves the times of an account alone. -/
theorem State.retains_updateAccount {a a' : Account} (hu : UpdatedAccount crypto st id a a') :
    st.Retains (st.updateAccount id a') := by
  obtain ⟨orders, auths, heq⟩ := st.updateAccount_frame id a'
  rw [heq]
  intro k b hb
  by_cases hk : k = id
  · subst hk
    cases hu.get.symm.trans hb
    exact ⟨a', FinMap.get_set_self _ _ _, hu.id_eq⟩
  · exact ⟨b, (FinMap.get_set_ne _ _ hk).trans hb, rfl⟩

theorem State.refreshCRL_accounts {createCRL : List RevocationEntry → Int → Option GoString}
    {now : Int} (h : st.refreshCRL crypto createCRL now = some st') :
    st'.accounts = st.accounts := by
  obtain ⟨_, _, _, -, -, -, -, -, -, rfl⟩ := State.refreshCRL_some h
  rfl

/-- The handlers that create nothing drop no account. -/
theorem Op.retains {op : Op crypto} (hcr : op.creates = false) (hinv : srv.state.Inv cfg crypto)
    (h : op.action cfg codec srv env = .commit activity cm) : srv.state.Retains cm.next := by
  cases op with
  | newAccount | newOrder => cases hcr
  | accountOrders | getOrder | getCertificate => exact absurd h (Op.reads codec (by simp))
  | account signed accountID id =>
    obtain ⟨-, -, -, -, a, a', hu, hnext⟩ := account_commit codec h
    exact hnext ▸ State.retains_updateAccount hu
  | keyChange signed accountID =>
    obtain ⟨-, -, -, a, a', hu, hnext⟩ := keyChange_commit codec h
    exact hnext ▸ State.retains_updateAccount hu
  | getAuthorization signed accountID id =>
    obtain ⟨-, -, -, a, -, hnext⟩ := getAuthorization_commit codec h
    obtain ⟨orders, auths, heq⟩ := srv.state.deactivateAuthorization_frame id a
    exact .of_eq (by rw [hnext, heq])
  | challenge signed accountID id =>
    obtain ⟨a, acc, -, -, -, -, -, -, -, hnext, -⟩ := challenge_commit codec h
    exact .of_eq (by rw [hnext])
  | finalize signed accountID id =>
    obtain ⟨-, -, -, ⟨o, p, -, -, hnext⟩ | ⟨s, certID, chain, leaf, -, -, -, -, hnext⟩⟩ :=
      finalize_commit codec h
    · exact .of_eq (by rw [hnext]; rfl)
    · exact .of_eq (by rw [hnext]; rfl)
  | revokeCertificate signed =>
    obtain ⟨-, -, -, k, cert, leaf, reason, -, -, -, hnext⟩ := revokeCertificate_commit codec hinv h
    have heq := State.refreshCRL_accounts hnext
    exact .of_eq heq
  | serveCRL head =>
    obtain ⟨-, -, hnext, -⟩ := serveCRL_commit h
    exact .of_eq (State.refreshCRL_accounts hnext)

/-- The end of a validation drops no account. -/
theorem challengeResult_retains {t : Ticket crypto} {returned : Option Target}
    (h : challengeResult cfg srv env t returned = .commit activity cm) :
    srv.state.Retains cm.next := by
  obtain ⟨a, -, -, -, -, -, -, hnext | hnext | ⟨target, acc, now, -, -, -, -, hnext⟩⟩ :=
    challengeResult_commit h
  · exact .of_eq (by rw [hnext])
  · exact .of_eq (by rw [hnext]; rfl)
  · exact .of_eq (by rw [hnext]; rfl)

/-- An account that a handler does not commit again was dropped by a prune of the memory. -/
theorem Step.kept (h : Step cfg codec p l p') (hp : p.Inv cfg) (hsrv : p.server = some srv)
    (hact : l.action cfg codec srv = some (.commit activity cm))
    (ha : srv.state.accounts.get id = some a) :
    (∃ a', cm.next.accounts.get id = some a' ∧ a'.id = a.id) ∨
      ∃ now, Prunes cfg codec p l ⟨srv.state, activity, now⟩ ∧
        (srv.state.prune activity now).accounts.get id = none := by
  have hs := hp.sound _ (.memory hsrv)
  cases h with
  | crash => cases hact
  | start => cases hsrv
  | result _ _ _ _ => exact .inl (challengeResult_retains (Option.some.inj hact) id a ha)
  | @call _ _ _ _ _ _ _ op env answer _ hfresh _ _ =>
    have hact := Option.some.inj hact
    cases op with
    | newAccount signed source =>
      obtain ⟨hactivity, -, -, -, -, -, -, newID, contact, hid, hnext⟩ :=
        newAccount_commit codec hact
      rcases State.prune_account ha activity (env.clock.now 3) with ⟨a', ha', heq⟩ | ⟨hgone, -⟩
      · have hne : id ≠ newID := fun heq =>
          hfresh.unused newID (Env.randomID_mem hid) (heq ▸ hs.uses.accounts id a ha)
        rw [hnext, ← hactivity]
        exact .inl ⟨a', (FinMap.get_set_ne _ _ hne).trans ha', heq⟩
      · exact .inr ⟨_, .newAccount hsrv hact, hgone⟩
    | newOrder signed accountID source =>
      obtain ⟨_, _, names, newID, auths, -, -, -, -, -, -, -, -, -, -, -, -, -, -, -, -, hnext⟩ :=
        newOrder_commit codec hact
      rcases State.prune_account ha activity (env.clock.now 4) with ⟨a', ha', heq⟩ | ⟨hgone, -⟩
      · obtain ⟨a'', ha'', heq'⟩ := State.retains_noteOrder
          ((srv.state.prune activity (env.clock.now 4)).addOrder _ auths) accountID
          (env.clock.now 6) id a' ha'
        exact .inl ⟨a'', hnext ▸ ha'', heq'.trans heq⟩
      · exact .inr ⟨_, .newOrder hsrv hact, hgone⟩
    | _ => exact .inl (Op.retains rfl hs.inv hact id a ha)

/-! ## Expiry -/

/-- The account disappears: it is no longer stored under its identifier. -/
def State.Loses (st st' : State) (id : GoString) : Prop :=
  ∃ a, st.accounts.get id = some a ∧ ∀ a', st'.accounts.get id = some a' → a'.id ≠ a.id

/-- What holds when `prune` drops an account: the activity that is known of is at least 30 days
old, and every order of the account is invalid or expired. -/
structure Pruning.Expires (pr : Pruning) (id : GoString) (known : Int → Prop) : Prop where
  account : (pr.state.accounts.get id).isSome
  idle : ∀ time, known time → time + 30 * (24 * hour) ≤ pr.now
  unreferenced : ∀ k o, pr.state.orders.get k = some o → o.accountID = id →
    o.status = .invalid ∨ o.expires ≤ pr.now

/-- `prune` drops an account only when it has expired. -/
theorem Pruning.expires {now : Int} {known : Int → Prop}
    (ha : st.accounts.get id = some a) (hgone : (st.prune activity now).accounts.get id = none)
    (hknown : ∀ time, known time → st.Floor activity id time) :
    (⟨st, activity, now⟩ : Pruning).Expires id known := by
  rcases State.prune_account ha activity now with ⟨a', ha', -⟩ | ⟨-, hidle, hfree⟩
  · cases ha'.symm.trans hgone
  refine ⟨Option.isSome_iff_exists.2 ⟨a, ha⟩, fun time htime => ?_, fun k o ho hid => ?_⟩
  · have := (hknown time htime).active a ha
    rw [accountIdleLifetime] at hidle
    dsimp only
    omega
  · by_cases hlive : o.live now = true
    · exact absurd hid (hfree k o ho hlive)
    · rw [Order.live_iff, not_and_or, not_not, Int.not_lt] at hlive
      exact hlive

variable {start : Int} {tr : Trace (Process crypto) (Label crypto)}

/-- What is known by the end of a handler accounts for the activity of a stored account before its
commit. -/
theorem Known.floor (hk : Known cfg codec (tr ++ [⟨p, l, p'⟩]) id time)
    (hrun : Run (Step cfg codec) (.initial start) tr p) (hs : Step cfg codec p l p')
    (hsrv : p.server = some srv) {action : Action crypto}
    (hact : l.action cfg codec srv = some action)
    (ha : srv.state.accounts.get id = some a) : srv.state.Floor action.activity id time := by
  obtain ⟨hmem, hsto⟩ := Process.retains hrun (id, time)
  have hvol : Volatile (Notes cfg codec) Crashes (tr ++ [⟨p, l, p'⟩]) (id, time) →
      srv.state.Floor action.activity id time := by
    intro hv
    rcases hv.of_snoc with hn | ⟨-, hv⟩
    · rcases hn.activity hsrv hact with hnone | hf
      · cases hnone.symm.trans ha
      · exact hf
    · obtain ⟨-, hpast, srv₁, hsrv₁, hf⟩ := hmem hv
      cases hsrv₁.symm.trans hsrv
      exact hs.floor_activity hsrv hact hpast hf
  rcases hk with hv | hd
  · exact hvol hv
  · rcases hd.of_snoc with hd | ⟨-, hv⟩
    · exact hs.floor_activity hsrv hact (hsto hd).past ((hsto hd).memory srv hsrv)
    · exact hvol hv

/-- An account that disappears in the step of a handler has expired. -/
theorem Step.expires_handler (hs : Step cfg codec p l p')
    (hrun : Run (Step cfg codec) (.initial start) tr p) (hsrv : p.server = some srv)
    {action : Action crypto} (hact : l.action cfg codec srv = some action) {srv' : Server crypto}
    (hsrv' : p'.server = some srv') (hloses : srv.state.Loses srv'.state id) :
    ∃ pr, Prunes cfg codec p l pr ∧
      pr.Expires id (Known cfg codec (tr ++ [⟨p, l, p'⟩]) id) := by
  have hp := Process.inv_of_run hrun
  obtain ⟨a, ha, hgone⟩ := hloses
  obtain ⟨_, _, srv₁, _, -, -, hsrv₁, hperf⟩ := hs.performs hsrv hact
  cases hsrv₁.symm.trans hsrv'
  rcases Server.perform_accounts hperf with ⟨hsame, -⟩ | ⟨cm, heq, -, hpruned⟩
  · exact absurd rfl (hgone a (hsame ▸ ha))
  have hid : p.Drawn id := .inl ((hp.sound _ (.memory hsrv)).uses.accounts id a ha)
  have hfloor : ∀ time, Known cfg codec (tr ++ [⟨p, l, p'⟩]) id time →
      srv.state.Floor action.activity id time := fun _ hk => hk.floor hrun hs hsrv hact ha
  rw [heq] at hact
  rcases hs.kept hp hsrv hact ha with ⟨a', ha', hname⟩ | ⟨now, hprunes, hnone⟩
  · -- the commit itself drops the account
    refine ⟨_, .commit hsrv hact, Pruning.expires ha' ?_ fun time hk =>
      hs.floor_next hp hsrv hact hid (hfloor time hk)⟩
    rcases State.prune_account ha' action.activity cm.now with ⟨a'', ha'', hname'⟩ | ⟨hnone, -⟩
    · exact absurd (hname'.trans hname) (hgone a'' (hpruned ▸ ha''))
    · exact hnone
  · exact ⟨_, hprunes, Pruning.expires ha hnone hfloor⟩

/-- What is known at a start is in the file. -/
theorem Known.stored {modTime : Int}
    (hk : Known cfg codec (tr ++ [⟨p, .start env modTime, p'⟩]) id time)
    (hrun : Run (Step cfg codec) (.initial start) tr p) (hdown : p.server = none) :
    p.Stores cfg (id, time) := by
  obtain ⟨hmem, hsto⟩ := Process.retains hrun (id, time)
  have hvol : ¬ Volatile (Notes cfg codec) Crashes (tr ++ [⟨p, .start env modTime, p'⟩])
      (id, time) := by
    intro hv
    rcases hv.of_snoc with hn | ⟨-, hv⟩
    · cases hn with
      | created hl | registered hl => cases hl
      | authenticated hsrv => cases hdown.symm.trans hsrv
    · obtain ⟨-, -, srv, hsrv, -⟩ := hmem hv
      cases hdown.symm.trans hsrv
  rcases hk with hv | hd
  · exact absurd hv hvol
  · rcases hd.of_snoc with hd | ⟨-, hv⟩
    · exact hsto hd
    · exact absurd hv hvol

/-- An account that disappears at a start has expired, as far as the file tells. -/
theorem Step.expires_start {modTime : Int} (hdown : p.server = none)
    (hnew : newServer cfg crypto env modTime p.disk = (p'.server, p'.disk))
    (hrun : Run (Step cfg codec) (.initial start) tr p)
    (hloses : (p.stored cfg).Loses (p'.stored cfg) id) :
    ∃ pr, Prunes cfg codec p (.start env modTime) pr ∧
      pr.Expires id (Known cfg codec (tr ++ [⟨p, .start env modTime, p'⟩]) id) := by
  have hsound := (Process.inv_of_run hrun).sound _ .stored
  obtain ⟨a, ha, hgone⟩ := hloses
  rcases newServer_cases hnew with ⟨-, hdisk⟩ | ⟨st, hst, hdisk, -⟩
  · rw [Process.stored, hdisk] at hgone
    exact absurd rfl (hgone a ha)
  have haccounts : st.accounts = (p.stored cfg).accounts := by
    rw [restore_ok hsound hst]
    rfl
  have ha' : st.accounts.get id = some a := haccounts ▸ ha
  refine ⟨_, .start hst, Pruning.expires ha' ?_ fun time hk =>
    (hk.stored hrun hdown).stored.congr haccounts⟩
  rcases State.prune_account ha' .empty (env.clock.now 1) with ⟨a'', ha'', hname⟩ | ⟨hnone, -⟩
  · rw [Process.stored, hdisk] at hgone
    exact absurd hname (hgone a'' ha'')
  · exact hnone

/-- An account that disappears in a step has expired. -/
theorem Step.expires (hs : Step cfg codec p l p')
    (hrun : Run (Step cfg codec) (.initial start) tr p)
    (hloses : (p.stored cfg).Loses (p'.stored cfg) id) :
    ∃ pr, Prunes cfg codec p l pr ∧
      pr.Expires id (Known cfg codec (tr ++ [⟨p, l, p'⟩]) id) := by
  have hp := Process.inv_of_run hrun
  rcases hs.kinds with ⟨srv, action, hsrv, hact⟩ | ⟨-, rfl⟩ | ⟨env, modTime, rfl, hdown, hnew⟩
  · obtain ⟨-, -, srv', -, -, -, hsrv', -⟩ := hs.performs hsrv hact
    obtain ⟨a, ha, hgone⟩ := hloses
    rw [← hp.accounts_eq (.memory hsrv)] at ha
    rw [← (hs.inv hp).accounts_eq (.memory hsrv')] at hgone
    exact hs.expires_handler hrun hsrv hact hsrv' ⟨a, ha, hgone⟩
  · obtain ⟨a, ha, hgone⟩ := hloses
    exact absurd rfl (hgone a ha)
  · exact Step.expires_start hdown hnew hrun hloses

/-- What holds of the step `t` that follows the steps `before`. -/
structure IdleExpiry (cfg : Config) (codec : Codec crypto)
    (before : Trace (Process crypto) (Label crypto))
    (t : Transition (Process crypto) (Label crypto)) : Prop where
  /-- An account disappears, from the memory or the file, only if a prune of the step finds that the
  activity the process still knows of is 30 days old and that no order that counts refers to it. -/
  expires : ∀ v v' id, t.pre.View cfg v → t.post.View cfg v' → v.Loses v' id →
    ∃ pr, Prunes cfg codec t.pre t.label pr ∧ pr.Expires id (Known cfg codec (before ++ [t]) id)
  /-- The memory accounts for all the activity the process knows of, whether a commit of the step
  fails or not. -/
  remembered : ∀ srv id time a, t.post.server = some srv →
    Known cfg codec (before ++ [t]) id time → srv.state.accounts.get id = some a →
    time ≤ a.active srv.activity id
  /-- A commit that fails before the new file is in place keeps the accounts and the map. -/
  failed : ∀ srv env activity cm, t.pre.server = some srv →
    t.label.action cfg codec srv = some (.commit activity cm) → t.label.env = some env →
    env.outcome = .failedBefore →
    ∃ srv', t.post.server = some srv' ∧ srv'.activity = activity ∧
      srv'.state.accounts = srv.state.accounts

/-- Active accounts do not expire, in any step of any run. -/
theorem idle_accounts_expire {before after : Trace (Process crypto) (Label crypto)}
    {t : Transition (Process crypto) (Label crypto)}
    (hrun : Run (Step cfg codec) (.initial start) (before ++ t :: after) p) :
    IdleExpiry cfg codec before t where
  expires v v' id hv hv' hloses := by
    obtain ⟨hbefore, hs, -⟩ := hrun.mid_inv
    have hp := Process.inv_of_run hbefore
    obtain ⟨a, ha, hgone⟩ := hloses
    rw [hp.accounts_eq hv] at ha
    rw [(hs.inv hp).accounts_eq hv'] at hgone
    exact hs.expires hbefore ⟨a, ha, hgone⟩
  remembered srv id time a hsrv hknown ha := by
    obtain ⟨hbefore, hs, -⟩ := hrun.mid_inv
    obtain ⟨hmem, hsto⟩ := Process.retains (hbefore.append (.cons hs (.nil _))) (id, time)
    rcases hknown with hv | hd
    · obtain ⟨-, -, srv₁, hsrv₁, hf⟩ := hmem hv
      cases hsrv₁.symm.trans hsrv
      exact hf.active a ha
    · exact ((hsto hd).memory srv hsrv).active a ha
  failed srv env activity cm hsrv hact henv hout := by
    obtain ⟨-, hs, -⟩ := hrun.mid_inv
    obtain ⟨env₁, answer, srv', validations, henv₁, -, hsrv', hperf⟩ := hs.performs hsrv hact
    cases henv₁.symm.trans henv
    rw [hout] at hperf
    obtain ⟨-, rfl, -⟩ : _ ∧ _ ∧ _ := by simpa only [Server.perform, Prod.mk.injEq] using hperf
    exact ⟨_, hsrv', rfl, State.accounts_eq_of_reset (cm.reset_interrupted _)⟩

end

/-- An account, a request it makes, and 30 days later an account of another key. -/
def sampleIdle : List (Event sampleCrypto × Scene) :=
  [(.start 5, { first := 15, last := 15 }),
    (.call (.newAccount (sampleRequest []) [1]),
      { first := 25, last := 25, random := [sampleRandom 1] }),
    (.call (.getAuthorization sampleSigned (sampleID 1) []), { first := 35, last := 35 }),
    (.call (.newAccount ⟨[1], [8], [], [8], rfl⟩ [2]), {
      first := 35 + 30 * (24 * hour)
      last := 35 + 30 * (24 * hour)
      random := [sampleRandom 2] })]

/-- The theorem at the last step of this run, in which the first account disappears. -/
theorem idle_accounts_expire_sample :
    ∃ before t, sampleTrace sampleIdle = before ++ [t] ∧
      (t.pre.stored sampleConfig).Loses (t.post.stored sampleConfig) (sampleID 1) ∧
      IdleExpiry sampleConfig sampleCodec before t := by
  have hrun : Run (Step sampleConfig sampleCodec) (.initial 1) (sampleTrace sampleIdle)
      (sampleEnd sampleIdle) := sampleTrace_run (by decide +kernel)
  have hlost : (sampleTrace sampleIdle).getLast?.any (fun t =>
      ((t.pre.stored sampleConfig).accounts.get (sampleID 1)).isSome &&
        ((t.post.stored sampleConfig).accounts.get (sampleID 1)).isNone) = true := by decide +kernel
  obtain ⟨t, hlast, hlost⟩ := (Option.any_eq_true _ _).1 hlost
  obtain ⟨before, heq⟩ := List.getLast?_eq_some_iff.1 hlast
  rw [heq] at hrun
  refine ⟨before, t, heq, ?_, idle_accounts_expire hrun⟩
  rw [Bool.and_eq_true, Option.isNone_iff_eq_none] at hlost
  obtain ⟨a, ha⟩ := Option.isSome_iff_exists.1 hlost.1
  exact ⟨a, ha, fun a' ha' => (by cases hlost.2.symm.trans ha')⟩

end InfraBox.Acme
