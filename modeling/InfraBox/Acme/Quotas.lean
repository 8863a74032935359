import InfraBox.Acme.Exec
import InfraBox.Acme.Issuance
import InfraBox.Lib.Window

/-!
# The ACME server: quotas

The server limits the accounts and orders a DHCP client creates in a rolling window, and the orders
of an account. It keeps the times of recent creations with the quota of the client and with the
account; they are filtered at several readings of the clock, and forgotten when empty or with the
account. `Logs` are the times of all creations of a run. What is kept of them is enough at every
point (`State.Counted`), so every window of a log is within its limit (`quotas_hold`).

The times of an account go with it. An account that is gone or blank takes no new orders, except in
the section that drops it, and then it has been idle for longer than the window.
-/

namespace InfraBox.Acme

/-! ## The creations of a run -/

section
variable (cfg : Config) {crypto : Crypto} (codec : Codec crypto)

/-- A creation that reaches the file: the client, the account of a new order, and the times recorded
with them. -/
structure Creation where
  source : GoString
  time : Int
  order : Option (GoString × Int)

/-- The creation of a step, if it commits one and the commit reaches the file. -/
def creation (u : Transition (Process crypto) (Label crypto)) : Option Creation :=
  match u.pre.server, u.label with
  | some srv, .call (.newAccount signed source) env _ =>
    match newAccount cfg codec srv env signed source with
    | .commit _ _ =>
      if env.outcome = .failedBefore then none else some ⟨source, env.clock.now 6, none⟩
    | .reply _ _ => none
  | some srv, .call (.newOrder signed accountID source) env _ =>
    match newOrder cfg codec srv env signed accountID source with
    | .commit _ _ =>
      if env.outcome = .failedBefore then none
      else some ⟨source, env.clock.now 8, some (accountID, env.clock.now 6)⟩
    | .reply _ _ => none
  | _, _ => none

/-- The recorded times of creations, by client and by account. -/
structure Logs where
  accounts : GoString → List Int
  orders : GoString → List Int
  recent : GoString → List Int

/-- A creation is logged. -/
def Logs.add (logs : Logs) (cr : Creation) : Logs :=
  match cr.order with
  | none =>
    { logs with accounts := fun source =>
        logs.accounts source ++ if source = cr.source then [cr.time] else [] }
  | some (accountID, time) =>
    { logs with
      orders := fun source => logs.orders source ++ if source = cr.source then [cr.time] else []
      recent := fun id => logs.recent id ++ if id = accountID then [time] else [] }

/-- The logs of a run. -/
def logs (tr : Trace (Process crypto) (Label crypto)) : Logs :=
  (tr.filterMap (creation cfg codec)).foldl Logs.add ⟨fun _ => [], fun _ => [], fun _ => []⟩

/-- The last step adds its creation to the logs. -/
theorem logs_snoc (tr : Trace (Process crypto) (Label crypto))
    (u : Transition (Process crypto) (Label crypto)) :
    logs cfg codec (tr ++ [u]) =
      ((creation cfg codec u).map (logs cfg codec tr).add).getD (logs cfg codec tr) := by
  rw [logs, List.filterMap_append, List.foldl_append]
  cases h : creation cfg codec u <;> simp [h, logs]

end

/-! ## What is kept of the logs -/

/-- The times a snapshot keeps are those of the logs that matter after `clock`. -/
structure State.Counted (clock : Int) (logs : Logs) (st : State) : Prop where
  accounts : ∀ source, Tracks accountRateWindow clock (logs.accounts source)
    ((st.leaseLimits.get source).getD default).accounts
  orders : ∀ source, Tracks orderRateWindow clock (logs.orders source)
    ((st.leaseLimits.get source).getD default).orders
  recent : ∀ id a, st.accounts.get id = some a → a.status = .valid →
    Tracks orderLifetime clock (logs.recent id) a.recentOrders

section
variable {clock clock' now : Int} {logs : Logs} {st st' : State}

theorem State.Counted.mono (h : st.Counted clock logs) (hle : clock ≤ clock') :
    st.Counted clock' logs :=
  ⟨fun source => (h.accounts source).mono hle, fun source => (h.orders source).mono hle,
    fun id a ha hst => (h.recent id a ha hst).mono hle⟩

/-- What is pruned is too old to count. -/
theorem State.Counted.prune (h : st.Counted clock logs) (activity : FinMap GoString Int)
    (hle : now ≤ clock) : (st.prune activity now).Counted clock logs := by
  -- a quota that is dropped has no recent times
  have hlimit : ∀ source, (((st.prune activity now).leaseLimits.get source).getD default) =
      ⟨recentTimes ((st.leaseLimits.get source).getD default).accounts (now - accountRateWindow),
        recentTimes ((st.leaseLimits.get source).getD default).orders (now - orderRateWindow)⟩ := by
    intro source
    rw [State.prune, FinMap.get_filterMap]
    cases st.leaseLimits.get source with
    | none => rfl
    | some limit =>
      rw [Option.bind_some, LeaseLimit.prune]
      split
      · next hempty =>
        rw [List.length_eq_zero_iff, List.length_eq_zero_iff] at hempty
        rw [Option.getD_some, hempty.1, hempty.2]
        rfl
      · rfl
  refine ⟨fun source => ?_, fun source => ?_, fun id a' ha' hst => ?_⟩
  · rw [hlimit]
    exact (h.accounts source).drop hle
  · rw [hlimit]
    exact (h.orders source).drop hle
  · obtain ⟨a, ha, rfl⟩ := State.of_prune_accounts ha'
    exact (h.recent id a ha hst).drop hle

/-- Only the quotas and the accounts matter. -/
theorem State.Counted.frame (h : st.Counted clock logs) (hl : st'.leaseLimits = st.leaseLimits)
    (ha : st'.accounts = st.accounts) : st'.Counted clock logs :=
  ⟨hl ▸ h.accounts, hl ▸ h.orders, ha ▸ h.recent⟩

/-- Storing an account that is not active, or whose log is kept. -/
theorem State.Counted.setAccount (h : st.Counted clock logs) {id : GoString} {a : Account}
    (ha : a.status = .valid → Tracks orderLifetime clock (logs.recent id) a.recentOrders) :
    { st with accounts := st.accounts.set id a }.Counted clock logs := by
  refine ⟨h.accounts, h.orders, fun k b hb hst => ?_⟩
  rcases FinMap.get_set_eq_some.1 hb with ⟨rfl, rfl⟩ | ⟨-, hold⟩
  · exact ha hst
  · exact h.recent k b hold hst

/-- A creation of an account is recorded with the client. -/
theorem State.Counted.recordAccount {clk : Clock} {p : Nat} {source : GoString}
    (h : st.Counted (clk.now p) logs) :
    (st.recordCreation clk p source true).Counted (clk.now p)
      (logs.add ⟨source, clk.now (p + 1), none⟩) := by
  have hle := clk.mono p 0 (p + 1) 0 (.inl (Nat.lt_succ_self p))
  refine ⟨fun k => ?_, fun k => ?_, h.recent⟩
  · simp only [State.recordCreation, FinMap.get_set, Logs.add]
    split
    · next heq =>
      subst heq
      exact ((h.accounts k).drop (Int.le_refl _)).snoc (by decide) hle
    · rw [List.append_nil]
      exact h.accounts k
  · simp only [State.recordCreation, FinMap.get_set, Logs.add]
    split
    · next heq =>
      subst heq
      exact h.orders k
    · exact h.orders k

/-- A creation of an order is recorded with the client and with the account, which may be a blank
one. -/
theorem State.Counted.recordOrder {clk : Clock} {p q : Nat} {source accountID : GoString}
    (h : st.Counted (clk.now q) logs) (hqp : q ≤ p) :
    ((st.noteOrder accountID (clk.now p)).recordCreation clk (p + 1) source false).Counted
      (clk.now (p + 1)) (logs.add ⟨source, clk.now (p + 2), some (accountID, clk.now p)⟩) := by
  have hle : clk.now q ≤ clk.now p := clk.mono q 0 p 0 (by omega)
  have hle₁ := clk.mono p 0 (p + 1) 0 (.inl (Nat.lt_succ_self p))
  have hle₂ := clk.mono (p + 1) 0 (p + 2) 0 (.inl (Nat.lt_succ_self _))
  have hlater := h.mono (hle.trans hle₁)
  refine ⟨fun k => ?_, fun k => ?_, fun id a ha hst => ?_⟩
  · simp only [State.recordCreation, State.noteOrder, FinMap.get_set, Logs.add]
    split
    · next heq =>
      subst heq
      exact hlater.accounts k
    · exact hlater.accounts k
  · simp only [State.recordCreation, State.noteOrder, FinMap.get_set, Logs.add]
    split
    · next heq =>
      subst heq
      exact ((hlater.orders k).drop (Int.le_refl _)).snoc (by decide) hle₂
    · rw [List.append_nil]
      exact hlater.orders k
  · simp only [Logs.add]
    rcases FinMap.get_set_eq_some.1 ha with ⟨rfl, rfl⟩ | ⟨hne, hold⟩
    · rw [if_pos rfl]
      cases hg : st.accounts.get id with
      | none =>
        rw [hg] at hst
        cases hst
      | some a =>
        rw [hg, Option.getD_some] at hst
        exact ((h.recent id a hg hst).snoc (by decide) hle).mono (hle.trans hle₁)
    · rw [if_neg hne, List.append_nil]
      exact hlater.recent id a hold hst

end

section
variable {crypto : Crypto} {c : Context crypto} {clock : Int} {logs : Logs} {st st' : State}

/-- Handlers that create nothing keep what is counted. -/
theorem Mutation.counted (hm : Mutation c st st') (hcr : c.creates = false)
    (htime : ∀ p i, c.env.clock.read p i ≤ clock) (hnew : ∀ id ∈ c.env.ids, logs.recent id = [])
    (h : st.Counted clock logs) : st'.Counted clock logs := by
  cases hm with
  | prune hnow =>
    obtain ⟨p, i, rfl⟩ := hnow
    exact h.prune _ (htime p i)
  | addAccount hn =>
    refine h.setAccount fun _ => ?_
    rw [hnew _ hn.id_mem, hn.recentOrders]
    exact tracks_nil
  | recordCreation _ _ _ hc | noteOrder _ _ _ hc => cases hcr.symm.trans hc
  | @updateAccount id a a' hu =>
    have hset : { st with accounts := st.accounts.set id a' }.Counted clock logs :=
      h.setAccount fun _ => hu.recentOrders ▸ h.recent id a hu.get hu.active
    obtain ⟨orders, auths, heq⟩ := st.updateAccount_frame id a'
    rw [heq]
    exact hset.frame rfl rfl
  | @deactivateAuthorization id a _ =>
    obtain ⟨orders, auths, heq⟩ := st.deactivateAuthorization_frame id a
    rw [heq]
    exact h.frame rfl rfl
  | @retry id _ =>
    obtain ⟨auths, heq⟩ := retryInterruptedChallenge_frame id st
    rw [heq]
    exact h.frame rfl rfl
  | relist _ _ hs =>
    obtain ⟨_, _, _, -, -, -, -, -, -, rfl⟩ := State.refreshCRL_some hs
    exact h.frame rfl rfl
  | _ => exact h.frame rfl rfl

end

/-! ## Runs -/

/-- What holds of the logs of a run at its end. -/
structure Process.Counted (cfg : Config) {crypto : Crypto} (p : Process crypto) (logs : Logs) :
    Prop where
  inv : p.Inv cfg
  views : ∀ v, p.View cfg v → v.Counted p.clock logs
  past : ∀ id, ∀ x ∈ logs.recent id, x ≤ p.clock ∧ id ∈ p.ids
  accounts : ∀ source, Bounded accountRateWindow maxLeaseAccounts (logs.accounts source)
  orders : ∀ source, Bounded orderRateWindow maxLeaseOrders (logs.orders source)
  recent : ∀ id, Bounded orderLifetime maxAccountOrders (logs.recent id)

section
variable {cfg : Config} {crypto : Crypto} {codec : Codec crypto} {p p' : Process crypto}
  {l : Label crypto} {logs : Logs}

/-- Nothing has been created at first. -/
theorem Process.counted_initial (cfg : Config) (start : Int) :
    (Process.initial start : Process crypto).Counted cfg
      ⟨fun _ => [], fun _ => [], fun _ => []⟩ where
  inv := Process.inv_initial cfg start
  views v hv := by
    cases hv with
    | stored => exact ⟨fun _ => tracks_nil, fun _ => tracks_nil, fun _ _ h => (by cases h)⟩
    | memory hsrv => cases hsrv
  past _ _ hx := by cases hx
  accounts _ := bounded_nil
  orders _ := bounded_nil
  recent _ := bounded_nil

/-- A fresh identifier is not in the logs. -/
theorem Process.Counted.recent_fresh (hp : p.Counted cfg logs) {env : Env} (hf : env.Fresh p.ids)
    {id : GoString} (hid : id ∈ env.ids) : logs.recent id = [] :=
  List.eq_nil_iff_forall_not_mem.2 fun x hx => hf.unused id hid (hp.past id x hx).2

/-- A step without a creation keeps what is counted, if its snapshots do. -/
theorem Process.Counted.step (hp : p.Counted cfg logs) (h : Step cfg codec p l p')
    (hviews : ∀ v, p'.View cfg v → v.Counted p'.clock logs) : p'.Counted cfg logs :=
  ⟨h.inv hp.inv, hviews, fun id x hx => ⟨(hp.past id x hx).1.trans h.clock_le,
    h.ids_subset (hp.past id x hx).2⟩, hp.accounts, hp.orders, hp.recent⟩

/-- A commit that does not happen or fails before the rename leaves the snapshots. -/
theorem Step.unpublished {op : Op crypto} {env : Env} {answer : Answer crypto} {srv : Server crypto}
    (h : Step cfg codec p (.call op env answer) p') (hsrv : p.server = some srv)
    (hnot : ∀ activity cm, op.action cfg codec srv env = .commit activity cm →
      cm.retry = none ∧ env.outcome = .failedBefore) {v : State} (hv : p'.View cfg v) :
    p.View cfg v := by
  cases h with
  | @call disk disk' _ srv' _ _ _ _ _ _ _ _ _ hperf =>
    cases hsrv
    have hsame : disk' = disk ∧ srv'.state = srv.state := by
      cases hact : op.action cfg codec srv env with
      | reply activity r =>
        rw [hact] at hperf
        cases hperf
        exact ⟨rfl, rfl⟩
      | commit activity cm =>
        obtain ⟨hretry, hout⟩ := hnot activity cm hact
        rw [hact, hout] at hperf
        cases hperf
        exact ⟨rfl, by rw [Commit.interrupted, hretry]⟩
    obtain ⟨rfl, hstate⟩ := hsame
    cases hv with
    | stored => exact .stored
    | memory hsrv' =>
      cases hsrv'
      rw [hstate]
      exact .memory rfl

theorem Step.counted_unpublished {op : Op crypto} {env : Env} {answer : Answer crypto}
    {srv : Server crypto} (h : Step cfg codec p (.call op env answer) p')
    (hsrv : p.server = some srv)
    (hnot : ∀ activity cm, op.action cfg codec srv env = .commit activity cm →
      cm.retry = none ∧ env.outcome = .failedBefore) (hp : p.Counted cfg logs) :
    p'.Counted cfg logs :=
  hp.step h fun v hv => (hp.views v (h.unpublished hsrv hnot hv)).mono h.clock_le

/-- Steps that create nothing. -/
theorem Step.counted_other (h : Step cfg codec p l p')
    (hcr : ∀ op env answer, l = .call op env answer → op.creates = false)
    (hp : p.Counted cfg logs) : p'.Counted cfg logs := by
  refine hp.step h (h.preserves hp.inv (False.elim : False → _)
    (fun v hv => (hp.views v hv).mono h.clock_le) fun c s s' hf _ hm => ?_)
  have hnone : c.creates = false := by
    obtain ⟨activity, hctx⟩ := hf.context
    cases l with
    | call op env answer =>
      cases hctx
      exact hcr op env answer rfl
    | result _ _ _ _ | start _ _ =>
      cases hctx
      rfl
    | crash => cases hctx
  exact hm.counted hnone (fun q i => (hf.within q i).2) fun id hid => hp.recent_fresh hf.fresh hid

theorem Step.call_within {op : Op crypto} {env : Env} {answer : Answer crypto}
    (h : Step cfg codec p (.call op env answer) p') :
    env.Within p.clock p'.clock ∧ env.Fresh p.ids := by
  cases h with
  | call hwithin hfresh _ _ => exact ⟨hwithin, hfresh⟩

/-- A client that may create something has fewer recent creations than its limit. -/
theorem State.Counted.underQuota {st : State} {clock now : Int} (h : st.Counted clock logs)
    {source : GoString} {accountCreation : Bool} (hq : st.UnderQuota now source accountCreation)
    (hle : clock ≤ now) :
    if accountCreation then
      ((logs.accounts source).filter fun x => now - accountRateWindow < x).length < maxLeaseAccounts
    else ((logs.orders source).filter fun x => now - orderRateWindow < x).length <
      maxLeaseOrders := by
  cases accountCreation with
  | true =>
    rw [if_pos rfl, ← (h.accounts source).recent hle]
    exact hq
  | false =>
    rw [if_neg Bool.false_ne_true, ← (h.orders source).recent hle]
    exact hq

/-- A new account is counted. -/
theorem Step.counted_newAccount {signed : Request crypto} {source : GoString} {env : Env}
    {answer : Answer crypto} {srv : Server crypto} {activity : FinMap GoString Int}
    {cm : Commit crypto} (h : Step cfg codec p (.call (.newAccount signed source) env answer) p')
    (hsrv : p.server = some srv)
    (hact : newAccount cfg codec srv env signed source = .commit activity cm)
    (hout : env.outcome ≠ .failedBefore) (hp : p.Counted cfg logs) :
    p'.Counted cfg (logs.add ⟨source, env.clock.now 6, none⟩) := by
  obtain ⟨hwithin, hfresh⟩ := h.call_within
  obtain ⟨rfl, hretry, hnow, -, -, hallow, -, id, contact, hid, hnext⟩ :=
    newAccount_commit codec hact
  have hst := hp.views _ (.memory hsrv)
  refine ⟨h.inv hp.inv, fun v hv => ?_, fun id x hx => ⟨(hp.past id x hx).1.trans h.clock_le,
    h.ids_subset (hp.past id x hx).2⟩, fun k => ?_, hp.orders, hp.recent⟩
  · rw [h.committed hsrv hact hretry hout hv, hnow, hnext]
    have hpruned := ((hst.mono (hwithin 3 0).1).prune srv.activity (Int.le_refl _)).mono
      (env.clock.mono 3 0 5 0 (by decide))
    have hempty : logs.recent id = [] := hp.recent_fresh hfresh (Env.randomID_mem hid)
    have hstored := fun a ha => (hpruned.recordAccount.setAccount ha :
      { (srv.state.prune srv.activity (env.clock.now 3)).recordCreation env.clock 5 source true with
        accounts := (srv.state.prune srv.activity (env.clock.now 3)).accounts.set id a }.Counted
          (env.clock.now 5) (logs.add ⟨source, env.clock.now 6, none⟩))
    refine (((hstored _ fun _ => ?_).mono (env.clock.mono 5 0 7 0 (by decide))).prune srv.activity
      (Int.le_refl _)).mono (hwithin 7 0).2
    rw [show (logs.add _).recent id = logs.recent id from rfl, hempty]
    exact tracks_nil
  · simp only [Logs.add]
    split
    · next heq =>
      subst heq
      exact (hp.accounts k).snoc (hst.underQuota (allowCreation_none hallow).2.1 (hwithin 0 0).1)
        (env.clock.mono 0 0 6 0 (by decide))
    · rw [List.append_nil]
      exact hp.accounts k

/-- A new order is counted. If its account is dropped, the account has been idle for longer than the
window. -/
theorem Step.counted_newOrder {signed : Request crypto} {accountID source : GoString} {env : Env}
    {answer : Answer crypto} {srv : Server crypto} {activity : FinMap GoString Int}
    {cm : Commit crypto}
    (h : Step cfg codec p (.call (.newOrder signed accountID source) env answer) p')
    (hsrv : p.server = some srv)
    (hact : newOrder cfg codec srv env signed accountID source = .commit activity cm)
    (hout : env.outcome ≠ .failedBefore) (hp : p.Counted cfg logs) :
    p'.Counted cfg (logs.add ⟨source, env.clock.now 8, some (accountID, env.clock.now 6)⟩) := by
  obtain ⟨hwithin, -⟩ := h.call_within
  obtain ⟨a, _, _, newID, auths, ha, hvalid, hactivity, -, -, -, hallow, -, hfew, -, -, -, -,
    hretry, hnow, -, hnext⟩ := newOrder_commit codec hact
  have hst := hp.views _ (.memory hsrv)
  have hstart : p.clock ≤ env.clock.now 0 := (hwithin 0 0).1
  have hprune : p.clock ≤ env.clock.now 4 := (hwithin 4 0).1
  have hpruned := (hst.mono hprune).prune activity (Int.le_refl _)
  -- the recent orders of the account that the prune has counted
  have hcount : ((logs.recent accountID).filter fun x =>
      env.clock.now 4 - orderLifetime < x).length < maxAccountOrders := by
    rcases State.get_prune_accounts activity (env.clock.now 4) ha with hkept | ⟨-, hidle, -⟩
    · rw [hkept, Option.getD_some] at hfew
      rw [← (hst.recent accountID a ha hvalid).recent hprune]
      exact hfew
    · rw [Account.active_eq_max, hactivity, FinMap.get_set_self, Option.getD_some] at hidle
      have hnone : ((logs.recent accountID).filter fun x => env.clock.now 4 - orderLifetime < x) =
          [] := by
        refine List.filter_eq_nil_iff.2 fun x hx => ?_
        have hpast := (hp.past accountID x hx).1
        have hlong : orderLifetime < accountIdleLifetime := by decide
        have hold : x ≤ env.clock.now 4 - orderLifetime := by omega
        simpa using hold
      rw [hnone]
      decide
  refine ⟨h.inv hp.inv, fun v hv => ?_, fun id x hx => ?_, hp.accounts, fun k => ?_, fun id => ?_⟩
  · rw [h.committed hsrv hact hretry hout hv, hnow, hnext]
    have hadded : ∀ o, ((srv.state.prune activity (env.clock.now 4)).addOrder o auths).Counted
        (env.clock.now 4) logs := fun _ => hpruned.frame rfl rfl
    exact ((((hadded _).recordOrder (by decide : 4 ≤ 6)).mono
      (env.clock.mono 7 0 9 0 (by decide))).prune activity (Int.le_refl _)).mono (hwithin 9 0).2
  · simp only [Logs.add, List.mem_append] at hx
    rcases hx with hx | hx
    · exact ⟨(hp.past id x hx).1.trans h.clock_le, h.ids_subset (hp.past id x hx).2⟩
    · split at hx
      · next heq =>
        subst heq
        cases List.mem_singleton.1 hx
        exact ⟨(hwithin 6 0).2,
          h.ids_subset ((hp.inv.sound _ (.memory hsrv)).uses.accounts id a ha)⟩
      · cases hx
  · simp only [Logs.add]
    split
    · next heq =>
      subst heq
      exact (hp.orders k).snoc (hst.underQuota (allowCreation_none hallow).2.1 (hwithin 1 0).1)
        (env.clock.mono 1 0 8 0 (by decide))
    · rw [List.append_nil]
      exact hp.orders k
  · simp only [Logs.add]
    split
    · next heq =>
      subst heq
      exact (hp.recent id).snoc hcount (env.clock.mono 4 0 6 0 (by decide))
    · rw [List.append_nil]
      exact hp.recent id

/-- Every step keeps what is counted, with its creation. -/
theorem Step.counted (h : Step cfg codec p l p') (hp : p.Counted cfg logs) :
    p'.Counted cfg (((creation cfg codec ⟨p, l, p'⟩).map logs.add).getD logs) := by
  have hother : (∀ op env answer, l = .call op env answer → op.creates = false) →
      p'.Counted cfg (((creation cfg codec ⟨p, l, p'⟩).map logs.add).getD logs) := fun hcr => by
    have hnone : creation cfg codec ⟨p, l, p'⟩ = none := by
      unfold creation
      split
      · cases hcr _ _ _ ‹_›
      · cases hcr _ _ _ ‹_›
      · rfl
    rw [hnone]
    exact h.counted_other hcr hp
  cases l with
  | call op env answer =>
    obtain ⟨srv, hsrv⟩ := h.call_server
    cases op with
    | newAccount signed source =>
      simp only [creation, hsrv]
      cases hact : newAccount cfg codec srv env signed source with
      | reply activity r =>
        exact h.counted_unpublished hsrv (fun _ _ hc => (by cases hact.symm.trans hc)) hp
      | commit activity cm =>
        dsimp only
        split
        · next hout =>
          refine h.counted_unpublished hsrv (fun _ cm' hc => ?_) hp
          cases hact.symm.trans hc
          exact ⟨(newAccount_commit codec hact).2.1, hout⟩
        · next hout => exact h.counted_newAccount hsrv hact hout hp
    | newOrder signed accountID source =>
      simp only [creation, hsrv]
      cases hact : newOrder cfg codec srv env signed accountID source with
      | reply activity r =>
        exact h.counted_unpublished hsrv (fun _ _ hc => (by cases hact.symm.trans hc)) hp
      | commit activity cm =>
        dsimp only
        split
        · next hout =>
          refine h.counted_unpublished hsrv (fun _ cm' hc => ?_) hp
          cases hact.symm.trans hc
          obtain ⟨_, _, _, _, _, -, -, -, -, -, -, -, -, -, -, -, -, -, hretry, -⟩ :=
            newOrder_commit codec hact
          exact ⟨hretry, hout⟩
        · next hout => exact h.counted_newOrder hsrv hact hout hp
    | _ => exact hother fun _ _ _ heq => (by cases heq; rfl)
  | _ => exact hother fun _ _ _ heq => (by cases heq)

/-- What is counted at the end of a run. -/
theorem Process.counted_of_run {start : Int}
    {tr : Trace (Process crypto) (Label crypto)}
    (hrun : Run (Step cfg codec) (.initial start) tr p) :
    p.Counted cfg (Acme.logs cfg codec tr) := by
  refine hrun.induction (P := fun tr p => p.Counted cfg (Acme.logs cfg codec tr))
    (Process.counted_initial cfg start) fun tr q l q' _ ih hs => ?_
  rw [logs_snoc]
  exact hs.counted ih

end

/-! ## Outstanding orders -/

/-- An order of the account that can still lead to a certificate. -/
def Order.Outstanding (accountID : GoString) (o : Order) : Prop :=
  o.accountID = accountID ∧ (o.status = .pending ∨ o.status = .ready)

instance (accountID : GoString) (o : Order) : Decidable (o.Outstanding accountID) :=
  inferInstanceAs (Decidable (_ ∧ _))

/-- No account has more outstanding orders than it may. -/
def State.FewOutstanding (st : State) : Prop := ∀ id, st.outstanding id ≤ maxAccountOrders

section
variable {crypto : Crypto} {c : Context crypto} {st st' : State}

/-- The count as the size of a map. -/
theorem State.outstanding_eq_size (st : State) (id : GoString) :
    st.outstanding id = (st.orders.filter fun _ o => o.Outstanding id).size := by
  rw [FinMap.filter, FinMap.size_filterMap, State.outstanding]
  refine List.countP_congr fun e _ => ?_
  by_cases h : e.2.Outstanding id
  · rw [if_pos (decide_eq_true h)]
    simpa [Order.Outstanding] using h
  · rw [if_neg (by rwa [decide_eq_true_eq])]
    simpa [Order.Outstanding] using h

/-- Only `newOrder` adds an order that is open. -/
theorem Mutation.fewOutstanding (hm : Mutation c st st') (hinv : st.Inv c.cfg crypto)
    (h : st.FewOutstanding) : st'.FewOutstanding := by
  intro id
  rw [State.outstanding_eq_size]
  rcases hm.orders hinv with ⟨o, auths, hn, heq⟩ | hkept
  · rw [heq]
    by_cases hid : o.accountID = id
    · -- the new order is one more
      have hsub : ((st.orders.set o.id o).filter fun _ o => o.Outstanding id).size ≤
          ((st.orders.filter fun _ o => o.Outstanding id).set o.id o).size := by
        refine FinMap.size_le_of_subset fun k hk => ?_
        obtain ⟨o', ho'⟩ := Option.isSome_iff_exists.1 hk
        obtain ⟨hget, hout⟩ := FinMap.get_filter_eq_some.1 ho'
        rw [FinMap.get_set]
        split
        · rfl
        · next hne =>
          rw [FinMap.get_set_ne _ _ hne] at hget
          rw [FinMap.get_filter_eq_some.2 ⟨hget, hout⟩]
          rfl
      have hfew := hn.few_orders
      rw [hid, State.outstanding_eq_size] at hfew
      exact (hsub.trans (FinMap.size_set_le _ _ _)).trans hfew
    · refine (FinMap.size_le_of_subset fun k hk => ?_).trans (st.outstanding_eq_size id ▸ h id)
      obtain ⟨o', ho'⟩ := Option.isSome_iff_exists.1 hk
      obtain ⟨hget, hout⟩ := FinMap.get_filter_eq_some.1 ho'
      rcases FinMap.get_set_eq_some.1 hget with ⟨rfl, rfl⟩ | ⟨-, hold⟩
      · exact absurd (of_decide_eq_true hout).1 hid
      · rw [FinMap.get_filter_eq_some.2 ⟨hold, hout⟩]
        rfl
  · refine (FinMap.size_le_of_subset fun k hk => ?_).trans (st.outstanding_eq_size id ▸ h id)
    obtain ⟨o', ho'⟩ := Option.isSome_iff_exists.1 hk
    obtain ⟨hget, hout⟩ := FinMap.get_filter_eq_some.1 ho'
    cases hkept k o' hget with
    | same hold =>
      rw [FinMap.get_filter_eq_some.2 ⟨hold, hout⟩]
      rfl
    | @changed o ho hopen hshape =>
      have hacc : o'.accountID = o.accountID := congrArg (fun s => s.2.1) hshape
      have hold : o.Outstanding id := ⟨hacc ▸ (of_decide_eq_true hout).1, hopen⟩
      rw [FinMap.get_filter_eq_some.2 ⟨ho, decide_eq_true hold⟩]
      rfl

end

/-! ## The quotas -/

section
variable {cfg : Config} {crypto : Crypto} {codec : Codec crypto} {p : Process crypto} {start : Int}
  {tr : Trace (Process crypto) (Label crypto)}

/-- The limit on open orders holds throughout. -/
theorem Process.fewOutstanding_of_run (hrun : Run (Step cfg codec) (.initial start) tr p) :
    ∀ v, p.View cfg v → v.FewOutstanding := by
  refine (hrun.invariant (I := fun p => p.Inv cfg ∧ ∀ v, p.View cfg v → v.FewOutstanding)
    ⟨Process.inv_initial cfg start, fun v hv => ?_⟩ fun q l q' ⟨hq, hfew⟩ hs => ⟨hs.inv hq, ?_⟩).2
  · cases hv with
    | stored => exact fun _ => Nat.zero_le _
    | memory hsrv => cases hsrv
  · exact hs.preserves hq (False.elim : False → _) hfew fun c s s' hf hinv hm =>
      hm.fewOutstanding (hf.eqs.1 ▸ hinv)

/-- The quotas of a run that ends in `p`, counting every creation that reaches the file. -/
structure QuotasHold (cfg : Config) (codec : Codec crypto)
    (tr : Trace (Process crypto) (Label crypto)) (p : Process crypto) : Prop where
  /-- At most 8 accounts of a client in any 24 hours. -/
  accounts : ∀ source t,
    windowCount (24 * hour) ((logs cfg codec tr).accounts source) t ≤ 8
  /-- At most 32 orders of a client in any hour, over all its accounts. -/
  orders : ∀ source t, windowCount hour ((logs cfg codec tr).orders source) t ≤ 32
  /-- At most 32 orders of an account in any 24 hours. -/
  recent : ∀ id t, windowCount (24 * hour) ((logs cfg codec tr).recent id) t ≤ 32
  /-- At most 32 unexpired pending or ready orders of an account, in memory and in the file. -/
  outstanding : ∀ v, p.View cfg v → ∀ id now,
    (v.orders.filter fun _ o => o.Outstanding id ∧ now < o.expires).size ≤ 32

/-- The quotas hold at every point of every run. -/
theorem quotas_hold (hrun : Run (Step cfg codec) (.initial start) tr p) :
    QuotasHold cfg codec tr p := by
  have hp := Process.counted_of_run hrun
  refine ⟨hp.accounts, hp.orders, hp.recent, fun v hv id now => ?_⟩
  have hfew := Process.fewOutstanding_of_run hrun v hv id
  rw [State.outstanding_eq_size] at hfew
  refine (FinMap.size_le_of_subset fun k hk => ?_).trans hfew
  obtain ⟨o, ho⟩ := Option.isSome_iff_exists.1 hk
  obtain ⟨hget, hout⟩ := FinMap.get_filter_eq_some.1 ho
  rw [FinMap.get_filter_eq_some.2 ⟨hget, decide_eq_true (of_decide_eq_true hout).1⟩]
  rfl

/-- The theorem at a run with an account and an order of it. -/
theorem quotas_hold_order :
    windowCount (24 * hour) ((logs sampleConfig sampleCodec (sampleTrace sampleOrder)).accounts [1])
        30 = 1 ∧
      windowCount (24 * hour)
        ((logs sampleConfig sampleCodec (sampleTrace sampleOrder)).recent (sampleID 1)) 30 = 1 ∧
      QuotasHold sampleConfig sampleCodec (sampleTrace sampleOrder) (sampleEnd sampleOrder) := by
  refine ⟨by decide +kernel, by decide +kernel, quotas_hold (sampleTrace_run ?_)⟩
  decide +kernel

end

end InfraBox.Acme
