import InfraBox.Acme.Quotas

/-!
# The ACME server: when to retry

A client that has used up its quota is told after how many seconds to try again. The number is
computed from the first of its recent creations, so it is right only if the history is in
chronological order and not longer than the limit. Both follow from what is kept of the log of the
client's creations (`Process.Counted`): filtering, appending, pruning and restarts keep the recent
part of it, and the log is in order (`logs_chronological`) and within its bounds.
-/

namespace InfraBox.Acme

/-! ## The refusal -/

/-- The client is refused for its own creations, and told to retry after `s` seconds. -/
def RefusedFor (st : State) (clock : Clock) (p : Nat) (source : GoString) (accountCreation : Bool)
    (s : Int) : Prop :=
  ∃ r, allowCreation st clock p source accountCreation = some r ∧
    r.body = .problem (failure 429 "rateLimited" "too many creations from this DHCP lease") ∧
    r.retryAfter = some s

/-- The check `allowCreation` makes on the client's own creations refuses it. -/
def RefusesClient (st : State) (clock : Clock) (p : Nat) (source : GoString)
    (accountCreation : Bool) : Prop := ∃ s, RefusedFor st clock p source accountCreation s

/-- The number of seconds that `rateLimited` writes. -/
def retrySeconds (retry : Int) : Int := max 1 ((retry + second - 1).tdiv second)

/-- The seconds are enough, and all but the first are needed. -/
theorem retrySeconds_bounds (retry : Int) :
    retry ≤ retrySeconds retry * second ∧
      (retrySeconds retry = 1 ∨ (retrySeconds retry - 1) * second < retry) := by
  have hsecond : second = 1000000000 := rfl
  unfold retrySeconds
  rcases Int.lt_or_le 0 retry with hpos | hneg
  · rw [Int.tdiv_eq_ediv_of_nonneg (by omega), hsecond]
    omega
  · have hzero : (retry + second - 1).tdiv second ≤ 0 := by
      rcases Int.lt_or_le (retry + second - 1) 0 with hlt | hge
      · rw [show retry + second - 1 = -(1 - second - retry) by omega, Int.neg_tdiv]
        exact Int.neg_nonpos_of_nonneg (Int.tdiv_nonneg (by omega) (by omega))
      · rw [Int.tdiv_eq_zero_of_lt hge (by omega)]
    rw [max_eq_left (by omega)]
    omega

section
variable {st : State} {clock : Clock} {p : Nat} {source : GoString} {accountCreation : Bool}
  {s : Int}

/-- The refusal in terms of the client's recent creations. -/
theorem refusedFor_iff :
    RefusedFor st clock p source accountCreation s ↔
      let q := ((st.leaseLimits.get source).getD default).quota accountCreation
      let recent := recentTimes q.1 (clock.now p - q.2.2)
      source ≠ [] ∧ q.2.1 ≤ recent.length ∧
        s = retrySeconds (recent.headD 0 + q.2.2 - clock.now (p + 1)) := by
  unfold RefusedFor allowCreation
  generalize ((st.leaseLimits.get source).getD default).quota accountCreation = q
  obtain ⟨times, maximum, window⟩ := q
  dsimp only
  -- the other refusals are told apart by the status and the text
  split_ifs with hsource hfull hcap
  · constructor
    · rintro ⟨r, hr, hbody, -⟩
      cases hr
      exact absurd (congrArg Problem.status (Body.problem.inj hbody)) (by decide)
    · exact fun h => absurd hsource h.1
  · constructor
    · rintro ⟨r, hr, -, hs⟩
      cases hr
      exact ⟨hsource, hfull, (Option.some.inj hs).symm⟩
    · rintro ⟨-, -, rfl⟩
      exact ⟨_, rfl, rfl, rfl⟩
  · constructor
    · rintro ⟨r, hr, hbody, -⟩
      cases hr
      exact absurd (congrArg Problem.detail (Body.problem.inj hbody)) (by decide)
    · exact fun h => absurd h.2.1 hfull
  · constructor
    · rintro ⟨r, hr, -⟩
      cases hr
    · exact fun h => absurd h.2.1 hfull

end

/-! ## The log is in order -/

/-- The log of the creations of a kind by a client. -/
def Logs.history (logs : Logs) (accountCreation : Bool) (source : GoString) : List Int :=
  if accountCreation then logs.accounts source else logs.orders source

section
variable {cfg : Config} {crypto : Crypto} {codec : Codec crypto} {p p' : Process crypto}
  {l : Label crypto} {cr : Creation} {logs : Logs} {source : GoString} {accountCreation : Bool}

/-- A creation adds to the history of its kind and client only. -/
theorem Logs.history_add :
    (logs.add cr).history accountCreation source =
      logs.history accountCreation source ++
        if source = cr.source ∧ accountCreation = cr.order.isNone then [cr.time] else [] := by
  cases cr with
  | mk creator time order =>
    cases order <;> cases accountCreation <;> simp [Logs.history, Logs.add]

/-- A creation is recorded at a time of its step. -/
theorem Step.creation_time (h : Step cfg codec p l p')
    (hcr : creation cfg codec ⟨p, l, p'⟩ = some cr) : p.clock ≤ cr.time ∧ cr.time ≤ p'.clock := by
  have hwithin : ∀ op env answer, l = .call op env answer → env.Within p.clock p'.clock := by
    rintro op env answer rfl
    exact h.call_within.1
  unfold creation at hcr
  split at hcr
  · next hlabel =>
    split at hcr
    · split_ifs at hcr
      cases hcr
      exact hwithin _ _ _ hlabel 6 0
    · cases hcr
  · next hlabel =>
    split at hcr
    · split_ifs at hcr
      cases hcr
      exact hwithin _ _ _ hlabel 8 0
    · cases hcr
  · cases hcr

/-- Creations are logged at clock readings, which do not decrease. -/
theorem logs_chronological {start : Int} {tr : Trace (Process crypto) (Label crypto)}
    (hrun : Run (Step cfg codec) (.initial start) tr p) (accountCreation : Bool)
    (source : GoString) :
    Chronological p.clock ((Acme.logs cfg codec tr).history accountCreation source) := by
  refine hrun.induction
    (P := fun tr p =>
      Chronological p.clock ((Acme.logs cfg codec tr).history accountCreation source))
    ?_ fun tr q l q' _ ih hs => ?_
  · cases accountCreation <;> exact chronological_nil
  · rw [logs_snoc]
    cases hcr : creation cfg codec ⟨q, l, q'⟩ with
    | none => exact ih.mono hs.clock_le
    | some cr =>
      obtain ⟨hfrom, hto⟩ := hs.creation_time hcr
      rw [Option.map_some, Option.getD_some, Logs.history_add]
      split
      · exact (ih.snoc hfrom).mono hto
      · rw [List.append_nil]
        exact ih.mono hs.clock_le

/-- Without a creation of the client its history stays. -/
theorem history_append {tr tr' : Trace (Process crypto) (Label crypto)}
    (h : ∀ u ∈ tr', ∀ cr, creation cfg codec u = some cr → cr.source ≠ source) :
    (Acme.logs cfg codec (tr ++ tr')).history accountCreation source =
      (Acme.logs cfg codec tr).history accountCreation source := by
  induction tr' using List.reverseRecOn with
  | nil => rw [List.append_nil]
  | append_singleton tr' u ih =>
    rw [← List.append_assoc, logs_snoc]
    have ih := ih fun u hu => h u (List.mem_append_left _ hu)
    cases hcr : creation cfg codec u with
    | none => exact ih
    | some cr =>
      have hother : source ≠ cr.source := (h u (by simp) cr hcr).symm
      rw [Option.map_some, Option.getD_some, Logs.history_add, if_neg fun hc => hother hc.1,
        List.append_nil, ih]

/-! ## The recent creations of a client -/

/-- The bound and the window of a kind of creation. -/
def quotaBound (accountCreation : Bool) : Nat × Int := (LeaseLimit.quota default accountCreation).2

theorem quota_snd (limit : LeaseLimit) (accountCreation : Bool) :
    (limit.quota accountCreation).2 = quotaBound accountCreation := by
  cases accountCreation <;> rfl

section
variable {start : Int} {tr : Trace (Process crypto) (Label crypto)}
  {srv : Server crypto} {clock : Clock} {i : Nat} {s : Int}

/-- The creations of the log that `allowCreation` counts at a time. -/
def recentHistory (logs : Logs) (accountCreation : Bool) (source : GoString) (now : Int) :
    List Int :=
  (logs.history accountCreation source).filter fun x => now - (quotaBound accountCreation).2 < x

/-- The refusal in terms of the log. -/
theorem refusedFor_iff_history (hrun : Run (Step cfg codec) (.initial start) tr p)
    (hsrv : p.server = some srv) (hclock : p.clock ≤ clock.now i) :
    RefusedFor srv.state clock i source accountCreation s ↔
      let recent := recentHistory (Acme.logs cfg codec tr) accountCreation source (clock.now i)
      source ≠ [] ∧ (quotaBound accountCreation).1 ≤ recent.length ∧
        s = retrySeconds
          (recent.headD 0 + (quotaBound accountCreation).2 - clock.now (i + 1)) := by
  have hv := (Process.counted_of_run hrun).views _ (.memory hsrv)
  have hrecent : recentTimes
      (((srv.state.leaseLimits.get source).getD default).quota accountCreation).1
      (clock.now i - (quotaBound accountCreation).2) =
        recentHistory (Acme.logs cfg codec tr) accountCreation source (clock.now i) := by
    cases accountCreation with
    | true => exact (hv.accounts source).recent hclock
    | false => exact (hv.orders source).recent hclock
  rw [refusedFor_iff]
  simp only [quota_snd, hrecent]

/-- There are at most as many recent creations as allowed. -/
theorem length_recentHistory_le (hrun : Run (Step cfg codec) (.initial start) tr p) {now : Int}
    (hle : p.clock ≤ now) :
    (recentHistory (Acme.logs cfg codec tr) accountCreation source now).length ≤
      (quotaBound accountCreation).1 := by
  have hp := Process.counted_of_run hrun
  have hbound : Bounded (quotaBound accountCreation).2 (quotaBound accountCreation).1
      ((Acme.logs cfg codec tr).history accountCreation source) := by
    cases accountCreation with
    | true => exact hp.accounts source
    | false => exact hp.orders source
  exact hbound.length_recent_le (logs_chronological hrun accountCreation source) hle

/-- Retry-After is sufficient and tight. When the server refuses a client for its own creations and
announces `s` seconds, and none of the client's creations succeeds meanwhile, it does not refuse the
client for that `s` seconds after the announcement or later, and does until `s - 1` seconds after
it. -/
theorem retryAfter_exact (hrun : Run (Step cfg codec) (.initial start) tr p)
    (hsrv : p.server = some srv) (hclock : p.clock ≤ clock.now i)
    (hrefused : RefusedFor srv.state clock i source accountCreation s)
    {tr' : Trace (Process crypto) (Label crypto)} {srv' : Server crypto}
    (hmeanwhile : Run (Step cfg codec) p tr' p')
    (hnone : ∀ u ∈ tr', ∀ cr, creation cfg codec u = some cr → cr.source ≠ source)
    (hsrv' : p'.server = some srv') {clock' : Clock} {j : Nat} (hclock' : p'.clock ≤ clock'.now j)
    (hlater : clock.now (i + 1) ≤ clock'.now j) :
    (clock.now (i + 1) + s * second ≤ clock'.now j →
      ¬ RefusesClient srv'.state clock' j source accountCreation) ∧
    (clock'.now j < clock.now (i + 1) + (s - 1) * second →
      RefusesClient srv'.state clock' j source accountCreation) := by
  obtain ⟨hsource, hfull, hs⟩ := (refusedFor_iff_history hrun hsrv hclock).1 hrefused
  have hfew : (recentHistory (Acme.logs cfg codec tr) accountCreation source
      (clock.now i)).length ≤ (quotaBound accountCreation).1 := length_recentHistory_le hrun hclock
  have hretry := retrySeconds_bounds
    ((recentHistory (Acme.logs cfg codec tr) accountCreation source (clock.now i)).headD 0 +
      (quotaBound accountCreation).2 - clock.now (i + 1))
  rw [← hs] at hretry
  have hnow : clock.now i ≤ clock'.now j :=
    (clock.mono i 0 (i + 1) 0 (.inl (Nat.lt_succ_self i))).trans hlater
  have hrefuses : RefusesClient srv'.state clock' j source accountCreation ↔
      (quotaBound accountCreation).1 ≤
        (recentHistory (Acme.logs cfg codec tr) accountCreation source (clock'.now j)).length := by
    simp only [RefusesClient, refusedFor_iff_history (hrun.append hmeanwhile) hsrv' hclock',
      recentHistory, history_append hnone]
    simp [hsource]
  rw [hrefuses]
  have hpos : 0 < (quotaBound accountCreation).1 := by cases accountCreation <;> decide
  -- the first of the recent creations decides
  obtain ⟨first, rest, hrecent⟩ := List.exists_cons_of_length_pos (hpos.trans_le hfull)
  rw [hrecent, List.headD_cons] at hretry
  constructor
  · intro hafter
    have hfewer := length_recent_lt hrecent hnow (by omega)
    exact Nat.not_le.2 (hfewer.trans_le hfew)
  · intro hbefore
    have hin : clock'.now j < first + (quotaBound accountCreation).2 := by
      rcases hretry.2 with rfl | hlt
      · rw [Int.sub_self, Int.zero_mul] at hbefore
        omega
      · omega
    have hsame := (logs_chronological hrun accountCreation source).recent_eq hrecent hnow hin
    rw [recentHistory, hsame]
    exact hfull

end

end

/-- Eight accounts of one client, each of another key, in the first eight seconds. -/
def sampleAccounts : List (Event sampleCrypto × Scene) :=
  (.start 5, { first := 11, last := 11 }) :: (List.range 8).map fun i =>
    (.call (.newAccount ⟨[1], [.ofNat (i + 1)], [], [.ofNat (i + 1)], rfl⟩ [1]), {
      first := (i + 1) * second
      last := (i + 1) * second
      ordered := by unfold second; omega
      random := [sampleRandom (.ofNat (i + 1))] })

/-- A clock that reads one nanosecond and `n` more. -/
def sampleMoment (n : Nat) : Clock :=
  ({ first := 1 + n, last := 1 + n, ordered := by omega } : Scene).clock

/-- The theorem after these: nine seconds later another account is refused, until a day after the
first one, in seconds rounded up. -/
theorem retryAfter_exact_sample :
    ∃ srv, (sampleEnd sampleAccounts).server = some srv ∧
      RefusedFor srv.state (sampleMoment 9000000000) 0 [1] true 86392 ∧
      RefusesClient srv.state (sampleMoment 86399999999999) 0 [1] true ∧
      ¬ RefusesClient srv.state (sampleMoment 86401000000000) 0 [1] true := by
  have hrun : Run (Step sampleConfig sampleCodec) (.initial 1) (sampleTrace sampleAccounts)
      (sampleEnd sampleAccounts) := sampleTrace_run (by decide +kernel)
  have hanswer : (sampleEnd sampleAccounts).server.any (fun srv =>
      allowCreation srv.state (sampleMoment 9000000000) 0 [1] true =
        some (rateLimited (86392 * second) "too many creations from this DHCP lease")) = true := by
    decide +kernel
  have hclock : (sampleEnd sampleAccounts).clock = 8 * second := by decide +kernel
  obtain ⟨srv, hsrv, hanswer⟩ := (Option.any_eq_true _ _).1 hanswer
  have hrefused : RefusedFor srv.state (sampleMoment 9000000000) 0 [1] true 86392 :=
    ⟨_, of_decide_eq_true hanswer, rfl, rfl⟩
  refine ⟨srv, hsrv, hrefused, ?_, ?_⟩
  · exact (retryAfter_exact hrun hsrv (hclock.trans_le (by decide)) hrefused (.nil _) (by simp) hsrv
      (hclock.trans_le (by decide)) (by decide)).2 (by decide)
  · exact (retryAfter_exact hrun hsrv (hclock.trans_le (by decide)) hrefused (.nil _) (by simp) hsrv
      (hclock.trans_le (by decide)) (by decide)).1 (by decide)

end InfraBox.Acme
