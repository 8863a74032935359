import InfraBox.Acme.Exec
import InfraBox.Acme.Runs

/-!
# The ACME server: crash consistency

The file and the memory of a server agree between any two operations: recovering the file gives the
memory with its interrupted challenges reset. An operation whose commit fails before the rename
changes nothing but the challenge it serves, and an operation that reports success has its snapshot
in the file.
-/

namespace InfraBox.Acme

section
variable (cfg : Config) {crypto : Crypto} (codec : Codec crypto)

/-- The operation went on: it answers without an error, or calls the validator. -/
def Answer.Success : Answer crypto → Prop
  | .respond r => r.status < 400
  | .validate _ => True

/-- What an action leaves in memory when its commit succeeds. -/
def Action.published (st : State) : Action crypto → State
  | .reply _ _ => st
  | .commit activity cm => cm.next.prune activity cm.now

/-- An operation leaves the memory `srv'` and, if it commits, the file. -/
structure Consistent (t : Transition (Process crypto) (Label crypto)) (srv srv' : Server crypto)
    (action : Action crypto) (env : Env) (answer : Answer crypto) : Prop where
  /-- A commit that fails before the rename changes at most the challenge that is served. -/
  failed : env.outcome = .failedBefore → t.post.disk = t.pre.disk ∧
    (srv'.state = srv.state ∨ ∃ id, t.label.challenged = some id ∧
      srv'.state = retryInterruptedChallenge id srv.state)
  /-- What an operation has done when it reports success is in the file. -/
  durable : answer.Success → srv'.state = action.published srv.state ∧
    ((∃ activity r, action = .reply activity r ∧ t.post.disk = t.pre.disk) ∨
      t.post.disk = some (action.published srv.state))

/-- The file and the memory at the end of a run, and what each of its operations did to them. -/
structure CrashConsistent (tr : Trace (Process crypto) (Label crypto))
    (p : Process crypto) : Prop where
  recovered : ∀ srv, p.server = some srv → ∃ st, p.disk = some st ∧
    ∀ now modTime, st.recover now modTime = srv.state.reset
  operation : ∀ t ∈ tr, ∀ srv action, t.pre.server = some srv →
    t.label.action cfg codec srv = some action →
    ∃ env answer srv', t.label.env = some env ∧ t.label.answer = some answer ∧
      t.post.server = some srv' ∧ Consistent t srv srv' action env answer

end

section
variable {cfg : Config} {crypto : Crypto} {codec : Codec crypto} {p p' : Process crypto}
  {l : Label crypto}

theorem not_success_internalError : ¬ (Answer.respond internalError : Answer crypto).Success := by
  show ¬ internalError.status < 400
  decide

/-- Every operation is consistent. -/
theorem Step.consistent (h : Step cfg codec p l p') (hp : p.Inv cfg) {srv : Server crypto}
    {action : Action crypto} (hsrv : p.server = some srv)
    (hact : l.action cfg codec srv = some action) :
    ∃ env answer srv', l.env = some env ∧ l.answer = some answer ∧ p'.server = some srv' ∧
      Consistent ⟨p, l, p'⟩ srv srv' action env answer := by
  obtain ⟨env, answer, srv', validations, henv, hans, hsrv', hperf⟩ := h.performs hsrv hact
  refine ⟨env, answer, srv', henv, hans, hsrv', ?_⟩
  cases action with
  | reply activity r =>
    simp only [Server.perform, Prod.mk.injEq] at hperf
    obtain ⟨-, rfl, hdisk⟩ := hperf
    exact ⟨fun _ => ⟨hdisk.symm, .inl rfl⟩, fun _ => ⟨rfl, .inl ⟨activity, r, rfl, hdisk.symm⟩⟩⟩
  | commit activity cm =>
    cases hout : env.outcome with
    | failedBefore =>
      simp only [hout, Server.perform, Prod.mk.injEq] at hperf
      obtain ⟨rfl, rfl, hdisk⟩ := hperf
      refine ⟨fun _ => ⟨hdisk.symm, ?_⟩, fun hok => absurd hok not_success_internalError⟩
      obtain ⟨c, -, -, hc, hactivity, hcm⟩ := h.commits hp (False.elim : False → _) hsrv hact
      have hretry := (hcm cm (by rw [hactivity]; rfl)).retry.trans hc
      unfold Commit.interrupted
      split
      · exact .inl rfl
      · next id hid => exact .inr ⟨id, hretry.symm.trans hid, rfl⟩
    | failedAfter =>
      simp only [hout, Server.perform, Prod.mk.injEq] at hperf
      obtain ⟨rfl, -, -⟩ := hperf
      exact ⟨fun hbefore => by simp [hout] at hbefore,
        fun hok => absurd hok not_success_internalError⟩
    | committed =>
      simp only [hout, Server.perform, Prod.mk.injEq] at hperf
      obtain ⟨-, rfl, hdisk⟩ := hperf
      exact ⟨fun hbefore => by simp [hout] at hbefore, fun _ => ⟨rfl, .inr hdisk.symm⟩⟩

/-- Crash consistency. -/
theorem crash_consistent {start : Int} {tr : Trace (Process crypto) (Label crypto)}
    (hrun : Run (Step cfg codec) (.initial start) tr p) : CrashConsistent cfg codec tr p where
  recovered srv hsrv := by
    have hp := Process.inv_of_run hrun
    obtain ⟨st, hdisk, heq⟩ := hp.synced srv hsrv
    have hs := hp.sound _ .stored
    rw [Process.stored, hdisk, Option.getD_some] at hs
    exact ⟨st, hdisk, fun now modTime => (hs.recover now modTime).trans heq⟩
  operation t ht srv action hsrv hact := by
    obtain ⟨before, after, rfl, hbefore, hstep, -⟩ := hrun.mem_inv ht
    exact hstep.consistent (Process.inv_of_run hbefore) hsrv hact

/-- The theorem at a run that ends while a challenge is being validated. -/
theorem crash_consistent_validating :
    let script := sampleOrder ++ sampleIssue.take 1
    (sampleEnd script).server.any (·.validations.length = 1) = true ∧
      CrashConsistent sampleConfig sampleCodec (sampleTrace script) (sampleEnd script) := by
  refine ⟨by decide +kernel, crash_consistent (sampleTrace_run ?_)⟩
  decide +kernel

end

end InfraBox.Acme
