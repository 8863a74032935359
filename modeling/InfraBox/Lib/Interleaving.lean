import InfraBox.Lib.Run
import Mathlib.Logic.Function.Basic

/-!
# Processes that share a state

A process is a tree of calls (`Proc`): it names an operation and goes on with the answer. Processes
run interleaved on a shared state (`Pool.Step`): at any time a process starts, performs its next
operation, ends or is killed, and a crash ends them all.

Such systems are verified by rely and guarantee. A `Protocol` has an invariant of the shared state
and says how a process may change it. `Protocol.Valid` is a triple for one process whose assertions
survive what the protocol lets the others do; it is proved along the process alone, with rules for
sequences, failures and deferred calls. `Pool.Sound.run` is its meaning: in every run the invariant
holds, each operation is one that the protocol allows, and a process that ends has its
postcondition.
-/

namespace InfraBox

/-- A process that calls operations `Op`, answered by `Res`, and ends with a result. -/
inductive Proc (Op : Type) (Res : Op → Type) (α : Type) where
  | done (a : α)
  | call (op : Op) (next : Res op → Proc Op Res α)

namespace Proc

variable {Op : Type} {Res : Op → Type} {α β ε ε' : Type}

def bind : Proc Op Res α → (α → Proc Op Res β) → Proc Op Res β
  | .done a, f => f a
  | .call op next, f => .call op fun r => (next r).bind f

instance : Monad (Proc Op Res) where
  pure := .done
  bind := .bind

/-- The process that performs one operation. -/
def perform (op : Op) : Proc Op Res (Res op) := .call op .done

/-- The body, and afterwards the deferred process, whether or not the body failed. -/
def deferring (deferred : Proc Op Res Unit) (body : ExceptT ε (Proc Op Res) α) :
    ExceptT ε (Proc Op Res) α :=
  ExceptT.mk (body.run.bind fun r => deferred.bind fun _ => .done r)

/-- The outcome of a process that may fail. -/
def attempt (body : ExceptT ε (Proc Op Res) α) : ExceptT ε (Proc Op Res) (Except ε α) :=
  ExceptT.mk (body.run.bind fun r => .done (.ok r))

/-- A process with other errors. -/
def mapError (f : ε → ε') (body : ExceptT ε (Proc Op Res) α) : ExceptT ε' (Proc Op Res) α :=
  ExceptT.mk (body.run.bind fun r => .done (r.mapError f))

/-- A process with another result. -/
def mapOk (f : α → β) (body : ExceptT ε (Proc Op Res) α) : ExceptT ε (Proc Op Res) β :=
  ExceptT.mk (body.run.bind fun r => .done (r.map f))

/-- A result that is known. -/
def ofExcept (r : Except ε α) : ExceptT ε (Proc Op Res) α := ExceptT.mk (.done r)

/-- A failure under a condition. -/
def reject (c : Bool) (err : ε) : ExceptT ε (Proc Op Res) Unit := if c then throw err else pure ()

/-- The result and the state when nothing interferes; the operations are numbered. -/
def solo {σ : Type} (answer : Nat → (op : Op) → σ → Res op × σ) : Proc Op Res α → Nat → σ → α × σ
  | .done a, _, s => (a, s)
  | .call op next, n, s => (next (answer n op s).1).solo answer (n + 1) (answer n op s).2

end Proc

/-- What operations do to a shared state when process `p` performs them, and what a crash does. -/
structure Machine (ι Op : Type) (Res : Op → Type) (σ : Type) where
  exec : (p : ι) → (op : Op) → σ → Res op → σ → Prop
  crash : σ → σ → Prop

/-- An invariant of the shared state, and how the processes may change the state. -/
structure Protocol {ι Op : Type} {Res : Op → Type} {σ : Type} (M : Machine ι Op Res σ) where
  inv : σ → Prop
  guar : ι → σ → σ → Prop
  crash_inv : ∀ {s s'}, inv s → M.crash s s' → inv s'

namespace Protocol

variable {ι Op : Type} {Res : Op → Type} {σ α β ε ε' : Type} {M : Machine ι Op Res σ}

/-- No other process ends the assertion. -/
def Stable (C : Protocol M) (p : ι) (P : σ → Prop) : Prop :=
  ∀ ⦃q s s'⦄, q ≠ p → C.inv s → C.guar q s s' → P s → P s'

/-- No process ends the assertion. -/
def Persistent (C : Protocol M) (P : σ → Prop) : Prop :=
  ∀ ⦃q s s'⦄, C.inv s → C.guar q s s' → P s → P s'

/-- Process `p` keeps to the protocol from a state with `P`, and ends in one with `Q`. -/
inductive Valid (C : Protocol M) (p : ι) :
    Proc Op Res α → (σ → Prop) → (α → σ → Prop) → Prop
  | done {a : α} {P : σ → Prop} {Q : α → σ → Prop} : (∀ s, C.inv s → P s → Q a s) →
      C.Valid p (.done a) P Q
  | call {op : Op} {next : Res op → Proc Op Res α} {P : σ → Prop} {Q : α → σ → Prop}
      (R : Res op → σ → Prop) : (∀ r, C.Stable p (R r)) →
      (∀ r s s', C.inv s → P s → M.exec p op s r s' → C.inv s' ∧ C.guar p s s' ∧ R r s') →
      (∀ r, C.Valid p (next r) (R r) Q) → C.Valid p (.call op next) P Q

variable {C : Protocol M} {p : ι} {P P' F : σ → Prop}

theorem stable_true : C.Stable p fun _ => True := fun _ _ _ _ _ _ _ => trivial

theorem persistent_true : C.Persistent fun _ => True := fun _ _ _ _ _ _ => trivial

theorem Stable.and {P Q : σ → Prop} (hP : C.Stable p P) (hQ : C.Stable p Q) :
    C.Stable p fun s => P s ∧ Q s :=
  fun _ _ _ hq hinv hg h => ⟨hP hq hinv hg h.1, hQ hq hinv hg h.2⟩

theorem Stable.forall {κ : Sort*} {P : κ → σ → Prop} (h : ∀ k, C.Stable p (P k)) :
    C.Stable p fun s => ∀ k, P k s :=
  fun _ _ _ hq hinv hg hP k => h k hq hinv hg (hP k)

theorem Stable.exists {κ : Sort*} {P : κ → σ → Prop} (h : ∀ k, C.Stable p (P k)) :
    C.Stable p fun s => ∃ k, P k s := by
  rintro q s s' hq hinv hg ⟨k, hk⟩
  exact ⟨k, h k hq hinv hg hk⟩

theorem Persistent.stable (h : C.Persistent P) : C.Stable p P := fun _ _ _ _ => @h _ _ _

namespace Valid

variable {m : Proc Op Res α} {Q Q' : α → σ → Prop}

theorem pre (h : C.Valid p m P Q) (hP : ∀ s, C.inv s → P' s → P s) : C.Valid p m P' Q := by
  cases h with
  | done h => exact .done fun s hinv hs => h s hinv (hP s hinv hs)
  | call R hR hstep hnext =>
    exact .call R hR (fun r s s' hinv hs => hstep r s s' hinv (hP s hinv hs)) hnext

theorem post (h : C.Valid p m P Q) (hQ : ∀ a s, C.inv s → Q a s → Q' a s) : C.Valid p m P Q' := by
  induction h with
  | done h => exact .done fun s hinv hs => hQ _ s hinv (h s hinv hs)
  | call R hR hstep _ ih => exact .call R hR hstep fun r => ih r hQ

/-- One process after another. -/
theorem bind {f : α → Proc Op Res β} {Q' : β → σ → Prop} (hm : C.Valid p m P Q)
    (hf : ∀ a, C.Valid p (f a) (Q a) Q') : C.Valid p (m.bind f) P Q' := by
  induction hm with
  | @done a _ _ h => exact (hf a).pre h
  | call R hR hstep _ ih => exact .call R hR hstep fun r => ih r hf

/-- From no state anything is valid. -/
theorem of_false : C.Valid p m (fun _ => False) Q := by
  induction m with
  | done a => exact .done fun _ _ hs => hs.elim
  | call op next ih =>
    exact .call (fun _ _ => False) (fun _ _ _ _ _ _ _ hs => hs) (fun _ _ _ _ hs => hs.elim) ih

/-- One operation. -/
theorem perform {op : Op} {Q : Res op → σ → Prop} (hQ : ∀ r, C.Stable p (Q r))
    (h : ∀ r s s', C.inv s → P s → M.exec p op s r s' → C.inv s' ∧ C.guar p s s' ∧ Q r s') :
    C.Valid p (.perform op) P Q :=
  .call Q hQ h fun _ => .done fun _ _ hs => hs

end Valid

/-! ## Processes that may fail

Such a process ends with `F` in any case, and with `R` as well if it succeeds. -/

/-- What holds after a process that may have failed. -/
def Returns (F : σ → Prop) (R : α → σ → Prop) (r : Except ε α) (s : σ) : Prop :=
  F s ∧ ∀ a, r = .ok a → R a s

theorem Returns.ok {R : α → σ → Prop} {a : α} {s : σ} (hF : F s) (hR : R a s) :
    Returns F R (.ok a : Except ε α) s := by
  refine ⟨hF, ?_⟩
  rintro _ ⟨⟩
  exact hR

theorem Returns.error {R : α → σ → Prop} {err : ε} {s : σ} (hF : F s) :
    Returns F R (.error err : Except ε α) s := by
  refine ⟨hF, ?_⟩
  rintro _ ⟨⟩

/-- A triple for a process that may fail. -/
def Triple (C : Protocol M) (p : ι) (P : σ → Prop) (m : ExceptT ε (Proc Op Res) α) (F : σ → Prop)
    (R : α → σ → Prop) : Prop :=
  C.Valid p m.run P (Returns F R)

theorem stable_returns {R : α → σ → Prop} (hF : C.Stable p F) (hR : ∀ a, C.Stable p (R a))
    (r : Except ε α) : C.Stable p (Returns F R r) :=
  hF.and (.forall fun a => .forall fun _ => hR a)

namespace Triple

variable {m : ExceptT ε (Proc Op Res) α} {R R' : α → σ → Prop} {F' : σ → Prop}

theorem pure {a : α} (h : ∀ s, C.inv s → P s → F s ∧ R a s) :
    C.Triple p P (Pure.pure a : ExceptT ε (Proc Op Res) α) F R :=
  Valid.done fun s hinv hs => .ok (h s hinv hs).1 (h s hinv hs).2

theorem throw {err : ε} (h : ∀ s, C.inv s → P s → F s) :
    C.Triple p P (MonadExcept.throw err : ExceptT ε (Proc Op Res) α) F R :=
  Valid.done fun s hinv hs => .error (h s hinv hs)

/-- A process that keeps its assertions, whether or not it fails. -/
theorem of_valid (h : C.Valid p m.run (fun s => F s ∧ P s) fun _ s => F s ∧ P s) :
    C.Triple p (fun s => F s ∧ P s) m F fun _ => P :=
  Valid.post h fun _ _ _ hs => ⟨hs.1, fun _ _ => hs.2⟩

theorem pre (h : C.Triple p P m F R) (hP : ∀ s, C.inv s → P' s → P s) : C.Triple p P' m F R :=
  Valid.pre h hP

/-- A fact about the process in its precondition. -/
theorem assume {φ : Prop} (h : φ → C.Triple p P m F R) :
    C.Triple p (fun s => P s ∧ φ) m F R := by
  by_cases hφ : φ
  · exact (h hφ).pre fun _ _ hs => hs.1
  · exact Valid.pre Valid.of_false fun _ _ hs => hφ hs.2

theorem post (h : C.Triple p P m F R) (hF : ∀ s, C.inv s → F s → F' s)
    (hR : ∀ a s, C.inv s → R a s → R' a s) : C.Triple p P m F' R' := by
  refine Valid.post h ?_
  rintro r s hinv ⟨hf, hr⟩
  exact ⟨hF s hinv hf, fun a ha => hR a s hinv (hr a ha)⟩

theorem bind {f : α → ExceptT ε (Proc Op Res) β} {R' : β → σ → Prop} (hm : C.Triple p P m F R)
    (hf : ∀ a, C.Triple p (fun s => F s ∧ R a s) (f a) F R') : C.Triple p P (m >>= f) F R' := by
  refine Valid.bind hm fun r => ?_
  cases r with
  | ok a => exact (hf a).pre fun s _ hs => ⟨hs.1, hs.2 a rfl⟩
  | error err => exact Triple.throw fun s _ hs => hs.1

/-- A process that succeeds with what it is told, before another. -/
theorem seq {m : ExceptT ε (Proc Op Res) Unit} {f : ExceptT ε (Proc Op Res) β} {R : σ → Prop}
    {R' : β → σ → Prop} (hm : C.Triple p P m F fun _ => R)
    (hf : C.Triple p (fun s => F s ∧ R s) f F R') : C.Triple p P (do m; f) F R' :=
  hm.bind fun _ => hf

theorem mapError {f : ε → ε'} (h : C.Triple p P m F R) : C.Triple p P (.mapError f m) F R := by
  refine Valid.bind h fun r => .done fun s hinv hr => ?_
  cases r with
  | ok a => exact .ok hr.1 (hr.2 a rfl)
  | error err => exact .error hr.1

theorem mapOk {f : α → β} (h : C.Triple p P m F R) :
    C.Triple p P (.mapOk f m) F fun b s => ∃ a, f a = b ∧ R a s := by
  refine Valid.bind h fun r => .done fun s hinv hr => ?_
  cases r with
  | ok a => exact .ok hr.1 ⟨a, rfl, hr.2 a rfl⟩
  | error err => exact .error hr.1

theorem attempt (h : C.Triple p P m F R) : C.Triple p P (.attempt m) F fun r => Returns F R r :=
  Valid.bind h fun _ => .done fun _ _ hr => .ok hr.1 hr

theorem ofExcept {r : Except ε α} (h : ∀ s, C.inv s → P s → F s) :
    C.Triple p P (.ofExcept r) F fun a s => P s ∧ r = .ok a :=
  Valid.done fun s hinv hs => ⟨h s hinv hs, fun _ ha => ⟨hs, ha⟩⟩

theorem reject {c : Bool} {err : ε} (h : ∀ s, C.inv s → P s → F s) :
    C.Triple p P (.reject c err) F fun _ s => P s ∧ c = false := by
  cases c with
  | true => exact Triple.throw h
  | false => exact Triple.pure fun s hinv hs => ⟨h s hinv hs, hs, rfl⟩

/-- The deferred process runs after either outcome. -/
theorem deferring {d : Proc Op Res Unit} (hm : C.Triple p P m F R)
    (hd : ∀ r : Except ε α, C.Valid p d (Returns F R r) fun _ => Returns F' R' r) :
    C.Triple p P (.deferring d m) F' R' :=
  Valid.bind hm fun r => Valid.bind (hd r) fun _ => .done fun _ _ hs => hs

end Triple

end Protocol

/-! ## Pools of processes -/

/-- A shared state and the processes that run on it, each with the job it was started for. -/
structure Pool (ι J Op : Type) (Res : Op → Type) (σ α : Type) where
  shared : σ
  procs : ι → Option (J × Proc Op Res α)

namespace Pool

variable {ι J Op : Type} {Res : Op → Type} {σ α : Type} [DecidableEq ι]

inductive Event (ι J α : Type) where
  | spawn (p : ι) (j : J)
  | call (p : ι)
  | finish (p : ι) (j : J) (a : α)
  | kill (p : ι)
  | crash

/-- One process takes a step, or all of them end in a crash. -/
inductive Step (M : Machine ι Op Res σ) (program : J → Proc Op Res α) :
    Pool ι J Op Res σ α → Event ι J α → Pool ι J Op Res σ α → Prop
  | spawn {s procs} {p : ι} (j : J) : procs p = none →
      Step M program ⟨s, procs⟩ (.spawn p j)
        ⟨s, Function.update procs p (some (j, program j))⟩
  | call {s s' procs} {p : ι} {j : J} {op next r} : procs p = some (j, .call op next) →
      M.exec p op s r s' →
      Step M program ⟨s, procs⟩ (.call p) ⟨s', Function.update procs p (some (j, next r))⟩
  | finish {s procs} {p : ι} {j : J} {a : α} : procs p = some (j, .done a) →
      Step M program ⟨s, procs⟩ (.finish p j a) ⟨s, Function.update procs p none⟩
  | kill {s procs} (p : ι) :
      Step M program ⟨s, procs⟩ (.kill p) ⟨s, Function.update procs p none⟩
  | crash {s s' procs} : M.crash s s' → Step M program ⟨s, procs⟩ .crash ⟨s', fun _ => none⟩

variable {M : Machine ι Op Res σ} {program : J → Proc Op Res α}

/-- The invariant holds, and every process is at a point from which it is valid. -/
structure Sound (C : Protocol M) (post : ι → J → α → σ → Prop) (s : Pool ι J Op Res σ α) :
    Prop where
  inv : C.inv s.shared
  valid : ∀ p j m, s.procs p = some (j, m) →
    ∃ P, C.Stable p P ∧ P s.shared ∧ C.Valid p m P (post p j)

/-- What a step of a sound pool does to the shared state, and what holds after a process. -/
inductive Keeps (C : Protocol M) (post : ι → J → α → σ → Prop) (s : σ) :
    Event ι J α → σ → Prop
  | spawn (p : ι) (j : J) : Keeps C post s (.spawn p j) s
  | call {p : ι} {s' : σ} : C.guar p s s' → Keeps C post s (.call p) s'
  | finish {p : ι} {j : J} {a : α} : post p j a s → Keeps C post s (.finish p j a) s
  | kill (p : ι) : Keeps C post s (.kill p) s
  | crash {s' : σ} : M.crash s s' → Keeps C post s .crash s'

variable {C : Protocol M} {post : ι → J → α → σ → Prop} {s s' : Pool ι J Op Res σ α}
  {e : Event ι J α} {tr : Trace (Pool ι J Op Res σ α) (Event ι J α)}

/-- A process that neither runs nor starts takes no step. -/
theorem Step.not_running {p : ι} (hs : Step M program s e s') (hp : s.procs p = none)
    (he : ∀ j, e ≠ .spawn p j) : s'.procs p = none ∧ e ≠ .call p := by
  cases hs with
  | @spawn _ _ q j hq =>
    have hpq : p ≠ q := fun heq => he j (heq ▸ rfl)
    exact ⟨(Function.update_of_ne hpq ..).trans hp, by simp⟩
  | @call _ _ _ q _ _ _ _ hq =>
    have hpq : p ≠ q := fun heq => by
      rw [← heq] at hq
      exact absurd (hp.symm.trans hq) (by simp)
    exact ⟨(Function.update_of_ne hpq ..).trans hp, fun heq => by cases heq; exact hpq rfl⟩
  | @finish _ _ q _ _ hq =>
    have hpq : p ≠ q := fun heq => by
      rw [← heq] at hq
      exact absurd (hp.symm.trans hq) (by simp)
    exact ⟨(Function.update_of_ne hpq ..).trans hp, by simp⟩
  | @kill _ _ q =>
    refine ⟨?_, by simp⟩
    by_cases hpq : p = q
    · exact hpq ▸ Function.update_self ..
    · exact (Function.update_of_ne hpq ..).trans hp
  | crash => exact ⟨rfl, by simp⟩

theorem Step.finished {p : ι} {j : J} {a : α} (hs : Step M program s (.finish p j a) s') :
    s'.procs p = none := by
  cases hs with
  | finish _ => exact Function.update_self ..

/-- A pool is sound after a step of one process, if the others were valid before and still are. -/
theorem Sound.update (h : Sound C post s) {s₁ : σ} {p : ι} {v : Option (J × Proc Op Res α)}
    (hinv : C.inv s₁) (hothers : ∀ q P, q ≠ p → C.Stable q P → P s.shared → P s₁)
    (hself : ∀ j m, v = some (j, m) → ∃ P, C.Stable p P ∧ P s₁ ∧ C.Valid p m P (post p j)) :
    Sound C post ⟨s₁, Function.update s.procs p v⟩ := by
  refine ⟨hinv, fun q j m hm => ?_⟩
  change Function.update s.procs p v q = some (j, m) at hm
  by_cases hq : q = p
  · subst hq
    rw [Function.update_self] at hm
    exact hself j m hm
  · rw [Function.update_of_ne hq] at hm
    obtain ⟨P, hstable, hP, hvalid⟩ := h.valid q j m hm
    exact ⟨P, hstable, hothers q P hq hstable hP, hvalid⟩

/-- Steps keep a pool sound, if the processes they start are valid. -/
theorem Sound.step (h : Sound C post s) (hs : Step M program s e s')
    (hspawn : ∀ p j, e = .spawn p j → C.Valid p (program j) (fun _ => True) (post p j)) :
    Sound C post s' ∧ Keeps C post s.shared e s'.shared := by
  cases hs with
  | @spawn _ _ p j hp =>
    refine ⟨h.update h.inv (fun _ _ _ _ hP => hP) ?_, .spawn p j⟩
    rintro _ _ ⟨⟩
    exact ⟨fun _ => True, Protocol.stable_true, trivial, hspawn p j rfl⟩
  | @call s₀ s₁ procs p j op next r hp he =>
    obtain ⟨P, -, hP, hvalid⟩ := h.valid p j _ hp
    cases hvalid with
    | call R hR hstep hnext =>
      obtain ⟨hinv, hg, hr⟩ := hstep r s₀ s₁ h.inv hP he
      -- the other processes rely on what the protocol lets this one do
      refine ⟨h.update hinv (fun q S hq hS => hS (Ne.symm hq) h.inv hg) ?_, .call hg⟩
      rintro _ _ ⟨⟩
      exact ⟨R r, hR r, hr, hnext r⟩
  | @finish _ procs p j a hp =>
    obtain ⟨P, -, hP, hvalid⟩ := h.valid p j _ hp
    cases hvalid with
    | done hpost =>
      refine ⟨h.update h.inv (fun _ _ _ _ hP => hP) ?_, .finish (hpost _ h.inv hP)⟩
      rintro _ _ ⟨⟩
  | @kill _ procs p =>
    refine ⟨h.update h.inv (fun _ _ _ _ hP => hP) ?_, .kill p⟩
    rintro _ _ ⟨⟩
  | crash hc =>
    refine ⟨⟨C.crash_inv h.inv hc, ?_⟩, .crash hc⟩
    rintro _ _ _ ⟨⟩

/-- A pool that is sound stays so in every run that starts valid processes. -/
theorem Sound.run (h : Sound C post s) (hrun : Run (Step M program) s tr s')
    (hspawn : ∀ t ∈ tr, ∀ p j, t.label = .spawn p j →
      C.Valid p (program j) (fun _ => True) (post p j)) : Sound C post s' :=
  hrun.invariant_mem h fun t ht hs ih => (ih.step hs (hspawn t ht)).1

/-- What the steps of a run keep holds at its end. -/
theorem Sound.keeps (h : Sound C post s) (hrun : Run (Step M program) s tr s')
    (hspawn : ∀ t ∈ tr, ∀ p j, t.label = .spawn p j →
      C.Valid p (program j) (fun _ => True) (post p j))
    {K : σ → Prop} (hK : K s.shared)
    (hstep : ∀ t ∈ tr, C.inv t.pre.shared → Keeps C post t.pre.shared t.label t.post.shared →
      K t.pre.shared → K t.post.shared) : K s'.shared := by
  refine (hrun.invariant_mem (I := fun s => Sound C post s ∧ K s.shared) ⟨h, hK⟩ ?_).2
  rintro t ht hs ⟨hsound, hk⟩
  obtain ⟨hsound', hkeeps⟩ := hsound.step hs (hspawn t ht)
  exact ⟨hsound', hstep t ht hsound.inv hkeeps hk⟩

/-- An ended process of a run has its postcondition. -/
theorem Sound.finished (h : Sound C post s) (hrun : Run (Step M program) s tr s')
    (hspawn : ∀ t ∈ tr, ∀ p j, t.label = .spawn p j →
      C.Valid p (program j) (fun _ => True) (post p j))
    {p : ι} {j : J} {a : α} {t : Transition (Pool ι J Op Res σ α) (Event ι J α)} (ht : t ∈ tr)
    (he : t.label = .finish p j a) : post p j a t.post.shared := by
  obtain ⟨before, after, rfl, hbefore, hs, -⟩ := hrun.mem_inv ht
  have hsound := h.run hbefore fun u hu => hspawn u (List.mem_append_left _ hu)
  have hkeeps := (hsound.step hs (hspawn t ht)).2
  rw [he] at hkeeps
  generalize t.post.shared = post at hkeeps
  cases hkeeps with
  | finish hp => exact hp

/-! ## Runs of one process -/

section
variable {answer : Nat → (op : Op) → σ → Res op × σ} {p : ι}

/-- A process that runs alone. -/
def alone (s : σ) (p : ι) (j : J) (m : Proc Op Res α) : Pool ι J Op Res σ α :=
  ⟨s, Function.update (fun _ => none) p (some (j, m))⟩

/-- A process runs to its end when nothing interferes. -/
theorem run_solo (program : J → Proc Op Res α) (j : J)
    (hanswer : ∀ n op s, M.exec p op s (answer n op s).1 (answer n op s).2)
    (m : Proc Op Res α) (n : Nat) (s : σ) : ∃ tr, (∀ t ∈ tr, t.label = .call p) ∧
      Run (Step M program) (alone s p j m) tr
        (alone (m.solo answer n s).2 p j (.done (m.solo answer n s).1)) := by
  induction m generalizing n s with
  | done a => exact ⟨[], by simp, .nil _⟩
  | call op next ih =>
    obtain ⟨tr, hcalls, hrun⟩ := ih (answer n op s).1 (n + 1) (answer n op s).2
    have hstep : Step M program (alone s p j (.call op next)) (.call p)
        ⟨(answer n op s).2, Function.update (alone s p j (.call op next)).procs p
          (some (j, next (answer n op s).1))⟩ :=
      .call (Function.update_self p (some (j, Proc.call op next)) fun _ => none) (hanswer n op s)
    rw [alone, Function.update_idem] at hstep
    exact ⟨_ :: tr, List.forall_mem_cons.2 ⟨rfl, hcalls⟩, .cons hstep hrun⟩

/-- A process starts, runs and ends. -/
theorem run_job (program : J → Proc Op Res α) (j : J)
    (hanswer : ∀ n op s, M.exec p op s (answer n op s).1 (answer n op s).2) (n : Nat) (s : σ) :
    ∃ before t, t.label = .finish p j ((program j).solo answer n s).1 ∧
      (∀ u ∈ before, u.label = .spawn p j ∨ u.label = .call p) ∧
      Run (Step M program) ⟨s, fun _ => none⟩ (before ++ [t])
        ⟨((program j).solo answer n s).2, fun _ => none⟩ := by
  obtain ⟨tr, hcalls, hrun⟩ := run_solo program j hanswer (program j) n s
  generalize (program j).solo answer n s = r at hrun
  have hfinish : Step M program (alone r.2 p j (.done r.1)) (.finish p j r.1)
      ⟨r.2, Function.update (alone r.2 p j (.done r.1)).procs p none⟩ :=
    .finish (Function.update_self p (some (j, Proc.done r.1)) fun _ => none)
  rw [alone, Function.update_idem, Function.update_eq_self] at hfinish
  exact ⟨_ :: tr, _, rfl, List.forall_mem_cons.2 ⟨.inl rfl, fun u hu => .inr (hcalls u hu)⟩,
    .append (.cons (.spawn j rfl) hrun) (.cons hfinish (.nil _))⟩

end

end Pool

end InfraBox
