import InfraBox.Lease.Invariant

/-!
# What the manager's methods do

One inversion lemma per method says everything it can do to the manager and the file: it fails and
only drops expired entries, or it succeeds with the stated update. The preservation of the
invariant (`State.Wf`) by every method then follows from the lemmas about the updates, and later
modules never unfold a method again.
-/

namespace InfraBox.Leasing

variable {ip : Addr} {m : Manager} {c hostname fallback : GoString} {now : Int} {sys sys' : System}
  {r : Except Error Unit} {written : Bool}

/-! ## The pool loop -/

/-- The successor of an IPv4 address is the next one; the last address has none. -/
theorem next_v4 (a : BitVec 32) :
    ((Addr.v4 a).next = .invalid ∧ a.toNat = 2 ^ 32 - 1) ∨
      ∃ a', (Addr.v4 a).next = .v4 a' ∧ a'.toNat = a.toNat + 1 := by
  simp only [Addr.next]
  split
  · next h => exact .inl ⟨rfl, by rw [h]; rfl⟩
  · next h =>
    have hne : a.toNat ≠ 2 ^ 32 - 1 := fun heq => h (BitVec.eq_of_toNat_eq (by simp [heq]))
    have hlt := a.isLt
    refine .inr ⟨a + 1, rfl, ?_⟩
    rw [BitVec.toNat_add, show (1 : BitVec 32).toNat = 1 from rfl]
    omega

/-- One turn of the pool loop. -/
theorem firstFree_succ {free : Addr → Bool} {a b : BitVec 32} (hle : a.toNat ≤ b.toNat) (n : Nat) :
    firstFree free (.v4 b) (n + 1) (.v4 a) =
      if free (.v4 a) then .v4 a else firstFree free (.v4 b) n (Addr.v4 a).next := by
  simp only [firstFree, Addr.isValid, Addr.v4_le_v4, hle, decide_true, Bool.and_self, if_true]

/-- The pool loop finds the lowest free address, and nothing only when no address is free. -/
theorem firstFree_lowest {free : Addr → Bool} {b : BitVec 32} (n : Nat) (a : BitVec 32)
    (h : a.toNat + n = b.toNat + 1) :
    (firstFree free (.v4 b) n (.v4 a) = .invalid ∧
      ∀ y : BitVec 32, a.toNat ≤ y.toNat → y.toNat ≤ b.toNat → free (.v4 y) = false) ∨
    ∃ x : BitVec 32, firstFree free (.v4 b) n (.v4 a) = .v4 x ∧ a.toNat ≤ x.toNat ∧
      x.toNat ≤ b.toNat ∧ free (.v4 x) = true ∧
      ∀ y : BitVec 32, a.toNat ≤ y.toNat → y.toNat < x.toNat → free (.v4 y) = false := by
  induction n generalizing a with
  | zero => exact .inl ⟨rfl, fun y h₁ h₂ => by omega⟩
  | succ n ih =>
    rw [firstFree_succ (by omega)]
    cases hfree : free (.v4 a) with
    | true => exact .inr ⟨a, rfl, le_refl _, by omega, hfree, fun y h₁ h₂ => by omega⟩
    | false =>
      -- an address from the first candidate on is the candidate or comes after it
      have hfirst : ∀ y : BitVec 32, (a.toNat + 1 ≤ y.toNat → free (.v4 y) = false) →
          a.toNat ≤ y.toNat → free (.v4 y) = false := by
        intro y hy hle
        rcases Nat.eq_or_lt_of_le hle with heq | hlt
        · rw [← BitVec.eq_of_toNat_eq heq, hfree]
        · exact hy hlt
      simp only [Bool.false_eq_true, if_false]
      rcases next_v4 a with ⟨hnext, hmax⟩ | ⟨a', hnext, ha'⟩
      · have hb := b.isLt
        obtain rfl : n = 0 := by omega
        rw [hnext]
        exact .inl ⟨rfl, fun y h₁ h₂ => hfirst y (fun _ => by omega) h₁⟩
      · rw [hnext]
        rcases ih a' (by omega) with ⟨hr, hall⟩ | ⟨x, hr, hax, hxb, hx, hall⟩
        · exact .inl ⟨hr, fun y h₁ h₂ => hfirst y (fun hy => hall y (by omega) h₂) h₁⟩
        · exact .inr ⟨x, hr, by omega, hxb, hx,
            fun y h₁ h₂ => hfirst y (fun hy => hall y (by omega) h₂) h₁⟩

/-- The ends of the pool, and its size. -/
theorem Settings.pool_eq (cfg : Settings) : ∃ a b : BitVec 32, cfg.poolStart = .v4 a ∧
    cfg.poolEnd = .v4 b ∧ a.toNat + cfg.poolSize = b.toNat + 1 ∧
    ∀ ip, cfg.inPool ip = true ↔ ∃ y : BitVec 32, ip = .v4 y ∧ a.toNat ≤ y.toNat ∧
      y.toNat ≤ b.toNat := by
  obtain ⟨a, ha⟩ := Addr.is4_iff.1 cfg.pool_is4.1
  obtain ⟨b, hb⟩ := Addr.is4_iff.1 cfg.pool_is4.2
  have hle := cfg.pool_ordered
  rw [ha, hb, Addr.v4_le_v4] at hle
  refine ⟨a, b, ha, hb, ?_, fun ip => ?_⟩
  · simp only [Settings.poolSize, ha, hb]
    omega
  · cases ip with
    | v4 y => simp [Settings.inPool, ha, hb, Addr.v4_le_v4, Addr.is4]
    | invalid | v6 => simp [Settings.inPool, Addr.is4]

/-- The pool loop for a client. -/
def Manager.scanPool (m : Manager) (c : GoString) : Addr :=
  firstFree (fun ip => !m.state.occupied c ip) m.cfg.poolEnd m.cfg.poolSize m.cfg.poolStart

/-- The pool loop finds the lowest address of the pool that is free for the client. -/
theorem Manager.scanPool_spec (m : Manager) (c : GoString) :
    (m.scanPool c = .invalid ∧ ∀ ip, m.cfg.inPool ip = true → m.state.occupied c ip = true) ∨
    (m.cfg.inPool (m.scanPool c) = true ∧ m.state.occupied c (m.scanPool c) = false ∧
      ∀ ip, m.cfg.inPool ip = true → ip < m.scanPool c → m.state.occupied c ip = true) := by
  obtain ⟨a, b, ha, hb, hsize, hpool⟩ := m.cfg.pool_eq
  rw [Manager.scanPool, ha, hb]
  rcases @firstFree_lowest (fun ip => !m.state.occupied c ip) b m.cfg.poolSize a hsize with
    ⟨hr, hall⟩ | ⟨x, hr, hax, hxb, hx, hall⟩
  · refine .inl ⟨hr, fun ip hip => ?_⟩
    obtain ⟨y, rfl, h₁, h₂⟩ := (hpool ip).1 hip
    simpa using hall y h₁ h₂
  · rw [hr]
    refine .inr ⟨(hpool _).2 ⟨x, rfl, hax, hxb⟩, by simpa using hx, fun ip hip hlt => ?_⟩
    obtain ⟨y, rfl, h₁, -⟩ := (hpool ip).1 hip
    have hlt : y.toNat < x.toNat := by
      rw [← not_le, Addr.v4_le_v4] at hlt
      omega
    simpa using hall y h₁ hlt

/-- A client that holds an address is offered that one. -/
theorem Manager.offerAddress_of_holds (h : m.state.Wf m.cfg)
    (hh : m.state.Holds c ip) (req : Addr) : m.offerAddress c req = ip := by
  unfold Manager.offerAddress
  rcases hh with ⟨l, hl, rfl⟩ | ⟨o, ho, rfl⟩
  · rw [hl]
  · cases hl : m.state.leases.get c with
    | some l => exact (h.agree hl ho).symm
    | none => rw [ho]

/-- The address an offer is made for is in the pool, free for the client, and the one it leases if
it leases any. -/
theorem Manager.offerAddress_spec (h : m.state.Wf m.cfg) {req : Addr}
    (hv : (m.offerAddress c req).isValid = true) :
    m.cfg.inPool (m.offerAddress c req) = true ∧
      m.state.occupied c (m.offerAddress c req) = false ∧
      ∀ l, m.state.leases.get c = some l → m.offerAddress c req = l.ip := by
  unfold Manager.offerAddress at hv ⊢
  cases hl : m.state.leases.get c with
  | some l =>
    refine ⟨(h.lease hl).pool, h.occupied_of_holds (.inl ⟨l, hl, rfl⟩), fun l' hl' => ?_⟩
    cases hl'
    rfl
  | none =>
    refine and_assoc.1 ⟨?_, fun _ hl' => by cases hl'⟩
    cases ho : m.state.offers.get c with
    | some o => exact ⟨(h.offer ho).1, h.occupied_of_holds (.inr ⟨o, ho, rfl⟩)⟩
    | none =>
      simp only [hl, ho] at hv ⊢
      split at hv
      · next hreq =>
        rw [if_pos hreq]
        simpa using hreq
      · next hreq =>
        rw [if_neg hreq]
        have hv : (m.scanPool c).isValid = true := hv
        rcases m.scanPool_spec c with ⟨hr, -⟩ | ⟨hpool, hfree, -⟩
        · rw [hr] at hv
          cases hv
        · exact ⟨hpool, hfree⟩

/-! ## Offers -/

/-- The name of an offer is empty or normal. -/
theorem Manager.offerName_ok (h : m.state.Wf m.cfg) (c hostname fallback : GoString) :
    m.cfg.NameOk (m.offerName c hostname fallback) := by
  unfold Manager.offerName
  split
  · split
    · next o ho => exact (h.offer ho).2
    · next l _ hl =>
      split
      · exact (h.lease hl).name
      · exact m.cfg.nameOk_normalize _
    · exact m.cfg.nameOk_normalize _
  · exact m.cfg.nameOk_normalize _

/-- An offer fails without effect, or is recorded for the client under a new expiry. -/
theorem Manager.offer_cases {m m' : Manager}
    {req : Addr} {r : Except Error Lease}
    (h : m.offerWithFallback now c req hostname fallback = (r, m')) :
    ((∃ e, r = .error e) ∧ m' = m.expire now) ∨
    ∃ o, r = .ok o ∧ validClientID c = true ∧ o.ip = (m.expire now).offerAddress c req ∧
      o.ip.isValid = true ∧ o.hostname = (m.expire now).offerName c hostname fallback ∧
      o.expiresAt = now + m.cfg.offerDuration ∧
      m' = { m with state := { m.state.expire now with
        offers := (m.state.expire now).offers.set c o } } := by
  simp only [Manager.offerWithFallback] at h
  split at h
  · cases h; exact .inl ⟨⟨_, rfl⟩, rfl⟩
  · next hc =>
    split at h
    · cases h; exact .inl ⟨⟨_, rfl⟩, rfl⟩
    · next hv =>
      cases h
      exact .inr ⟨_, rfl, by simpa using hc, rfl, by simpa using hv, rfl, rfl, rfl⟩

/-- Recording the offer keeps the invariant. -/
theorem Manager.offered_wf (h : m.state.Wf m.cfg)
    {req : Addr} {o : Lease} (hip : o.ip = m.offerAddress c req) (hv : o.ip.isValid = true)
    (hname : o.hostname = m.offerName c hostname fallback) :
    State.Wf m.cfg { m.state with offers := m.state.offers.set c o } := by
  rw [hip] at hv
  obtain ⟨hpool, hfree, hown⟩ := Manager.offerAddress_spec h hv
  refine h.set_offer (hip ▸ hpool) ?_ (hip ▸ hfree) fun l hl => hip ▸ hown l hl
  rw [hname]
  exact Manager.offerName_ok h c hostname fallback

/-! ## Publishing -/

/-- The system after a successful `publish`. -/
def System.store (sys : System) (next : State) : System where
  manager := { sys.manager with state := next }
  disk := if sys.manager.cfg.file = [] then sys.disk else .decoded next.saved

/-- `publish` fails without effect or stores the new state. -/
theorem System.publish_cases {next : State}
    (h : sys.publish next written = (r, sys')) :
    (r = .error .persist ∧ sys' = sys) ∨ (r = .ok () ∧ sys' = sys.store next) := by
  simp only [System.publish] at h
  split at h
  · next hf => cases h; exact .inr ⟨rfl, by simp [System.store, hf]⟩
  · next hf =>
    split at h
    · cases h; exact .inr ⟨rfl, by simp [System.store, hf]⟩
    · cases h; exact .inl ⟨rfl, rfl⟩

/-! ## Commit -/

/-- The name that a commit asks for is empty or normal. -/
theorem Manager.requestedName_ok (h : m.state.Wf m.cfg) (c : GoString) (ip : Addr)
    (hostname fallback : GoString) : m.cfg.NameOk (m.requestedName c ip hostname fallback) := by
  unfold Manager.requestedName
  split
  · split
    · next o ho =>
      rw [Option.filter_eq_some_iff] at ho
      exact (h.offer ho.1).2
    · next l _ hl =>
      split
      · exact (h.lease hl).name
      · exact m.cfg.nameOk_normalize _
    · exact m.cfg.nameOk_normalize _
  · exact m.cfg.nameOk_normalize _

/-- The granted name is the requested one, free and not reserved, or none. -/
theorem Manager.grantedName_cases (m : Manager) (c name : GoString) :
    m.grantedName c name = [] ∨ (m.grantedName c name = name ∧ name ∉ m.cfg.reservedNames ∧
      ∀ c' l, m.state.leases.get c' = some l → c' ≠ c → l.hostname ≠ name) := by
  rcases eq_or_ne name [] with rfl | hne
  · simp [Manager.grantedName]
  unfold Manager.grantedName
  split
  · exact .inl rfl
  · next hres =>
    split
    · exact .inl rfl
    · next hany =>
      refine .inr ⟨rfl, hres, fun c' l hl hc hn => hany ?_⟩
      simp only [Bool.and_eq_true, decide_eq_true_eq, FinMap.any_eq_true]
      exact ⟨hne, c', l, hl, hc, hn⟩

/-- The state a commit publishes. -/
def State.commit (s : State) (c : GoString) (l : Lease) : State :=
  { s with leases := s.leases.set c l, offers := s.offers.erase c }

/-- A commit fails and only drops expired entries, or the free address it was asked for is leased
to the client. -/
theorem System.commit_cases
    {r : Except Error Lease}
    (h : sys.commitWithFallback now written c ip hostname fallback = (r, sys')) :
    ((∃ e, r = .error e) ∧ sys' = sys.expire now) ∨
    ∃ l, r = .ok l ∧ validClientID c = true ∧ sys.manager.cfg.inPool ip.unmap = true ∧
      (sys.manager.state.expire now).occupied c ip.unmap = false ∧
      l = (sys.manager.expire now).commitment now c ip.unmap hostname fallback ∧
      sys' = (sys.expire now).store ((sys.manager.state.expire now).commit c l) := by
  simp only [System.commitWithFallback] at h
  split at h
  · cases h; exact .inl ⟨⟨_, rfl⟩, rfl⟩
  · next hok =>
    simp only [Bool.or_eq_true, not_or, Bool.not_eq_true, Bool.not_eq_false'] at hok
    obtain ⟨⟨hc, hpool⟩, hocc⟩ := hok
    split at h
    · next e sys₁ hp =>
      cases h
      rcases System.publish_cases hp with ⟨-, rfl⟩ | ⟨hr, -⟩
      · exact .inl ⟨⟨_, rfl⟩, rfl⟩
      · cases hr
    · next sys₁ hp =>
      cases h
      rcases System.publish_cases hp with ⟨hr, -⟩ | ⟨-, rfl⟩
      · cases hr
      · exact .inr ⟨_, rfl, hc, hpool, hocc, rfl, rfl⟩

/-- A committed lease is well formed. -/
theorem Manager.commitment_ok (h : m.state.Wf m.cfg) (hnow : 0 ≤ now)
    (hc : validClientID c = true) (hpool : m.cfg.inPool ip = true)
    (hostname fallback : GoString) :
    m.cfg.LeaseOk c (m.commitment now c ip hostname fallback) where
  clientID := rfl
  client_valid := hc
  pool := hpool
  expires := by
    have := m.cfg.leaseDuration_pos
    simp only [Manager.commitment]
    omega
  name := by
    rcases m.grantedName_cases c (m.requestedName c ip hostname fallback) with hn | ⟨hn, -, -⟩
    · exact .inl hn
    · exact (congrArg m.cfg.NameOk hn).mpr (Manager.requestedName_ok h c ip hostname fallback)
  name_free := by
    rcases m.grantedName_cases c (m.requestedName c ip hostname fallback) with hn | ⟨hn, hres, -⟩
    · exact fun hmem => m.cfg.reserved_hostnames _ hmem hn
    · exact fun hmem => hres (hn ▸ hmem)

/-- A commit of a free address keeps the invariant. -/
theorem Manager.commit_wf (h : m.state.Wf m.cfg) (hnow : 0 ≤ now)
    (hc : validClientID c = true) (hpool : m.cfg.inPool ip = true)
    (hfree : m.state.occupied c ip = false) (hostname fallback : GoString) :
    (m.state.commit c (m.commitment now c ip hostname fallback)).Wf m.cfg := by
  refine h.set_lease (Manager.commitment_ok h hnow hc hpool hostname fallback) hfree ?_
  intro c' l' hl' hne hname
  rcases m.grantedName_cases c (m.requestedName c ip hostname fallback) with hn | ⟨hn, -, htaken⟩
  · exact absurd hn hname
  · exact fun heq => htaken c' l' hl' hne (heq.trans hn)

/-! ## Release and decline -/

/-- Publishing a state that only the holder of an address may publish fails without effect, or
stores it. -/
theorem System.publish_owned {next : State}
    (h : (if !sys.manager.state.owns c ip then (.error .unavailable, sys)
      else sys.publish next written) = (r, sys')) :
    ((∃ e, r = .error e) ∧ sys' = sys) ∨
    (r = .ok () ∧ sys.manager.state.Holds c ip ∧ sys' = sys.store next) := by
  split at h
  · cases h
    exact .inl ⟨⟨_, rfl⟩, rfl⟩
  · next howns =>
    rw [Bool.not_eq_true, Bool.not_eq_false'] at howns
    rcases System.publish_cases h with ⟨rfl, rfl⟩ | ⟨rfl, rfl⟩
    · exact .inl ⟨⟨_, rfl⟩, rfl⟩
    · exact .inr ⟨rfl, State.owns_iff.1 howns, rfl⟩

/-- A release fails and only drops expired entries, or removes the address the client holds. -/
theorem System.release_cases
    (h : sys.release now written c ip = (r, sys')) :
    ((∃ e, r = .error e) ∧ sys' = sys.expire now) ∨
    (r = .ok () ∧ (sys.manager.state.expire now).Holds c ip.unmap ∧
      sys' = (sys.expire now).store ((sys.manager.state.expire now).remove c ip.unmap)) :=
  System.publish_owned h

/-- The state a decline publishes. -/
def State.decline (s : State) (c : GoString) (ip : Addr) (until_ : Int) : State :=
  { s.remove c ip with declined := (s.remove c ip).declined.set ip until_ }

/-- A decline fails and only drops expired entries, or quarantines the address the client held. -/
theorem System.decline_cases
    (h : sys.decline now written c ip = (r, sys')) :
    ((∃ e, r = .error e) ∧ sys' = sys.expire now) ∨
    (r = .ok () ∧ (sys.manager.state.expire now).Holds c ip.unmap ∧
      sys' = (sys.expire now).store ((sys.manager.state.expire now).decline c ip.unmap
        (now + sys.manager.cfg.declineDuration))) :=
  System.publish_owned h

theorem State.Wf.remove {cfg : Settings} {s : State} (h : s.Wf cfg) (c : GoString) (ip : Addr) :
    (s.remove c ip).Wf cfg := h.of_sub (s.remove_sub c ip)

end InfraBox.Leasing
