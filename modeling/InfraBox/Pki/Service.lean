import InfraBox.Lib.Bytes
import InfraBox.Lib.Run
import InfraBox.Lib.Time
import InfraBox.Pki.Names

/-!
# Service certificates

`Manager.serviceCertificate` and what it calls (`internal/pki/manager.go`), for the certificates of
the gateway and of the LDAP server. A certificate is served when `needsRenewal` has nothing against
it, and one that was issued just now is such (`issueLeaf_current`), so that every certificate served
is current. What `needsRenewal` can have against a certificate later is only its age
(`Fresh.needsRenewal`), and nothing at all when it expires with the root.

The X.509 library is a parameter (`X509`), and so is the outcome of each signing. DER encodes whole
seconds; the times of a certificate are truncated accordingly.
-/

namespace InfraBox.Pki

variable {now : Int} {t : Transition State Event}

def leafLifetime : Int := 90 * 24 * hour
def renewBefore : Int := 30 * 24 * hour
def clockSkew : Int := 5 * minute

/-- The time that a certificate has in DER. -/
def wholeSeconds (t : Int) : Int := t - t % second

/-- What the manager reads of its root certificate. -/
structure RootCertificate where
  isCA : Bool
  basicConstraintsValid : Bool
  /-- The key usage includes `x509.KeyUsageCertSign`. -/
  certSign : Bool
  /-- Subject and issuer are the same. -/
  selfIssued : Bool
  /-- What `CheckSignatureFrom` reports for the root itself. -/
  signatureError : Option String
  notBefore : Int
  notAfter : Int
  unhandledCriticalExtensions : Nat
  /-- It was read from DER. -/
  whole : second ∣ notBefore ∧ second ∣ notAfter

/-- What the manager reads of a service certificate. -/
structure LeafCertificate where
  serial : Nat
  isCA : Bool
  basicConstraintsValid : Bool
  keyUsage : Nat
  extKeyUsage : List Nat
  dnsNames : List GoString
  ipAddresses : List GoString
  notBefore : Int
  notAfter : Int
deriving DecidableEq

def keyUsageDigitalSignature : Nat := 1
def extKeyUsageServerAuth : Nat := 1

/-- The checks of the X.509 library on a certificate: its signature by the root, and its chain to
the root at a given time. -/
structure X509 where
  checkSignatureFrom : LeafCertificate → RootCertificate → Option String
  verify : LeafCertificate → RootCertificate → Int → Option String

/-- The services with a certificate of their own. -/
inductive Service where
  | gateway
  | ldap
deriving DecidableEq

/-- A manager with its root, and the library it uses. -/
structure Authority where
  manager : Manager
  serverIP : Addr
  root : RootCertificate
  x509 : X509
  /-- `now.UTC().Format(time.RFC3339)`. -/
  formatTime : Int → String

/-! ## Certificates -/

/-- The service in the messages of `serviceCertificate`. -/
def Service.label : Service → String
  | .gateway => "gateway"
  | .ldap => "LDAP"

/-- The host name in the service's certificate. -/
def Authority.hostname (a : Authority) : Service → GoString
  | .gateway => a.manager.hostname
  | .ldap => str "ldap." ++ trimPrefix a.manager.hostname (str "gateway.")

/-- `Addr.AsSlice`. -/
def asSlice : Addr → GoString
  | .invalid => []
  | .v4 ip => beBytes 4 ip.toNat
  | .v6 ip _ => beBytes 16 ip.toNat

/-- The first bytes of an IPv4 address in IPv6 form. -/
def v4InV6Prefix : GoString := List.replicate 10 0 ++ [0xff, 0xff]

/-- `net.IP.Equal`. -/
def ipEqual (ip x : GoString) : Bool :=
  if ip.length = x.length then ip = x
  else if ip.length = 4 ∧ x.length = 16 then v4InV6Prefix ++ ip = x
  else if ip.length = 16 ∧ x.length = 4 then ip = v4InV6Prefix ++ x
  else false

/-- `Manager.validateRoot`. -/
def Authority.validateRoot (a : Authority) (now : Int) : Option String :=
  let root := a.root
  if !root.isCA || !root.basicConstraintsValid || !root.certSign then
    some "root certificate is not a signing CA"
  else if !root.selfIssued then some "root CA must be self-issued"
  else match root.signatureError with
    | some err => some ("verify root CA signature: " ++ err)
    | none =>
      if now < root.notBefore ∨ ¬ now < root.notAfter then
        some ("root CA is not valid at " ++ a.formatTime now ++
          "; check the clock or explicitly migrate the CA")
      else if root.unhandledCriticalExtensions ≠ 0 then
        some "root CA contains unsupported critical extensions"
      else none

/-- `Manager.validateLeaf`. -/
def Authority.validateLeaf (a : Authority) (leaf : LeafCertificate) : Option String :=
  if leaf.isCA || !leaf.basicConstraintsValid || leaf.keyUsage ≠ keyUsageDigitalSignature ||
      leaf.extKeyUsage ≠ [extKeyUsageServerAuth] then
    some "certificate must be a TLS server certificate"
  else match a.x509.checkSignatureFrom leaf a.root with
    | some err => some ("certificate does not belong to the root CA: " ++ err)
    | none => a.x509.verify leaf a.root leaf.notBefore

/-- The names and the address in a certificate are those of the service, and no others. -/
def Authority.carries (a : Authority) (svc : Service) (leaf : LeafCertificate) : Bool :=
  leaf.dnsNames = [a.hostname svc] &&
    match leaf.ipAddresses with
    | [ip] => ipEqual ip (asSlice a.serverIP)
    | _ => false

/-- `Manager.needsRenewal`. -/
def Authority.needsRenewal (a : Authority) (svc : Service) (now : Int) :
    Option LeafCertificate → Bool
  | none => true
  | some leaf =>
    if !a.carries svc leaf then true
    else if now < leaf.notBefore ∨ ¬ now < leaf.notAfter then true
    -- a certificate that expires with the root cannot be extended
    else ¬ now + renewBefore < leaf.notAfter ∧ leaf.notAfter < a.root.notAfter

/-- The certificate `Manager.issueLeaf` signs. -/
def Authority.leafAt (a : Authority) (svc : Service) (now : Int) (serial : Nat) :
    LeafCertificate :=
  let notBefore := now - clockSkew
  let notAfter := now + leafLifetime
  let notBefore := if notBefore < a.root.notBefore then a.root.notBefore else notBefore
  let notAfter := if a.root.notAfter < notAfter then a.root.notAfter else notAfter
  { serial
    isCA := false
    basicConstraintsValid := true
    keyUsage := keyUsageDigitalSignature
    extKeyUsage := [extKeyUsageServerAuth]
    dnsNames := [a.hostname svc]
    ipAddresses := [asSlice a.serverIP]
    notBefore := wholeSeconds notBefore
    notAfter := wholeSeconds notAfter }

/-! ## Calls -/

/-- What `readBundle` finds. -/
inductive Bundle where
  | missing
  | unreadable (err : String)
  | holds (leaf : LeafCertificate)

/-- The certificate of a service, in memory and on disk. -/
structure ServiceState where
  current : Option LeafCertificate
  bundle : Bundle

/-- The certificate in memory, read from disk if there is none. -/
def Authority.loadCurrent (a : Authority) (svc : Service) (st : ServiceState) :
    Except String ServiceState :=
  match st.current, st.bundle with
  | some _, _ => .ok st
  | none, .missing => .ok st
  | none, .unreadable err => .error ("load " ++ svc.label ++ " certificate: " ++ err)
  | none, .holds leaf =>
    match a.validateLeaf leaf with
    | some err => .error ("validate " ++ svc.label ++ " certificate: " ++ err)
    | none => .ok { st with current := some leaf }

/-- What a call leaves: what it returned, the certificate it issued, if it did, and the state. -/
structure Served where
  result : Except String LeafCertificate
  issued : Option LeafCertificate
  state : ServiceState

/-- `Manager.serviceCertificate`. The outcome of signing is a serial number or an error; writing the
bundle succeeds. -/
def Authority.serviceCertificate (a : Authority) (svc : Service) (now : Int)
    (signing : Except String Nat) (st : ServiceState) : Served :=
  match a.validateRoot now with
  | some err => ⟨.error err, none, st⟩
  | none =>
    match a.loadCurrent svc st with
    | .error err => ⟨.error err, none, st⟩
    | .ok st =>
      match st.current, a.needsRenewal svc now st.current with
      | some leaf, false => ⟨.ok leaf, none, st⟩
      | _, _ =>
        match signing with
        | .error err => ⟨.error ("issue " ++ svc.label ++ " certificate: " ++ err), none, st⟩
        | .ok serial =>
          let leaf := a.leafAt svc now serial
          ⟨.ok leaf, some leaf, ⟨some leaf, .holds leaf⟩⟩

/-- What happens to the manager: a call for the certificate of a service, with its outcome, or a
restart. -/
inductive Event where
  | call (svc : Service) (now : Int) (result : Except String LeafCertificate)
      (issued : Option LeafCertificate)
  | restart

/-- The certificates of the services. -/
abbrev State : Type := Service → ServiceState

inductive Step (a : Authority) : State → Event → State → Prop
  | call (s : State) (svc : Service) (now : Int) (signing : Except String Nat) :
      Step a s
        (.call svc now (a.serviceCertificate svc now signing (s svc)).result
          (a.serviceCertificate svc now signing (s svc)).issued)
        (Function.update s svc (a.serviceCertificate svc now signing (s svc)).state)
  | restart (s : State) : Step a s .restart fun svc => { s svc with current := none }

/-- The times of the calls in a run. -/
def callTimes {σ : Type} (tr : Trace σ Event) : List Int :=
  tr.filterMap fun t => match t.label with
    | .call _ now _ _ => some now
    | .restart => none

/-! ## Times -/

theorem wholeSeconds_le (t : Int) : wholeSeconds t ≤ t := by
  unfold wholeSeconds second
  omega

section
variable {a : Authority} {svc : Service} {now : Int} {leaf : LeafCertificate} {st : ServiceState}

/-- The root is valid at a time. -/
def Authority.rootValid (a : Authority) (now : Int) : Prop :=
  a.root.notBefore ≤ now ∧ now < a.root.notAfter

/-- A root that passes is valid now. -/
theorem rootValid_of_validateRoot (h : a.validateRoot now = none) : a.rootValid now := by
  simp only [Authority.validateRoot] at h
  split at h
  · cases h
  split at h
  · cases h
  split at h
  · cases h
  split at h
  · cases h
  next htime =>
  rw [not_or, not_not, not_lt] at htime
  exact htime

/-- The expiry of a certificate that is issued now: after its lifetime, or with the root. -/
theorem leafAt_notAfter (a : Authority) (svc : Service) (now : Int) (serial : Nat) :
    (a.leafAt svc now serial).notAfter = a.root.notAfter ∨
      now + leafLifetime - second < (a.leafAt svc now serial).notAfter := by
  simp only [Authority.leafAt]
  split_ifs
  · exact .inl (by rw [wholeSeconds, Int.emod_eq_zero_of_dvd a.root.whole.2, Int.sub_zero])
  · refine .inr ?_
    unfold wholeSeconds second
    omega

theorem leafAt_notBefore (a : Authority) (svc : Service) (serial : Nat) (h : a.rootValid now) :
    (a.leafAt svc now serial).notBefore ≤ now := by
  simp only [Authority.leafAt]
  split_ifs
  · exact (wholeSeconds_le _).trans h.1
  · refine (wholeSeconds_le _).trans ?_
    unfold clockSkew minute second
    omega

/-! ## What is served -/

/-- A certificate that is served for a service: it has the service's names and no others, it is
valid, and it is not about to expire before the root does. -/
structure Current (a : Authority) (svc : Service) (now : Int) (leaf : LeafCertificate) : Prop where
  dnsNames : leaf.dnsNames = [a.hostname svc]
  ipAddresses : ∃ ip, leaf.ipAddresses = [ip] ∧ ipEqual ip (asSlice a.serverIP) = true
  valid : leaf.notBefore ≤ now ∧ now < leaf.notAfter
  lasting : now + renewBefore < leaf.notAfter ∨ a.root.notAfter ≤ leaf.notAfter

/-- What the names of a certificate are compared with. -/
theorem carries_eq_true : a.carries svc leaf = true ↔ leaf.dnsNames = [a.hostname svc] ∧
    ∃ ip, leaf.ipAddresses = [ip] ∧ ipEqual ip (asSlice a.serverIP) = true := by
  unfold Authority.carries
  rw [Bool.and_eq_true, decide_eq_true_eq]
  refine and_congr_right fun _ => ?_
  split
  · next ip heq => simp [heq]
  · next hne =>
    constructor
    · exact fun h => absurd h (by decide)
    · rintro ⟨ip, heq, -⟩
      exact absurd heq (hne ip)

/-- A certificate is kept just if it is current. -/
theorem needsRenewal_eq_false :
    a.needsRenewal svc now (some leaf) = false ↔ Current a svc now leaf := by
  simp only [Authority.needsRenewal]
  constructor
  · intro h
    split_ifs at h with hcarries htime
    rw [Bool.not_eq_true', Bool.not_eq_false] at hcarries
    obtain ⟨hnames, hip⟩ := carries_eq_true.1 hcarries
    rw [not_or, not_not, not_lt] at htime
    rw [decide_eq_false_iff_not, not_and_or, not_not, not_lt] at h
    exact ⟨hnames, hip, htime, h⟩
  · rintro ⟨hnames, hip, htime, hlasting⟩
    rw [if_neg (by rw [carries_eq_true.2 ⟨hnames, hip⟩]; decide),
      if_neg (by rw [not_or, not_not, not_lt]; exact htime), decide_eq_false_iff_not,
      not_and_or, not_not, not_lt]
    exact hlasting

/-- A certificate that is issued is served at once. -/
theorem leafAt_current (a : Authority) (svc : Service) (serial : Nat) (h : a.rootValid now) :
    Current a svc now (a.leafAt svc now serial) where
  dnsNames := rfl
  ipAddresses := ⟨_, rfl, by simp [ipEqual]⟩
  valid := by
    refine ⟨leafAt_notBefore a svc serial h, ?_⟩
    rcases leafAt_notAfter a svc now serial with heq | hlt
    · rw [heq]
      exact h.2
    · unfold leafLifetime hour minute second at hlt
      omega
  lasting := by
    rcases leafAt_notAfter a svc now serial with heq | hlt
    · exact .inr (le_of_eq heq.symm)
    · refine .inl (lt_trans ?_ hlt)
      unfold renewBefore leafLifetime hour minute second
      omega

/-- What a call can do: it fails, it serves the certificate there is, or it issues one. -/
theorem serviceCertificate_cases (a : Authority) (svc : Service) (now : Int)
    (signing : Except String Nat) (st : ServiceState) {r : Served}
    (hr : a.serviceCertificate svc now signing st = r) :
    ((∃ err, r.result = .error err) ∧ r.issued = none ∧
      (r.state = st ∨ a.loadCurrent svc st = .ok r.state)) ∨
    (∃ leaf, r.result = .ok leaf ∧ r.issued = none ∧ a.loadCurrent svc st = .ok r.state ∧
      Current a svc now leaf) ∨
    (∃ serial st', r = ⟨.ok (a.leafAt svc now serial), some (a.leafAt svc now serial),
        ⟨some (a.leafAt svc now serial), .holds (a.leafAt svc now serial)⟩⟩ ∧ a.rootValid now ∧
      a.loadCurrent svc st = .ok st' ∧ a.needsRenewal svc now st'.current = true) := by
  unfold Authority.serviceCertificate at hr
  split at hr
  · subst hr
    exact .inl ⟨⟨_, rfl⟩, rfl, .inl rfl⟩
  · next hroot =>
    split at hr
    · subst hr
      exact .inl ⟨⟨_, rfl⟩, rfl, .inl rfl⟩
    · next st' hload =>
      split at hr
      · next leaf hcurrent hrenewal =>
        subst hr
        rw [hcurrent] at hrenewal
        exact .inr (.inl ⟨leaf, rfl, rfl, hload, needsRenewal_eq_false.1 hrenewal⟩)
      · next hnot =>
        have hrenewal : a.needsRenewal svc now st'.current = true := by
          rw [← Bool.not_eq_false]
          intro hfalse
          cases hcurrent : st'.current with
          | none =>
            rw [hcurrent] at hfalse
            cases hfalse
          | some leaf => exact hnot leaf hcurrent hfalse
        split at hr
        · subst hr
          exact .inl ⟨⟨_, rfl⟩, rfl, .inr hload⟩
        · next serial =>
          exact .inr (.inr
            ⟨serial, st', hr.symm, rootValid_of_validateRoot hroot, hload, hrenewal⟩)

/-! ## What is issued -/

/-- The certificate is the last one issued: it is on disk, and no other is in memory. -/
def Held (leaf : LeafCertificate) (st : ServiceState) : Prop :=
  st.bundle = .holds leaf ∧ (st.current = none ∨ st.current = some leaf)

/-- A certificate that is held is loaded again. -/
theorem Held.loadCurrent (h : Held leaf st) {st' : ServiceState}
    (hload : a.loadCurrent svc st = .ok st') : st' = ⟨some leaf, .holds leaf⟩ := by
  obtain ⟨current, bundle⟩ := st
  obtain ⟨rfl, rfl | rfl⟩ := h
  · simp only [Authority.loadCurrent] at hload
    split at hload
    · cases hload
    · cases hload
      rfl
  · cases hload
    rfl

/-- A certificate issued at one time is renewed later only when it has grown old, and not at all if
it expires with the root. -/
theorem renewal_of_leafAt {issuedAt : Int} {serial : Nat} (h : a.rootValid issuedAt)
    (hlater : issuedAt ≤ now) (hroot : a.rootValid now)
    (hrenewal : a.needsRenewal svc now (some (a.leafAt svc issuedAt serial)) = true) :
    issuedAt + 60 * 24 * hour - second ≤ now ∧
      (a.leafAt svc issuedAt serial).notAfter ≠ a.root.notAfter := by
  obtain ⟨hnames, hip, hvalid, -⟩ := leafAt_current a svc serial h
  have hold : ¬ Current a svc now (a.leafAt svc issuedAt serial) := by
    rw [← needsRenewal_eq_false, hrenewal]
    decide
  rcases leafAt_notAfter a svc issuedAt serial with heq | hlt
  · refine absurd ⟨hnames, hip, ⟨hvalid.1.trans hlater, ?_⟩, .inr (le_of_eq heq.symm)⟩ hold
    rw [heq]
    exact hroot.2
  · unfold leafLifetime hour minute second at hlt
    have hage : issuedAt + 60 * 24 * hour - second ≤ now := by
      by_contra hyoung
      unfold hour minute second at hyoung
      refine hold ⟨hnames, hip, ⟨hvalid.1.trans hlater, by omega⟩, .inl ?_⟩
      unfold renewBefore hour minute second
      omega
    refine ⟨hage, fun heq => hold ⟨hnames, hip, ⟨hvalid.1.trans hlater, ?_⟩, .inr ?_⟩⟩
    · rw [heq]
      exact hroot.2
    · exact le_of_eq heq.symm

end

section
variable {a : Authority} {svc : Service} {s s' : State} {tr : Trace State Event}
  {leaf : LeafCertificate}

/-- The transition is a call that issued a certificate for the service. -/
def Issues (svc : Service) (now : Int) (leaf : LeafCertificate) (t : Transition State Event) :
    Prop :=
  ∃ result, t.label = .call svc now result (some leaf)

/-- A certificate that a call returns is current. -/
theorem Step.current {issued : Option LeafCertificate}
    (h : Step a s (.call svc now (.ok leaf) issued) s') : Current a svc now leaf := by
  generalize he : Event.call svc now (.ok leaf) issued = e at h
  cases h with
  | restart => cases he
  | call svc' now' signing =>
    injection he with hsvc hnow hresult _
    subst hsvc hnow
    rcases serviceCertificate_cases a svc now signing (s svc) rfl with
      ⟨⟨err, herr⟩, -⟩ | ⟨leaf', hok, -, -, hcurrent⟩ | ⟨serial, st', hr, hroot, -⟩
    · rw [herr] at hresult
      cases hresult
    · rw [hok] at hresult
      cases hresult
      exact hcurrent
    · rw [hr] at hresult
      cases hresult
      exact leafAt_current a svc serial hroot

/-- What a call leaves of another service's certificate, and of one that is held. -/
theorem Held.step {e : Event} (h : Held leaf (s svc)) (hstep : Step a s e s') :
    Held leaf (s' svc) ∨ ∃ now leaf', Issues svc now leaf' ⟨s, e, s'⟩ := by
  cases hstep with
  | restart => exact .inl ⟨h.1, .inl rfl⟩
  | call svc' now signing =>
    by_cases hsvc : svc = svc'
    · subst hsvc
      rcases serviceCertificate_cases a svc now signing (s svc) rfl with
        ⟨-, -, hstate⟩ | ⟨-, -, -, hload, -⟩ | ⟨serial, st', hr, -⟩
      · rw [Function.update_self]
        rcases hstate with hstate | hload
        · rw [hstate]
          exact .inl h
        · exact .inl (h.loadCurrent hload ▸ ⟨rfl, .inr rfl⟩)
      · rw [Function.update_self]
        exact .inl (h.loadCurrent hload ▸ ⟨rfl, .inr rfl⟩)
      · exact .inr ⟨now, a.leafAt svc now serial, _, by rw [hr]⟩
    · rw [Function.update_of_ne hsvc]
      exact .inl h

/-- What holds of a call that issues a certificate. -/
theorem Issues.spec (h : Issues svc now leaf t)
    (hstep : Step a t.pre t.label t.post) :
    (∃ serial, leaf = a.leafAt svc now serial) ∧ a.rootValid now ∧ Held leaf (t.post svc) ∧
      ∃ st', a.loadCurrent svc (t.pre svc) = .ok st' ∧
        a.needsRenewal svc now st'.current = true := by
  obtain ⟨pre, label, post⟩ := t
  obtain ⟨result, hlabel⟩ := h
  dsimp only at hlabel hstep ⊢
  cases hstep with
  | restart => cases hlabel
  | call svc' now' signing =>
    injection hlabel with hsvc hnow hresult hissued
    subst hsvc hnow
    rcases serviceCertificate_cases a svc' now' signing (pre svc') rfl with
      ⟨-, hnone, -⟩ | ⟨-, -, hnone, -⟩ | ⟨serial, st', hr, hroot, hload, hrenewal⟩
    · rw [hnone] at hissued
      cases hissued
    · rw [hnone] at hissued
      cases hissued
    · rw [hr] at hissued
      cases hissued
      rw [Function.update_self, hr]
      exact ⟨⟨serial, rfl⟩, hroot, ⟨rfl, .inr rfl⟩, st', hload, hrenewal⟩

theorem Issues.mem_callTimes (h : Issues svc now leaf t)
    (ht : t ∈ tr) : now ∈ callTimes tr := by
  obtain ⟨result, hlabel⟩ := h
  exact List.mem_filterMap.2 ⟨t, ht, by rw [hlabel]⟩

theorem callTimes_sublist (t : Transition State Event) (tr : Trace State Event) :
    (callTimes tr).Sublist (callTimes (t :: tr)) := (List.sublist_cons_self t tr).filterMap _

/-- Times do not decrease from one call to a later one. -/
theorem Issues.le_of_sorted {now later : Int}
    (h : Issues svc now leaf t) (hsorted : (callTimes (t :: tr)).Pairwise (· ≤ ·))
    (hlater : later ∈ callTimes tr) : now ≤ later := by
  obtain ⟨result, hlabel⟩ := h
  have hcons : callTimes (t :: tr) = now :: callTimes tr :=
    List.filterMap_cons_some (by rw [hlabel])
  rw [hcons] at hsorted
  exact (List.pairwise_cons.1 hsorted).1 later hlater

section
variable {issuedAt : Int} {serial : Nat}

/-- While a certificate is held, a call that issues another finds it old. -/
theorem Issues.bound (h : Issues svc now leaf t)
    (hstep : Step a t.pre t.label t.post) (hroot : a.rootValid issuedAt)
    (hheld : Held (a.leafAt svc issuedAt serial) (t.pre svc)) (hlater : issuedAt ≤ now) :
    issuedAt + 60 * 24 * hour - second ≤ now ∧
      (a.leafAt svc issuedAt serial).notAfter ≠ a.root.notAfter := by
  obtain ⟨-, hnow, -, st', hload, hrenewal⟩ := h.spec hstep
  rw [hheld.loadCurrent hload] at hrenewal
  exact renewal_of_leafAt hroot hlater hnow hrenewal

/-- After a certificate has been issued, no other is until it has grown old. -/
theorem issued_later (hrun : Run (Step a) s tr s') (hroot : a.rootValid issuedAt)
    (hheld : Held (a.leafAt svc issuedAt serial) (s svc))
    (hsorted : (callTimes tr).Pairwise (· ≤ ·)) (hafter : ∀ now ∈ callTimes tr, issuedAt ≤ now) :
    ∀ t ∈ tr, ∀ now leaf', Issues svc now leaf' t →
      issuedAt + 60 * 24 * hour - second ≤ now ∧
        (a.leafAt svc issuedAt serial).notAfter ≠ a.root.notAfter := by
  induction hrun with
  | nil => exact fun t ht => nomatch ht
  | @cons s s₁ s' e tr hstep _ ih =>
    intro t ht now leaf' hissue
    have hnow : issuedAt ≤ now := hafter now (hissue.mem_callTimes ht)
    rcases List.mem_cons.1 ht with rfl | ht
    · exact hissue.bound hstep hroot hheld hnow
    rcases hheld.step hstep with hheld' | ⟨now₁, leaf₁, hfirst⟩
    · have hsub := callTimes_sublist ⟨s, e, s₁⟩ tr
      exact ih hheld' (hsorted.sublist hsub) (fun u hu => hafter u (hsub.subset hu)) t ht now leaf'
        hissue
    · -- a certificate was issued in between, and it was late enough already
      have hfirstAt : issuedAt ≤ now₁ := hafter now₁ (hfirst.mem_callTimes (.head _))
      obtain ⟨hold, hexpiry⟩ := hfirst.bound hstep hroot hheld hfirstAt
      exact ⟨hold.trans (hfirst.le_of_sorted hsorted (hissue.mem_callTimes ht)), hexpiry⟩

end

end

/-- Service certificates are current, and are not issued again and again. In a run with times that
do not decrease, every certificate returned has exactly the names of its service, is valid, and has
more than 30 days left or expires no earlier than the root. After one was issued no other is issued
for the service until 60 days later, but for a second, and none at all if it expires with the
root. -/
theorem certificates_current {a : Authority} {s s' : State} {tr : Trace State Event}
    (hrun : Run (Step a) s tr s') (hsorted : (callTimes tr).Pairwise (· ≤ ·)) :
    (∀ t ∈ tr, ∀ svc now leaf issued, t.label = .call svc now (.ok leaf) issued →
      Current a svc now leaf) ∧
    ∀ (svc : Service) (before between after : Trace State Event)
      (t t' : Transition State Event) (now now' : Int) (leaf leaf' : LeafCertificate),
      tr = before ++ t :: (between ++ t' :: after) → Issues svc now leaf t →
      Issues svc now' leaf' t' →
      now + 60 * 24 * hour - second ≤ now' ∧ leaf.notAfter ≠ a.root.notAfter := by
  constructor
  · intro t ht svc now leaf issued hlabel
    obtain ⟨before, after, rfl, -, hstep, -⟩ := hrun.mem_inv ht
    exact (hlabel ▸ hstep).current
  · rintro svc before between after t t' now now' leaf leaf' rfl hissue hissue'
    obtain ⟨-, hstep, hrest⟩ := hrun.mid_inv
    obtain ⟨⟨serial, rfl⟩, hroot, hheld, -⟩ := hissue.spec hstep
    have htail : (callTimes (t :: (between ++ t' :: after))).Pairwise (· ≤ ·) :=
      hsorted.sublist ((List.sublist_append_right _ _).filterMap _)
    exact issued_later hrest hroot hheld (htail.sublist (callTimes_sublist _ _))
      (fun u hu => hissue.le_of_sorted htail hu) t' (by simp) now' leaf' hissue'

/-- A manager whose root is valid for ten years. -/
def sampleAuthority : Authority where
  manager := ⟨str "lan", str "gateway.lan"⟩
  serverIP := .v4 0xC0000201
  root :=
    { isCA := true
      basicConstraintsValid := true
      certSign := true
      selfIssued := true
      signatureError := none
      notBefore := 0
      notAfter := 3650 * 24 * hour
      unhandledCriticalExtensions := 0
      whole := ⟨⟨0, rfl⟩, ⟨3650 * 24 * 3600, by decide⟩⟩ }
  x509 := ⟨fun _ _ => none, fun _ _ _ => none⟩
  formatTime _ := ""

/-- The certificate issued after a day is replaced after 70 more. -/
theorem certificates_current_sample : ∃ leaf leaf',
    Current sampleAuthority .gateway (71 * 24 * hour) leaf' ∧
      leaf = sampleAuthority.leafAt .gateway (24 * hour) 1 ∧
      leaf.notAfter ≠ sampleAuthority.root.notAfter := by
  have hrun := Run.cons (Step.call (a := sampleAuthority) (fun _ => ⟨none, .missing⟩) .gateway
    (24 * hour) (.ok 1)) (.cons (Step.call _ .gateway (71 * 24 * hour) (.ok 2)) (.nil _))
  obtain ⟨hcurrent, hissued⟩ := certificates_current hrun (by decide)
  refine ⟨_, sampleAuthority.leafAt .gateway (71 * 24 * hour) 2, ?_, rfl, ?_⟩
  · exact hcurrent _ (.tail _ (.head _)) .gateway _ _ _ rfl
  · exact (hissued .gateway [] [] [] _ _ (24 * hour) (71 * 24 * hour) _ _ rfl ⟨_, rfl⟩ ⟨_, rfl⟩).2

end InfraBox.Pki
