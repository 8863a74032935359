import InfraBox.Acme.Exec
import InfraBox.Acme.Runs

/-!
# The ACME server: its file is accepted

A start refuses a file that `validateState` finds fault with. Every file the server writes is
accepted. `newOrder` does not look for its account again after its own prune: when its clock
readings are a month apart, the prune may drop the account of the request, and the order is then
added for a blank one. No such snapshot is written, since the encoder refuses the blank account's
key; so what mutations preserve is about the accounts with a key (`State.keyed`).

`State.Inv` says most of what `validateState` checks. The rest is about accounts (`Keyed`),
certificates (`State.Attested`) and proofs (`State.Bound`).
-/

namespace InfraBox.Acme

variable {id : GoString} {st : State}

/-! ## What is checked besides the invariant -/

/-- An account as `validateState` wants it. -/
structure Account.Accepted (crypto : Crypto) (id : GoString) (a : Account) : Prop where
  id_eq : a.id = id
  valid_id : validID id = true
  key : crypto.thumbprint a.key = some a.thumbprint
  few_orders : a.recentOrders.length ≤ maxAccountOrders
  status : a.status = .valid ∨ a.status = .deactivated

/-- The accounts are as `validateState` wants them, and have different keys. -/
structure Keyed (crypto : Crypto) (accounts : FinMap GoString Account) : Prop where
  size : accounts.size ≤ maxAccounts
  account : ∀ id a, accounts.get id = some a → a.Accepted crypto id
  unique : ∀ id id' a a', accounts.get id = some a → accounts.get id' = some a' →
    a.thumbprint = a'.thumbprint → id = id'

/-- The accounts with a key. -/
def State.keyed (st : State) : FinMap GoString Account := st.accounts.filter fun _ a => a.key ≠ []

/-- An account without a key is not active. -/
def State.Blank (st : State) : Prop :=
  ∀ id a, st.accounts.get id = some a → a.key = [] → a.status ≠ .valid

/-- The certificates are leaves signed by the root, and have different serial numbers. -/
structure State.Attested (crypto : Crypto) (st : State) : Prop where
  size : st.certificates.size ≤ maxRecords
  leaf : ∀ id cert leaf, st.certificates.get id = some cert →
    crypto.parseLeaf cert.pem = some leaf → crypto.leafSigned leaf = true ∧ leaf.isCA = false
  unique : ∀ id id' cert cert', st.certificates.get id = some cert →
    st.certificates.get id' = some cert' → cert.serial = cert'.serial → id = id'

/-- Valid authorizations are bound to the address of a client. -/
structure State.Bound (st : State) : Prop where
  orders : st.orders.size ≤ maxRecords
  authorizations : st.authorizations.size ≤ maxRecords
  target : ∀ id a, st.authorizations.get id = some a → a.status = .valid →
    a.target.ip.is4 = true ∧ a.target.clientID ≠ []

/-- Every order has an expiry time. -/
def State.Timed (st : State) : Prop := ∀ id o, st.orders.get id = some o → 0 < o.expires

/-- Thumbprints are made of public keys only. -/
def Crypto.PublicKeys (crypto : Crypto) : Prop :=
  ∀ key thumb, crypto.thumbprint key = some thumb → crypto.isPublic key = true

section
variable {cfg : Config} {crypto : Crypto} {st : State}

/-- Accounts with keys of their own pass. -/
theorem accountsError_eq_none {entries : List (GoString × Account)} {keys : List GoString}
    (hpublic : crypto.PublicKeys) (hacc : ∀ e ∈ entries, e.2.Accepted crypto e.1)
    (hkeys : Unseen (fun e => e.2.thumbprint) keys entries) :
    accountsError crypto entries keys = none := by
  induction entries generalizing keys with
  | nil => rfl
  | cons e rest ih =>
    obtain ⟨id, a⟩ := e
    obtain ⟨hnew, hrest⟩ := unseen_cons.1 hkeys
    have h := hacc _ (.head _)
    have hfew : ¬ maxAccountOrders < a.recentOrders.length := Nat.not_lt.2 h.few_orders
    have hstatus : ¬ (a.status ≠ .valid ∧ a.status ≠ .deactivated) := fun hne =>
      h.status.elim hne.1 hne.2
    have hid : a.id = id := h.id_eq
    simp only [accountsError, h.key]
    rw [if_neg (by simp_all [hpublic _ _ h.key, h.valid_id])]
    exact ih (fun e he => hacc e (.tail _ he)) hrest

/-- The names of an order pass with its authorizations. -/
theorem identifiersError_eq_none {o : Order} {seen : List GoString}
    {pairs : List (Identifier × GoString)}
    (hname : ∀ e ∈ pairs, e.1.type = str "dns" ∧ cfg.allowedName e.1.value = true)
    (hauth : ∀ e ∈ pairs, ∃ a, st.authorizations.get e.2 = some a ∧ a.orderID = id ∧
      a.accountID = o.accountID ∧ a.name = e.1.value)
    (hseen : Unseen (fun e => e.1.value) seen pairs) :
    identifiersError cfg st id o pairs seen = none := by
  induction pairs generalizing seen with
  | nil => rfl
  | cons e rest ih =>
    obtain ⟨n, authID⟩ := e
    obtain ⟨hnew, hrest⟩ := unseen_cons.1 hseen
    obtain ⟨htype, hallowed⟩ := hname _ (.head _)
    obtain ⟨a, ha, horder, hacc, hval⟩ := hauth _ (.head _)
    simp only [identifiersError, ha]
    rw [if_neg (by simp_all), if_neg (by simp_all)]
    exact ih (fun e he => hname e (.tail _ he)) (fun e he => hauth e (.tail _ he)) hrest

/-- An order of a sound state passes. -/
theorem orderError_eq_none (hinv : st.Inv cfg crypto) (htimed : st.Timed)
    {o : Order} (ho : st.orders.get id = some o) : orderError cfg st id o = none := by
  have hl := hinv.linked.order id o ho
  have hlen := hl.authorizations.length_eq
  have hne : o.identifiers.length ≠ 0 := fun h => hl.some_name (List.length_eq_zero_iff.1 h)
  have hfew := hl.few_names
  have htime := htimed id o ho
  have hnames : identifiersError cfg st id o (o.identifiers.zip o.authIDs) [] = none := by
    refine identifiersError_eq_none (fun e he => hl.names _ (List.of_mem_zip he).1)
      (fun e he => (List.forall₂_iff_zip.1 hl.authorizations).2 he) (unseen_start.2 ?_)
    rw [show (fun e : Identifier × GoString => e.1.value) = Identifier.value ∘ Prod.fst from rfl,
      ← List.map_map, List.map_fst_zip hlen.le]
    exact hl.distinct
  have hcert : orderCertificateError st id o = none := by
    unfold orderCertificateError
    split
    · next hval =>
      obtain ⟨hcsr, c, hc, horder⟩ := hinv.certified.order id o ho hval
      simp [hc, horder, hcsr]
    · rfl
  obtain ⟨acc, hacc⟩ := Option.isSome_iff_exists.1 hl.account
  unfold orderError
  rw [if_neg, if_neg (by simp [hacc]), if_neg, hnames, hcert]
  · rfl
  · rcases (hinv.coherent.order id o ho).status with h | h | h | h <;> simp [h]
  · simp only [hl.id_eq, hl.valid_id, Bool.or_eq_true, decide_eq_true_eq, not_or, ne_eq,
      Bool.not_true, not_true_eq_false, not_false_eq_true, true_and, Bool.false_eq_true]
    omega

/-- An authorization of a sound state passes. -/
theorem authorizationError_eq_none (hinv : st.Inv cfg crypto) (hbound : st.Bound)
    {a : Authorization} (ha : st.authorizations.get id = some a) :
    authorizationError cfg st id a = none := by
  have hl := hinv.linked.authorization id a ha
  have hc := hinv.coherent.authorization id a ha
  obtain ⟨o, ho, hacc, -⟩ := hl.order
  have hexp := hl.expires
  unfold authorizationError
  rw [if_neg, ho]
  · dsimp only
    rw [if_neg (by simp [hacc]), if_neg, if_neg, if_neg]
    · simp only [Bool.and_eq_true, decide_eq_true_eq, not_and]
      intro hval
      obtain ⟨hch, hdone⟩ := hc.proved hval
      obtain ⟨hip, hclient⟩ := hbound.target id a ha hval
      simp [hch, hip, hclient, Option.isSome_iff_ne_none.1 hdone]
    · rcases hc.challenge with h | h | h | h <;> simp [h]
    · rcases hc.status with h | h | h | h <;> simp [h]
  · simp only [hl.id_eq, hl.valid_id, hl.valid_token, hl.allowed, Bool.or_eq_true,
      decide_eq_true_eq, not_or, ne_eq, Bool.not_true, not_true_eq_false, not_false_eq_true,
      true_and, Bool.false_eq_true, and_true]
    omega

/-- Certificates of the root with serial numbers of their own pass. -/
theorem certificatesError_eq_none {entries : List (GoString × Certificate)}
    {serials : List GoString} (hcert : ∀ e ∈ entries, e.2.Linked crypto st e.1)
    (hleaf : ∀ e ∈ entries, ∀ leaf, crypto.parseLeaf e.2.pem = some leaf →
      crypto.leafSigned leaf = true ∧ leaf.isCA = false)
    (hserials : Unseen (fun e => e.2.serial) serials entries) :
    certificatesError crypto st entries serials = none := by
  induction entries generalizing serials with
  | nil => rfl
  | cons e rest ih =>
    obtain ⟨id, c⟩ := e
    obtain ⟨hnew, hrest⟩ := unseen_cons.1 hserials
    have h := hcert _ (.head _)
    have hid : c.id = id := h.id_eq
    have hvalid := h.valid_id
    obtain ⟨leaf, hparse, hserial, hafter⟩ := h.leaf
    obtain ⟨hsigned, hca⟩ := hleaf _ (.head _) leaf hparse
    obtain ⟨o, ho, hval, hoid, hacc, -⟩ := h.order
    have hreason : ¬ (c.revokedAt.isSome = true ∧ validRevocationReason c.reason = false) :=
      fun ⟨hrevoked, hbad⟩ => by simp [h.reason hrevoked] at hbad
    dsimp only at hnew hvalid hparse hserial hafter ho hoid hacc
    simp only [certificatesError, hparse]
    rw [if_neg, if_neg (by simp [hsigned]), ho]
    · dsimp only
      rw [if_neg (by simp [hacc, hoid, hval]), if_neg (by simpa using hreason)]
      exact ih (fun e he => hcert e (.tail _ he)) (fun e he => hleaf e (.tail _ he)) hrest
    · rw [hserial] at hnew
      simp [hid, hvalid, hserial, hnew, hafter, hca]

theorem crlError_eq_none (h : st.Listed crypto) : crlError crypto st = none := by
  unfold crlError
  split
  · next hlen =>
    obtain ⟨list, hparse, hnumber, hnext, hsigned⟩ := h fun hnil => hlen (by rw [hnil]; rfl)
    simp [hparse, hnumber, hnext, hsigned]
  · rfl

/-- A snapshot that is all this is accepted. -/
theorem validateState_eq_none (hpublic : crypto.PublicKeys) (hinv : st.Inv cfg crypto)
    (hkeyed : Keyed crypto st.accounts) (hattested : st.Attested crypto) (hbound : st.Bound)
    (htimed : st.Timed) : validateState cfg crypto st = none := by
  obtain ⟨hversion, hdomain, hroot⟩ := hinv.header
  have hlimits : st.leaseLimits.entries.findSome? (fun e => limitError e.1 e.2) = none := by
    refine List.findSome?_eq_none_iff.2 fun e he => ?_
    obtain ⟨hne, hacc, hord⟩ := hinv.limited.limit e.1 e.2 (FinMap.mem_entries.1 he)
    simp [limitError, hne, Nat.not_lt.2 hacc, Nat.not_lt.2 hord]
  have haccounts : accountsError crypto st.accounts.entries [] = none := by
    refine accountsError_eq_none hpublic
      (fun e he => hkeyed.account e.1 e.2 (FinMap.mem_entries.1 he)) (unseen_start.2 ?_)
    exact List.pairwise_map.2 (FinMap.pairwise_entries fun k k' a a' ha ha' hne heq =>
      hne (hkeyed.unique _ _ _ _ ha ha' heq))
  have horders : st.orders.entries.findSome? (fun e => orderError cfg st e.1 e.2) = none :=
    List.findSome?_eq_none_iff.2 fun e he =>
      orderError_eq_none hinv htimed (FinMap.mem_entries.1 he)
  have hauths : st.authorizations.entries.findSome? (fun e => authorizationError cfg st e.1 e.2) =
      none :=
    List.findSome?_eq_none_iff.2 fun e he =>
      authorizationError_eq_none hinv hbound (FinMap.mem_entries.1 he)
  have hcerts : certificatesError crypto st st.certificates.entries [] = none := by
    refine certificatesError_eq_none
      (fun e he => hinv.certified.certificate e.1 e.2 (FinMap.mem_entries.1 he))
      (fun e he leaf => hattested.leaf e.1 e.2 leaf (FinMap.mem_entries.1 he)) (unseen_start.2 ?_)
    exact List.pairwise_map.2 (FinMap.pairwise_entries fun k k' c c' hc hc' hne heq =>
      hne (hattested.unique _ _ _ _ hc hc' heq))
  unfold validateState
  rw [if_neg (by simp [hversion, hdomain, hroot]), if_neg, if_neg, hlimits, haccounts, horders,
    hauths, hcerts, crlError_eq_none hinv.listed]
  · rfl
  · exact Nat.not_lt.2 hinv.limited.size
  · simp [Nat.not_lt.2 hkeyed.size, Nat.not_lt.2 hbound.orders, Nat.not_lt.2 hbound.authorizations,
      Nat.not_lt.2 hattested.size]

end

/-! ## What mutations preserve -/

section
variable {crypto : Crypto} {c : Context crypto} {st st' : State}

/-- Accounts keep what they have to be when each comes from one with the same thumbprint. -/
theorem Keyed.of_same {accounts accounts' : FinMap GoString Account} (h : Keyed crypto accounts)
    (hsame : ∀ id a', accounts'.get id = some a' → ∃ a, accounts.get id = some a ∧
      a'.thumbprint = a.thumbprint ∧ a'.Accepted crypto id) : Keyed crypto accounts' where
  size := by
    refine (FinMap.size_le_of_subset fun id hid => ?_).trans h.size
    obtain ⟨a', ha'⟩ := Option.isSome_iff_exists.1 hid
    obtain ⟨a, ha, -⟩ := hsame id a' ha'
    rw [ha]
    rfl
  account id a' ha' := by
    obtain ⟨a, -, -, hacc⟩ := hsame id a' ha'
    exact hacc
  unique id id' a a' ha ha' heq := by
    obtain ⟨b, hb, hthumb, -⟩ := hsame id a ha
    obtain ⟨b', hb', hthumb', -⟩ := hsame id' a' ha'
    exact h.unique id id' b b' hb hb' (hthumb ▸ hthumb' ▸ heq)

/-- A key no account has may be given to one. -/
theorem Keyed.set {accounts : FinMap GoString Account} (h : Keyed crypto accounts)
    {a : Account} (hsize : (accounts.set id a).size ≤ maxAccounts) (hacc : a.Accepted crypto id)
    (hnew : ∀ k b, accounts.get k = some b → b.thumbprint ≠ a.thumbprint) :
    Keyed crypto (accounts.set id a) where
  size := hsize
  account k b hb := by
    rcases FinMap.get_set_eq_some.1 hb with ⟨rfl, rfl⟩ | ⟨-, hold⟩
    · exact hacc
    · exact h.account k b hold
  unique k k' b b' hb hb' hthumb := by
    rcases FinMap.get_set_eq_some.1 hb with ⟨rfl, rfl⟩ | ⟨-, hold⟩ <;>
      rcases FinMap.get_set_eq_some.1 hb' with ⟨rfl, rfl⟩ | ⟨-, hold'⟩
    · rfl
    · exact absurd hthumb.symm (hnew k' b' hold')
    · exact absurd hthumb (hnew k b hold)
    · exact h.unique k k' b b' hold hold' hthumb

/-- A key with a thumbprint is not the zero key. -/
theorem Crypto.key_ne_nil {key thumb : GoString} (h : crypto.thumbprint key = some thumb) :
    key ≠ [] := by
  rintro rfl
  cases crypto.thumbprint_zero.symm.trans h

theorem State.get_keyed {a : Account} :
    st.keyed.get id = some a ↔ st.accounts.get id = some a ∧ a.key ≠ [] := by
  simp [State.keyed]

/-- Writing an account with a key. -/
theorem State.keyed_set {a : Account} (hkey : a.key ≠ [])
    (heq : st'.accounts = st.accounts.set id a) : st'.keyed = st.keyed.set id a := by
  refine FinMap.ext_get fun k => ?_
  simp only [State.keyed, heq, FinMap.get_filter, FinMap.get_set]
  split
  · simp [hkey]
  · rfl

/-- What mutations preserve of the accounts. -/
structure State.Accounts (crypto : Crypto) (st : State) : Prop where
  keyed : Keyed crypto st.keyed
  blank : st.Blank

/-- Accounts stay acceptable, by cases on the mutation. -/
theorem Mutation.keyed (hm : Mutation c st st') (hids : ∀ id ∈ c.env.ids, validID id = true)
    (h : st.Accounts crypto) : st'.Accounts crypto := by
  have hc := hm.accounts
  generalize heq : st'.accounts = accounts at hc
  cases hc with
  | same =>
    have hkeyed : st'.keyed = st.keyed := by rw [State.keyed, heq, State.keyed]
    exact ⟨hkeyed ▸ h.keyed, fun id a ha => h.blank id a (heq ▸ ha)⟩
  | pruned _ =>
    refine ⟨h.keyed.of_same fun id a' ha' => ?_, fun id a' ha' => ?_⟩
    · obtain ⟨hget, hkey⟩ := State.get_keyed.1 ha'
      obtain ⟨a, ha, rfl⟩ := State.of_prune_accounts (heq ▸ hget)
      have hold := State.get_keyed.2 ⟨ha, hkey⟩
      have hacc := h.keyed.account id a hold
      exact ⟨a, hold, rfl, hacc.id_eq, hacc.valid_id, hacc.key,
        (List.length_filter_le _ _).trans hacc.few_orders, hacc.status⟩
    · obtain ⟨a, ha, rfl⟩ := State.of_prune_accounts (heq ▸ ha')
      exact h.blank id a ha
  | @added id a hn =>
    have hkey := Crypto.key_ne_nil hn.key
    have hsize : st.keyed.size ≤ st.accounts.size := FinMap.size_filterMap_le _ _
    refine ⟨State.keyed_set hkey heq ▸ h.keyed.set ?_ ?_ fun k b hb => ?_, fun k b hb hnil => ?_⟩
    · exact (FinMap.size_set_le _ _ _).trans (hsize.trans_lt hn.room)
    · exact ⟨hn.id_eq, hids id hn.id_mem, hn.key, by simp [hn.recentOrders], .inl hn.status⟩
    · exact hn.unique k b (State.get_keyed.1 hb).1
    · rw [heq] at hb
      rcases FinMap.get_set_eq_some.1 hb with ⟨-, rfl⟩ | ⟨-, hold⟩
      · exact absurd hnil hkey
      · exact h.blank k b hold hnil
  | @noted accountID now _ _ hfew =>
    -- the account may be gone, and is then blank
    refine ⟨h.keyed.of_same fun id a' ha' => ?_, fun id a' ha' hnil => ?_⟩
    · obtain ⟨hget, hkey⟩ := State.get_keyed.1 ha'
      rw [heq] at hget
      rcases FinMap.get_set_eq_some.1 hget with ⟨rfl, rfl⟩ | ⟨-, hget⟩
      · cases hold : st.accounts.get id with
        | none => exact absurd (by rw [hold]; rfl) hkey
        | some old =>
          rw [hold, Option.getD_some] at hkey hfew
          have hacc := h.keyed.account id old (State.get_keyed.2 ⟨hold, hkey⟩)
          refine ⟨old, State.get_keyed.2 ⟨hold, hkey⟩, rfl, hacc.id_eq, hacc.valid_id, hacc.key, ?_,
            hacc.status⟩
          simp only [Option.getD_some, List.length_append, List.length_singleton]
          omega
      · have hold := State.get_keyed.2 ⟨hget, hkey⟩
        exact ⟨a', hold, rfl, h.keyed.account id a' hold⟩
    · rw [heq] at ha'
      rcases FinMap.get_set_eq_some.1 ha' with ⟨rfl, rfl⟩ | ⟨-, hget⟩
      · cases hold : st.accounts.get id with
        | none => exact (by decide : (default : Account).status ≠ .valid)
        | some old =>
          rw [hold] at hnil
          simpa [hold] using h.blank id old hold hnil
      · exact h.blank id a' hget hnil
  | @updated id a a' hu =>
    have hkeyed := State.get_keyed.2 ⟨hu.get, fun hnil => h.blank id a hu.get hnil hu.active⟩
    have hold := h.keyed.account id a hkeyed
    have hacc : crypto.thumbprint a'.key = some a'.thumbprint → a'.Accepted crypto id := fun hkey =>
      ⟨hu.id_eq.trans hold.id_eq, hold.valid_id, hkey, hu.recentOrders ▸ hold.few_orders, hu.status⟩
    have hkey' : crypto.thumbprint a'.key = some a'.thumbprint := by
      rcases hu.key with ⟨hkey, hthumb⟩ | ⟨hkey, -⟩
      · exact hkey ▸ hthumb ▸ hold.key
      · exact hkey
    have hne := Crypto.key_ne_nil hkey'
    refine ⟨State.keyed_set hne heq ▸ ?_, fun k b hb hnil => ?_⟩
    · rcases hu.key with ⟨-, hthumb⟩ | ⟨-, hnew⟩
      · refine h.keyed.of_same fun k b hb => ?_
        rcases FinMap.get_set_eq_some.1 hb with ⟨rfl, rfl⟩ | ⟨-, hget⟩
        · exact ⟨a, hkeyed, hthumb, hacc hkey'⟩
        · exact ⟨b, hget, rfl, h.keyed.account k b hget⟩
      · refine h.keyed.set ?_ (hacc hkey') fun k b hb => hnew k b (State.get_keyed.1 hb).1
        rw [FinMap.size_set_of_mem _ (by rw [hkeyed]; rfl)]
        exact h.keyed.size
    · rw [heq] at hb
      rcases FinMap.get_set_eq_some.1 hb with ⟨-, rfl⟩ | ⟨-, hold⟩
      · exact absurd hnil hne
      · exact h.blank k b hold hnil

/-- The certificates `SignCSR` returns are leaves signed by the root. -/
def Env.SignsLeaves (crypto : Crypto) (env : Env) : Prop :=
  ∀ csr names chain leaf, env.signCSR csr names = .ok chain → crypto.parseLeaf chain = some leaf →
    crypto.leafSigned leaf = true ∧ leaf.isCA = false

/-- Certificates stay those of the root. -/
theorem Mutation.attested (hm : Mutation c st st') (hsign : c.env.SignsLeaves crypto)
    (hstrict : c.strict) (h : st.Attested crypto) : st'.Attested crypto := by
  -- a certificate keeps its text and its serial number
  have hsame : st'.certificates.size ≤ st.certificates.size →
      (∀ id cert', st'.certificates.get id = some cert' → ∃ cert,
        st.certificates.get id = some cert ∧ cert'.pem = cert.pem ∧ cert'.serial = cert.serial) →
      st'.Attested crypto := fun hsize hsource =>
    { size := hsize.trans h.size
      leaf := fun id cert' leaf hget hparse => by
        obtain ⟨cert, hold, hpem, -⟩ := hsource id cert' hget
        exact h.leaf id cert leaf hold (hpem ▸ hparse)
      unique := fun id id' cert cert' hget hget' heq => by
        obtain ⟨old, hold, -, hserial⟩ := hsource id cert hget
        obtain ⟨old', hold', -, hserial'⟩ := hsource id' cert' hget'
        exact h.unique id id' old old' hold hold' (hserial ▸ hserial' ▸ heq) }
  have hc := hm.certificates
  generalize heq : st'.certificates = certificates at hc
  cases hc with
  | same => exact hsame (by rw [heq]) fun id cert' hget => ⟨cert', heq ▸ hget, rfl, rfl⟩
  | pruned _ =>
    refine hsame ?_ fun id cert' hget => ?_
    · rw [heq]
      exact FinMap.size_filterMap_le _ _
    · rw [heq] at hget
      exact ⟨cert', (State.get_prune_certificates.1 hget).1, rfl, rfl⟩
  | @issued id o csr certID chain leaf hi =>
    obtain ⟨names, hsigned⟩ := hi.signed
    refine ⟨?_, fun k cert' leaf' hget hparse => ?_, fun k k' cert cert' hget hget' hserial => ?_⟩
    · rw [heq]
      exact (FinMap.size_set_le _ _ _).trans hi.room
    · rw [heq] at hget
      rcases FinMap.get_set_eq_some.1 hget with ⟨rfl, rfl⟩ | ⟨-, hold⟩
      · exact hsign csr names chain leaf' hsigned hparse
      · exact h.leaf k cert' leaf' hold hparse
    · rw [heq] at hget hget'
      rcases FinMap.get_set_eq_some.1 hget with ⟨rfl, rfl⟩ | ⟨-, hold⟩ <;>
        rcases FinMap.get_set_eq_some.1 hget' with ⟨rfl, rfl⟩ | ⟨-, hold'⟩
      · rfl
      · exact absurd hserial.symm (hi.serial hstrict k' cert' hold')
      · exact absurd hserial (hi.serial hstrict k cert hold)
      · exact h.unique k k' cert cert' hold hold' hserial
  | relisted hr =>
    refine hsame ?_ fun id cert' hget => ?_
    · rw [heq]
      cases hr with
      | same => exact Nat.le_refl _
      | revoked hget _ _ => exact (FinMap.size_set_of_mem _ (by rw [hget]; rfl)).le
    · rw [heq] at hget
      obtain ⟨cert, hold, hcert⟩ := hr.get hget
      refine ⟨cert, hold, ?_⟩
      rcases hcert with rfl | ⟨-, now, reason, -, rfl⟩ <;> exact ⟨rfl, rfl⟩

/-- The orders and the authorizations stay within their bounds. -/
theorem Mutation.sizes (hm : Mutation c st st') (hinv : st.Inv c.cfg crypto)
    (ho : st.orders.size ≤ maxRecords) (ha : st.authorizations.size ≤ maxRecords) :
    st'.orders.size ≤ maxRecords ∧ st'.authorizations.size ≤ maxRecords := by
  -- an authorization and its order are stored, so writing them again adds nothing
  have hauth : ∀ {id a a'}, st.authorizations.get id = some a →
      (st.authorizations.set id a').size ≤ maxRecords := fun hget => by
    rwa [FinMap.size_set_of_mem _ (by rw [hget]; rfl)]
  have hboth : ∀ {id a a' o'}, st.authorizations.get id = some a →
      (st.orders.set ((st.orders.get a.orderID).getD default).id o').size ≤ maxRecords ∧
        (st.authorizations.set id a').size ≤ maxRecords := by
    intro id a a' o' hget
    obtain ⟨o, horder, -⟩ := (hinv.linked.authorization id a hget).order
    have hid := (hinv.linked.order _ o horder).id_eq
    refine ⟨?_, hauth hget⟩
    rwa [FinMap.size_set_of_mem _ (by rw [horder, Option.getD_some, hid, horder]; rfl)]
  cases hm with
  | prune _ =>
    exact ⟨(FinMap.size_filterMap_le _ _).trans ho, (FinMap.size_filterMap_le _ _).trans ha⟩
  | @addOrder o auths hn =>
    have hlen := hn.auths.length_eq
    obtain ⟨hroom, hroom'⟩ := hn.room
    refine ⟨(FinMap.size_set_le _ _ _).trans hroom, (FinMap.size_foldl_set_le _ _ _).trans ?_⟩
    omega
  | updateAccount _ =>
    unfold State.updateAccount
    dsimp only
    split
    · exact ⟨(FinMap.size_filterMap_le _ _).trans ho, (FinMap.size_filterMap_le _ _).trans ha⟩
    · exact ⟨ho, ha⟩
  | deactivateAuthorization hget =>
    unfold State.deactivateAuthorization
    dsimp only
    split
    · exact hboth hget
    · exact ⟨ho, hauth hget⟩
  | begin _ hget _ => exact ⟨ho, hauth hget⟩
  | @retry id _ =>
    unfold retryInterruptedChallenge
    split
    · exact ⟨ho, ha⟩
    next hget =>
    split
    · exact ⟨ho, hauth hget⟩
    · exact ⟨ho, ha⟩
  | failChallenge _ hget _ _ => exact hboth hget
  | proveChallenge _ _ hget _ _ => exact hboth hget
  | rejectOrder hget _ => exact ⟨(FinMap.size_set_of_mem _ (by rw [hget]; rfl)).le.trans ho, ha⟩
  | issue hi => exact ⟨(FinMap.size_set_of_mem _ (by rw [hi.get]; rfl)).le.trans ho, ha⟩
  | relist _ _ hs =>
    obtain ⟨_, _, _, -, -, -, -, -, -, rfl⟩ := State.refreshCRL_some hs
    exact ⟨ho, ha⟩
  | reset _ => exact ⟨ho, (FinMap.size_filterMap_le _ _).trans ha⟩
  | addAccount _ | recordCreation _ _ _ | noteOrder _ _ _ _ => exact ⟨ho, ha⟩

/-- Targets stay those the validator returned. -/
theorem Mutation.bound (hm : Mutation c st st') (hinv : st.Inv c.cfg crypto)
    (hproof : ∀ t target, c.proof t target → target.ip.is4 = true ∧ target.clientID ≠ [])
    (h : st.Bound) : st'.Bound := by
  obtain ⟨ho, ha⟩ := hm.sizes hinv h.orders h.authorizations
  refine ⟨ho, ha, fun id a' ha' hval => ?_⟩
  rcases hm.valid_source ha' hval with ⟨a, hget, hval, heq⟩ | ⟨t, hp, -⟩
  · exact heq ▸ h.target id a hget hval
  · exact hproof t _ hp

/-- Pruning leaves orders that have not expired. -/
theorem Publishes.timed (h : Publishes c st st') (ht : st.Timed) : st'.Timed := by
  induction h with
  | same => exact ht
  | pruned _ hnow =>
    intro id o ho
    obtain ⟨p, i, rfl⟩ := hnow
    have hlive := (Order.live_iff.1 (State.get_prune_orders.1 ho).2).2
    have := c.env.clock.pos p i
    omega
  | @retried st' id _ _ ih =>
    obtain ⟨auths, heq⟩ := retryInterruptedChallenge_frame id st'
    exact heq ▸ ih

end

/-! ## The file -/

section
variable {cfg : Config} {crypto : Crypto} {codec : Codec crypto} {p p' : Process crypto}
  {l : Label crypto} {start : Int} {tr : Trace (Process crypto) (Label crypto)}

/-- What comes from outside in a step: certificates are leaves signed by the root, with serial
numbers no stored certificate has, and the validator returns the address of a client. -/
structure Trusted (u : Transition (Process crypto) (Label crypto)) : Prop where
  leaves : ∀ env, u.label.env = some env → env.SignsLeaves crypto
  serials : ∀ op env answer srv, u.label = .call op env answer → u.pre.server = some srv →
    FreshSerials srv env
  targets : ∀ t target env answer, u.label = .result t (some target) env answer →
    target.ip.is4 = true ∧ target.clientID ≠ []

/-- The snapshots of the process are accepted. -/
structure Process.Acceptable (cfg : Config) (p : Process crypto) : Prop where
  inv : p.Inv cfg
  accounts : ∀ v, p.View cfg v → v.Accounts crypto
  encodable : ∀ v, p.View cfg v → v.encodable = true
  attested : ∀ v, p.View cfg v → v.Attested crypto
  bound : ∀ v, p.View cfg v → v.Bound
  timed : ∀ v, p.View cfg v → v.Timed

/-- Nothing is stored at first. -/
theorem Process.acceptable_initial (cfg : Config) (start : Int) :
    (Process.initial start : Process crypto).Acceptable cfg where
  inv := Process.inv_initial cfg start
  accounts v hv := by
    cases hv with
    | stored => exact ⟨⟨Nat.zero_le _, fun _ _ h => (by cases h), fun _ _ _ _ h => (by cases h)⟩,
        fun _ _ h => (by cases h)⟩
    | memory hsrv => cases hsrv
  encodable v hv := by
    cases hv with
    | stored => rfl
    | memory hsrv => cases hsrv
  attested v hv := by
    cases hv with
    | stored => exact ⟨Nat.zero_le _, fun _ _ _ h => (by cases h), fun _ _ _ _ h => (by cases h)⟩
    | memory hsrv => cases hsrv
  bound v hv := by
    cases hv with
    | stored => exact ⟨Nat.zero_le _, Nat.zero_le _, fun _ _ h => (by cases h)⟩
    | memory hsrv => cases hsrv
  timed v hv := by
    cases hv with
    | stored => exact fun _ _ h => (by cases h)
    | memory hsrv => cases hsrv

/-- What a mutation of a step may count on. -/
theorem Fits.trusted {c : Context crypto} {strict : Prop} (hf : Fits cfg p l p' strict c)
    (h : Trusted ⟨p, l, p'⟩) : c.env.SignsLeaves crypto ∧
      ∀ t target, c.proof t target → target.ip.is4 = true ∧ target.clientID ≠ [] := by
  obtain ⟨activity, hctx⟩ := hf.context
  cases l with
  | call op env answer | start env modTime =>
    cases hctx
    exact ⟨h.leaves _ rfl, fun _ _ hp => hp.elim⟩
  | result t returned env answer =>
    cases hctx
    refine ⟨h.leaves _ rfl, fun t' target hp => ?_⟩
    obtain ⟨rfl, rfl, -⟩ := hp
    exact h.targets t' target env answer rfl
  | crash => cases hctx

/-- In a snapshot that can be encoded every account has a key. -/
theorem State.encodable_iff :
    st.encodable = true ↔ ∀ id a, st.accounts.get id = some a → a.key ≠ [] := by
  simp only [State.encodable, Bool.not_eq_true', FinMap.any_eq_false, decide_eq_false_iff_not]

/-- So its accounts are those with a key. -/
theorem State.keyed_eq (h : st.encodable = true) : st.keyed = st.accounts := by
  refine FinMap.ext_get fun id => Option.ext fun a => ?_
  rw [State.get_keyed]
  exact ⟨And.left, fun ha => ⟨ha, State.encodable_iff.1 h id a ha⟩⟩

/-- Pruning keeps the keys of the accounts. -/
theorem State.encodable_prune (h : st.encodable = true)
    (activity : FinMap GoString Int) (now : Int) : (st.prune activity now).encodable = true := by
  refine State.encodable_iff.2 fun id a' ha' => ?_
  obtain ⟨a, ha, rfl⟩ := State.of_prune_accounts ha'
  exact State.encodable_iff.1 h id a ha

/-- Interrupting a challenge leaves the accounts. -/
theorem Commit.encodable_interrupted (cm : Commit crypto) (st : State) :
    (cm.interrupted st).encodable = st.encodable := by
  rw [State.encodable, State.accounts_eq_of_reset (cm.reset_interrupted st), State.encodable]

/-- What an action that may end so leaves in memory and in the file can be encoded. -/
theorem Server.perform_encodable {srv srv' : Server crypto} {disk disk' : Option State}
    {outcome : Outcome} {action : Action crypto} {answer : Answer crypto}
    (h : srv.perform disk outcome action = (answer, srv', disk'))
    (hallows : action.allows outcome = true) (hsrv : srv.state.encodable = true) :
    srv'.state.encodable = true ∧
      (disk' = disk ∨ ∃ st, disk' = some st ∧ st.encodable = true) := by
  cases action with
  | reply activity r =>
    cases h
    exact ⟨hsrv, .inl rfl⟩
  | commit activity cm =>
    simp only [Action.allows, Bool.or_eq_true, decide_eq_true_eq] at hallows
    cases outcome with
    | failedBefore =>
      cases h
      exact ⟨(cm.encodable_interrupted _).trans hsrv, .inl rfl⟩
    | failedAfter =>
      have hnext := hallows.resolve_left (by decide)
      cases h
      exact ⟨(cm.encodable_interrupted _).trans hnext, .inr ⟨_, rfl, hnext⟩⟩
    | committed =>
      have hnext := hallows.resolve_left (by decide)
      cases h
      exact ⟨hnext, .inr ⟨_, rfl, hnext⟩⟩

/-- Every snapshot of a run can be encoded. -/
theorem Step.encodable (h : Step cfg codec p l p') (hp : p.Inv cfg)
    (henc : ∀ v, p.View cfg v → v.encodable = true) {v : State} (hv : p'.View cfg v) :
    v.encodable = true := by
  have hstored := henc _ .stored
  have hmemory : ∀ srv, p.server = some srv → srv.state.encodable = true := fun _ h =>
    henc _ (.memory h)
  cases h with
  | call _ _ hallows hperf | result _ _ hallows hperf =>
    have hold := hmemory _ rfl
    obtain ⟨hmem, hdisk⟩ := Server.perform_encodable hperf hallows hold
    cases hv with
    | stored =>
      rcases hdisk with rfl | ⟨st, rfl, hst⟩
      · exact hstored
      · exact hst
    | memory hsrv =>
      cases hsrv
      exact hmem
  | crash =>
    cases hv with
    | stored => exact hstored
    | memory hsrv => cases hsrv
  | start _ _ hnew =>
    rcases newServer_eq (hp.sound _ .stored) hnew with ⟨rfl, rfl⟩ | ⟨next, rfl, rfl, hserver⟩
    · cases hv with
      | stored => exact hstored
      | memory hsrv => cases hsrv
    · cases hv with
      | stored => exact State.encodable_prune hstored _ _
      | memory hsrv =>
        rcases hserver with rfl | rfl <;> cases hsrv
        exact State.encodable_prune hstored _ _

/-- One step of the process, in memory and in the file. -/
theorem Step.acceptable (h : Step cfg codec p l p') (htrusted : Trusted ⟨p, l, p'⟩)
    (hp : p.Acceptable cfg) : p'.Acceptable cfg := by
  have hstrict : True → l.Strict p := fun _ => by
    cases l with
    | call op env answer => exact fun srv hsrv => htrusted.serials op env answer srv rfl hsrv
    | _ => trivial
  refine ⟨h.inv hp.inv, ?_, fun v hv => h.encodable hp.inv hp.encodable hv, ?_, ?_,
    fun v' hv' => ?_⟩
  · exact h.preserves hp.inv hstrict hp.accounts fun c s s' hf _ hm => hm.keyed hf.fresh.valid
  · refine h.preserves hp.inv hstrict hp.attested fun c s s' hf _ hm => ?_
    exact hm.attested (hf.trusted htrusted).1 (hf.eqs.2.2 ▸ trivial)
  · refine h.preserves hp.inv hstrict hp.bound fun c s s' hf hinv hm => ?_
    exact hm.bound (hf.eqs.1 ▸ hinv) (hf.trusted htrusted).2
  · obtain ⟨v, hv, rfl | ⟨c, -, hpub⟩⟩ := h.view hp.inv hstrict hv'
    · exact hp.timed _ hv
    · exact hpub.timed (hp.timed v hv)

/-- Every file the server writes is accepted. -/
theorem snapshot_accepted (hpublic : crypto.PublicKeys)
    (hrun : Run (Step cfg codec) (.initial start) tr p) (htrusted : ∀ u ∈ tr, Trusted u)
    (hdisk : p.disk = some st) : validateState cfg crypto st = none := by
  have hp : p.Acceptable cfg := hrun.invariant_mem (Process.acceptable_initial cfg start)
    fun u hu hs hpre => hs.acceptable (htrusted u hu) hpre
  have hview : p.View cfg st := by
    have : p.stored cfg = st := by rw [Process.stored, hdisk, Option.getD_some]
    exact this ▸ .stored
  have hkeyed := (hp.accounts st hview).keyed
  rw [State.keyed_eq (hp.encodable st hview)] at hkeyed
  exact validateState_eq_none hpublic (hp.inv.sound st hview).inv hkeyed (hp.attested st hview)
    (hp.bound st hview) (hp.timed st hview)

end

/-- No certificate is stored before any step, and validations return the address of a client. -/
def plainTrace (tr : Trace (Process sampleCrypto) (Label sampleCrypto)) : Bool :=
  tr.all fun u => u.pre.server.all (fun srv => srv.state.certificates.size = 0) &&
    match u.label with
    | .result _ (some target) _ _ => target.ip.is4 && target.clientID ≠ []
    | _ => true

/-- A trace without signatures and proofs needs no trust. -/
theorem trusted_of_plainTrace {tr : Trace (Process sampleCrypto) (Label sampleCrypto)}
    (h : plainTrace tr = true) : ∀ u ∈ tr, Trusted u := by
  intro u hu
  have hcheck := List.all_eq_true.1 h u hu
  rw [Bool.and_eq_true] at hcheck
  obtain ⟨hcerts, htarget⟩ := hcheck
  refine ⟨fun env _ csr names chain leaf _ hparse => ⟨rfl, ?_⟩, fun op env answer srv _ hsrv => ?_,
    fun t target env answer hlabel => ?_⟩
  · have hread : ∀ der leaf, sampleCrypto.parseCertificate der = some leaf → leaf.isCA = false := by
      intro der leaf hder
      simp only [sampleCrypto] at hder
      split at hder <;> cases hder
      rfl
    exact hread chain leaf hparse
  · rw [hsrv] at hcerts
    have hzero : srv.state.certificates.size = 0 := of_decide_eq_true hcerts
    intro csr names chain leaf _ _ k cert hcert
    have hmem := (srv.state.certificates.mem_keys k).2 (by rw [hcert]; rfl)
    rw [List.length_eq_zero_iff.1 hzero] at hmem
    cases hmem
  · rw [hlabel] at htarget
    simpa using htarget

theorem sampleCrypto_publicKeys : sampleCrypto.PublicKeys := by
  intro key thumb h
  simp only [sampleCrypto] at h ⊢
  split at h
  · cases h
  · simpa

/-- The theorem at a run that issues a certificate. -/
theorem snapshot_accepted_issued :
    ∃ st, (sampleEnd (sampleOrder ++ sampleIssue)).disk = some st ∧ st.certificates.size = 1 ∧
      validateState sampleConfig sampleCrypto st = none := by
  have hdisk : (sampleEnd (sampleOrder ++ sampleIssue)).disk.any
      (·.certificates.size = 1) = true := by
    decide +kernel
  obtain ⟨st, hst, hsize⟩ := (Option.any_eq_true _ _).1 hdisk
  refine ⟨st, hst, of_decide_eq_true hsize, snapshot_accepted sampleCrypto_publicKeys
    (sampleTrace_run ?_) (trusted_of_plainTrace ?_) hst⟩
  · decide +kernel
  · decide +kernel

end InfraBox.Acme
