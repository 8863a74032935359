import InfraBox.Acme.Orders

/-!
# The ACME server: revocation

`internal/acmeserver/revocation.go`: revoking a certificate, and the revocation list, which is made
again with the next number when a certificate is revoked or the stored list is about to expire.
-/

namespace InfraBox.Acme

/-! ## The revocation list -/

/-- The loop of `refreshCRL`: the entries of the revoked certificates that have not expired. -/
def revokedEntries (now : Int) : List (GoString × Certificate) → Option (List RevocationEntry)
  | [] => some []
  | (_, cert) :: rest =>
    match cert.revokedAt with
    | none => revokedEntries now rest
    | some revokedAt =>
      if cert.notAfter ≤ now then revokedEntries now rest
      else match parseInt cert.serial with
        | none => none
        | some serial =>
          if serial ≤ 0 then none
          else (revokedEntries now rest).map (⟨serial, revokedAt, cert.reason⟩ :: ·)

/-- `Server.refreshCRL`, with the clock reading `now`. -/
def State.refreshCRL (crypto : Crypto) (createCRL : List RevocationEntry → Int → Option GoString)
    (now : Int) (next : State) : Option State :=
  if next.crlNumber < 0 ∨ next.crlNumber = 2 ^ 63 - 1 then none
  else match revokedEntries now next.certificates.entries with
  | none => none
  | some entries =>
  let number := next.crlNumber + 1
  match createCRL (entries.mergeSort fun a b => a.serialNumber ≤ b.serialNumber) number with
  | none => none
  | some der =>
  match crypto.parseRevocationList der with
  | none => none
  | some list =>
  if list.number ≠ some number ∨ list.nextUpdate ≤ now then none
  else if !crypto.listSigned list then none
  else some { next with crl := der, crlNumber := number, crlNextUpdate := list.nextUpdate }

section
variable (cfg : Config) {crypto : Crypto} (codec : Codec crypto)

/-- `Server.serveCRL`. -/
def serveCRL (srv : Server crypto) (env : Env) (head : Bool) : Action crypto :=
  let list (der : GoString) : Response :=
    { status := 200, body := if head then .none else .crl der }
  if srv.state.crl.length = 0 ∨ srv.state.crlNextUpdate ≤ env.clock.now 0 + minute then
    match srv.state.refreshCRL crypto env.createCRL (env.clock.now 1) with
    | none => .reply srv.activity internalError
    | some next => .commit srv.activity {
        next
        now := env.clock.now 2
        answer := .respond (list next.crl)
        retry := none }
  else .reply srv.activity (list srv.state.crl)

/-! ## Revocation -/

/-- `Server.authorizedForCertificate`; `now` is its clock reading. -/
def authorizedForCertificate (st : State) (lookup : Nat → GoString → Option Target) (now : Int)
    (accountID : GoString) (leaf : Leaf) : Bool :=
  leaf.dnsNames.length ≠ 0 && leaf.otherNames = 0 &&
    leaf.dnsNames.zipIdx.all fun (name, i) =>
      match lookup i name with
      | none => false
      | some target => st.authorizations.any fun _ a =>
        a.accountID = accountID && a.name = name && a.status = .valid &&
          a.challengeStatus = .valid && a.validated.any (· ≤ now) && now < a.expires &&
          a.target = target

/-- `Server.canRevoke`: whether the request may revoke, and the activity map. -/
def canRevoke (srv : Server crypto) (env : Env) (signed : Request crypto) (issued : Certificate)
    (leaf : Leaf) : Bool × FinMap GoString Int :=
  if signed.keyID ≠ [] then
    let accountID := trimPrefix signed.keyID (cfg.accountURL [])
    match activeAccount cfg srv (env.clock.now 0) signed accountID with
    | .error _ => (false, srv.activity)
    | .ok (a, activity) =>
      (a.id = issued.accountID ||
        authorizedForCertificate srv.state env.lookup (env.clock.now 1) a.id leaf, activity)
  else (crypto.thumbprint leaf.publicKey = some signed.thumbprint, srv.activity)

/-- The loop of `revokeCertificate`: the stored certificate with these bytes, or `none` when a
candidate cannot be read. -/
def findIssued (crypto : Crypto) (leaf : Leaf) (der : GoString) :
    List (GoString × Certificate) → Option (Option Certificate)
  | [] => some none
  | (_, candidate) :: rest =>
    if candidate.serial ≠ formatInt leaf.serialNumber then findIssued crypto leaf der rest
    else match crypto.parseLeaf candidate.pem with
      | none => none
      | some stored => if stored.raw = der then some (some candidate)
        else findIssued crypto leaf der rest

/-- A revoked certificate. -/
def Certificate.revoke (c : Certificate) (now reason : Int) : Certificate :=
  { c with revokedAt := some now, reason }

/-- `Server.revokeCertificate`. -/
def revokeCertificate (srv : Server crypto) (env : Env) (signed : Request crypto) : Action crypto :=
  let stop (p : Problem) : Action crypto := .reply srv.activity (.problem p)
  match decodePayload codec.revocationInput signed.payload with
  | none => stop (failure 400 "malformed" "invalid certificate revocation payload")
  | some payload =>
  if !validRevocationReason payload.reason then
    stop (failure 400 "badRevocationReason" "unsupported certificate revocation reason")
  else match codec.base64Decode payload.certificate with
  | none => stop (failure 400 "malformed" "certificate must be unpadded base64url DER")
  | some der =>
  if der.length = 0 ∨ base64Encode der ≠ payload.certificate then
    stop (failure 400 "malformed" "certificate must be unpadded base64url DER")
  else match crypto.parseCertificate der with
  | none => stop (failure 400 "malformed" "invalid certificate DER")
  | some leaf =>
  match findIssued crypto leaf der srv.state.certificates.entries with
  | none => .reply srv.activity internalError
  | some found =>
  let issued := found.getD default
  if issued.id = [] then
    stop (failure 400 "malformed" "certificate was not issued by this ACME service")
  else match canRevoke cfg srv env signed issued leaf with
  | (false, activity) => .reply activity (.problem (failure 403 "unauthorized"
      "revocation requires the issuing account, certificate private key, or current authorizations for every certificate name"))
  | (true, activity) =>
  if issued.revokedAt.isSome then
    .reply activity
      (.problem (failure 400 "alreadyRevoked" "certificate has already been revoked"))
  else
  let next := { srv.state with
    certificates := srv.state.certificates.set issued.id
      (issued.revoke (env.clock.now 2) payload.reason) }
  match next.refreshCRL crypto env.createCRL (env.clock.now 3) with
  | none => .reply activity internalError
  | some next => .commit activity {
      next
      now := env.clock.now 4
      answer := .respond { status := 200, body := .none }
      retry := none }

end

end InfraBox.Acme
