import InfraBox.Lib.Disk
import InfraBox.Lib.FilePath
import InfraBox.Pki.Service

/-!
# The files of the certificate authority

`open`, `createRoot`, `serviceCertificate` and `issueLeaf` of `internal/pki/manager.go` with
`readBundle` and `writeFile` of `internal/pki/persistence.go`, as processes on the directory of the
authority: each system call is an operation of `Lib.Disk`, in the order of the source, with its
deferred calls and its error paths.

What bundles contain is a parameter (`Library`): a bundle is parsed to a key pair `κ`, of which the
manager reads the certificate as a root or as a service certificate. Keys, serial numbers and
signatures come from outside, as does the time (`Query`); a bundle that was made is any text.
-/

namespace InfraBox.Pki

/-- An error: its text, and whether it is `os.ErrNotExist`. -/
structure GoError where
  text : GoString
  notExist : Bool
deriving DecidableEq

namespace GoError

/-- `errors.New`. -/
def new (text : String) : GoError := ⟨str text, false⟩

/-- `fmt.Errorf` with a context for an error that it wraps. -/
def wrap (context : String) (err : GoError) : GoError :=
  { err with text := str context ++ str ": " ++ err.text }

end GoError

/-- The certificate template of `createRoot` or `issueLeaf`. -/
structure Template where
  commonName : GoString
  notBefore : Int
  notAfter : Int
  keyUsage : Nat
  extKeyUsage : List Nat := []
  basicConstraintsValid : Bool := true
  isCA : Bool := false
  maxPathLenZero : Bool := false
  dnsNames : List GoString := []
  ipAddresses : List GoString := []

def keyUsageCertSign : Nat := 32
def keyUsageCRLSign : Nat := 64

/-- What a process learns from elsewhere than the files of the directory. -/
inductive Query (κ : Type) where
  | mkdirAll
  | lstatDirectory
  | chmodDirectory
  | now
  /-- The bundle with a new key and a certificate that the parent, or the key itself, signs. -/
  | createBundle (template : Template) (parent : Option κ)

def Query.Answer {κ : Type} : Query κ → Type
  | .mkdirAll => Except GoError Unit
  -- `IsDir` of the directory
  | .lstatDirectory => Except GoError Bool
  | .chmodDirectory => Except GoError Unit
  | .now => Int
  | .createBundle _ _ => Except GoError GoString

/-- What the standard library makes of bundles. -/
structure Library (κ : Type) where
  parseBundle : GoString → Except GoError κ
  root : κ → RootCertificate
  leaf : κ → LeafCertificate
  /-- The certificate in PEM. -/
  certificatePEM : κ → GoString
  x509 : X509
  formatTime : Int → String
  /-- `AddDate` with a number of years. -/
  addYears : Int → Nat → Int

/-- A process on the directory that may fail. -/
abbrev PkiM (κ α : Type) : Type := DiskM (Query.Answer (κ := κ)) GoError α

def rootBundleName : GoString := str "root-ca-bundle.pem"
def leafBundleName : GoString := str "gateway-bundle.pem"
def ldapBundleName : GoString := str "ldap-bundle.pem"
def rootPublicName : GoString := str "root-ca.pem"

/-- The file with the key and the certificate of a service. -/
def Service.bundleName : Service → GoString
  | .gateway => leafBundleName
  | .ldap => ldapBundleName

/-- The fields of `Config` that `open` reads. -/
structure Config where
  directory : GoString
  domain : GoString
  serverIP : Addr

/-- A `Manager` with its root and the service certificates it has in memory. -/
structure Opened (κ : Type) where
  manager : Manager
  directory : GoString
  serverIP : Addr
  root : κ
  rootPEM : GoString
  current : Service → Option κ

section
variable {κ : Type}

/-- A process whose errors get a context. -/
def wrap {α : Type} (context : String) (m : PkiM κ α) : PkiM κ α :=
  Proc.mapError (.wrap context) m

namespace PkiM

def ask (q : Query κ) : PkiM κ q.Answer := DiskM.ask q

def mkdirAll : PkiM κ Unit := do .ofExcept (← ask .mkdirAll)
def lstatDirectory : PkiM κ Bool := do .ofExcept (← ask .lstatDirectory)
def chmodDirectory : PkiM κ Unit := do .ofExcept (← ask .chmodDirectory)
def now : PkiM κ Int := ask .now
def createBundle (template : Template) (parent : Option κ) : PkiM κ GoString := do
  .ofExcept (← ask (.createBundle template parent))

end PkiM

/-! ## Reading and writing -/

/-- The deferred calls of `writeFile`, the last one first. -/
def cleanup (tmp : GoString × Inode) :
    Proc (DiskOp (Query κ)) (DiskOp.Res Query.Answer GoError) Unit :=
  (DiskM.close tmp.2).run.bind fun _ => (DiskM.remove tmp.1).run.bind fun _ => .done ()

def closeDirectory : Proc (DiskOp (Query κ)) (DiskOp.Res Query.Answer GoError) Unit :=
  DiskM.closeDir.run.bind fun _ => .done ()

/-- The file gets its name. -/
def publish (tmp : GoString × Inode) (name : GoString) (exclusive : Bool) : PkiM κ Unit :=
  if exclusive then DiskM.link tmp.1 name else DiskM.rename tmp.1 name

/-- `writeFile`. -/
def writeFile (name data : GoString) (mode : Nat) (exclusive : Bool) : PkiM κ Unit := do
  let tmp ← DiskM.createTemp ([dot] ++ name ++ str ".tmp-")
  Proc.deferring (cleanup tmp) do
    DiskM.chmod tmp.2 mode
    DiskM.write tmp.2 data
    DiskM.sync tmp.2
    DiskM.close tmp.2
    publish tmp name exclusive
    DiskM.openDir
    Proc.deferring closeDirectory DiskM.syncDir

variable (lib : Library κ) (directory : GoString)

/-- `readBundle`. -/
def readBundle (name : GoString) : PkiM κ κ := do
  let info ← DiskM.lstat name
  Proc.reject (!info.regular)
    ⟨joinPath directory name ++ str " must be a regular file, not a symlink", false⟩
  Proc.reject (info.mode &&& 0o077 ≠ 0)
    ⟨joinPath directory name ++
      str " contains a private key; restrict its permissions to 0600", false⟩
  let data ← DiskM.readFile name
  .ofExcept (lib.parseBundle data)

/-- `issue`, with the bundle that it returns beside the certificate. -/
def issue (template : Template) (parent : Option κ) : PkiM κ (κ × GoString) := do
  let bundle ← PkiM.createBundle template parent
  let cert ← .ofExcept (lib.parseBundle bundle)
  pure (cert, bundle)

/-! ## The manager -/

/-- The template of `createRoot`. -/
def rootTemplate (now : Int) : Template where
  commonName := str "Infrastructure-in-a-Box Root CA"
  notBefore := now - clockSkew
  notAfter := lib.addYears now 10
  keyUsage := keyUsageCertSign ||| keyUsageCRLSign
  isCA := true
  maxPathLenZero := true

/-- `Manager.createRoot`. -/
def createRoot : PkiM κ κ := do
  let now ← PkiM.now
  let (cert, bundle) ← issue lib (rootTemplate lib now) none
  wrap "persist root CA" (writeFile rootBundleName bundle 0o600 true)
  pure cert

/-- The root of `open`: the one in the directory, or a new one if the directory is empty. -/
def loadRoot : PkiM κ κ := do
  match ← Proc.attempt (readBundle lib directory rootBundleName) with
  | .ok root => pure root
  | .error err =>
    if err.notExist then do
      let entries ← wrap "inspect CA state" DiskM.readDir
      Proc.reject (entries.length ≠ 0) (.new ("root CA bundle is missing from a nonempty CA " ++
        "directory; restore the original bundle"))
      wrap "load root CA" (createRoot lib)
    else throw (err.wrap "load root CA")

/-- The manager as the checks of certificates read it. -/
def Opened.authority (m : Opened κ) : Authority :=
  ⟨m.manager, m.serverIP, lib.root m.root, lib.x509, lib.formatTime⟩

/-- The template of `issueLeaf`. -/
def Authority.leafTemplate (a : Authority) (svc : Service) (now : Int) : Template where
  commonName := a.hostname svc
  notBefore := if now - clockSkew < a.root.notBefore then a.root.notBefore else now - clockSkew
  notAfter := if a.root.notAfter < now + leafLifetime then a.root.notAfter else now + leafLifetime
  keyUsage := keyUsageDigitalSignature
  extKeyUsage := [extKeyUsageServerAuth]
  dnsNames := [a.hostname svc]
  ipAddresses := [asSlice a.serverIP]

/-- `Manager.issueLeaf`. -/
def issueLeaf (m : Opened κ) (svc : Service) (now : Int) : PkiM κ κ := do
  let (cert, bundle) ← issue lib ((m.authority lib).leafTemplate svc now) (some m.root)
  wrap "persist certificate" (writeFile svc.bundleName bundle 0o600 false)
  pure cert

/-- The certificate in memory, or else the one in the bundle if there is one. -/
def loadCurrent (m : Opened κ) (svc : Service) : PkiM κ (Option κ) := do
  match m.current svc with
  | some cert => pure (some cert)
  | none =>
    match ← Proc.attempt (readBundle lib m.directory svc.bundleName) with
    | .ok cert =>
      match (m.authority lib).validateLeaf (lib.leaf cert) with
      | some err => throw (.new ("validate " ++ svc.label ++ " certificate: " ++ err))
      | none => pure (some cert)
    | .error err =>
      if err.notExist then pure none
      else throw (err.wrap ("load " ++ svc.label ++ " certificate"))

/-- `Manager.validateRoot`. -/
def validateRoot (m : Opened κ) (now : Int) : PkiM κ Unit :=
  match (m.authority lib).validateRoot now with
  | some err => throw (.new err)
  | none => pure ()

/-- `Manager.serviceCertificate`; the manager that it leaves has the certificate in memory. -/
def serviceCertificate (m : Opened κ) (svc : Service) : PkiM κ (Opened κ) := do
  let now ← PkiM.now
  validateRoot lib m now
  let current ← loadCurrent lib m svc
  if (m.authority lib).needsRenewal svc now (current.map lib.leaf) then do
    let cert ← wrap ("issue " ++ svc.label ++ " certificate") (issueLeaf lib m svc now)
    pure { m with current := Function.update m.current svc (some cert) }
  else pure { m with current := Function.update m.current svc current }

/-- The checks of `open` on its configuration. -/
def Config.check (cfg : Config) : Except GoError (Manager × Addr) :=
  match openNames cfg.domain with
  | .error err => .error (.new err)
  | .ok manager =>
    if !cfg.serverIP.isValid || cfg.serverIP.isUnspecified || cfg.serverIP.isMulticast ||
        cfg.serverIP.zone ≠ [] then
      .error (.new "gateway certificate requires a valid unicast server IP")
    else if trimSpace cfg.directory = [] then .error (.new "CA directory is required")
    else .ok (manager, cfg.serverIP.unmap)

/-- `open`. -/
def openManager (cfg : Config) : PkiM κ (Opened κ) := do
  let (manager, serverIP) ← .ofExcept cfg.check
  wrap "create CA directory" PkiM.mkdirAll
  let isDir ← wrap "inspect CA directory" PkiM.lstatDirectory
  Proc.reject (!isDir) (.new "CA directory must be a directory, not a symlink")
  wrap "secure CA directory" PkiM.chmodDirectory
  let root ← loadRoot lib cfg.directory
  let m : Opened κ :=
    ⟨manager, cfg.directory, serverIP, root, lib.certificatePEM root, fun _ => none⟩
  let now ← PkiM.now
  validateRoot lib m now
  wrap "export public root CA" (writeFile rootPublicName m.rootPEM 0o644 false)
  serviceCertificate lib m .gateway

end

end InfraBox.Pki
