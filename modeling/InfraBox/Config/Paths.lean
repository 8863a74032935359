import InfraBox.Config.Accepted
import InfraBox.Lib.FilePath

/-!
# Private and published paths

How `Load` resolves the paths of a configuration and checks that nothing private is published
(`internal/config/file.go`, `nfs.go`). The boot directory is compared with the private files by name
only, the NFS shares after symbolic links are resolved. A layout of symbolic links is what
`filepath.EvalSymlinks` makes of it (`Symlinks`); a file that does not exist yet is resolved through
its nearest existing ancestor (`Symlinks.realPath`).

`private_state_published` has aliases that the checks do not see.
-/

namespace InfraBox.Config

/-! ## Checks on names -/

/-- `pathWithin`. -/
def pathWithin (directory path : GoString) : Bool :=
  match relPath directory path with
  | some relative => relative = [dot] || isLocal relative
  | none => false

/-- A name lies at or below another. -/
def Below (directory path : GoString) : Prop :=
  (parsePath directory).parts <+: (parsePath path).parts

theorem pathWithin_iff {directory path : GoString} (hd : isAbs directory = true)
    (hp : isAbs path = true) : pathWithin directory path = true ↔ Below directory path := by
  rw [Below, ← isLocal_rel hd hp, pathWithin]
  cases relPath directory path <;> simp

/-- `NFSShare`. -/
structure NFSShare where
  name : GoString
  path : GoString
  readOnly : Bool
deriving DecidableEq

/-- The characters of a share's name. -/
def shareNameByte (b : UInt8) : Bool :=
  ('a'.toUInt8 ≤ b && b ≤ 'z'.toUInt8) || ('A'.toUInt8 ≤ b && b ≤ 'Z'.toUInt8) || isDigit b ||
    b = '_'.toUInt8

/-- `nfsSharePattern`. -/
def shareNameValid : GoString → Bool
  | [] => false
  | b :: rest => shareNameByte b && rest.length ≤ 254 &&
      rest.all fun c => shareNameByte c || c = dot || c = hyphen

/-- The loop of `ValidateNFSShares`, after the shares in `previous`. -/
def validateShares (previous : List NFSShare) : List NFSShare → Option String
  | [] => none
  | share :: rest =>
    let field := "nfs[" ++ toString previous.length ++ "]"
    if !shareNameValid share.name then
      some (field ++ ".name must be a single name of 1–255 ASCII letters, digits, underscores, " ++
        "dots, or hyphens, starting with a letter, digit, or underscore")
    else if previous.any fun p => p.name = share.name then some (field ++ ".name is a duplicate")
    else if !isAbs share.path || share.path.contains 0 then
      some (field ++ ".path must be an absolute directory path")
    else if previous.any fun p =>
        pathWithin p.path share.path || pathWithin share.path p.path then
      some "nfs shares must not overlap"
    else validateShares (previous ++ [share]) rest

/-- `ValidateNFSShares`. -/
def validateNFSShares (shares : List NFSShare) : Option String := validateShares [] shares

/-- What a list of shares without an error satisfies. -/
theorem validateShares_eq_none : ∀ {shares previous : List NFSShare},
    validateShares previous shares = none →
      (∀ share ∈ shares, isAbs share.path = true) ∧
      (∀ share ∈ shares, ∀ p ∈ previous, pathWithin p.path share.path = false ∧
        pathWithin share.path p.path = false) ∧
      shares.Pairwise fun a b => pathWithin a.path b.path = false ∧ pathWithin b.path a.path = false
  | [], _, _ => ⟨by simp, by simp, .nil⟩
  | share :: rest, previous, h => by
    simp only [validateShares] at h
    split at h
    · cases h
    split at h
    · cases h
    split at h
    · cases h
    next habs =>
    split at h
    · cases h
    next hover =>
    obtain ⟨hrestAbs, hrest, hpair⟩ := validateShares_eq_none h
    simp only [Bool.or_eq_true, not_or, Bool.not_eq_true', Bool.not_eq_false] at habs
    have hprev : ∀ p ∈ previous, pathWithin p.path share.path = false ∧
        pathWithin share.path p.path = false := fun p hp => by
      have := List.any_eq_false.1 (Bool.eq_false_iff.2 hover) p hp
      simpa using this
    refine ⟨?_, ?_, List.pairwise_cons.2 ⟨fun b hb => ?_, hpair⟩⟩
    · intro s hs
      rcases List.mem_cons.1 hs with rfl | hs
      · exact habs.1
      · exact hrestAbs s hs
    · intro s hs p hp
      rcases List.mem_cons.1 hs with rfl | hs
      · exact hprev p hp
      · exact hrest s hs p (List.mem_append_left _ hp)
    · exact hrest b hb share (by simp)

/-! ## Symbolic links -/

/-- Why a name has no real path. -/
inductive PathError where
  | notExist
  | other
deriving DecidableEq

/-- A layout of symbolic links, as `filepath.EvalSymlinks` sees it. The real path of an absolute
name is absolute and clean. -/
structure Symlinks where
  eval : GoString → Except PathError GoString
  real : ∀ {name r}, isAbs name = true → eval name = .ok r → CleanAbs r

/-- The recursion of `canonicalPath`, at most `fuel` directories up. -/
def Symlinks.canonicalFrom (links : Symlinks) : Nat → GoString → Except PathError GoString
  | 0, _ => .error .other
  | fuel + 1, name =>
    match links.eval name with
    | .error .notExist =>
      let parent := dirOf name
      if parent = name then .error .notExist
      else (links.canonicalFrom fuel parent).map (joinPath · (baseOf name))
    | result => result

/-- `canonicalPath`. Every step up removes a slash, or is from the root. -/
def Symlinks.canonicalPath (links : Symlinks) (name : GoString) : Except PathError GoString :=
  links.canonicalFrom ((name.splitOn slash).length + 2) name

/-- The real path of a rooted path, given its parts from the last to the first: that of its nearest
existing ancestor, with the missing parts added. -/
def Symlinks.realFrom (links : Symlinks) : List GoString → Except PathError GoString
  | [] => links.eval [slash]
  | part :: rest =>
    match links.eval (Path.toString ⟨true, (part :: rest).reverse⟩) with
    | .error .notExist => (links.realFrom rest).map (joinPath · part)
    | result => result

/-- The real path of an absolute name. -/
def Symlinks.realPath (links : Symlinks) (name : GoString) : Except PathError GoString :=
  match links.eval name with
  | .error .notExist => links.realFrom (parsePath name).parts.reverse
  | result => result

section
variable {links : Symlinks} {name r : GoString}

/-- On rooted paths the recursion computes the real path. -/
theorem Symlinks.canonicalFrom_clean {parts : List GoString} : ∀ {fuel : Nat},
    Path.Wf ⟨true, parts.reverse⟩ → parts.length < fuel →
      links.canonicalFrom fuel (Path.toString ⟨true, parts.reverse⟩) = links.realFrom parts := by
  induction parts with
  | nil =>
    intro fuel _ hlt
    obtain ⟨fuel, rfl⟩ : ∃ n, fuel = n + 1 := ⟨fuel - 1, by omega⟩
    show links.canonicalFrom (fuel + 1) [slash] = links.eval [slash]
    rw [canonicalFrom]
    split
    · next h =>
      rw [if_pos (by decide)]
      exact h.symm
    · rfl
  | cons part rest ih =>
    intro fuel hwf hlt
    obtain ⟨fuel, rfl⟩ : ∃ n, fuel = n + 1 := ⟨fuel - 1, by omega⟩
    have hrev : (part :: rest).reverse = rest.reverse ++ [part] := List.reverse_cons
    have hwf' : Path.Wf ⟨true, rest.reverse ++ [part]⟩ := hrev ▸ hwf
    have hdir := dirOf_toString hwf'
    have hrest := hwf'.init
    have hne : Path.toString ⟨true, rest.reverse⟩ ≠
        Path.toString ⟨true, rest.reverse ++ [part]⟩ := by
      intro heq
      have := Path.toString_inj hrest hwf' heq
      simp at this
    rw [canonicalFrom, realFrom, hrev]
    split
    · rw [if_neg (hdir ▸ hne), hdir, baseOf_toString hwf',
        ih hrest (by rw [List.length_cons] at hlt; omega)]
    · rfl

theorem wf_of_abs (h : isAbs name = true) : Path.Wf ⟨true, (parsePath name).parts⟩ :=
  (Path.ext h rfl : parsePath name = ⟨true, (parsePath name).parts⟩) ▸ parsePath_wf name

/-- A clean name has no more parts than the name has pieces. -/
theorem length_parts_le (h : CleanAbs name) :
    (parsePath name).parts.length ≤ (name.splitOn slash).length := by
  have hname := h.toString_eq
  generalize hparts : (parsePath name).parts = parts at hname
  cases parts with
  | nil => exact Nat.zero_le _
  | cons part rest =>
    have hwf := wf_of_abs h.abs
    rw [hparts] at hwf
    have hsplit : (slash :: joinParts (part :: rest)).splitOn slash = [] :: part :: rest := by
      rw [List.splitOn_cons_eq_if_modifyHead, if_pos (beq_self_eq_true _), joinParts,
        List.splitOn_intercalate _ (fun q hq => (hwf.plain q hq).2.2) (by simp)]
    have hname : slash :: joinParts (part :: rest) = name := hname
    rw [← hname, hsplit]
    exact Nat.le_succ _

/-- `canonicalPath` finds the real path of a clean name. -/
theorem Symlinks.canonicalPath_clean (h : CleanAbs name) :
    links.canonicalPath name = links.realPath name := by
  have hlen := length_parts_le h
  have hname : Path.toString ⟨true, (parsePath name).parts.reverse.reverse⟩ = name := by
    rw [List.reverse_reverse]
    exact h.toString_eq
  have hcanon : links.canonicalPath name = links.realFrom (parsePath name).parts.reverse := by
    rw [canonicalPath]
    conv_lhs => rw [← hname]
    refine canonicalFrom_clean ?_ ?_
    · rw [List.reverse_reverse]
      exact wf_of_abs h.abs
    · rw [List.length_reverse, hname]
      omega
  rw [hcanon, realPath]
  split
  · rfl
  · next hother =>
    -- the first name the recursion looks at is the name itself
    cases hparts : (parsePath name).parts.reverse with
    | nil =>
      rw [hparts] at hname
      rw [realFrom, ← hname]
      rfl
    | cons part rest =>
      rw [hparts] at hname
      rw [realFrom, hname]
      split
      · next he => exact absurd he hother
      · rfl

/-- `canonicalPath` finds the real path of a name that exists. -/
theorem Symlinks.canonicalPath_exists (h : links.eval name = .ok r) :
    links.canonicalPath name = links.realPath name := by
  rw [canonicalPath, canonicalFrom, realPath, h]

/-- What `canonicalPath` finds is absolute and clean. -/
theorem Symlinks.canonicalFrom_cleanAbs : ∀ {fuel : Nat} {name r : GoString},
    isAbs name = true → links.canonicalFrom fuel name = .ok r → CleanAbs r
  | 0, _, _, _, hr => by cases hr
  | fuel + 1, name, r, h, hr => by
    rw [canonicalFrom] at hr
    split at hr
    · simp only at hr
      split at hr
      · cases hr
      · cases hp : links.canonicalFrom fuel (dirOf name) with
        | error e => rw [hp] at hr; cases hr
        | ok d =>
          rw [hp] at hr
          cases hr
          exact cleanAbs_joinPath (canonicalFrom_cleanAbs (isAbs_dirOf h) hp).abs _
    · exact links.real h hr

end

/-! ## The paths of a configuration -/

/-- The fields of `Config` with paths. -/
structure Paths where
  leaseFile : GoString
  bootDirectory : GoString
  caDirectory : GoString
  acmeStateFile : GoString
  nfs : List NFSShare

/-- The bundles in the CA directory. -/
def bundleNames : List GoString :=
  [str "root-ca-bundle.pem", str "gateway-bundle.pem", str "ldap-bundle.pem", str "root-ca.pem"]

/-- The paths `validatePaths` protects, with the names its errors have for them. -/
def Paths.protected (c : Paths) (configPath : GoString) : List (String × GoString) :=
  ("configuration file", configPath) :: ("ca_dir", c.caDirectory) ::
    bundleNames.map fun name => ("CA certificate/key files", joinPath c.caDirectory name)

/-- An error for the first path with a property. -/
def firstError (targets : List (String × GoString)) (p : GoString → Bool) (message : String) :
    Option String :=
  targets.findSome? fun (name, path) => if p path then some (message ++ name) else none

theorem firstError_eq_none {targets : List (String × GoString)} {p : GoString → Bool}
    {message : String} : firstError targets p message = none ↔ ∀ t ∈ targets, p t.2 = false := by
  simp only [firstError, List.findSome?_eq_none_iff, ite_eq_right_iff, reduceCtorEq, imp_false,
    Bool.not_eq_true]

/-- The real path of a protected path; one that is not set has none. -/
def Symlinks.resolve (links : Symlinks) (message : String) (path : GoString) :
    Except String GoString :=
  if path = [] then .ok []
  else match links.canonicalPath path with
    | .ok resolved => .ok resolved
    | .error _ => .error message

/-- The checks of one share against a protected path. -/
def shareError (share : GoString) : String × GoString → Option String
  | (name, path) =>
    if path ≠ [] && pathWithin share path then
      some ("nfs share must not contain the " ++ name)
    else if name = "ca_dir" && pathWithin path share then some "nfs share must not be inside ca_dir"
    else none

/-- The real path of a share. -/
def Symlinks.resolveShare (links : Symlinks) (path : GoString) : Except String GoString :=
  match links.canonicalPath path with
  | .ok resolved => .ok resolved
  | .error _ => .error "resolve nfs share"

/-- The loop of `validateNFSPaths`: the shares with their real paths. -/
def Symlinks.resolveShares (links : Symlinks) (protected' : List (String × GoString)) :
    List NFSShare → Except String (List NFSShare)
  | [] => .ok []
  | share :: rest => do
    let resolved ← links.resolveShare share.path
    report (protected'.findSome? (shareError resolved))
    let rest ← links.resolveShares protected' rest
    return { share with path := resolved } :: rest

/-- `Config.validateNFSPaths`. -/
def Paths.validateNFSPaths (c : Paths) (links : Symlinks) (configPath : GoString) :
    Except String Unit :=
  if c.nfs = [] then .ok ()
  else do
    let config ← links.resolve "resolve NFS protected configuration file" configPath
    let ca ← links.resolve "resolve NFS protected ca_dir" c.caDirectory
    let lease ← links.resolve "resolve NFS protected lease_file" c.leaseFile
    let acme ← links.resolve "resolve NFS protected acme_state" c.acmeStateFile
    let shares ← links.resolveShares [("configuration file", config), ("ca_dir", ca),
      ("lease_file", lease), ("acme_state", acme)] c.nfs
    report (validateNFSShares shares)

/-- `Config.validatePaths`. -/
def Paths.validatePaths (c : Paths) (links : Symlinks) (configPath : GoString) :
    Except String Unit := do
  report ((c.protected configPath).findSome? fun (name, path) =>
    if c.acmeStateFile = path then some ("acme_state must differ from the " ++ name)
    else if c.leaseFile = path then some ("lease_file must differ from the " ++ name)
    else none)
  require (c.acmeStateFile ≠ c.leaseFile) "acme_state must differ from the lease_file"
  report (firstError (c.protected configPath).tail (· = configPath)
    "configuration file must differ from the ")
  report (firstError (c.protected configPath ++
    [("lease_file", c.leaseFile), ("acme_state", c.acmeStateFile)])
    (fun path => path ≠ [] && pathWithin c.bootDirectory path) "boot_root must not contain the ")
  require (!pathWithin c.caDirectory c.bootDirectory) "boot_root must not be inside ca_dir"
  c.validateNFSPaths links configPath

/-- `resolvePath`. -/
def resolvePath (dir path : GoString) : GoString :=
  if path = [] then [] else if isAbs path then clean path else joinPath dir path

/-- `Load`, from the values that the file at `path` decodes to. -/
def load (p : Parsers) (links : Symlinks) (cwd path : GoString) (f : FileSettings)
    (nfs : List NFSShare) : Except String (BoxConfig × Paths) := do
  require (trimSpace path ≠ []) "config path must name a JSON file"
  let path := absPath cwd path
  let cfg ← FileSettings.config p { f with nfsError := validateNFSShares nfs }
  let acmeStateFile := if f.acmeStateFile = [] then joinPath f.caDirectory (str "acme.json")
    else f.acmeStateFile
  let dir := dirOf path
  let paths : Paths :=
    { leaseFile := resolvePath dir cfg.leaseFile
      bootDirectory := resolvePath dir f.bootDirectory
      caDirectory := resolvePath dir f.caDirectory
      acmeStateFile := resolvePath dir acmeStateFile
      nfs }
  paths.validatePaths links path
  return ({ cfg with leaseFile := paths.leaseFile }, paths)

/-! ## What is accepted -/

/-- The paths of a loaded configuration are absolute and clean; the lease file may be unset. -/
structure Paths.Resolved (c : Paths) (configPath : GoString) : Prop where
  config : CleanAbs configPath
  boot : CleanAbs c.bootDirectory
  ca : CleanAbs c.caDirectory
  lease : c.leaseFile ≠ [] → CleanAbs c.leaseFile
  acme : CleanAbs c.acmeStateFile
  shares : ∀ share ∈ c.nfs, isAbs share.path = true

theorem ne_nil_of_trimSpace {s : GoString} (h : trimSpace s ≠ []) : s ≠ [] := by
  rintro rfl
  exact h rfl

theorem cleanAbs_resolvePath {dir path : GoString} (hd : isAbs dir = true) (hp : path ≠ []) :
    CleanAbs (resolvePath dir path) := by
  rw [resolvePath, if_neg hp]
  split
  · next h => exact cleanAbs_clean h
  · exact cleanAbs_joinPath hd path

theorem cleanAbs_absPath {cwd : GoString} (h : isAbs cwd = true) (path : GoString) :
    CleanAbs (absPath cwd path) := by
  rw [absPath]
  split
  · next h => exact cleanAbs_clean h
  · exact cleanAbs_joinPath h path

/-- What `load` accepts has resolved paths that pass the checks. -/
theorem load_ok {p : Parsers} {links : Symlinks} {cwd path : GoString} {f : FileSettings}
    {nfs : List NFSShare} {cfg : BoxConfig} {c : Paths} (hcwd : isAbs cwd = true)
    (h : load p links cwd path f nfs = .ok (cfg, c)) :
    c.Resolved (absPath cwd path) ∧ c.validatePaths links (absPath cwd path) = .ok () := by
  simp only [load, bind_eq_ok, require_eq_ok] at h
  obtain ⟨-, -, cfg', hcfg, _, hvalid, hret⟩ := h
  obtain ⟨-, rfl⟩ := Prod.mk.injEq .. ▸ Except.ok.inj hret
  simp only [FileSettings.config, bind_eq_ok, require_eq_ok, report_eq_ok] at hcfg
  obtain ⟨-, -, -, -, -, -, -, -, -, hnfs, -, hboot, -, -, -, -, -, hca, -, hacme, -⟩ := hcfg
  have hconfig := cleanAbs_absPath hcwd path
  have hdir := isAbs_dirOf hconfig.abs
  have hca : f.caDirectory ≠ [] := ne_nil_of_trimSpace (by simpa using hca)
  refine ⟨⟨hconfig, cleanAbs_resolvePath hdir (ne_nil_of_trimSpace (by simpa using hboot)),
    cleanAbs_resolvePath hdir hca, fun hne => ?_, cleanAbs_resolvePath hdir ?_,
    (validateShares_eq_none hnfs).1⟩, hvalid⟩
  · exact cleanAbs_resolvePath hdir fun heq => hne (by simp [resolvePath, heq])
  · split
    · rw [joinPath, if_pos hca]
      exact clean_ne_nil _
    · assumption

/-- What the shares of an accepted configuration satisfy. -/
theorem resolveShares_ok {links : Symlinks} {targets : List (String × GoString)} :
    ∀ {shares resolved : List NFSShare}, links.resolveShares targets shares = .ok resolved →
      (∀ share ∈ shares, ∃ r, links.canonicalPath share.path = .ok r ∧
        ∀ t ∈ targets, shareError r t = none) ∧
      resolved.map (fun s => Except.ok s.path) = shares.map fun s => links.canonicalPath s.path
  | [], _, h => by cases h; exact ⟨by simp, rfl⟩
  | share :: rest, _, h => by
    simp only [Symlinks.resolveShares, bind_eq_ok, report_eq_ok] at h
    obtain ⟨r, hr, -, herr, resolved, hrest, hret⟩ := h
    cases hret
    obtain ⟨hall, hmap⟩ := resolveShares_ok hrest
    have hr : links.canonicalPath share.path = .ok r := by
      rw [Symlinks.resolveShare] at hr
      split at hr
      · next h => cases hr; exact h
      · cases hr
    refine ⟨fun s hs => ?_, ?_⟩
    · rcases List.mem_cons.1 hs with rfl | hs
      · exact ⟨r, hr, List.findSome?_eq_none_iff.1 herr⟩
      · exact hall s hs
    · rw [List.map_cons, List.map_cons, hmap, hr]

theorem resolve_ok {links : Symlinks} {message : String} {path r : GoString}
    (h : links.resolve message path = .ok r) (hne : path ≠ []) :
    links.canonicalPath path = .ok r := by
  rw [Symlinks.resolve, if_neg hne] at h
  split at h
  · next hr => cases h; exact hr
  · cases h

/-! ## Separation -/

/-- The bundles of the configuration. -/
def Paths.bundles (c : Paths) : List GoString := bundleNames.map (joinPath c.caDirectory)

/-- The files that hold private state. -/
def Paths.stateFiles (c : Paths) (configPath : GoString) : List GoString :=
  configPath :: c.acmeStateFile :: c.bundles ++ if c.leaseFile = [] then [] else [c.leaseFile]

/-- All that is private. -/
def Paths.privatePaths (c : Paths) (configPath : GoString) : List GoString :=
  c.caDirectory :: c.stateFiles configPath

/-- The directories that are served to anyone. -/
def Paths.published (c : Paths) : List GoString := c.bootDirectory :: c.nfs.map NFSShare.path

/-- The path does not really lie at or below the directory. -/
def Symlinks.Avoids (links : Symlinks) (dir path : GoString) : Prop :=
  ∀ d p, links.realPath dir = .ok d → links.realPath path = .ok p → ¬ Below d p

/-- Nothing private is published: no private path really lies at or below a published directory, no
published directory really lies in the CA directory, no two shares overlap, and the files are
different ones. -/
structure Paths.Separated (c : Paths) (links : Symlinks) (configPath : GoString) : Prop where
  unpublished : ∀ dir ∈ c.published, ∀ file ∈ c.privatePaths configPath, links.Avoids dir file
  outside : ∀ dir ∈ c.published, links.Avoids c.caDirectory dir
  apart : c.nfs.Pairwise fun a b => links.Avoids a.path b.path ∧ links.Avoids b.path a.path
  distinct : (c.stateFiles configPath).Nodup

/-- No path of the configuration is an alias that the checks do not resolve: the boot directory and
the private paths are real paths, and a share exists or is given by a clean name. -/
structure Paths.Unaliased (c : Paths) (links : Symlinks) (configPath : GoString) : Prop where
  plain : ∀ name ∈ c.bootDirectory :: c.privatePaths configPath, ∀ r,
    links.realPath name = .ok r → r = name
  shares : ∀ share ∈ c.nfs, clean share.path = share.path ∨ ∃ r, links.eval share.path = .ok r

/-- The checks compare the real path of the share. -/
def Symlinks.Settles (links : Symlinks) (share : NFSShare) : Prop :=
  links.canonicalPath share.path = links.realPath share.path

/-- What the checks do not compare, of the real paths: the boot directory with what is private, the
bundles with the shares, and the shares whose real path they do not see. -/
structure Paths.Uncompared (c : Paths) (links : Symlinks) (configPath : GoString) : Prop where
  boot : ∀ file ∈ c.privatePaths configPath, links.Avoids c.bootDirectory file
  ca : links.Avoids c.caDirectory c.bootDirectory
  bundles : ∀ share ∈ c.nfs, ∀ file ∈ c.bundles, links.Avoids share.path file
  shares : ∀ share ∈ c.nfs, ¬ links.Settles share → links.Avoids c.caDirectory share.path ∧
    ∀ file ∈ c.privatePaths configPath, links.Avoids share.path file
  apart : c.nfs.Pairwise fun a b => ¬ (links.Settles a ∧ links.Settles b) →
    links.Avoids a.path b.path ∧ links.Avoids b.path a.path

section
variable {links : Symlinks} {c : Paths} {configPath : GoString}

theorem plainPart_bundle : ∀ name ∈ bundleNames, PlainPart name := by
  unfold PlainPart
  decide

/-- What the checks by name establish. -/
structure Paths.Checked (c : Paths) (configPath : GoString) : Prop where
  acme : ∀ path ∈ configPath :: c.caDirectory :: c.bundles, c.acmeStateFile ≠ path
  lease : ∀ path ∈ configPath :: c.caDirectory :: c.bundles, c.leaseFile ≠ path
  acme_lease : c.acmeStateFile ≠ c.leaseFile
  config : ∀ path ∈ c.bundles, path ≠ configPath
  boot : ∀ path ∈ c.privatePaths configPath, path ≠ [] → pathWithin c.bootDirectory path = false
  ca : pathWithin c.caDirectory c.bootDirectory = false

/-- The checks in the order in which they are made. -/
theorem Paths.validatePaths_ok (h : c.validatePaths links configPath = .ok ()) :
    c.Checked configPath ∧ c.validateNFSPaths links configPath = .ok () := by
  simp only [Paths.validatePaths, bind_eq_ok, report_eq_ok, require_eq_ok, firstError_eq_none] at h
  obtain ⟨-, hdiffer, -, hlease, -, hconfig, -, hboot, -, hca, hnfs⟩ := h
  have hpaths : ∀ path ∈ configPath :: c.caDirectory :: c.bundles,
      ∃ name, (name, path) ∈ c.protected configPath := by
    intro path hp
    rcases List.mem_cons.1 hp with rfl | hp
    · exact ⟨_, .head _⟩
    rcases List.mem_cons.1 hp with rfl | hp
    · exact ⟨_, .tail _ (.head _)⟩
    · obtain ⟨name, hname, rfl⟩ := List.mem_map.1 hp
      exact ⟨_, .tail _ (.tail _ (List.mem_map.2 ⟨name, hname, rfl⟩))⟩
  have hne : ∀ path ∈ configPath :: c.caDirectory :: c.bundles,
      c.acmeStateFile ≠ path ∧ c.leaseFile ≠ path := by
    intro path hp
    obtain ⟨name, hmem⟩ := hpaths path hp
    have := List.findSome?_eq_none_iff.1 hdiffer _ hmem
    simp only at this
    split at this
    · cases this
    split at this
    · cases this
    · exact ⟨‹_›, ‹_›⟩
  refine ⟨⟨fun path hp => (hne path hp).1, fun path hp => (hne path hp).2, by simpa using hlease,
    fun path hp => ?_, fun path hp hset => ?_, by simpa using hca⟩, hnfs⟩
  · obtain ⟨name, hname, rfl⟩ := List.mem_map.1 hp
    simpa using hconfig _ (.tail _ (List.mem_map.2 ⟨name, hname, rfl⟩))
  · have hmem : ∃ name, (name, path) ∈ c.protected configPath ++
        [("lease_file", c.leaseFile), ("acme_state", c.acmeStateFile)] := by
      rcases List.mem_cons.1 hp with rfl | hp
      · exact ⟨_, List.mem_append_left _ (.tail _ (.head _))⟩
      rcases List.mem_cons.1 hp with rfl | hp
      · exact ⟨_, List.mem_append_left _ (.head _)⟩
      rcases List.mem_cons.1 hp with rfl | hp
      · exact ⟨_, List.mem_append_right _ (.tail _ (.head _))⟩
      rcases List.mem_append.1 hp with hp | hp
      · obtain ⟨name, hin⟩ := hpaths path (.tail _ (.tail _ hp))
        exact ⟨name, List.mem_append_left _ hin⟩
      · split at hp
        · cases hp
        · rw [List.mem_singleton.1 hp]
          exact ⟨_, List.mem_append_right _ (.head _)⟩
    obtain ⟨name, hmem⟩ := hmem
    simpa [hset] using hboot _ hmem

/-- Different bundles have different paths. -/
theorem Paths.nodup_bundles (h : isAbs c.caDirectory = true) : c.bundles.Nodup := by
  refine List.Nodup.map_on (fun a ha b hb heq => ?_) (by decide)
  have hparts := congrArg (fun p => (parsePath p).parts) heq
  simp only [parts_joinPath h (plainPart_bundle a ha), parts_joinPath h (plainPart_bundle b hb)]
    at hparts
  exact List.singleton_inj.1 (List.append_cancel_left hparts)

/-- The files of an accepted configuration are different ones. -/
theorem Paths.Checked.distinct (h : c.Checked configPath) (hr : c.Resolved configPath) :
    (c.stateFiles configPath).Nodup := by
  have hlease : ∀ {path}, (path ∈ if c.leaseFile = [] then [] else [c.leaseFile]) →
      path = c.leaseFile := fun {path} hp => by
    split at hp
    · cases hp
    · exact List.mem_singleton.1 hp
  rw [stateFiles, List.cons_append, List.nodup_cons, List.cons_append, List.nodup_cons,
    List.nodup_append]
  refine ⟨fun hmem => ?_, fun hmem => ?_, nodup_bundles hr.ca.abs, ?_, fun a ha b hb heq => ?_⟩
  · rcases List.mem_cons.1 hmem with heq | hmem
    · exact h.acme configPath (.head _) heq.symm
    rcases List.mem_append.1 hmem with hmem | hmem
    · exact h.config configPath hmem rfl
    · exact h.lease configPath (.head _) (hlease hmem).symm
  · rcases List.mem_append.1 hmem with hmem | hmem
    · exact h.acme c.acmeStateFile (.tail _ (.tail _ hmem)) rfl
    · exact h.acme_lease (hlease hmem)
  · split
    · exact List.nodup_nil
    · exact List.nodup_singleton _
  · exact h.lease a (.tail _ (.tail _ ha)) ((hlease hb).symm.trans heq.symm)

/-- All that is private is absolute and clean. -/
theorem Paths.Resolved.private (h : c.Resolved configPath) :
    ∀ path ∈ c.privatePaths configPath, CleanAbs path := by
  intro path hp
  rcases List.mem_cons.1 hp with rfl | hp
  · exact h.ca
  rcases List.mem_cons.1 hp with rfl | hp
  · exact h.config
  rcases List.mem_cons.1 hp with rfl | hp
  · exact h.acme
  rcases List.mem_append.1 hp with hp | hp
  · obtain ⟨name, -, rfl⟩ := List.mem_map.1 hp
    exact cleanAbs_joinPath h.ca.abs name
  · split at hp
    · cases hp
    · next hne => rw [List.mem_singleton.1 hp]; exact h.lease hne

/-- What `validateNFSPaths` establishes of a share: its real path does not contain the configuration
file, the CA directory, the lease file or the ACME state file, and is not in the CA directory. -/
theorem Paths.share_ok (hr : c.Resolved configPath)
    (h : c.validateNFSPaths links configPath = .ok ()) {share : NFSShare} (hs : share ∈ c.nfs) :
    ∃ s ca, links.canonicalPath share.path = .ok s ∧ links.canonicalPath c.caDirectory = .ok ca ∧
      ¬ Below ca s ∧ ¬ Below s ca ∧
      ∀ path, path = configPath ∨ path = c.acmeStateFile ∨ path = c.leaseFile → path ≠ [] →
        ∀ f, links.canonicalPath path = .ok f → ¬ Below s f := by
  rw [Paths.validateNFSPaths, if_neg (List.ne_nil_of_mem hs)] at h
  simp only [bind_eq_ok, report_eq_ok] at h
  obtain ⟨config, hconfig, ca, hca, lease, hlease, acme, hacme, shares, hshares, -⟩ := h
  obtain ⟨s, hcanon, herr⟩ := (resolveShares_ok hshares).1 share hs
  have hsabs := (links.canonicalFrom_cleanAbs (hr.shares share hs) hcanon).abs
  have hcaCanon := resolve_ok hca hr.ca.ne_nil
  have hcaAbs := (links.canonicalFrom_cleanAbs hr.ca.abs hcaCanon).abs
  -- what the error of one protected path says when there is none
  have hnone : ∀ {name path}, isAbs path = true → shareError s (name, path) = none →
      ¬ Below s path ∧ (name = "ca_dir" → ¬ Below path s) := by
    intro name path habs herr
    have hne : path ≠ [] := by rintro rfl; cases habs
    rw [← pathWithin_iff hsabs habs, ← pathWithin_iff habs hsabs]
    simp only [shareError] at herr
    split at herr
    · cases herr
    next hin =>
    split at herr
    · cases herr
    next hout =>
    exact ⟨fun h => hin (by simp [hne, h]), fun hname h => hout (by simp [hname, h])⟩
  obtain ⟨hin, hout⟩ := hnone hcaAbs (herr ("ca_dir", ca) (by simp))
  refine ⟨s, ca, hcanon, hcaCanon, hout rfl, hin, ?_⟩
  rintro path (rfl | rfl | rfl) hne f hf
  · have hf' := resolve_ok hconfig hne
    obtain rfl : config = f := Except.ok.inj (hf'.symm.trans hf)
    exact (hnone (links.canonicalFrom_cleanAbs hr.config.abs hf).abs
      (herr ("configuration file", config) (by simp))).1
  · have hf' := resolve_ok hacme hne
    obtain rfl : acme = f := Except.ok.inj (hf'.symm.trans hf)
    exact (hnone (links.canonicalFrom_cleanAbs hr.acme.abs hf).abs
      (herr ("acme_state", acme) (by simp))).1
  · have hf' := resolve_ok hlease hne
    obtain rfl : lease = f := Except.ok.inj (hf'.symm.trans hf)
    exact (hnone (links.canonicalFrom_cleanAbs (hr.lease hne).abs hf).abs
      (herr ("lease_file", lease) (by simp))).1

/-- The real paths of two shares do not overlap. -/
theorem Paths.shares_apart (h : c.validateNFSPaths links configPath = .ok ()) :
    c.nfs.Pairwise fun a b => ∀ x y, links.canonicalPath a.path = .ok x →
      links.canonicalPath b.path = .ok y → ¬ Below x y ∧ ¬ Below y x := by
  by_cases hnil : c.nfs = []
  · rw [hnil]
    exact .nil
  rw [Paths.validateNFSPaths, if_neg hnil] at h
  simp only [bind_eq_ok, report_eq_ok] at h
  obtain ⟨_, _, _, _, _, _, _, _, shares, hshares, hvalid⟩ := h
  obtain ⟨-, hmap⟩ := resolveShares_ok hshares
  obtain ⟨habs, -, hpair⟩ := validateShares_eq_none hvalid
  have hpair : shares.Pairwise fun a b => ∀ x y, Except.ok (ε := PathError) a.path = .ok x →
      Except.ok (ε := PathError) b.path = .ok y → ¬ Below x y ∧ ¬ Below y x := by
    refine hpair.imp_of_mem fun {a b} ha hb hab x y hx hy => ?_
    cases hx
    cases hy
    rw [← pathWithin_iff (habs a ha) (habs b hb), ← pathWithin_iff (habs b hb) (habs a ha)]
    simpa using hab
  have := (List.pairwise_map (f := fun s : NFSShare => Except.ok (ε := PathError) s.path)
    (R := fun p q => ∀ x y, p = .ok x → q = .ok y → ¬ Below x y ∧ ¬ Below y x)).2 hpair
  rw [hmap] at this
  exact List.pairwise_map.1 this

/-- A bundle is published with the CA directory or lies in it. -/
theorem below_bundle {s : GoString} (hca : isAbs c.caDirectory = true) {name : GoString}
    (hname : name ∈ bundleNames) (h : Below s (joinPath c.caDirectory name)) :
    Below s c.caDirectory ∨ Below c.caDirectory s := by
  rw [Below, parts_joinPath hca (plainPart_bundle name hname)] at h
  rcases List.prefix_concat_iff.1 h with h | h
  · exact .inr ⟨[name], h.symm⟩
  · exact .inl h

/-- What the checks do of a share they see: they keep it apart from all that is private but the
bundles, and out of the CA directory. -/
theorem Paths.share_avoids (hr : c.Resolved configPath)
    (h : c.validateNFSPaths links configPath = .ok ()) {share : NFSShare} (hs : share ∈ c.nfs)
    (hsettles : links.Settles share) : links.Avoids c.caDirectory share.path ∧
      links.Avoids share.path c.caDirectory ∧
      ∀ file ∈ c.privatePaths configPath, file ∉ c.bundles → links.Avoids share.path file := by
  obtain ⟨s, ca, hcanon, hcaCanon, hout, hin, hfiles⟩ := Paths.share_ok hr h hs
  have hs' : ∀ {d}, links.realPath share.path = .ok d → s = d := fun hd =>
    Except.ok.inj (hcanon.symm.trans (hsettles.trans hd))
  have hca' : ∀ {d}, links.realPath c.caDirectory = .ok d → ca = d := fun hd =>
    Except.ok.inj (hcaCanon.symm.trans ((Symlinks.canonicalPath_clean hr.ca).trans hd))
  have hca : links.Avoids share.path c.caDirectory := fun d p hd hp => by
    rw [← hs' hd, ← hca' hp]
    exact hin
  refine ⟨fun d p hd hp => ?_, hca, fun file hmem hbundle d p hd hp => ?_⟩
  · rw [← hca' hd, ← hs' hp]
    exact hout
  · have hclean := hr.private file hmem
    have hreal := (Symlinks.canonicalPath_clean hclean).trans hp
    rcases List.mem_cons.1 hmem with rfl | hmem
    · exact hca d p hd hp
    rw [← hs' hd]
    rcases List.mem_cons.1 hmem with rfl | hmem
    · exact hfiles _ (.inl rfl) hclean.ne_nil _ hreal
    rcases List.mem_cons.1 hmem with rfl | hmem
    · exact hfiles _ (.inr (.inl rfl)) hclean.ne_nil _ hreal
    rcases List.mem_append.1 hmem with hmem | hmem
    · exact absurd hmem hbundle
    · split at hmem
      · cases hmem
      · exact hfiles file (.inr (.inr (List.mem_singleton.1 hmem))) hclean.ne_nil _ hreal

/-- An accepted configuration is separated just if what the checks do not compare is. -/
theorem Paths.separated_iff (hr : c.Resolved configPath)
    (h : c.validatePaths links configPath = .ok ()) :
    c.Separated links configPath ↔ c.Uncompared links configPath := by
  obtain ⟨hchecked, hnfs⟩ := Paths.validatePaths_ok h
  have hshare : ∀ {share : NFSShare}, share ∈ c.nfs → share.path ∈ c.published := fun hs =>
    .tail _ (List.mem_map.2 ⟨_, hs, rfl⟩)
  have hbundle : ∀ file ∈ c.bundles, file ∈ c.privatePaths configPath := fun file hfile =>
    .tail _ (.tail _ (.tail _ (List.mem_append_left _ hfile)))
  constructor
  · intro hsep
    exact ⟨hsep.unpublished _ (.head _), hsep.outside _ (.head _),
      fun share hs file hfile => hsep.unpublished _ (hshare hs) file (hbundle file hfile),
      fun share hs _ => ⟨hsep.outside _ (hshare hs), hsep.unpublished _ (hshare hs)⟩,
      hsep.apart.imp fun {a b} h (_ : ¬ (links.Settles a ∧ links.Settles b)) => h⟩
  · intro hopen
    refine ⟨fun dir hdir file hmem => ?_, fun dir hdir => ?_, ?_, hchecked.distinct hr⟩
    · rcases List.mem_cons.1 hdir with rfl | hdir
      · exact hopen.boot file hmem
      obtain ⟨share, hs, rfl⟩ := List.mem_map.1 hdir
      by_cases hfile : file ∈ c.bundles
      · exact hopen.bundles share hs file hfile
      by_cases hsettles : links.Settles share
      · exact (Paths.share_avoids hr hnfs hs hsettles).2.2 file hmem hfile
      · exact (hopen.shares share hs hsettles).2 file hmem
    · rcases List.mem_cons.1 hdir with rfl | hdir
      · exact hopen.ca
      obtain ⟨share, hs, rfl⟩ := List.mem_map.1 hdir
      by_cases hsettles : links.Settles share
      · exact (Paths.share_avoids hr hnfs hs hsettles).1
      · exact (hopen.shares share hs hsettles).1
    · refine ((Paths.shares_apart hnfs).and hopen.apart).imp fun {a b} hab => ?_
      by_cases hsettles : links.Settles a ∧ links.Settles b
      · exact ⟨fun x y hx hy => (hab.1 x y (hsettles.1.trans hx) (hsettles.2.trans hy)).1,
          fun y x hy hx => (hab.1 x y (hsettles.1.trans hx) (hsettles.2.trans hy)).2⟩
      · exact hab.2 hsettles

/-- Without aliases the checks by name are enough. -/
theorem Paths.Unaliased.uncompared (h : c.Unaliased links configPath)
    (hr : c.Resolved configPath) (hvalid : c.validatePaths links configPath = .ok ()) :
    c.Uncompared links configPath := by
  obtain ⟨hchecked, hnfs⟩ := Paths.validatePaths_ok hvalid
  have hsettles : ∀ share ∈ c.nfs, links.Settles share := by
    intro share hs
    rcases h.shares share hs with hclean | ⟨r, hr'⟩
    · exact Symlinks.canonicalPath_clean ⟨hr.shares share hs, hclean⟩
    · exact Symlinks.canonicalPath_exists hr'
  have hfile : ∀ file ∈ c.privatePaths configPath, ∀ r, links.realPath file = .ok r → r = file :=
    fun file hf => h.plain file (.tail _ hf)
  refine ⟨fun file hmem d p hd hp => ?_, fun d p hd hp => ?_,
    fun share hs file hfile' d p hd hp => ?_, fun share hs hnot => absurd (hsettles share hs) hnot,
    List.pairwise_of_forall_mem_list fun a ha b hb hnot =>
      absurd ⟨hsettles a ha, hsettles b hb⟩ hnot⟩
  · have hclean := hr.private file hmem
    rw [h.plain _ (.head _) d hd, hfile file hmem p hp, ← pathWithin_iff hr.boot.abs hclean.abs,
      hchecked.boot file hmem hclean.ne_nil]
    exact Bool.false_ne_true
  · rw [hfile _ (.head _) d hd, h.plain _ (.head _) p hp, ← pathWithin_iff hr.ca.abs hr.boot.abs,
      hchecked.ca]
    exact Bool.false_ne_true
  · -- a bundle lies in the CA directory, which the checks keep apart from the share
    obtain ⟨hout, hin, -⟩ := Paths.share_avoids hr hnfs hs (hsettles share hs)
    obtain ⟨name, hname, rfl⟩ := List.mem_map.1 hfile'
    have hca : ∃ ca, links.realPath c.caDirectory = .ok ca := by
      obtain ⟨_, ca, -, hca, -⟩ := Paths.share_ok hr hnfs hs
      exact ⟨ca, (Symlinks.canonicalPath_clean hr.ca).symm.trans hca⟩
    obtain ⟨ca, hca⟩ := hca
    rw [hfile _ (.tail _ (.tail _ (.tail _ (List.mem_append_left _ hfile')))) p hp]
    obtain rfl := hfile _ (.head _) ca hca
    intro hbelow
    rcases below_bundle hr.ca.abs hname hbelow with hbelow | hbelow
    · exact hin d _ hd hca hbelow
    · exact hout _ d hca hd hbelow

end

/-- An accepted configuration whose paths are not aliased publishes nothing private. With aliases it
publishes nothing private just if the real paths that the checks do not compare are apart. -/
theorem private_state_unpublished {p : Parsers} {links : Symlinks} {cwd path : GoString}
    {f : FileSettings} {nfs : List NFSShare} {cfg : BoxConfig} {c : Paths} (hcwd : isAbs cwd = true)
    (hload : load p links cwd path f nfs = .ok (cfg, c)) :
    (c.Unaliased links (absPath cwd path) → c.Separated links (absPath cwd path)) ∧
    (c.Separated links (absPath cwd path) ↔ c.Uncompared links (absPath cwd path)) := by
  obtain ⟨hr, hvalid⟩ := load_ok hcwd hload
  have hiff := Paths.separated_iff hr hvalid
  exact ⟨fun h => hiff.2 (h.uncompared hr hvalid), hiff⟩

/-! ## Aliases -/

/-- The layout in which the names of a table exist, with their real paths. -/
def Symlinks.ofTable (table : List (GoString × GoString)) (h : ∀ e ∈ table, CleanAbs e.2) :
    Symlinks where
  eval name := match table.find? fun e => e.1 = name with
    | some e => .ok e.2
    | none => .error .notExist
  real {name r} _ hr := by
    split at hr
    · next hl =>
      cases hr
      exact h _ (List.mem_of_find?_eq_some hl)
    · cases hr

instance (name : GoString) : Decidable (CleanAbs name) :=
  decidable_of_iff (isAbs name = true ∧ clean name = name)
    ⟨fun h => ⟨h.1, h.2⟩, fun h => ⟨h.abs, h.clean_eq⟩⟩

instance (directory path : GoString) : Decidable (Below directory path) :=
  inferInstanceAs (Decidable (_ <+: _))

/-- The sample file with other directories. -/
def sampleDirectories (boot ca : GoString) : FileSettings :=
  { sampleFile with bootDirectory := boot, caDirectory := ca }

/-- Its path. -/
def samplePath : GoString := str "/etc/box/config.json"

/-- The paths `load` makes of it, with some shares. -/
def samplePaths (boot ca : GoString) (nfs : List NFSShare) : Paths where
  leaseFile := str "/etc/box/leases.json"
  bootDirectory := boot
  caDirectory := ca
  acmeStateFile := joinPath ca (str "acme.json")
  nfs := nfs

/-- Existing directories without symbolic links. -/
def sampleDirs : List (GoString × GoString) :=
  [(str "/", str "/"), (str "/etc/box", str "/etc/box"), (str "/srv", str "/srv"),
    (str "/srv/data", str "/srv/data")]

/-- A configuration with a share, on a host without symbolic links. -/
theorem private_state_unpublished_plain :
    (samplePaths (str "/srv/boot") (str "/etc/box/ca")
      [⟨str "data", str "/srv/data", false⟩]).Separated
        (.ofTable sampleDirs (by decide)) samplePath := by
  have hload : load sampleParsers (.ofTable sampleDirs (by decide)) [slash] samplePath
      (sampleDirectories (str "/srv/boot") (str "/etc/box/ca"))
      [⟨str "data", str "/srv/data", false⟩] = .ok (_, samplePaths (str "/srv/boot")
        (str "/etc/box/ca") [⟨str "data", str "/srv/data", false⟩]) := rfl
  refine (private_state_unpublished (by decide) hload).1 ⟨?_, ?_⟩
  · intro name hname r hr
    have hall : ∀ name ∈ str "/srv/boot" :: (samplePaths (str "/srv/boot") (str "/etc/box/ca")
        [⟨str "data", str "/srv/data", false⟩]).privatePaths samplePath,
        (Symlinks.ofTable sampleDirs (by decide)).realPath name = .ok name := by decide +kernel
    exact Except.ok.inj (hr.symm.trans (hall name hname))
  · exact List.forall_mem_singleton.2 (.inl (by decide))

/-- Three aliases that are accepted and publish something private. The boot directory is a symbolic
link to the CA directory. A bundle is a symbolic link into a share. A share that does not exist yet
is written with a final slash, so that its last part is taken twice, and it will contain the CA
directory. -/
theorem private_state_published :
    (∃ links cfg c d f, load sampleParsers links [slash] samplePath
        (sampleDirectories (str "/srv/boot") (str "/etc/box/ca")) [] = .ok (cfg, c) ∧
      links.realPath c.bootDirectory = .ok d ∧ links.realPath c.caDirectory = .ok f ∧ Below d f) ∧
    (∃ links cfg c d f, load sampleParsers links [slash] samplePath
        (sampleDirectories (str "/srv/boot") (str "/etc/box/ca"))
        [⟨str "data", str "/srv/data", false⟩] = .ok (cfg, c) ∧
      links.realPath (str "/srv/data") = .ok d ∧
      links.realPath (joinPath c.caDirectory (str "root-ca-bundle.pem")) = .ok f ∧ Below d f) ∧
    (∃ links cfg c d f, load sampleParsers links [slash] samplePath
        (sampleDirectories (str "/srv/boot") (str "/srv/box/ca"))
        [⟨str "data", str "/srv/box/", false⟩] = .ok (cfg, c) ∧
      links.realPath (str "/srv/box/") = .ok d ∧ links.realPath c.caDirectory = .ok f ∧
      Below d f) := by
  refine ⟨⟨.ofTable ((str "/srv/boot", str "/etc/box/ca") ::
      (str "/etc/box/ca", str "/etc/box/ca") :: sampleDirs) (by decide), _,
      samplePaths (str "/srv/boot") (str "/etc/box/ca") [], str "/etc/box/ca", str "/etc/box/ca",
      rfl, by decide +kernel, by decide +kernel, by decide +kernel⟩,
    ⟨.ofTable ((str "/etc/box/ca/root-ca-bundle.pem", str "/srv/data/root.pem") :: sampleDirs)
      (by decide), _, samplePaths (str "/srv/boot") (str "/etc/box/ca") _, str "/srv/data",
      str "/srv/data/root.pem", rfl, by decide +kernel, by decide +kernel, by decide +kernel⟩,
    ⟨.ofTable sampleDirs (by decide), _, samplePaths (str "/srv/boot") (str "/srv/box/ca") _,
      str "/srv/box", str "/srv/box/ca", rfl, by decide +kernel, by decide +kernel,
      by decide +kernel⟩⟩

end InfraBox.Config
