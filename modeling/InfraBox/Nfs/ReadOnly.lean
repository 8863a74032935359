import InfraBox.Nfs.Filesystem

/-!
# Read-only exports are not changed

Which calls the adapter issues, whatever the operating system answers. A call that can change
something goes to the root, or to a file, of the export named first in the path it was asked for,
and that export is not read-only (`Permitted`). The log of `OS.logged` shows the calls of one
method; over a sequence of calls, what is needed is that the exports stay as they are and that an
open file remembers the export it was opened in (`File.Owned`).
-/

namespace InfraBox.Nfs

open Config

/-! ## Calls that change something -/

/-- The export whose root or file a call is issued to. -/
def Call.share : Call → GoString
  | .stat share _ | .openFile share _ _ _ | .chmod share _ _ | .mkdirAll share _ _ => share
  | .remove share _ | .rename share _ _ => share
  | .fstat fd | .read fd _ | .write fd _ | .seek fd _ _ | .truncate fd _ | .sync fd => fd.share
  | .readdir fd _ | .close fd => fd.share

/-- The flags with which opening a file can change it or create it. -/
def writeFlags : Flags := oWRONLY ||| oRDWR ||| oCREATE ||| oTRUNC ||| oAPPEND

/-- The calls that can change data, metadata or the entries of a directory. -/
def Call.Modifies : Call → Prop
  | .openFile _ _ flags _ => flags &&& writeFlags ≠ 0
  | .chmod .. | .mkdirAll .. | .remove .. | .rename .. => True
  | .write .. | .truncate .. | .sync .. => True
  | .stat .. | .fstat .. | .read .. | .seek .. | .readdir .. | .close .. => False

/-- The paths that a call changes the entry of, relative to the root. -/
def Call.entries : Call → List GoString
  | .chmod _ relative _ | .mkdirAll _ relative _ | .remove _ relative => [relative]
  | .rename _ old new => [old, new]
  | _ => []

/-- A path that leads down from the root, by at least one step. -/
def BelowRoot (relative : GoString) : Prop := PlainParts (relative.splitOn slash)

/-- What may be issued for a call of the adapter that names `names`. -/
structure Permitted (exports : FinMap GoString Export) (names : List GoString) (c : Call) :
    Prop where
  named : names ≠ [] ∧ ∀ name ∈ names, c.share = shareOf name
  writable : ∃ e, exports.get c.share = some e ∧ e.readOnly = false
  below : ∀ relative ∈ c.entries, BelowRoot relative

/-- The paths a call of the adapter names; for an open file the one it was opened under. -/
def Op.names (op : Op) (files : List File) : List GoString :=
  match op with
  | .stat name | .open name | .openFile name _ _ | .chmod name _ | .chown name => [name]
  | .mkdirAll name _ | .remove name | .readlink name | .operationOpen _ name => [name]
  | .operationOpenFile _ name _ _ => [name]
  | .rename old new | .link old new | .symlink old new => [old, new]
  | .resolveHandle _ => []
  | .file i _ =>
    match files[i]? with
    | some (.opened _ name _) => [name]
    | some (.root ..) => [[slash]]
    | none => []

/-! ## What a method does -/

/-- The state of the operating system after a call. -/
def Call.run {W : Type} (os : OS W) (c : Call) (w : W) : W :=
  match c with
  | .stat share relative => (os.stat share relative w).2
  | .openFile share relative flags mode => (os.openFile share relative flags mode w).2
  | .chmod share relative mode => (os.chmod share relative mode w).2
  | .mkdirAll share relative mode => (os.mkdirAll share relative mode w).2
  | .remove share relative => (os.remove share relative w).2
  | .rename share old new => (os.rename share old new w).2
  | .fstat fd => (os.fstat fd w).2
  | .read fd n => (os.read fd n w).2
  | .write fd data => (os.write fd data w).2
  | .seek fd offset whence => (os.seek fd offset whence w).2
  | .truncate fd size => (os.truncate fd size w).2
  | .sync fd => (os.sync fd w).2
  | .readdir fd n => (os.readdir fd n w).2
  | .close fd => (os.close fd w).2

/-- From one state to the next the adapter only issues calls that satisfy `P`, draws handles, and
changes its table. -/
inductive Acts {W : Type} (os : OS W) (P : Call → Prop) : State W → State W → Prop
  | refl (s : State W) : Acts os P s s
  | call {fs : Filesystem} {w : W} (c : Call) : P c → Acts os P ⟨fs, w⟩ ⟨fs, c.run os w⟩
  | draw {fs : Filesystem} {w : W} : Acts os P ⟨fs, w⟩ ⟨fs, (os.random w).2⟩
  | table {fs fs' : Filesystem} {w : W} : fs'.exports = fs.exports → Acts os P ⟨fs, w⟩ ⟨fs', w⟩
  | trans {s s₁ s' : State W} : Acts os P s s₁ → Acts os P s₁ s' → Acts os P s s'

section
variable {W : Type} {os : OS W} {P : Call → Prop}

theorem Acts.exports {s s' : State W} (h : Acts os P s s') : s'.fs.exports = s.fs.exports := by
  induction h with
  | refl | call | draw => rfl
  | table h => exact h
  | trans _ _ ih ih' => exact ih'.trans ih

theorem Call.run_logged (c : Call) (w : W × List Call) :
    c.run os.logged w = (c.run os w.1, w.2 ++ [c]) := by
  cases c <;> rfl

/-- The log grows by calls that satisfy `P`. -/
theorem Acts.log {s s' : State (W × List Call)} (h : Acts os.logged P s s') :
    ∃ calls, s'.world.2 = s.world.2 ++ calls ∧ ∀ c ∈ calls, P c := by
  induction h with
  | refl | draw | table => exact ⟨[], by simp [OS.logged], by simp⟩
  | call c hc => exact ⟨[c], by rw [Call.run_logged], by simpa using hc⟩
  | trans _ _ ih ih' =>
    obtain ⟨l, hl, hall⟩ := ih
    obtain ⟨l', hl', hall'⟩ := ih'
    refine ⟨l ++ l', by rw [hl', hl, List.append_assoc], fun c hc => ?_⟩
    exact (List.mem_append.1 hc).elim (hall c) (hall' c)

variable {s : State W}

/-- A call whose new state is known. -/
theorem Acts.of_call {w : W} (c : Call) (hc : P c) (h : c.run os s.world = w) :
    Acts os P s ⟨s.fs, w⟩ := h ▸ Acts.call c hc

theorem call_acts {α : Type} {f : W → α × W} (c : Call) (hc : P c)
    (h : (f s.world).2 = c.run os s.world) : Acts os P s (call f s).2 := .of_call c hc h.symm

/-- `wrap` draws a handle and changes the table. -/
theorem wrap_acts (name : GoString) (info : Info) (readOnly : Bool) :
    Acts os P s (wrap os name info readOnly s).2 := by
  unfold wrap
  split
  · exact .refl s
  split
  · exact .refl s
  have hdraw : Acts os P s ⟨s.fs, (os.random s.world).2⟩ := .draw
  split
  · next h => rwa [h] at hdraw
  · next h => rw [h] at hdraw; exact hdraw.trans (.table rfl)

/-- `wrap` of each entry of a directory. -/
theorem wrapAll_acts (name : GoString) (readOnly : Bool) :
    ∀ (infos : List Info) (s : State W),
      Acts os P s (wrapAll os name readOnly infos s).2
  | [], s => .refl s
  | info :: rest, s => by
    unfold wrapAll
    split
    · exact wrapAll_acts name readOnly rest s
    · have hwrap : Acts os P s (wrap os (joinPath name info.name) info readOnly s).2 :=
        wrap_acts ..
      split
      · next h => rwa [h] at hwrap
      · next s₁ h =>
        rw [h] at hwrap
        have hrest := wrapAll_acts name readOnly rest s₁
        split
        · next h' => rw [h'] at hrest; exact hwrap.trans hrest
        · next h' => rw [h'] at hrest; exact hwrap.trans hrest

/-- What every `Stat` does to the state, the listing of the exports does. -/
theorem statShares_rel {R : State W → State W → Prop} (hrefl : ∀ s, R s s)
    (htrans : ∀ s₁ s₂ s₃, R s₁ s₂ → R s₂ s₃ → R s₁ s₃) (h : ∀ s name, R s (stat os name s).2) :
    ∀ (shares : List GoString) (s : State W), R s (statShares os shares s).2
  | [], s => hrefl s
  | share :: rest, s => by
    have hstat := h s (slash :: share)
    unfold statShares
    split
    · next heq => rwa [heq] at hstat
    · next s₁ heq =>
      rw [heq] at hstat
      have hrest := statShares_rel hrefl htrans h rest s₁
      split
      · next heq' => rw [heq'] at hrest; exact htrans _ _ _ hstat hrest
      · next heq' => rw [heq'] at hrest; exact htrans _ _ _ hstat hrest

variable (hP : ∀ c : Call, ¬ c.Modifies → P c)
include hP

/-- `Stat` issues a call that changes nothing. -/
theorem stat_acts (name : GoString) : Acts os P s (stat os name s).2 := by
  unfold stat
  split
  · exact .refl s
  split
  · exact .refl s
  split
  · next h => exact .of_call _ (hP (.stat _ _) id) (congrArg Prod.snd h)
  · next h =>
    split
    · exact .of_call _ (hP (.stat _ _) id) (congrArg Prod.snd h)
    · have hcall : Acts os P s ⟨s.fs, _⟩ := .of_call (.stat _ _) (hP _ id) (congrArg Prod.snd h)
      exact hcall.trans (wrap_acts ..)

/-- Resolving a handle issues a call that changes nothing. -/
theorem resolveHandle_acts (handle : GoString) :
    Acts os P s (resolveHandle os handle s).2 := by
  unfold resolveHandle
  split
  · split
    · exact .refl s
    split
    · exact .refl s
    split
    · exact .refl s
    split
    · exact .refl s
    split
    · exact .refl s
    split
    · next h => exact .of_call _ (hP (.stat _ _) id) (congrArg Prod.snd h)
    · next h =>
      split
      · exact .of_call _ (hP (.stat _ _) id) (congrArg Prod.snd h)
      · exact .of_call _ (hP (.stat _ _) id) (congrArg Prod.snd h)
  · exact .refl s

end

/-! ## Opening -/

/-- The file was opened in the export that its name stands for, and knows whether it may be
changed. -/
def File.Owned (exports : FinMap GoString Export) : File → Prop
  | .root .. => True
  | .opened fd name readOnly => name ≠ [slash] ∧
    ∃ l, resolve exports name = .ok l ∧ fd.share = l.share ∧ readOnly = l.readOnly

/-- In a read-only export files are opened with flags that change nothing. -/
theorem openFlags_readOnly {flag flags : Flags} (h : openFlags true flag = .ok flags) :
    flags &&& writeFlags = 0 := by
  unfold openFlags at h
  rw [if_pos rfl] at h
  split at h
  · cases h
  · cases h
    decide

section
variable {W : Type} {os : OS W} {s : State W}

/-- What an operation on `name` may issue. -/
theorem permitted_of_resolve {exports : FinMap GoString Export} {name : GoString} {l : Location}
    {c : Call} (h : resolve exports name = .ok l) (hro : l.readOnly = false)
    (hshare : c.share = l.share) (hbelow : ∀ relative ∈ c.entries, BelowRoot relative) :
    Permitted exports [name] c := by
  obtain ⟨-, -, hname, e, he, hread⟩ := resolve_ok h
  refine ⟨⟨by simp, fun n hn => ?_⟩, ⟨e, hshare ▸ he, hread ▸ hro⟩, hbelow⟩
  rw [List.mem_singleton.1 hn, hshare, hname]

/-- The relative path of a writable location leads down from the root. -/
theorem writable_below {exports : FinMap GoString Export} {name : GoString} {l : Location}
    (h : writable exports name = .ok l) : BelowRoot l.relative := by
  obtain ⟨hres, -, hdot, hne⟩ := writable_ok h
  obtain ⟨rest, hparts, hrel⟩ := resolve_parts hres hne
  have hplain := plainParts_parsePath (resolve_ok hres).1.abs
  rw [hparts] at hplain
  have hrest : rest ≠ [] := by
    rintro rfl
    exact hdot (hrel.trans (if_pos rfl))
  rw [hrel, if_neg hrest, BelowRoot, joinParts,
    List.splitOn_intercalate _ (fun part hp => (hplain part (.tail _ hp)).2.2.2) hrest]
  exact fun part hp => hplain part (.tail _ hp)

/-- The calls permitted for an operation on `names`. -/
abbrev May (exports : FinMap GoString Export) (names : List GoString) (c : Call) : Prop :=
  c.Modifies → Permitted exports names c

theorem may_of_not_modifies {exports : FinMap GoString Export} {names : List GoString} (c : Call)
    (h : ¬ c.Modifies) : May exports names c := fun hc => absurd hc h

/-- `OpenFile` may change something in a share that is not read-only. -/
theorem openFile_acts (name : GoString) (flag : Flags) (mode : Mode) :
    Acts os (May s.fs.exports [name]) s (openFile os name flag mode s).2 ∧
      ∀ f, (openFile os name flag mode s).1 = .ok f → f.Owned s.fs.exports := by
  unfold openFile
  split
  · unfold openRootDirectory
    split
    · exact ⟨.refl s, fun _ h => by cases h⟩
    have hshares : Acts os (May s.fs.exports [name]) s (statShares os s.fs.exports.keys s).2 :=
      statShares_rel .refl (fun _ _ _ => .trans) (fun _ _ => stat_acts may_of_not_modifies _) _ s
    split
    · next h => rw [h] at hshares; exact ⟨hshares, fun _ h => by cases h⟩
    · next h => rw [h] at hshares; exact ⟨hshares, fun _ h => by cases h; trivial⟩
  next hne =>
  split
  · exact ⟨.refl s, fun _ h => by cases h⟩
  next l hl =>
  split
  · exact ⟨.refl s, fun _ h => by cases h⟩
  next flags hflags =>
  have hopen : May s.fs.exports [name] (.openFile l.share l.relative flags mode.perm) := by
    intro hmod
    refine permitted_of_resolve hl ?_ rfl (by simp [Call.entries])
    -- a read-only export never gets a flag that changes something
    cases hro : l.readOnly with
    | false => rfl
    | true =>
      rw [hro] at hflags
      exact absurd (openFlags_readOnly hflags) hmod
  split
  · next h => exact ⟨.of_call _ hopen (congrArg Prod.snd h), fun _ h => by cases h⟩
  next id w h =>
  have h₁ : Acts os (May s.fs.exports [name]) s ⟨s.fs, w⟩ := .of_call _ hopen (congrArg Prod.snd h)
  have hclose : ∀ w₁, Acts os (May s.fs.exports [name]) ⟨s.fs, w₁⟩
      ⟨s.fs, (os.close ⟨l.share, id⟩ w₁).2⟩ := fun w₁ =>
    .call (.close ⟨l.share, id⟩) (may_of_not_modifies _ fun h => h)
  have hfstat : Acts os (May s.fs.exports [name]) s ⟨s.fs, (os.fstat ⟨l.share, id⟩ w).2⟩ :=
    h₁.trans (.call (.fstat ⟨l.share, id⟩) (may_of_not_modifies _ fun h => h))
  split
  · next h' => rw [h'] at hfstat; exact ⟨hfstat.trans (hclose _), fun _ h => by cases h⟩
  · next h' =>
    rw [h'] at hfstat
    split
    · exact ⟨hfstat.trans (hclose _), fun _ h => by cases h⟩
    · refine ⟨hfstat, fun f hf => ?_⟩
      cases hf
      exact ⟨hne, l, hl, rfl, rfl⟩

/-! ## Changing -/

/-- The methods that change the entry of one path. -/
theorem mutate_acts {name : GoString} {call : Location → W → Except Errno Unit × W}
    (c : Location → Call) (hrun : ∀ l w, (call l w).2 = (c l).run os w)
    (hshare : ∀ l, (c l).share = l.share) (hentries : ∀ l, (c l).entries = [l.relative]) :
    Acts os (May s.fs.exports [name]) s (mutate name call s).2 := by
  unfold mutate
  split
  · exact .refl s
  next l hl =>
  obtain ⟨hres, hro, -, -⟩ := writable_ok hl
  refine .of_call (c l) (fun _ => permitted_of_resolve hres hro (hshare l) ?_) (hrun l s.world).symm
  intro relative hrel
  rw [hentries, List.mem_singleton] at hrel
  exact hrel ▸ writable_below hl

/-- `Remove`. -/
theorem remove_acts (name : GoString) :
    Acts os (May s.fs.exports [name]) s (remove os name s).2 := by
  have h : Acts os (May s.fs.exports [name]) s
      (mutate name (fun l => os.remove l.share l.relative) s).2 :=
    mutate_acts (fun l => .remove l.share l.relative) (fun _ _ => rfl) (fun _ => rfl) fun _ => rfl
  unfold remove
  split
  · next heq => rwa [heq] at h
  · next heq => rw [heq] at h; exact h.trans (.table rfl)

/-- `Rename` stays in one share. -/
theorem rename_acts (old new : GoString) :
    Acts os (May s.fs.exports [old, new]) s (rename os old new s).2 := by
  unfold rename
  split
  · exact .refl s
  next l hl =>
  split
  · exact .refl s
  next l' hl' =>
  split
  · exact .refl s
  next hsame =>
  rw [ne_eq, not_not] at hsame
  obtain ⟨hres, hro, -, -⟩ := writable_ok hl
  obtain ⟨hres', -, -, -⟩ := writable_ok hl'
  obtain ⟨-, -, hname, e, he, hread⟩ := resolve_ok hres
  have hcall : May s.fs.exports [old, new] (.rename l.share l.relative l'.relative) := by
    refine fun _ => ⟨⟨by simp, fun n hn => ?_⟩, ⟨e, he, hread ▸ hro⟩, fun relative hrel => ?_⟩
    · rcases List.mem_cons.1 hn with rfl | hn
      · exact hname
      · rw [List.mem_singleton.1 hn]
        exact hsame.trans (resolve_ok hres').2.2.1
    · rcases List.mem_cons.1 hrel with rfl | hrel
      · exact writable_below hl
      · exact List.mem_singleton.1 hrel ▸ writable_below hl'
  have h : Acts os (May s.fs.exports [old, new]) s
      ⟨s.fs, (os.rename l.share l.relative l'.relative s.world).2⟩ := .call _ hcall
  split
  · next heq => rwa [heq] at h
  · next heq => rw [heq] at h; exact h.trans (.table rfl)

/-! ## Open files -/

/-- What a method of an open file may issue: changes only when the file is not read-only. -/
theorem File.Owned.may {fd : Fd} {name : GoString} {readOnly : Bool} {c : Call}
    {exports : FinMap GoString Export} (h : (File.opened fd name readOnly).Owned exports)
    (hro : readOnly = false) (hshare : c.share = fd.share) (hentries : c.entries = []) :
    May exports [name] c := by
  obtain ⟨-, l, hl, hfd, hread⟩ := h
  refine fun _ => permitted_of_resolve hl (hread ▸ hro) (hshare.trans hfd) ?_
  rw [hentries]
  simp

/-- The paths an open file stands for. -/
def File.names : File → List GoString
  | .root .. => [[slash]]
  | .opened _ name _ => [name]

/-- A method of the open root touches neither the operating system nor the handle table. -/
theorem fileOp_root (os : OS W) (s : State W) (entries : List FileInfo) (offset : Nat)
    (op : FileOp) :
    (op.exec os (.root entries offset) s).2 = s ∧
      ∃ entries' offset', (op.exec os (.root entries offset) s).1 = .root entries' offset' := by
  cases op with
  | seek offset whence =>
    simp only [FileOp.exec, File.seek]
    split <;> exact ⟨rfl, _, _, rfl⟩
  | readdir n =>
    simp only [FileOp.exec, File.readdir]
    split <;> exact ⟨rfl, _, _, rfl⟩
  | stat | read | write | truncate | sync | close => exact ⟨rfl, _, _, rfl⟩

/-- The methods of an open file stay in its share. -/
theorem fileOp_acts {f : File} (hf : f.Owned s.fs.exports) (op : FileOp) :
    Acts os (May s.fs.exports f.names) s (op.exec os f s).2 ∧
      (op.exec os f s).1.Owned s.fs.exports := by
  have hsafe : ∀ c : Call, ¬ c.Modifies → May s.fs.exports f.names c := may_of_not_modifies
  cases f with
  | root entries offset =>
    obtain ⟨hstate, entries', offset', hfile⟩ := fileOp_root os s entries offset op
    rw [hstate, hfile]
    exact ⟨.refl s, trivial⟩
  | opened fd name readOnly =>
    have hwrite : readOnly = false → ∀ c : Call, c.share = fd.share → c.entries = [] →
        May s.fs.exports [name] c := fun hro _ => File.Owned.may hf hro
    cases op with
    | stat =>
      refine ⟨?_, hf⟩
      have h := call_acts (.fstat fd) (hsafe _ id) (rfl : (os.fstat fd s.world).2 = _)
      simp only [FileOp.exec, File.stat]
      split
      · next heq => rwa [heq] at h
      · next heq => rw [heq] at h; exact h.trans (wrap_acts ..)
    | read n => exact ⟨call_acts (.read fd n) (hsafe _ id) rfl, hf⟩
    | write data =>
      refine ⟨?_, hf⟩
      simp only [FileOp.exec, File.write]
      split
      · exact .refl s
      next hro =>
      split
      · exact .refl s
      · exact call_acts (.write fd data) (hwrite (by simpa using hro) _ rfl rfl) rfl
    | seek offset whence => exact ⟨call_acts (.seek fd offset whence) (hsafe _ id) rfl, hf⟩
    | truncate =>
      refine ⟨?_, hf⟩
      simp only [FileOp.exec, File.truncate]
      split
      · exact .refl s
      next hro =>
      have h := call_acts (.seek fd 0 1) (hsafe _ id) (rfl : (os.seek fd 0 1 s.world).2 = _)
      split
      · next heq => rwa [heq] at h
      · next offset _ heq =>
        rw [heq] at h
        exact h.trans (call_acts (.truncate fd offset) (hwrite (by simpa using hro) _ rfl rfl) rfl)
    | sync =>
      refine ⟨?_, hf⟩
      simp only [FileOp.exec, File.sync]
      split
      · exact .refl s
      · next hro => exact call_acts (.sync fd) (hwrite (by simpa using hro) _ rfl rfl) rfl
    | readdir n =>
      simp only [FileOp.exec, File.readdir]
      generalize hcount : (if n ≤ 0 then ((maxHandles : Int) + 1) else n) = count
      have h := call_acts (.readdir fd count) (hsafe _ id)
        (rfl : (os.readdir fd count s.world).2 = _)
      generalize call (os.readdir fd count) s = r at h
      split
      · exact ⟨h, hf⟩
      have hall : Acts os (May s.fs.exports [name]) r.2 (wrapAll os name readOnly r.1.1 r.2).2 :=
        wrapAll_acts name readOnly _ _
      split
      · next heq => rw [heq] at hall; exact ⟨h.trans hall, hf⟩
      · next heq => rw [heq] at hall; exact ⟨h.trans hall, hf⟩
    | close => exact ⟨call_acts (.close fd) (hsafe _ id) rfl, hf⟩

/-! ## Sequences of calls -/

/-- The files of a system belong to the exports. -/
def System.Owned (exports : FinMap GoString Export) (sys : System W) : Prop :=
  sys.fs.exports = exports ∧ ∀ f ∈ sys.files, f.Owned exports

/-- A file that was opened is kept with the others. -/
theorem System.Owned.keep {exports : FinMap GoString Export} {sys : System W}
    (h : sys.Owned exports) {r : Except Errno File × State W} (hr : r.2.fs.exports = exports)
    (hf : ∀ f, r.1 = .ok f → f.Owned exports) : (sys.keep r).Owned exports := by
  unfold System.keep
  split
  · exact ⟨hr, h.2⟩
  · next f heq =>
    refine ⟨hr, fun g hg => ?_⟩
    rcases List.mem_append.1 hg with hg | hg
    · exact h.2 g hg
    · exact List.mem_singleton.1 hg ▸ hf f heq

theorem System.keep_toState (sys : System W) (r : Except Errno File × State W) :
    (sys.keep r).toState = r.2 := by
  unfold System.keep
  split <;> rfl

/-- What one call of the adapter does. -/
theorem System.Owned.exec {exports : FinMap GoString Export} {sys : System W}
    (h : sys.Owned exports) (op : Op) :
    Acts os (May exports (op.names sys.files)) sys.toState (sys.exec os op).toState ∧
      (sys.exec os op).Owned exports := by
  obtain ⟨rfl, hfiles⟩ := id h
  -- the methods that keep the open files
  have hsame : ∀ {names : List GoString} {s' : State W}, Acts os (May sys.fs.exports names)
      sys.toState s' → Acts os (May sys.fs.exports names) sys.toState s' ∧
        (⟨s', sys.files⟩ : System W).Owned sys.fs.exports :=
    fun hacts => ⟨hacts, hacts.exports, hfiles⟩
  have hopen : ∀ name flag mode, Acts os (May sys.fs.exports [name]) sys.toState
      (sys.keep (openFile os name flag mode sys.toState)).toState ∧
        (sys.keep (openFile os name flag mode sys.toState)).Owned sys.fs.exports := by
    intro name flag mode
    have hacts : Acts os (May sys.fs.exports [name]) sys.toState
        (openFile os name flag mode sys.toState).2 := (openFile_acts name flag mode).1
    rw [System.keep_toState]
    exact ⟨hacts, h.keep hacts.exports (openFile_acts name flag mode).2⟩
  cases op with
  | stat name => exact hsame (stat_acts may_of_not_modifies name)
  | «open» name => exact hopen name _ _
  | openFile name flag mode => exact hopen name flag mode
  | chmod name mode =>
    exact hsame (mutate_acts (fun l => .chmod l.share l.relative mode.perm) (fun _ _ => rfl)
      (fun _ => rfl) fun _ => rfl)
  | mkdirAll name mode =>
    exact hsame (mutate_acts (fun l => .mkdirAll l.share l.relative mode.perm) (fun _ _ => rfl)
      (fun _ => rfl) fun _ => rfl)
  | remove name => exact hsame (remove_acts name)
  | rename old new => exact hsame (rename_acts old new)
  | chown | link | symlink | readlink => exact hsame (.refl _)
  | resolveHandle handle => exact hsame (resolveHandle_acts may_of_not_modifies handle)
  | operationOpen o name => exact hopen name _ _
  | operationOpenFile o name flags mode => exact hopen name _ mode
  | file i op =>
    simp only [System.exec, Op.names]
    cases hi : sys.files[i]? with
    | none => exact hsame (.refl _)
    | some f =>
      have hown := hfiles f (List.mem_of_getElem? hi)
      have hacts : Acts os (May sys.fs.exports f.names) sys.toState (op.exec os f sys.toState).2 :=
        (fileOp_acts hown op).1
      refine ⟨?_, hacts.exports, fun g hg => ?_⟩
      · cases f <;> exact hacts
      · rcases List.mem_or_eq_of_mem_set hg with hg | rfl
        · exact hfiles g hg
        · exact (fileOp_acts hown op).2

end

/-! ## The exports of a configuration -/

/-- The names of accepted shares are distinct. -/
theorem validateShares_names : ∀ {shares previous : List NFSShare},
    validateShares previous shares = none →
      (∀ share ∈ shares, ∀ p ∈ previous, p.name ≠ share.name) ∧
        (shares.map NFSShare.name).Nodup
  | [], _, _ => ⟨by simp, .nil⟩
  | share :: rest, previous, h => by
    simp only [validateShares] at h
    split at h
    · cases h
    split at h
    · cases h
    next hdup =>
    split at h
    · cases h
    split at h
    · cases h
    obtain ⟨hrest, hnd⟩ := validateShares_names h
    have hprev : ∀ p ∈ previous, p.name ≠ share.name := fun p hp heq =>
      hdup (List.any_eq_true.2 ⟨p, hp, by simpa using heq⟩)
    refine ⟨fun s hs p hp => ?_, List.nodup_cons.2 ⟨fun hmem => ?_, hnd⟩⟩
    · rcases List.mem_cons.1 hs with rfl | hs
      · exact hprev p hp
      · exact hrest s hs p (List.mem_append_left _ hp)
    · obtain ⟨s, hs, heq⟩ := List.mem_map.1 hmem
      exact hrest s hs share (by simp) heq.symm

/-- Resolving the paths of shares keeps their names and modes. -/
theorem resolveShares_same {links : Symlinks} : ∀ {shares resolved : List NFSShare},
    resolveShares links shares = some resolved →
      resolved.map (fun s => (s.name, s.readOnly)) = shares.map fun s => (s.name, s.readOnly)
  | [], _, h => by cases h; rfl
  | share :: rest, resolved, h => by
    simp only [resolveShares] at h
    split at h
    · next hrest =>
      cases h
      rw [List.map_cons, List.map_cons, resolveShares_same hrest]
    · cases h

/-- The exports are the shares: each name is one share's, with its mode. -/
theorem openFilesystem_exports {links : Symlinks} {openRoot : GoString → Bool}
    {shares : List NFSShare} {f : Filesystem} (h : openFilesystem links openRoot shares = some f)
    {name : GoString} {e : Export} (he : f.exports.get name = some e) :
    (∃ share ∈ shares, share.name = name) ∧
      ∀ share ∈ shares, share.name = name → share.readOnly = e.readOnly := by
  unfold openFilesystem at h
  split at h
  · cases h
  next resolved hres =>
  split at h
  · cases h
  next hvalid =>
  split at h
  · cases h
  cases h
  have hsame := resolveShares_same hres
  rw [Bool.not_eq_true, Option.isSome_eq_false_iff, Option.isNone_iff_eq_none] at hvalid
  have hnd : (resolved.map NFSShare.name).Nodup := (validateShares_names hvalid).2
  have hmem : ∀ {n : GoString} {e : Export}, (resolved.foldl
      (fun m share => m.set share.name ⟨share.path, share.readOnly⟩) FinMap.empty).get n = some e ↔
      ∃ share ∈ resolved, share.name = n ∧ (⟨share.path, share.readOnly⟩ : Export) = e := by
    intro n e
    have hfold := FinMap.get_foldl_pairs (K := GoString) (V := Export)
      (l := resolved.map fun s => (s.name, ⟨s.path, s.readOnly⟩)) (m := .empty) (k := n) (v := e)
      (by rw [List.map_map]; exact hnd)
    rw [List.foldl_map] at hfold
    rw [hfold]
    simp
  obtain ⟨r, hr, rfl, rfl⟩ := hmem.1 he
  have hto : (r.name, r.readOnly) ∈ shares.map fun s => (s.name, s.readOnly) :=
    hsame ▸ List.mem_map_of_mem (f := fun s : NFSShare => (s.name, s.readOnly)) hr
  obtain ⟨share, hshare, heq⟩ := List.mem_map.1 hto
  refine ⟨⟨share, hshare, (Prod.mk.inj heq).1⟩, fun s hs hname => ?_⟩
  have hback : (s.name, s.readOnly) ∈ resolved.map fun s => (s.name, s.readOnly) :=
    hsame ▸ List.mem_map_of_mem (f := fun s : NFSShare => (s.name, s.readOnly)) hs
  obtain ⟨r', hr', heq'⟩ := List.mem_map.1 hback
  obtain ⟨hn, hro⟩ := Prod.mk.inj heq'
  have : r' = r := List.inj_on_of_nodup_map hnd hr' hr (hn.trans hname)
  rw [← hro, this]

/-! ## Whole sequences -/

/-- One call of the adapter over a system with a log. -/
def Step {W : Type} (os : OS W) (s : System (W × List Call)) (op : Op)
    (s' : System (W × List Call)) : Prop := s' = s.exec os.logged op

/-- Read-only exports are not changed. Over every sequence of calls of the adapter and of its files,
and whatever the operating system answers, those of its calls that can change something go to a
share that is not read-only, the one named first in every path, and lead down from its root. The
exports, which are all there is in the virtual root, stay as they were. -/
theorem read_only_exports_immutable {W : Type} {os : OS W} {links : Symlinks}
    {openRoot : GoString → Bool} {shares : List NFSShare} {f : Filesystem} {w : W}
    {tr : Trace (System (W × List Call)) Op} {sys : System (W × List Call)}
    (hopen : openFilesystem links openRoot shares = some f)
    (hrun : Run (Step os) ⟨⟨f, w, []⟩, []⟩ tr sys) :
    sys.fs.exports = f.exports ∧
      ∀ t ∈ tr, ∃ calls, t.post.world.2 = t.pre.world.2 ++ calls ∧
        ∀ c ∈ calls, c.Modifies →
          (∃ share ∈ shares, share.name = c.share) ∧
          (∀ share ∈ shares, share.name = c.share → share.readOnly = false) ∧
          (t.label.names t.pre.files ≠ [] ∧
            ∀ name ∈ t.label.names t.pre.files, c.share = shareOf name) ∧
          ∀ relative ∈ c.entries, BelowRoot relative := by
  have hstep : ∀ (s : System (W × List Call)) op s', s.Owned f.exports → Step os s op s' →
      s'.Owned f.exports := fun _ op _ h hs => hs ▸ (h.exec op).2
  have hstart : System.Owned f.exports (⟨⟨f, w, []⟩, []⟩ : System (W × List Call)) :=
    ⟨rfl, by simp⟩
  refine ⟨(hrun.invariant hstart hstep).1, fun t ht => ?_⟩
  obtain ⟨before, after, rfl, hpre, hmid, -⟩ := hrun.mem_inv ht
  have howned := hpre.invariant hstart hstep
  have hacts : Acts os.logged (May f.exports (t.label.names t.pre.files)) t.pre.toState
      (t.pre.exec os.logged t.label).toState := (howned.exec t.label).1
  obtain ⟨calls, hlog, hcalls⟩ := hacts.log
  refine ⟨calls, by rw [show t.post = _ from hmid]; exact hlog, fun c hc hmod => ?_⟩
  obtain ⟨hnamed, ⟨e, he, hro⟩, hbelow⟩ := hcalls c hc hmod
  obtain ⟨hshare, hmode⟩ := openFilesystem_exports hopen he
  exact ⟨hshare, fun share hs hname => (hmode share hs hname).trans hro, hnamed, hbelow⟩

/-- An operating system in which everything succeeds and nothing is remembered. -/
def agreeable : OS Unit where
  stat _ _ w := (.ok ⟨1, 0o644, []⟩, w)
  openFile _ _ _ _ w := (.ok 3, w)
  chmod _ _ _ w := (.ok (), w)
  mkdirAll _ _ _ w := (.ok (), w)
  remove _ _ w := (.ok (), w)
  rename _ _ _ w := (.ok (), w)
  fstat _ w := (.ok ⟨1, 0o644, []⟩, w)
  read _ _ w := (.ok [], w)
  write _ data w := (.ok data.length, w)
  seek _ _ _ w := (.ok 0, w)
  truncate _ _ w := (.ok (), w)
  sync _ w := (.ok (), w)
  readdir _ _ w := (([], none), w)
  close _ w := (.ok (), w)
  random w := (.ok ⟨List.replicate 16 7, rfl⟩, w)

/-- No symbolic links. -/
def plainLinks : Symlinks where
  eval name := .ok (clean name)
  real h heq := by cases heq; exact cleanAbs_clean h

/-- A writable and a read-only share. -/
def sampleShares : List NFSShare :=
  [⟨str "data", str "/srv/data", false⟩, ⟨str "software", str "/srv/software", true⟩]

def sampleFilesystem : Filesystem where
  exports := (FinMap.empty.set (str "data") ⟨str "/srv/data", false⟩).set (str "software")
    ⟨str "/srv/software", true⟩
  entries := []
  handles := .empty
  paths := .empty

theorem sampleShares_open :
    openFilesystem plainLinks (fun _ => true) sampleShares = some sampleFilesystem := rfl

/-- A file of the read-only share is opened for writing and written to, and one of the other share
is renamed: only the second call reaches the operating system as a change, within that share. -/
theorem read_only_exports_immutable_sample :
    let start : System (Unit × List Call) := ⟨⟨sampleFilesystem, (), []⟩, []⟩
    let s₁ := start.exec agreeable.logged (.openFile (str "/software/hello") oRDWR 0o644)
    let s₂ := s₁.exec agreeable.logged (.file 0 (.write (str "bad")))
    let s₃ := s₂.exec agreeable.logged (.rename (str "/data/a") (str "/data/b"))
    s₁.files.length = 1 ∧ s₂.world.2 = s₁.world.2 ∧
      s₃.world.2 = s₂.world.2 ++ [.rename (str "data") (str "a") (str "b")] ∧
      (∀ share ∈ sampleShares, share.name = str "data" → share.readOnly = false) ∧
      BelowRoot (str "a") ∧ BelowRoot (str "b") ∧ s₃.fs.exports = sampleFilesystem.exports := by
  intro start s₁ s₂ s₃
  have hrun : Run (Step agreeable) start _ s₃ := .cons rfl (.cons rfl (.cons rfl (.nil s₃)))
  obtain ⟨hexports, hcalls⟩ := read_only_exports_immutable sampleShares_open hrun
  have hlog : s₃.world.2 = s₂.world.2 ++ [.rename (str "data") (str "a") (str "b")] := rfl
  obtain ⟨calls, hcalls, hmodifies⟩ := hcalls _ (.tail _ (.tail _ (.head _)))
  cases List.append_cancel_left (hlog.symm.trans hcalls)
  obtain ⟨-, hwritable, -, hbelow⟩ := hmodifies _ (.head _) trivial
  exact ⟨rfl, rfl, hlog, hwritable, hbelow _ (.head _), hbelow _ (.tail _ (.head _)), hexports⟩

end InfraBox.Nfs
