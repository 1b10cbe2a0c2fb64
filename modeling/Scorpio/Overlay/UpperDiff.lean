import Scorpio.Base.DirectoryTree
import Scorpio.Snapshot.Incremental

/-!
# The upper diff

`snapshot::upper_diff`: the private upper directory of a workspace is collected
into facts, and a work list of directories is compared with the fixed lower
snapshot. The upper does not change during the scan, so a second `stat` of a
node gives the fingerprint of the first; every system call, lower query and
pause check may still fail. A path is kept as the list of its names, leaf first,
and is rendered where the source has a text.
-/

set_option autoImplicit false

namespace Scorpio.UpperScan

open ByteText Fallible PageCodec Incremental DirectoryTree

structure DiffLimits where
  maxNodes : ℕ := 100000
  maxBytes : ℕ := 4*1024*1024*1024
  maxDepth : ℕ := 256

inductive UpperNodeIdentity where
  | directory (mode uid gid : ℕ)
  | regular (mode uid gid size : ℕ) (contentDigest : Text)
  | symlink (mode uid gid size : ℕ) (contentDigest : Text)
  deriving DecidableEq, Repr

inductive SnapshotNodeIdentity where
  | directory (directoryRoot : Text)
  | regular (size : ℕ) (contentDigest : Text)
  | executable (size : ℕ) (contentDigest : Text)
  | symlink (size : ℕ) (contentDigest : Text)
  deriving DecidableEq, Repr

structure MountOwner where
  uid : ℕ
  gid : ℕ
  deriving DecidableEq, Repr

namespace SnapshotNodeIdentity

/-- 0o755, 0o644 and 0o777. -/
def mode : SnapshotNodeIdentity → ℕ
  | .directory _ | .executable _ _ => 493
  | .regular _ _ => 420
  | .symlink _ _ => 511

def content : SnapshotNodeIdentity → Option (ℕ × Text)
  | .directory _ => none
  | .regular size digest | .executable size digest | .symlink size digest => some (size,digest)

def isDirectory : SnapshotNodeIdentity → Bool
  | .directory _ => true
  | _ => false

end SnapshotNodeIdentity

namespace UpperNodeIdentity

def owner : UpperNodeIdentity → MountOwner
  | .directory _ uid gid | .regular _ uid gid _ _ | .symlink _ uid gid _ _ => ⟨uid,gid⟩

def isDirectory : UpperNodeIdentity → Bool
  | .directory _ _ _ => true
  | _ => false

end UpperNodeIdentity

def UpperNodeIdentity.matches (owner : MountOwner) (u : UpperNodeIdentity) (base : SnapshotNodeIdentity) : Bool :=
  if u.owner ≠ owner then false
  else match u, base with
    | .directory mode _ _, .directory _ => mode = base.mode
    | .regular mode _ _ size digest, .regular _ _ =>
      mode = base.mode ∧ base.content = some (size,digest)
    | .regular mode _ _ size digest, .executable _ _ =>
      mode = base.mode ∧ base.content = some (size,digest)
    | .symlink mode _ _ size digest, .symlink _ _ =>
      mode = base.mode ∧ base.content = some (size,digest)
    | _, _ => false

inductive UpperChangeKind where
  | added
  | modified
  | deleted
  deriving DecidableEq, Repr

structure UpperChange where
  relPath : Text
  kind : UpperChangeKind
  base : Option SnapshotNodeIdentity
  upper : Option UpperNodeIdentity
  deriving DecidableEq, Repr

structure DiffMeters where
  upperNodes : ℕ := 0
  hashBytes : ℕ := 0
  lowerQueries : ℕ := 0
  lowerDirectoryEntries : ℕ := 0
  xattrChecks : ℕ := 0
  deriving DecidableEq, Repr

structure UpperDiff where
  changes : List UpperChange
  meters : DiffMeters
  deriving DecidableEq, Repr

def unknown (message : Text) : SnapshotError := ⟨.integrityError,message⟩

def budget (message : Text) : SnapshotError := ⟨.proofBudgetExceeded,message⟩

/-! ## The two trees -/

abbrev Path := List Text

def join (parent name : Text) : Text := if parent = [] then name else parent ++ slash :: name

def relPath : Path → Text
  | [] => []
  | n :: dir => join (relPath dir) n

inductive FileKind where
  | directory
  | regular
  | symlink
  | other
  deriving DecidableEq, Repr

/-- One node as the system calls show it. `access` is a failing `open` or `stat`. -/
structure UpperNode where
  kind : FileKind
  mode : ℕ
  uid : ℕ
  gid : ℕ
  size : ℤ
  access : Option Text
  xattrs : Except Text ℕ
  body : Except Text Bytes

abbrev UpperTree := Tree Text UpperNode fun n => n.kind = .directory

abbrev LowerTree := Tree Text SnapshotNodeIdentity SnapshotNodeIdentity.isDirectory

/-- What the scan meets besides the two trees. Lower queries and checks of the pause are
numbered, and each of them may fail. -/
structure Host where
  codec : Codec
  owner : MountOwner
  hash : Bytes → Digest
  metadataPath : Text → Result Unit
  lowerFails : ℕ → Option SnapshotError
  uncertain : ℕ → Option Text

/-! ## Collecting the upper -/

structure Fact where
  identity : UpperNodeIdentity
  children : List Text
  deriving DecidableEq, Repr

structure Scanned where
  facts : List (Path × Fact)
  meters : DiffMeters

def io (e : Text) : SnapshotError := unknown ("upper filesystem state is unproved: " ++ e)

section Collect

variable (h : Host) (limits : DiffLimits) (upper : UpperTree)

def accessible (n : UpperNode) : Result Unit := n.access.elim (.ok ()) fun e => .error (io e)

def hasTwin : List Text → Bool
  | a :: b :: rest => a = b || hasTwin (b :: rest)
  | _ => false

/-- The loop of `names` over the directory stream. -/
def takeName (remaining : ℕ) (out : List Text) (raw : Text) : Result (List Text) := do
  require (out.length < remaining) (budget "upper node budget exceeded")
  let name ← okOr (fromUtf8 raw) (unknown "non-UTF-8 upper filename")
  validateScope h.codec (slash :: name)
  pure (out ++ [name])

def names (dir : Path) (remaining : ℕ) : Result (List Text) := do
  let out ← ((upper.children dir).map Prod.fst).foldlM (takeName h remaining) []
  let out := out.insertionSort (· ≤ ·)
  require (!hasTwin out) (unknown "duplicate upper directory name")
  pure out

def consumeBytes (m : DiffMeters) (size : ℕ) : Result DiffMeters :=
  if m.hashBytes+size ≤ usizeMax ∧ m.hashBytes+size ≤ limits.maxBytes then
    .ok {m with hashBytes := m.hashBytes+size}
  else .error (budget "upper streaming byte budget exceeded")

def noXattrs (n : UpperNode) (m : DiffMeters) : Result DiffMeters :=
  match n.xattrs with
  | .error e => .error (io e)
  | .ok count =>
    if 65536 < count then .error (budget "upper xattr name budget exceeded")
    else if count ≠ 0 then .error ⟨.unsupportedEntry,
      "upper xattrs cannot be represented by the fixed snapshot profile"⟩
    else .ok {m with xattrChecks := m.xattrChecks+1}

def regular (n : UpperNode) (m : DiffMeters) : Result (UpperNodeIdentity × DiffMeters) := do
  require (0 ≤ n.size) (unknown "negative upper file size")
  let m ← consumeBytes limits m n.size.toNat
  let m ← noXattrs n m
  let body ← n.body.mapError io
  require (body.length ≤ n.size.toNat) (unknown "upper file grew while hashing")
  require (n.size.toNat ≤ body.length) (unknown "upper file changed during hashing")
  pure (.regular (n.mode%4096) n.uid n.gid n.size.toNat (digest (h.hash body)),m)

def symlink (n : UpperNode) (m : DiffMeters) : Result (UpperNodeIdentity × DiffMeters) := do
  require (1 ≤ n.size ∧ n.size ≤ 4095) (budget "upper symlink exceeds serving profile")
  let m ← consumeBytes limits m n.size.toNat
  let m ← noXattrs n m
  let body ← n.body.mapError io
  require (body.length = n.size.toNat) (unknown "upper symlink changed during scan")
  pure (.symlink (n.mode%4096) n.uid n.gid n.size.toNat (digest (h.hash body)),m)

def identify (n : UpperNode) (m : DiffMeters) : Result (UpperNodeIdentity × DiffMeters) :=
  match n.kind with
  | .directory => .ok (.directory (n.mode%4096) n.uid n.gid,m)
  | .regular => regular h limits n m
  | .symlink => symlink h limits n m
  | .other => .error ⟨.unsupportedEntry,"unsupported upper node kind"⟩

/-- One name of the loop of `collect_directory`; `recurse` collects a child directory. -/
def collectChild (recurse : Path → Scanned → Result Scanned) (dir : Path) (s : Scanned)
    (name : Text) : Result Scanned := do
  require (s.facts.length < limits.maxNodes) (budget "upper node budget exceeded")
  validateScope h.codec (slash :: relPath (name :: dir))
  let n ← okOr (upper.get (name :: dir)) (io "No such file or directory")
  accessible n
  let (identity,meters) ← identify h limits n s.meters
  let s : Scanned := ⟨Assoc.insert s.facts (name :: dir) ⟨identity,[]⟩,meters⟩
  if n.kind = .directory then recurse (name :: dir) s else pure s

/-- The argument is the number of levels that the depth limit leaves. -/
def collectDirectory : ℕ → Path → Scanned → Result Scanned
  | 0, _, _ => .error (budget "upper directory depth budget exceeded")
  | levels+1, dir, s => do
    let n ← okOr (upper.get dir) (io "No such file or directory")
    accessible n
    let meters ← noXattrs n s.meters
    let children ← names h upper dir (limits.maxNodes-s.facts.length)
    let s : Scanned := ⟨Assoc.modify s.facts dir fun f => {f with children := children},meters⟩
    children.foldlM (collectChild h limits upper (collectDirectory levels) dir) s

def collect : Result Scanned := do
  let n ← okOr (upper.get []) (io "No such file or directory")
  accessible n
  let root : Fact := ⟨.directory (n.mode%4096) n.uid n.gid,[]⟩
  let s ← collectDirectory h limits upper (limits.maxDepth+1) [] ⟨[([],root)],{}⟩
  pure ⟨s.facts,{s.meters with upperNodes := s.facts.length}⟩

/-- The second listing of a directory must give the names of the first. -/
def verifyDirectory (facts : List (Path × Fact)) : ℕ → Path → Result Unit
  | 0, _ => .ok ()
  | levels+1, dir => do
    let fact ← okOr (facts.lookup dir) (io "No such file or directory")
    let listed ← names h upper dir fact.children.length
    require (listed = fact.children) (unknown "upper directory changed before final diff")
    fact.children.forM fun name => do
      let child ← okOr (facts.lookup (name :: dir)) (io "No such file or directory")
      if child.identity.isDirectory then verifyDirectory facts levels (name :: dir) else pure ()

end Collect

/-! ## The scan -/

/-- `exhausted` ends a loop of the model that has used up its bound; an absent fact panics. -/
inductive Halt where
  | error (e : SnapshotError)
  | panicked
  | exhausted
  deriving DecidableEq, Repr

abbrev Pending := Path × Bool × Bool

structure Scan where
  changes : List (Path × UpperChange)
  pending : List Pending
  meters : DiffMeters
  checks : ℕ

def lifted {α : Type} (x : Result α) : Except Halt α := x.mapError .error

def wh : Text := txt ".wh."

def opq : Text := txt ".wh..wh..opq"

def isMarker (name : Text) : Bool := wh <+: name

section Scanning

variable (h : Host) (limits : DiffLimits) (lower : LowerTree)

def ensureCertain (s : Scan) : Except Halt Scan :=
  match h.uncertain s.checks with
  | some e => .error (.error (unknown e))
  | none => .ok {s with checks := s.checks+1}

/-- `path_state_for_diff`: an answer is the state of the fixed tree. -/
def pathState (m : DiffMeters) (p : Path) :
    Except Halt (Option SnapshotNodeIdentity × DiffMeters) :=
  let m := {m with lowerQueries := m.lowerQueries+1}
  match h.lowerFails m.lowerQueries with
  | some e => .error (.error e)
  | none => .ok (lower.get p,m)

def baseAt (m : DiffMeters) (p : Path) (parentDirectory : Bool) :
    Except Halt (Option SnapshotNodeIdentity × DiffMeters) := do
  lifted (h.metadataPath (relPath p))
  if parentDirectory then pathState h lower m p else pure (none,m)

def directoryEntries (m : DiffMeters) (dir : Path) :
    Except Halt (List (Text × SnapshotNodeIdentity) × DiffMeters) :=
  let m := {m with lowerQueries := m.lowerQueries+1}
  match h.lowerFails m.lowerQueries with
  | some e => .error (.error e)
  | none => .ok (lower.children dir,m)

def factAt (facts : List (Path × Fact)) (p : Path) : Except Halt Fact :=
  okOr (facts.lookup p) .panicked

def deletion (p : Path) (base : SnapshotNodeIdentity) : UpperChange :=
  ⟨relPath p,.deleted,some base,none⟩

def visibleChange (p : Path) (base : Option SnapshotNodeIdentity) (node : UpperNodeIdentity) :
    UpperChange :=
  ⟨relPath p,if base.isSome then .modified else .added,base,some node⟩

def record (s : Scan) (p : Path) (change : UpperChange) : Scan :=
  {s with changes := Assoc.insert s.changes p change}

def emptyMarker : UpperNodeIdentity → Bool
  | .regular _ _ _ size _ => size = 0
  | _ => false

def markerMessage : Text := "OCI whiteout/opaque marker must be an empty regular file"

/-- A name that starts with `.wh.`: the opaque marker, or a whiteout of its target. -/
def scanMarker (dir : Path) (visible : List Text) (lowerDirectory : Bool)
    (node : UpperNodeIdentity) (s : Scan) (name : Text) : Except Halt Scan := do
  require (emptyMarker node) (Halt.error (unknown markerMessage))
  if name = opq then pure s
  else do
    let target := name.drop 4
    lifted (validateScope h.codec (slash :: target))
    require (target ≠ [] ∧ target ∉ visible)
      (Halt.error (unknown "invalid or conflicting OCI whiteout target"))
    let (base,meters) ← baseAt h lower s.meters (target :: dir) lowerDirectory
    let s := {s with meters := meters}
    match base with
    | some base => pure (record s (target :: dir) (deletion (target :: dir) base))
    | none => pure s

def scanVisible (dir : Path) (inherited lowerDirectory : Bool) (node : UpperNodeIdentity)
    (s : Scan) (name : Text) : Except Halt Scan := do
  let path := name :: dir
  let (base,meters) ← baseAt h lower s.meters path lowerDirectory
  let s := {s with meters := meters}
  let same := base.any fun b => node.matches h.owner b
  let s := if same then s else record s path (visibleChange path base node)
  pure (if node.isDirectory then
    {s with pending := (path,inherited,base.any SnapshotNodeIdentity.isDirectory) :: s.pending}
    else s)

def scanName (facts : List (Path × Fact)) (dir : Path) (visible : List Text)
    (inherited lowerDirectory : Bool) (s : Scan) (name : Text) : Except Halt Scan := do
  let fact ← factAt facts (name :: dir)
  if isMarker name then scanMarker h lower dir visible lowerDirectory fact.identity s name
  else scanVisible h lower dir inherited lowerDirectory fact.identity s name

def hideEntry (dir : Path) (visible : List Text) (s : Scan)
    (entry : Text × SnapshotNodeIdentity) : Scan :=
  if entry.1 ∈ visible then s
  else record s (entry.1 :: dir) (deletion (entry.1 :: dir) entry.2)

def scanOpaque (dir : Path) (visible : List Text) (s : Scan) : Except Halt Scan := do
  let (entries,meters) ← directoryEntries h lower s.meters dir
  let total := meters.lowerDirectoryEntries+entries.length
  require (total ≤ usizeMax) (Halt.error (budget "lower entry meter overflow"))
  require (total ≤ limits.maxNodes)
    (Halt.error (budget "opaque lower metadata entry budget exceeded"))
  pure (entries.foldl (hideEntry dir visible)
    {s with meters := {meters with lowerDirectoryEntries := total}})

/-- Only a directory that hides a lower directory asks for the lower's entries. -/
def scanHidden (dir : Path) (visible : List Text) (isOpaque lowerDirectory : Bool) (s : Scan) :
    Except Halt Scan :=
  if isOpaque && lowerDirectory then scanOpaque h limits lower dir visible s else pure s

def scanDirectory (facts : List (Path × Fact)) (s : Scan) (p : Pending) : Except Halt Scan := do
  let (dir,inherited,lowerDirectory) := p
  let fact ← factAt facts dir
  let isOpaque := inherited || fact.children.contains opq
  let visible := fact.children.filter fun name => !isMarker name
  let s ← fact.children.foldlM (scanName h lower facts dir visible isOpaque lowerDirectory) s
  let s ← scanHidden h limits lower dir visible isOpaque lowerDirectory s
  require (s.changes.length ≤ limits.maxNodes)
    (Halt.error (budget "upper diff result budget exceeded"))
  ensureCertain h s

/-- The work list is a stack: the directory pushed last is scanned next. -/
def scanLoop (facts : List (Path × Fact)) : ℕ → Scan → Except Halt Scan
  | fuel, s =>
    match s.pending with
    | [] => .ok s
    | p :: rest =>
      match fuel with
      | 0 => .error .exhausted
      | fuel+1 => do
        let s ← scanDirectory h limits lower facts {s with pending := rest} p
        scanLoop facts fuel s

def scanRoot (facts : List (Path × Fact)) (s : Scan) : Except Halt Scan := do
  let (state,meters) ← pathState h lower s.meters []
  let s := {s with meters := meters}
  match state with
  | some (.directory root) => do
    let fact ← factAt facts []
    let base := SnapshotNodeIdentity.directory root
    if fact.identity.matches h.owner base then pure s
    else pure (record s [] ⟨[],.modified,some base,some fact.identity⟩)
  | _ => .error (.error (unknown "fixed lower scope root is not a proved directory"))

/-- The changes come in the order of their texts, as the map keeps them. -/
def sorted (changes : List (Path × UpperChange)) : List UpperChange :=
  (changes.map Prod.snd).insertionSort fun a b => a.relPath ≤ b.relPath

def scanUpper (upper : UpperTree) : Except Halt UpperDiff := do
  let s ← ensureCertain h ⟨[],[([],false,true)],{},0⟩
  if limits.maxNodes = 0 ∨ 256 < limits.maxDepth then
    .error (.error ⟨.invalidRequest,"invalid upper diff bounds"⟩)
  else do
    let scanned ← lifted (collect h limits upper)
    let s ← scanRoot h lower scanned.facts {s with meters := scanned.meters}
    let s ← scanLoop h limits lower scanned.facts scanned.facts.length s
    lifted (verifyDirectory h upper scanned.facts (limits.maxDepth+1) [])
    let s ← ensureCertain h s
    pure ⟨sorted s.changes,s.meters⟩

end Scanning

end Scorpio.UpperScan
