import Scorpio.Retention.Disk

/-!
# Authority and owners

The local part of `snapshot::auth` and the registry of `snapshot::workspace_pins`.
A directory is bound to one authority record before it is used. A workspace owner
lives in its own directory below its view, and is registered by a record beside
the views. Discovery walks the registry and then the owner directories: an owner
directory that is not registered is an error.

The reading side of `snapshot::durable`: a completion marker binds the view, the
manifest and the pin by their digests. The audits re-read every bound file. A
damaged completion is revoked, and the damage is recorded for repair.
-/

set_option autoImplicit false

namespace Scorpio.Retention

open ByteText Fallible PageCodec Incremental

/-! ## Texts -/

def stripSuffix (t s : Text) : Option Text :=
  if s <:+ t then some (t.take (t.length-s.length)) else none

/-- Eight bytes, the most significant first. -/
def be64 (n : ℕ) : Bytes := (List.range 8).map fun i => UInt8.ofNat (n/256^(7-i)%256)

def scopeDomain : Bytes := txt "mega.scorpio.scope.v1" ++ [0]

/-- `hash_fields` of the scope name. -/
def scopeId (h : Host) (scope : Text) : Text :=
  hexName (h.hash (scopeDomain ++ be64 scope.length ++ scope))

section Authority

variable (h : Host)

/-! ## Authority records -/

def authorityDiffers : SnapshotError := integrity "managed scope authority or location differs"

def retentionBinding (dir : Path) : Look CacheBinding := do
  let bytes ← orFail (fun _ => authorityDiffers) (readFile h (authorityFile :: dir))
  demand (bytes.length ≤ controlBytes) authorityDiffers
  Queries.lift ((h.formats.cacheBinding.decode bytes).mapError fun _ => authorityDiffers)

def validateRetentionScope (dir : Path) : Look Unit := do
  let binding ← retentionBinding h dir
  Queries.lift (validateScope h.codec binding.scope)
  demand (binding.revision = 1 ∧ binding.snapshotId = none ∧ canonicalHex binding.domain ∧
    dir.head? = some (scopeId h binding.scope) ∧ dir.tail.head? = some binding.domain)
    authorityDiffers

def validateRetentionContentScope (scope : Path) : Look Unit := do
  match ← symlinkMetadata h (blobDir :: scope) with
  | .ok .directory => do
    let content ← retentionBinding h (blobDir :: scope)
    let own ← retentionBinding h scope
    demand (content = own) (integrity "managed content authority differs from scope")
  | .error e =>
    if e.kind = .notFound then pure ()
    else fail (integrity "managed content scope is not a real directory")
  | .ok _ => fail (integrity "managed content scope is not a real directory")

def forbidden (message : Text) : SnapshotError := ⟨.scopeForbidden,message⟩

end Authority

/-! ## Workspace records -/

structure DurableStore where
  root : Path
  content : Path
  deriving DecidableEq, Repr

section Pins

variable (h : Host)

def pinUuid (id : Text) : Result Unit :=
  if canonicalUuid id then .ok ()
  else if (h.codec.parseUuid id).isSome then
    .error (integrity "noncanonical workspace operation UUID")
  else .error (integrity "invalid workspace operation UUID")

def checkDirectory (p : Path) : Look Unit := do
  let n ← orFail ioError (symlinkMetadata h p)
  demand n.isDir (integrity "workspace cache component is not a real directory")

def pinRecordLimit : ℕ := 16*1024

/-- `read_record` of `workspace_pins`. -/
def readPinRecord {α : Type} (f : Format α) (p : Path) : Look (Option α) := do
  match ← symlinkMetadata h p with
  | .error e => if e.kind = .notFound then pure none else fail (ioError e)
  | .ok (.regular found) => do
    demand (found.length ≤ pinRecordLimit) (integrity "workspace record exceeds its local size limit")
    let bytes ← orFail ioError (readFile h p)
    demand (bytes.length ≤ pinRecordLimit) (integrity "workspace record exceeds its local size limit")
    let a ← Queries.lift ((f.decode bytes).mapError fun e =>
      integrity ("invalid workspace record: " ++ e))
    pure (some a)
  | .ok _ => fail (integrity "workspace record is not a regular file")

def validateAuthority (dir : Path) (domain scope : Text) (snapshot : Option Text) : Look Unit := do
  let found ← readPinRecord h h.formats.cacheBinding (authorityFile :: dir)
  let authority ← Queries.lift (okOr found
    (integrity "workspace cache authority binding is missing"))
  demand (authority = ⟨1,domain,scope,snapshot⟩)
    (integrity "workspace cache crosses its authorization domain or scope")

def scopeDir (b : WorkspaceBinding) (root : Path) : Look Path := do
  Queries.lift (pinUuid h b.workspaceId)
  let sid ← Queries.lift (parseDigest b.snapshotId)
  match root with
  | id :: owners :: view :: scope => do
    demand (b.revision = 1 ∧ id = b.workspaceId ∧ owners = ownersName ∧ view = hexName sid)
      (integrity "workspace binding disagrees with its fixed cache location")
    checkDirectory h (owners :: view :: scope)
    checkDirectory h (view :: scope)
    checkDirectory h root
    validateAuthority h scope b.authDomain b.scope none
    validateAuthority h root b.authDomain b.scope (some b.snapshotId)
    pure scope
  | [_,_] => fail (integrity "workspace root has no scope")
  | [_] => fail (integrity "workspace root has no view")
  | [] => fail (integrity "workspace root has no parent")

def validateStore (b : WorkspaceBinding) (store : DurableStore) : Look Path := do
  let scope ← scopeDir h b store.root
  demand (store.content = blobDir :: scope)
    (integrity "workspace content store is outside its authorization scope")
  checkDirectory h store.content
  validateAuthority h store.content b.authDomain b.scope none
  pure scope

def ownerBinding (store : DurableStore) : Look (Option WorkspaceBinding) := do
  match ← readPinRecord h h.formats.workspaceBinding (ownerFile :: store.root) with
  | none => do
    demand (store.root.tail.head? ≠ some ownersName) (integrity "workspace owner record is missing")
    pure none
  | some binding => do
    let _ ← validateStore h binding store
    pure (some binding)

def requireOwner (store : DurableStore) : Look WorkspaceBinding := do
  let binding ← ownerBinding h store
  Queries.lift (okOr binding
    ⟨.invalidRequest,"local pin release requires an owned workspace store"⟩)

def registryFile (scope : Path) (id : Text) : Path := (id ++ txt ".json") :: registryDir :: scope

def readRegistration (scope : Path) (id : Text) : Look (Option Registration) := do
  Queries.lift (pinUuid h id)
  match ← symlinkMetadata h (registryDir :: scope) with
  | .ok _ => do
    checkDirectory h (registryDir :: scope)
    readPinRecord h h.formats.registration (registryFile scope id)
  | .error e => if e.kind = .notFound then pure none else fail (ioError e)

def releaseRecord (store : DurableStore) (b : WorkspaceBinding) : Look (Option ReleaseRecord) := do
  match ← readPinRecord h h.formats.releaseRecord (revokeFile :: store.root) with
  | none => pure none
  | some record => do
    Queries.lift (pinUuid h record.operationId)
    demand (record.binding = b) (integrity "local pin revocation binding changed")
    pure (some record)

/-! ## Discovery -/

structure RetentionOwner where
  binding : WorkspaceBinding
  root : Path
  released : Bool
  releaseFinished : Bool
  deriving DecidableEq, Repr

structure Discovery where
  steps : ℕ
  out : List RetentionOwner
  registered : List (Text × Text)

variable (limits : CacheLimits) (deadline : ℕ)

def inventoryExceeded : SnapshotError := limit "workspace inventory budget exceeded"

def countStep (steps : ℕ) : Look ℕ := do
  demand (steps+1 ≤ limits.maxEntries) inventoryExceeded
  let now ← instantNow h
  demand (now < deadline) inventoryExceeded
  pure (steps+1)

/-- A temporary registration never supplies an owner. -/
def registryTemporary (name : Text) : Bool :=
  txt "." <+: name ∧ txt ".json.tmp." <:+: name

def ownerRoot (scope : Path) (sid id : Text) : Path := id :: ownersName :: sid :: scope

def registeredOwner (scope : Path) (acc : Discovery) (id : Text) : Look Discovery := do
  demand (acc.out.length < limits.maxOwners) (limit "workspace owner budget exceeded")
  let found ← readRegistration h scope id
  let registration ← Queries.lift (okOr found (integrity "workspace registry entry disappeared"))
  demand (registration.binding.workspaceId = id) (integrity "workspace registry owner changed")
  let sid ← Queries.lift (parseDigest registration.binding.snapshotId)
  let root := ownerRoot scope (hexName sid) id
  let binding ← requireOwner h ⟨root,blobDir :: scope⟩
  demand (binding = registration.binding) (integrity "registry entry differs from workspace owner")
  let release ← releaseRecord h ⟨root,blobDir :: scope⟩ binding
  let owner : RetentionOwner := ⟨binding,root,registration.state = .released,
    release.any fun record => record.phase = .revoked⟩
  pure {acc with
    out := acc.out ++ [owner]
    registered := (hexName sid,id) :: acc.registered}

def registryEntry (scope : Path) (acc : Discovery) (entry : Text × Node) : Look Discovery := do
  let steps ← countStep h limits deadline acc.steps
  let name ← Queries.lift (okOr (fromUtf8 entry.1) (integrity "invalid registry filename"))
  let n ← orFail ioError (symlinkMetadata h (name :: registryDir :: scope))
  demand n.isFile (integrity "registry contains a nonregular entry")
  match stripSuffix name (txt ".lock") with
  | some id => do
    Queries.lift (pinUuid h id)
    pure {acc with steps := steps}
  | none =>
    if registryTemporary name then pure {acc with steps := steps}
    else do
      let id ← Queries.lift (okOr (stripSuffix name (txt ".json"))
        (integrity "unknown workspace registry entry"))
      Queries.lift (pinUuid h id)
      registeredOwner h limits scope {acc with steps := steps} id

def ownerEntry (scope : Path) (sid : Text) (acc : Discovery) (entry : Text × Node) :
    Look Discovery := do
  let steps ← countStep h limits deadline acc.steps
  let id ← Queries.lift (okOr (fromUtf8 entry.1) (integrity "invalid owner directory"))
  Queries.lift (pinUuid h id)
  checkDirectory h (ownerRoot scope sid id)
  demand ((sid,id) ∈ acc.registered) (integrity "workspace owner is absent from registry")
  pure {acc with steps := steps}

def viewEntry (scope : Path) (acc : Discovery) (entry : Text × Node) : Look Discovery := do
  let steps ← countStep h limits deadline acc.steps
  let acc := {acc with steps := steps}
  let sid := entry.1
  if canonicalHex sid then do
    checkDirectory h (sid :: scope)
    match ← readDir h (ownersName :: sid :: scope) with
    | .error e => if e.kind = .notFound then pure acc else fail (ioError e)
    | .ok entries => do
      checkDirectory h (ownersName :: sid :: scope)
      entries.foldlM (ownerEntry h limits deadline scope sid) acc
  else pure acc

def discoverRegistry (scope : Path) : Look Discovery := do
  match ← readDir h (registryDir :: scope) with
  | .ok entries => do
    checkDirectory h (registryDir :: scope)
    entries.foldlM (registryEntry h limits deadline scope) ⟨0,[],[]⟩
  | .error e => if e.kind = .notFound then pure ⟨0,[],[]⟩ else fail (ioError e)

def discoverRetentionOwners (scope : Path) : Look (List RetentionOwner) := do
  let acc ← discoverRegistry h limits deadline scope
  let views ← orFail ioError (readDir h scope)
  let acc ← views.foldlM (viewEntry h limits deadline scope) acc
  pure acc.out

end Pins

open LogicalTree ClosureValidator

/-! ## Policies of views and manifests -/

def partPolicy (full : Bool) (part : Text) : Bool :=
  part ≠ [] ∧ part ≠ txt "." ∧ part ≠ txt ".." ∧ part.length ≤ 255 ∧ 0 ∉ part ∧
    (full ∨ 92 ∉ part)

def validateViewPolicy (view : ViewMeta) (full : Bool) : Result Unit :=
  require (view.snapshotId ≠ [] ∧ view.namespaceViewId ≠ [] ∧ view.leaseId ≠ [] ∧
      view.scope.head? = some slash ∧ view.scope.length ≤ 4096 ∧
      (view.scope = txt "/" ∨ (view.scope.tail.splitOn slash).all (partPolicy full)))
    (integrity "invalid fixed-view binding")

def fileKinds : List Text := ["file","regular","executable","symlink"]

structure ManifestScan where
  paths : List Text
  blobs : List (Text × ℕ)
  total : ℕ

/-- The text of a debug format, without the escapes of control characters. -/
def quoted (t : Text) : Text := txt "\"" ++ t ++ txt "\""

def scanFile (full : Bool) (s : ManifestScan) (file : SnapshotFile) : Result ManifestScan := do
  require (file.relPath.length ≤ 4096 ∧ (file.relPath.splitOn slash).length ≤ 256 ∧
      (file.relPath.splitOn slash).all (partPolicy full) ∧ file.fsKind ∈ fileKinds ∧
      file.relPath ∉ s.paths)
    (integrity ("invalid or duplicate file path/kind: " ++ quoted file.relPath))
  require (txt "sha256:" <+: file.contentDigest) (integrity "manifest digest lacks sha256 prefix")
  require (canonicalHex (file.contentDigest.drop 7))
    (integrity "manifest digest is not canonical SHA-256")
  require ((s.blobs.lookup file.contentDigest).all (· = file.size))
    (integrity "the same content digest has conflicting sizes")
  let total ← okOr (checkedAdd s.total file.size) (integrity "manifest byte count overflow")
  pure ⟨file.relPath :: s.paths,Assoc.insert s.blobs file.contentDigest file.size,total⟩

/-- The paths of the directories above a path. -/
def pathsAbove (path : Text) : List Text :=
  ((List.range path.length).filter fun i => path[i]? = some slash).map path.take

def validateManifestPolicy (manifest : List SnapshotFile) (full : Bool) :
    Result (List BlobDependency × ℕ) := do
  let s ← manifest.foldlM (scanFile full) ⟨[],[],0⟩
  require (s.paths.all fun path => (pathsAbove path).all fun above => above ∉ s.paths)
    (integrity "a manifest file is another file's ancestor")
  pure ((s.blobs.insertionSort fun a b => a.1 ≤ b.1).map fun row => ⟨row.1,row.2⟩,s.total)

def validateSnapshotView (view : ViewMeta) (closure : ValidatedSnapshotClosure) : Result Unit :=
  require (view.snapshotId = closure.descriptor.snapshotId ∧
      view.namespaceViewId = closure.descriptor.namespaceViewId ∧
      view.scope = closure.descriptor.scope)
    ⟨.durableViewConflict,"supplied view differs from the validated snapshot descriptor"⟩

/-! ## Dependencies -/

section Reads

variable (h : Host) {α : Type}

def displayPath (p : Path) : Text := p.reverse.flatMap fun name => slash :: name

def decodeCommit (decode : Bytes → Except Text α) (bytes : Bytes) (name : Text) : Result α :=
  (decode bytes).mapError fun e => integrity (txt "corrupt " ++ name ++ txt ": " ++ e)

def completionRevision (bytes : Bytes) : Result ℕ :=
  decodeCommit h.formats.header bytes completeMarker

/-! ## The two completion audits -/

/-- A `BTreeMap` of rows with distinct keys. -/
def pageMapOf (rows : List (Text × Bytes)) : Option PageMap :=
  let sorted := rows.insertionSort fun a b => a.1 ≤ b.1
  if hs : sorted.Pairwise fun a b => a.1 < b.1 then some ⟨sorted,hs⟩ else none

/-! ## Reopening and auditing -/

end Reads

end Scorpio.Retention
