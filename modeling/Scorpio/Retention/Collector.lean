import Scorpio.Base.SortedSearch
import Scorpio.Retention.Layout

/-!
# The collector

`collect_scope` of `cache_retention`. A pass first only looks: it scans the scope,
proves the retained root of every owner that is not retired, classifies every file,
and selects groups of files to remove within the limits of one pass. Only then are
the selected files removed, one by one, and the ledger set to what is left.

An inventory entry is identified by its path and its size; the owner locks and the
lock of the file to be removed are as free as the host says.
-/

set_option autoImplicit false

namespace Scorpio.Retention

open ByteText Fallible PageCodec CrashLogic LogicalTree ClosureValidator ClosureConstructor
open SortedSearch

/-! ## The working budget -/

structure CollectionBudget where
  limits : CacheLimits
  deadline : ℕ
  allocation : ℕ
  metadata : ℕ
  nodes : ℕ

section Budget

variable (h : Host)

def CollectionBudget.admitBytes (b : CollectionBudget) (bytes : ℕ) : Look CollectionBudget := do
  let now ← instantNow h
  demand (now < b.deadline) (limit "cache collection deadline exceeded")
  let allocation ← Queries.lift (checkedBytes "collection allocation overflow" b.allocation bytes)
  demand (allocation ≤ b.limits.maxInventoryBytes) (limit "collection allocation budget exceeded")
  pure {b with allocation := allocation}

/-- `CollectionBudget::read`: an entry of the inventory, read within a maximum. -/
def readEntry (b : CollectionBudget) (i : Inventory) (path : Path) (maximum : ℕ) :
    Look (Option Bytes × CollectionBudget) := do
  match i.files.lookup path with
  | none => pure (none,b)
  | some size => do
    demand (size ≤ maximum) (limit "cache record exceeds its read budget")
    let b ← b.admitBytes h (saturatingAdd (saturatingMul size 16) 512)
    let bytes ← orFail ioError (readFile h path)
    demand (bytes.length = size) (integrity "cache inventory entry lifetime changed during proof")
    pure (some bytes,b)

def requiredEntry (b : CollectionBudget) (i : Inventory) (path : Path) (maximum : ℕ) :
    Look (Bytes × CollectionBudget) := do
  let r ← readEntry h b i path maximum
  let bytes ← Queries.lift (okOr r.1 (integrity "cache protection dependency is missing"))
  pure (bytes,r.2)

/-- `budget.admitBytes` before every step of a loop. -/
def admitEach {α β : Type} (charge : α → ℕ) (f : β → α → Result β) (b : CollectionBudget)
    (init : β) (xs : List α) : Look (β × CollectionBudget) :=
  xs.foldlM (fun s x => do
    let b ← s.2.admitBytes h (charge x)
    let r ← Queries.lift (f s.1 x)
    pure (r,b)) (init,b)

end Budget

/-! ## The audit of a pin against its root -/

section Audit

variable (h : Host)

/-- `binary_search_by` on the paths of the files. -/
def fileAt (files : List SnapshotFile) (path : Text) : Option SnapshotFile :=
  let paths := files.map fun file => file.relPath
  match files[narrow paths path paths.length 0 paths.length]? with
  | some file => if file.relPath = path then some file else none
  | none => none

def checkMember (closure : ValidatedSnapshotClosure) (file : SnapshotFile) : Result Unit := do
  let expected ← okOr (fileAt closure.files file.relPath)
    (integrity "retention pin file lacks fixed-root membership")
  require (expected = file) (integrity "retention pin file differs from fixed-root membership")

/-- The records of an owner by name. -/
abbrev Records := List (Text × Bytes)

def requiredRecord (records : Records) (name : Text) : Result Bytes :=
  okOr (records.lookup name) (integrity "retention metadata dependency missing")

/-- What the audit has checked before it looks at the pin. -/
structure AuditedView where
  view : ViewMeta
  viewDigest : Text
  manifest : List SnapshotFile
  manifestDigest : Text
  pinBytes : Bytes
  blobs : List BlobDependency
  total : ℕ

def pageDependencies (pages : PageMap) : List PageDependency :=
  pages.rows.map fun row => ⟨row.1,row.2.length⟩

def auditSnapshotPin (closure : ValidatedSnapshotClosure) (records : Records) (a : AuditedView) :
    Result Text := do
  let descriptorBytes ← requiredRecord records descriptorFile
  let indexBytes ← requiredRecord records metadataIndexFile
  let pin ← decodeCommit h.formats.snapshotPin.decode a.pinBytes pinFile
  let index ← decodeCommit h.formats.index.decode indexBytes metadataIndexFile
  let pages := pageDependencies closure.pages
  require (descriptorBytes = closure.descriptorBytes ∧ a.manifest = closure.files ∧
      index.verificationRevision = snapshotVerificationRevision ∧ index.pages = pages ∧
      index.directories = closure.directories ∧ pin.pinId ≠ [] ∧
      pin.snapshotId = a.view.snapshotId ∧ pin.namespaceViewId = a.view.namespaceViewId ∧
      pin.scope = a.view.scope ∧ pin.leaseId = a.view.leaseId ∧ pin.viewDigest = a.viewDigest ∧
      pin.manifestDigest = a.manifestDigest ∧ pin.descriptorDigest = digestOf h descriptorBytes ∧
      pin.metadataIndexDigest = digestOf h indexBytes ∧ pin.pages = pages ∧ pin.blobs = a.blobs)
    (integrity "snapshot pin metadata differs from canonical retention root")
  match records.lookup completeMarker with
  | none => pure pin.offlineGrantDigest
  | some bytes => do
    let marker ← decodeCommit h.formats.snapshotMarker.decode bytes completeMarker
    require (marker.verificationRevision = snapshotVerificationRevision ∧
        marker.completionKind = .fullSnapshot ∧ marker.snapshotId = a.view.snapshotId ∧
        marker.namespaceViewId = a.view.namespaceViewId ∧ marker.viewDigest = a.viewDigest ∧
        marker.manifestDigest = a.manifestDigest ∧
        marker.descriptorDigest = digestOf h descriptorBytes ∧
        marker.metadataIndexDigest = digestOf h indexBytes ∧
        marker.pinDigest = digestOf h a.pinBytes ∧ marker.files = a.manifest.length ∧
        marker.directories = closure.directories.length ∧ marker.pages = pages.length ∧
        marker.bytes = a.total ∧ marker.offlineGrantDigest = pin.offlineGrantDigest)
      (integrity "snapshot completion metadata differs from retention root")
    pure pin.offlineGrantDigest

def auditFilePin (records : Records) (a : AuditedView) : Result Text := do
  let pin ← decodeCommit h.formats.pin.decode a.pinBytes pinFile
  require (pin.pinId ≠ [] ∧ pin.snapshotId = a.view.snapshotId ∧
      pin.namespaceViewId = a.view.namespaceViewId ∧ pin.scope = a.view.scope ∧
      pin.leaseId = a.view.leaseId ∧ pin.viewDigest = a.viewDigest ∧
      pin.manifestDigest = a.manifestDigest ∧ pin.blobs = a.blobs)
    (integrity "file pin metadata differs from canonical retention root")
  match records.lookup completeMarker with
  | none => pure pin.offlineGrantDigest
  | some bytes => do
    let marker ← decodeCommit h.formats.marker.decode bytes completeMarker
    require (marker.verificationRevision = verificationRevision ∧
        marker.completionKind = .fileClosure ∧ marker.snapshotId = a.view.snapshotId ∧
        marker.namespaceViewId = a.view.namespaceViewId ∧ marker.viewDigest = a.viewDigest ∧
        marker.manifestDigest = a.manifestDigest ∧ marker.pinDigest = digestOf h a.pinBytes ∧
        marker.files = a.manifest.length ∧ marker.bytes = a.total ∧
        marker.offlineGrantDigest = pin.offlineGrantDigest)
      (integrity "file completion metadata differs from retention root")
    pure pin.offlineGrantDigest

def auditPinView (closure : ValidatedSnapshotClosure) (records : Records) :
    Result (ℕ × AuditedView) := do
  let viewBytes ← requiredRecord records viewFile
  let manifestBytes ← requiredRecord records manifestFile
  let pinBytes ← requiredRecord records pinFile
  let view ← decodeCommit h.formats.view.decode viewBytes viewFile
  validateViewPolicy view true
  validateSnapshotView view closure
  let manifest ← decodeCommit h.formats.manifest.decode manifestBytes manifestFile
  manifest.forM (checkMember closure)
  let revision ← completionRevision h pinBytes
  let deps ← validateManifestPolicy manifest (revision = snapshotVerificationRevision)
  pure (revision,⟨view,digestOf h viewBytes,manifest,digestOf h manifestBytes,pinBytes,deps.1,deps.2⟩)

/-- The pin by its revision, and the digest of the grant that it binds. -/
def auditCommitment (closure : ValidatedSnapshotClosure) (records : Records) (revision : ℕ)
    (a : AuditedView) : Result Text :=
  if revision = snapshotVerificationRevision then auditSnapshotPin h closure records a
  else if revision = verificationRevision then auditFilePin h records a
  else .error (integrity "unsupported retention pin revision")

def auditRetentionMetadata (closure : ValidatedSnapshotClosure) (records : Records) :
    Result Unit := do
  let r ← auditPinView h closure records
  let grantDigest ← auditCommitment h closure records r.1 r.2
  if grantDigest = [] then pure ()
  else do
    let bytes ← requiredRecord records offlineGrantFile
    require (digestOf h bytes = grantDigest) (integrity "retention offline metadata digest differs")

/-! ## Reading the pin of an owner -/

def requiredRecords (b : CollectionBudget) (i : Inventory) (root : Path) :
    List Text → Records → Look (Records × CollectionBudget)
  | [], records => pure (records,b)
  | name :: rest, records => do
    let r ← requiredEntry h b i (name :: root) b.limits.maxRecordBytes
    requiredRecords r.2 i root rest (records ++ [(name,r.1)])

def optionalRecords (b : CollectionBudget) (i : Inventory) (root : Path) :
    List Text → Records → Look (Records × CollectionBudget)
  | [], records => pure (records,b)
  | name :: rest, records => do
    let r ← readEntry h b i (name :: root) b.limits.maxRecordBytes
    optionalRecords r.2 i root rest (records ++ (r.1.map fun bytes => (name,bytes)).toList)

def checkMetadataPages (i : Inventory) (root : Path) :
    CollectionBudget → List (Text × Bytes) → Look CollectionBudget
  | b, [] => pure b
  | b, (id,expected) :: rest => do
    let digest ← Queries.lift (parseDigest id)
    let r ← requiredEntry h b i (hexName digest :: metadataDir :: root) h.codec.pageMaxBytes
    demand (r.1 = expected) (integrity "complete metadata page differs from fixed canonical graph")
    checkMetadataPages i root r.2 rest

/-- Only a snapshot pin has pages of its own. -/
def checkPinPages (b : CollectionBudget) (i : Inventory) (root : Path)
    (closure : ValidatedSnapshotClosure) (revision : ℕ) : Look CollectionBudget :=
  if revision = snapshotVerificationRevision then
    checkMetadataPages h i root b closure.pages.rows
  else pure b

def validatePinMetadata (b : CollectionBudget) (i : Inventory) (root : Path)
    (closure : ValidatedSnapshotClosure) (hasPin hasComplete : Bool) : Look CollectionBudget := do
  demand (!hasComplete || hasPin) (integrity "completion has lost its pin metadata")
  if hasPin then do
    let names := [viewFile,manifestFile,pinFile] ++ if hasComplete then [completeMarker] else []
    let r ← requiredRecords h b i root names []
    let r ← optionalRecords h r.2 i root [descriptorFile,metadataIndexFile,offlineGrantFile] r.1
    let pinBytes ← Queries.lift (requiredRecord r.1 pinFile)
    let revision ← Queries.lift (completionRevision h pinBytes)
    let b ← checkPinPages h r.2 i root closure revision
    Queries.lift (auditRetentionMetadata h closure r.1)
    pure b
  else pure b

end Audit

/-! ## The proof of every owner -/

/-- What is protected so far, and the owners whose metadata is not. -/
structure Protection where
  budget : CollectionBudget
  retired : List Path
  blobs : List Text
  pages : List Text

section Owners

variable (h : Host)

/-- The pages of a retained root. A repeated page is refused. -/
def retainedPages (i : Inventory) (directory : Path) :
    CollectionBudget → List PageDependency → Records → Look (Records × CollectionBudget)
  | b, [], pages => pure (pages,b)
  | b, dependency :: rest, pages => do
    let digest ← Queries.lift (parseDigest dependency.pageId)
    let r ← requiredEntry h b i (hexName digest :: pagesName :: directory) h.codec.pageMaxBytes
    let metadata ← Queries.lift (checkedBytes "protection metadata overflow" r.2.metadata
      r.1.length)
    demand (metadata ≤ r.2.limits.maxMetadataBytes)
      (limit "aggregate protection metadata exceeded")
    demand (r.1.length = dependency.size ∧ (pages.lookup dependency.pageId).isNone)
      (integrity "protection page dependency differs or is repeated")
    retainedPages i directory {r.2 with metadata := metadata} rest
      (pages ++ [(dependency.pageId,r.1)])

/-- `from_canonical_pages_bounded` at the clock of the host. -/
def provenClosure (descriptor : Bytes) (pages : PageMap) (maxNodes maxBytes deadline : ℕ) :
    Look ValidatedSnapshotClosure := fun _ n =>
  (fromCanonicalPagesBounded h.codec (fun k => h.millis (n+k)) descriptor pages maxNodes maxBytes
    (some deadline),n+1)

/-- A name that was not protected yet is charged. -/
def protectName (s : List Text × CollectionBudget) (digest : Text) :
    Look (List Text × CollectionBudget) := do
  let id ← Queries.lift (parseDigest digest)
  if hexName id ∈ s.1 then pure s
  else do
    let b ← s.2.admitBytes h 256
    pure (hexName id :: s.1,b)

def retainedRoot (b : CollectionBudget) (i : Inventory) (root : Path) (descriptorDigest : Text)
    (dependencies : List PageDependency) : Look (ValidatedSnapshotClosure × CollectionBudget) := do
  let _ ← Queries.lift (parseDigest descriptorDigest)
  demand (dependencies.length ≤ b.limits.maxEntries) (limit "protection page count exceeded")
  let directory := retentionDir :: root
  let r ← requiredEntry h b i (retainedDescriptor :: directory) b.limits.maxRecordBytes
  demand (digestOf h r.1 = descriptorDigest) (integrity "protection descriptor digest differs")
  let p ← retainedPages h i directory r.2 dependencies []
  let pages ← Queries.lift (okOr (pageMapOf p.1)
    (integrity "protection page dependency differs or is repeated"))
  let closure ← provenClosure h r.1 pages (p.2.limits.maxRootNodes-p.2.nodes)
    (p.2.limits.maxInventoryBytes-p.2.allocation) p.2.deadline
  pure (closure,p.2)

/-- The logical nodes of a further root. -/
def countNodes (b : CollectionBudget) (closure : ValidatedSnapshotClosure) :
    Result CollectionBudget := do
  let files ← checkedBytes "protection logical node overflow" b.nodes closure.files.length
  let nodes ← checkedBytes "protection logical node overflow" files closure.directories.length
  require (nodes ≤ b.limits.maxRootNodes)
    (limit "aggregate protection logical node budget exceeded")
  pure {b with nodes := nodes}

/-- What an owner that is not retired protects. -/
def protectRoot (p : Protection) (i : Inventory) (owner : RetentionOwner)
    (descriptorDigest : Text) (dependencies : List PageDependency) (hasPin hasComplete : Bool) :
    Look Protection := do
  let r ← retainedRoot h p.budget i owner.root descriptorDigest dependencies
  demand (r.1.descriptor.snapshotId = owner.binding.snapshotId ∧
    r.1.descriptor.scope = owner.binding.scope)
    (integrity "protection graph differs from fixed workspace")
  let b ← Queries.lift (countNodes r.2 r.1)
  let b ← validatePinMetadata h b i owner.root r.1 hasPin hasComplete
  let blobs ← (r.1.files.map fun file => file.contentDigest).foldlM (protectName h) (p.blobs,b)
  let pages ← (r.1.pages.keys).foldlM (protectName h) (p.pages,blobs.2)
  pure {p with budget := pages.2, blobs := blobs.1, pages := pages.1}

def ownerLock (root : Path) : Look Unit := do
  let _ ← orFail ioError (readFile h (transactionLock :: root))
  if ← wouldBlock h then fail (busyError "cache protection owner is busy") else pure ()

def protectOwner (i : Inventory) (p : Protection) (owner : RetentionOwner) : Look Protection := do
  let b ← p.budget.admitBytes h 512
  ownerLock h owner.root
  let r ← requiredEntry h b i (useRecordName :: owner.root) b.limits.maxRecordBytes
  let record ← Queries.lift ((h.formats.workspaceUse.decode r.1).mapError jsonError)
  demand (record.revision = 1 ∧ record.binding = owner.binding)
    (integrity "cache use identity changed")
  let p := {p with budget := r.2}
  let hasPin := (i.files.lookup (pinFile :: owner.root)).isSome
  let hasComplete := (i.files.lookup (completeMarker :: owner.root)).isSome
  if record.retired then do
    demand (owner.released && owner.releaseFinished && !hasPin && !hasComplete)
      (integrity "retired cache use still carries an owner guarantee")
    pure {p with retired := owner.root :: p.retired}
  else do
    let descriptorDigest ← Queries.lift (okOr record.descriptorDigest
      (busyError "live cache use has not acquired its complete metadata proof"))
    protectRoot h p i owner descriptorDigest record.pages hasPin hasComplete

end Owners

/-! ## Classification -/

section Classes

variable (h : Host) (scope : Path) (limits : CacheLimits) (owners : List RetentionOwner)

def ownerRoots : List Path := owners.map fun owner => owner.root

def checkDirectoryLayout (_ : Unit) (path : Path) : Result Unit := do
  let valid ← validDirectory scope path (ownerRoots owners)
  require valid (integrity "unknown cache directory blocks collection")

/-- The temporaries of control records among the files. -/
def controlTemporary (s : List Path × CollectionBudget) (file : Path × ℕ) :
    Look (List Path × CollectionBudget) := do
  let b ← s.2.admitBytes h 0
  let control ← Queries.lift (rawControlTemporary scope file.1)
  if control then do
    demand (file.2 ≤ controlBytes) (limit "orphan cache control temporary exceeds its write bound")
    let b ← b.admitBytes h (saturatingAdd (saturatingMul (displayPath file.1).length 4) 1024)
    pure (s.1 ++ [file.1],b)
  else pure (s.1,b)

def relativeComponent (part : Text) : Bool :=
  ¬ (part = [] ∨ part = txt "." ∨ part = txt ".." ∨ part.any fun c => c = 92 ∨ c = 0)

/-- The components of a relative directory, from the leaf up. -/
def directoryParts (relative : Text) : List Text :=
  if relative = [] then [] else (relative.splitOn slash).reverse

def acceptHydrationIntent (id : Text) (bytes : Bytes) : Result Unit := do
  require (canonicalUuid id) (integrity "cache intent UUID is not canonical")
  let intent ← (h.formats.hydrationIntent.decode bytes).mapError jsonError
  require (intent.revision = 1 ∧ intent.operationId = id ∧
      intent.maximumBytes ≤ limits.maxBytes ∧
      owners.any fun owner => owner.binding = intent.binding)
    (integrity "orphan hydration reservation binding differs")

/-- The temporary file that a writer intent declares, and its bound. -/
def acceptWriterIntent (id : Text) (bytes : Bytes) : Result (Path × ℕ) := do
  require (canonicalUuid id) (integrity "cache intent UUID is not canonical")
  let intent ← (h.formats.writerIntent.decode bytes).mapError jsonError
  require (intent.revision = 1 ∧ intent.operationId = id ∧
      intent.maximumBytes ≤ limits.maxBytes ∧
      intent.temporaryName = tempName intent.finalName id ∧
      (directoryParts intent.relativeDirectory).all relativeComponent)
    (integrity "orphan writer declaration differs")
  validateChild intent.finalName
  validateChild intent.temporaryName
  let directory := directoryParts intent.relativeDirectory ++ scope
  let known ← validFinalFile scope (intent.finalName :: directory) (ownerRoots owners)
  require known (integrity "writer declaration targets an unknown cache location")
  pure (intent.temporaryName :: directory,intent.maximumBytes)

structure Orphans where
  temporaries : List Path
  groups : List (List Path)

/-- An intent with the temporary file it declares, if that is there. -/
def orphanGroup (i : Inventory) (o : Orphans) (path temporary : Path) (maximum : ℕ) :
    Result Orphans :=
  match i.files.lookup temporary with
  | none => .ok {o with groups := o.groups ++ [[path]]}
  | some size => do
    require (size ≤ maximum ∧ temporary ∉ o.temporaries)
      (integrity "orphan temporary exceeds or duplicates its declaration")
    pure ⟨temporary :: o.temporaries,o.groups ++ [[temporary,path]]⟩

def intentGroup (i : Inventory) (o : Orphans) (path : Path) (name : Text) (bytes : Bytes) :
    Result Orphans :=
  match stripSuffix name hydrateSuffix with
  | some id => do
    acceptHydrationIntent h limits owners id bytes
    pure {o with groups := o.groups ++ [[path]]}
  | none => do
    let id ← okOr (stripSuffix name jsonSuffix) (integrity "unknown writer intent entry")
    let r ← acceptWriterIntent h scope limits owners id bytes
    orphanGroup i o path r.1 r.2

def collectIntent (i : Inventory) (s : Orphans × CollectionBudget) (path : Path) :
    Look (Orphans × CollectionBudget) := do
  let name ← Queries.lift (okOr (path.head?.bind fromUtf8)
    (integrity "invalid writer intent filename"))
  let r ← requiredEntry h s.2 i path controlBytes
  let o ← Queries.lift (intentGroup h scope limits owners i s.1 path name r.1)
  let b ← r.2.admitBytes h (saturatingAdd (saturatingMul (displayPath path).length 4) 1024)
  pure (o,b)

def isIntent (path : Path) : Bool := path.tail = intentsName :: scope

/-! ## Candidates -/

def retiredNames : List Text := [descriptorFile,metadataIndexFile,manifestFile,journalFile,
  offlineGrantFile,repairFile]

/-- The retired root that a path lies below, at most seven levels up. -/
def retiredRoot (retired : List Path) (path : Path) : Option Path :=
  (path.tails.take 8).find? fun root => root ∈ retired

def retiredMetadata (retired : List Path) (path : Path) : Bool :=
  (retiredRoot retired path).any fun root =>
    (metadataDir :: root) <:+ path ∨ (retentionDir :: root) <:+ path ∨
      (path.tail = root ∧ path.headD [] ∈ retiredNames)

def staleName (directory : Text) (kept : List Text) (path : Path) : Bool :=
  path.tail = directory :: scope ∧ canonicalHex (path.headD []) ∧ path.headD [] ∉ kept

/-- A final file that nothing protects. -/
def unprotected (p : Protection) (path : Path) : Bool :=
  staleName scope blobDir p.blobs path ∨ staleName scope pagesName p.pages path ∨
    retiredMetadata p.retired path

def finalCandidate (p : Protection) (control : List Path) (o : Orphans)
    (s : List (List Path) × CollectionBudget) (file : Path × ℕ) :
    Look (List (List Path) × CollectionBudget) := do
  let b ← s.2.admitBytes h 0
  if file.1 ∈ control ∨ file.1 ∈ o.temporaries ∨ isIntent scope file.1 then pure (s.1,b)
  else do
    let known ← Queries.lift (validFinalFile scope file.1 (ownerRoots owners))
    demand known (integrity "unknown cache entry blocks collection")
    if control = [] ∧ unprotected scope p file.1 then do
      let b ← b.admitBytes h (saturatingAdd (saturatingMul (displayPath file.1).length 2) 512)
      pure (s.1 ++ [[file.1]],b)
    else pure (s.1,b)

end Classes

/-! ## Selection -/

structure Selection where
  paths : List Path
  bytes : ℕ

section Passes

variable (h : Host)

def groupBytes (i : Inventory) (group : List Path) : Result ℕ :=
  group.foldlM (fun sum path => checkedBytes "collection delete size overflow" sum
    ((i.files.lookup path).getD 0)) 0

/-- A group is taken whole if the limits of the pass allow it. -/
def selectGroup (limits : CacheLimits) (i : Inventory) (s : Selection) (group : List Path) :
    Result Selection := do
  let bytes ← groupBytes i group
  if saturatingAdd s.paths.length group.length ≤ limits.maxDeleteEntries ∧
      (checkedAdd s.bytes bytes).any (· ≤ limits.maxDeleteBytes) then
    pure ⟨s.paths ++ group,s.bytes+bytes⟩
  else pure s

/-- `prepare_current_regular`: the entry is still what the inventory says, and nobody has it. -/
def prepareRemoval (i : Inventory) (path : Path) : Look Unit := do
  match ← symlinkMetadata h path with
  | .error e =>
    fail (if e.kind = .notFound then integrity "collection candidate disappeared" else ioError e)
  | .ok n => do
    demand (n.isFile ∧ i.files.lookup path = some n.len)
      (ioError ⟨.other,"cache retirement entry changed"⟩)
    if ← wouldBlock h then fail (ioError ⟨.wouldBlock,"operation would block"⟩) else pure ()

def prepareEach (i : Inventory) (b : CollectionBudget) (path : Path) : Look CollectionBudget := do
  let b ← b.admitBytes h 1024
  prepareRemoval h i path
  pure b

structure CollectionPlan where
  limits : CacheLimits
  inventory : Inventory
  candidates : List (List Path)
  selected : Selection

/-- Everything before the first removal. -/
def planCollection (scope : Path) : Look CollectionPlan := do
  lock h (fenceName :: scope)
  lock h (admissionLock :: scope)
  validateRetentionScope h scope
  validateRetentionContentScope h scope
  let limits ← policy h scope
  let _ ← readCharges h scope
  let now ← instantNow h
  let i ← scan h limits (now+limits.maxScanMillis) scope
  let b : CollectionBudget := ⟨limits,now+limits.maxScanMillis,i.allocation,0,0⟩
  let owners ← discoverRetentionOwners h limits b.deadline scope
  let b ← b.admitBytes h (saturatingMul owners.length 2048)
  let p ← owners.foldlM (protectOwner h i) ⟨b,[],[],[]⟩
  let d ← admitEach h (fun _ => 0) (checkDirectoryLayout scope owners) p.budget () i.directories
  let c ← i.files.foldlM (controlTemporary h scope) ([],d.2)
  let intents := (i.files.map Prod.fst).filter fun path => isIntent scope path ∧ path ∉ c.1
  let o ← intents.foldlM (collectIntent h scope limits owners i) (⟨[],[]⟩,c.2)
  let f ← i.files.foldlM (finalCandidate h scope owners p c.1 o.1) ([],o.2)
  let candidates := f.1 ++ if c.1 = [] then o.1.groups else c.1.map fun path => [path]
  let s ← admitEach h (fun group => saturatingMul group.length 512) (selectGroup limits i) f.2
    ⟨[],0⟩ candidates
  let b ← s.1.paths.foldlM (prepareEach h i) s.2
  let _ ← admitEach h (fun _ => 0) (fun _ _ => .ok ()) b () s.1.paths
  pure ⟨limits,i,candidates,s.1⟩

structure CollectionReport where
  scannedEntries : ℕ
  deletedEntries : ℕ
  deletedBytes : ℕ
  retainedBytes : ℕ
  deriving DecidableEq, Repr

/-- `PreparedRemoval::remove`, with the report of what is gone. -/
def removeEntry (i : Inventory) (path : Path) (r : CollectionReport) : Io CollectionReport := do
  let size := (i.files.lookup path).getD 0
  orStop ioError (removeFile h path)
  orStop ioError (syncDirectory h path.tail)
  pure {r with
    deletedEntries := r.deletedEntries+1
    deletedBytes := r.deletedBytes+size
    retainedBytes := r.retainedBytes-(size+entryCharge)}

def removeEntries (i : Inventory) : List Path → CollectionReport → Io CollectionReport
  | [], r => pure r
  | path :: rest, r => do
    let r ← removeEntry h i path r
    removeEntries i rest r

def resetLedger (scope : Path) (i : Inventory) (r : CollectionReport) : Io Unit := do
  let bytes ← CrashLogic.lift (checkedBytes "ledger reset overflow" r.retainedBytes
    (controlBytes+8*entryCharge))
  rawAtomic h scope ledgerName
    (h.formats.charges.encode ⟨1,bytes,i.entries-r.deletedEntries+8⟩)

def collectScope (scope : Path) : Io CollectionReport := do
  match ← look (managedScope h scope) with
  | none => pure ⟨0,0,0,0⟩
  | some _ => do
    let plan ← look (planCollection h scope)
    let report ← removeEntries h plan.inventory plan.selected.paths
      ⟨plan.inventory.entries,0,0,plan.inventory.bytes⟩
    resetLedger h scope plan.inventory report
    pure report

end Passes

end Scorpio.Retention
