import Scorpio.Snapshot.ClosureValidator

/-!
# The closure constructors

The rest of `snapshot::closure`: the canonical descriptor, the subtree facts
derived from a proved graph, and the two constructors of a validated closure.

`subtree_facts` and `radix_page_ids` index maps that the proof has filled. A
missing key panics in the source, and so does a recursion that never ends;
both appear here as errors that the constructors are shown not to return.
-/

set_option autoImplicit false

namespace Scorpio.ClosureConstructor

open ByteText Fallible PageCodec LogicalTree ClosureValidator

def indexPanic : SnapshotError := ⟨.internal,"no entry found for key"⟩

def stackOverflow : SnapshotError := ⟨.internal,"stack overflow"⟩

section Facts

variable (v : Validator)

def radixPageIds : ℕ → List Text → Text → Result (List Text)
  | 0, _, _ => .error stackOverflow
  | fuel+1, ids, id =>
    if id ∈ ids then .ok ids
    else do
      let page ← okOr (v.decoded id) indexPanic
      page.children.foldlM (fun ids ch => radixPageIds fuel ids (childId ch)) (id :: ids)

/-- `BTreeSet::extend`. -/
def extendIds (ids more : List Text) : List Text :=
  more.foldl (fun ids id => if id ∈ ids then ids else id :: ids) ids

abbrev FactMemo := List (Text × VerifiedSubtreeFacts)

structure FactAccumulator where
  pageIds : List Text
  files : List SnapshotFile
  totalEntries : ℕ
  memo : FactMemo

def countEntries (a b : ℕ) : Result ℕ :=
  okOr (checkedAdd a b) (limit "subtree entry count overflow")

/-- One entry of a summarised directory; `descend` is the recursive call. -/
def factEntry (descend : FactMemo → Text → Result (VerifiedSubtreeFacts × FactMemo))
    (acc : FactAccumulator) (e : Entry) : Result FactAccumulator := do
  let counted ← countEntries acc.totalEntries 1
  let name ← okOr (fromUtf8 e.name) (integrity "non-UTF-8 entry")
  match fsKind e.kind with
  | none => do
    let (child,memo) ← descend acc.memo (digest e.childRoot)
    let total ← countEntries counted child.totalEntries
    pure ⟨extendIds acc.pageIds child.pageIds,
      acc.files ++ child.files.map fun file =>
        { file with relPath := name ++ slash :: file.relPath },total,memo⟩
  | some kind =>
    pure { acc with
      files := acc.files ++ [⟨name,kind,e.size,digest e.contentId⟩]
      totalEntries := counted }

def sortIds (ids : List Text) : List Text := ids.insertionSort (· ≤ ·)

def sortFiles (files : List SnapshotFile) : List SnapshotFile :=
  files.insertionSort fun a b => a.relPath ≤ b.relPath

def subtreeFacts (pageCount : ℕ) : ℕ → FactMemo → Text → Result (VerifiedSubtreeFacts × FactMemo)
  | 0, _, _ => .error stackOverflow
  | fuel+1, memo, root =>
    match memo.lookup root with
    | some facts => .ok (facts,memo)
    | none => do
      let pageIds ← radixPageIds v (pageCount+1) [] root
      let entries ← okOr (v.entries root) indexPanic
      let acc ← entries.foldlM (factEntry (subtreeFacts pageCount fuel)) ⟨pageIds,[],0,memo⟩
      let facts : VerifiedSubtreeFacts :=
        ⟨root,sortIds acc.pageIds,sortFiles acc.files,acc.totalEntries⟩
      pure (facts,(root,facts) :: acc.memo)

/-- The facts of every directory root, in root order. -/
def allFacts (pageCount fuel : ℕ) (roots : List Text) : Result (List VerifiedSubtreeFacts) := do
  let memo ← roots.foldlM (fun memo root => do
    let (_,memo) ← subtreeFacts v pageCount fuel memo root
    pure memo) []
  pure ((memo.map Prod.snd).insertionSort fun a b => a.rootPageId ≤ b.rootPageId)

/-- The facts of a closure when the caller asks for them. -/
def closureFacts (includeFacts : Bool) (pageCount : ℕ) (directories : List SnapshotDirectory)
    (files : List SnapshotFile) : Result (List VerifiedSubtreeFacts) :=
  if includeFacts then
    allFacts v pageCount (directories.length+files.length+1)
      (sortIds (directories.map (·.directoryRoot)).dedup)
  else .ok []

end Facts

section Constructors

variable (c : Codec) (now : ℕ → ℕ)

def canonicalDescriptor (d : Descriptor) : Result Bytes := do
  require (d.schemaVersion = c.schemaVersion ∧ d.metadataCodec = c.metadataCodec ∧
      d.materializationPolicy = c.materializationPolicyGitRawV1 ∧
      d.fsSemantics = c.fsSemanticsLinuxCodeV1 ∧
      d.accessProjection = c.accessProjectionExactFull)
    (integrity "unsupported serving descriptor profile")
  validateAbsolutePath c d.scope
  let uuid ← okOr (c.parseUuid d.instanceId) (integrity "invalid descriptor instance UUID")
  require (uuid.any (· ≠ 0) ∧ c.uuidText uuid = d.instanceId)
    (integrity "instance UUID must be non-nil and canonical")
  let namespaceViewId ← parseDigest d.namespaceViewId
  let metadataRoot ← parseDigest d.metadataRoot
  let serving : ServingDescriptor := ⟨uuid,namespaceViewId,d.scope,metadataRoot⟩
  let snapshotId ← (c.snapshotId serving).mapError integrity
  require (d.snapshotId = digest snapshotId)
    (integrity "snapshot_id does not match canonical descriptor")
  (c.encodeDescriptor serving).mapError integrity

/-- Every directory of a walk extends the path of its parent, and a path has at most 4096
bytes, so the walk from the root is never deeper. -/
def walkFuel : ℕ := 4098

def validatePagesBounded (d : Descriptor) (pages : PageMap) (includeFacts : Bool)
    (maxNodes maxLogicalBytes : ℕ) (deadline : Option ℕ) :
    Result (ValidatedSnapshotClosure × List VerifiedSubtreeFacts) := do
  let descriptorBytes ← canonicalDescriptor c d
  let v ← newBounded c now pages maxNodes maxLogicalBytes deadline
  let v := { v with
    maxLogicalEntries := maxNodes, maxLogicalBytes := maxLogicalBytes, deadline := deadline }
  let v ← walkDirectory c now d.scope walkFuel ∅ v [] d.metadataRoot
  require (v.reached.card = pages.rows.length)
    (integrity "metadata closure contains unreachable pages")
  let directories := v.directories.insertionSort fun a b => a.relPath ≤ b.relPath
  let files := sortFiles v.files
  let facts ← closureFacts v includeFacts pages.rows.length directories files
  pure (⟨d,descriptorBytes,pages,directories,files⟩,facts)

def fromPages (d : Descriptor) (pages : PageMap) : Result ValidatedSnapshotClosure := do
  let (closure,_) ← validatePagesBounded c now d pages false usizeMax usizeMax none
  pure closure

def withSubtreeFacts (d : Descriptor) (pages : PageMap) :
    Result (ValidatedSnapshotClosure × List VerifiedSubtreeFacts) :=
  validatePagesBounded c now d pages true usizeMax usizeMax none

def fromCanonicalPagesBounded (descriptorBytes : Bytes) (pages : PageMap)
    (maxNodes maxLogicalBytes : ℕ) (deadline : Option ℕ) : Result ValidatedSnapshotClosure := do
  let serving ← (c.decodeDescriptor descriptorBytes).mapError fun e =>
    integrity ("invalid serving descriptor: " ++ e)
  let snapshotId ← (c.snapshotId serving).mapError integrity
  let d : Descriptor := {
    schemaVersion := c.schemaVersion
    metadataCodec := c.metadataCodec
    instanceId := c.uuidText serving.instanceUuid
    namespaceViewId := digest serving.namespaceViewId
    scope := serving.scope
    materializationPolicy := c.materializationPolicyGitRawV1
    fsSemantics := c.fsSemanticsLinuxCodeV1
    accessProjection := c.accessProjectionExactFull
    metadataRoot := digest serving.metadataRoot
    snapshotId := digest snapshotId }
  let (closure,_) ← validatePagesBounded c now d pages false maxNodes maxLogicalBytes deadline
  require (closure.descriptorBytes = descriptorBytes)
    (integrity "serving descriptor bytes are not canonical")
  pure closure

end Constructors

end Scorpio.ClosureConstructor
