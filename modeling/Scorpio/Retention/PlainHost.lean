import Scorpio.Base.SelfDelimiting
import Scorpio.Retention.Layout
import Scorpio.Snapshot.RadixTree

/-!
# A plain host

A host on which everything goes well: no call fails, no lock is taken, the clock
stands still, and identifiers count up. Its records are written with self-delimiting
codes, which are a lawful serialiser; a completion record begins with its revision.
On it a small scope is laid out, with one owner that retains the small closure.
-/

set_option autoImplicit false

namespace Scorpio.Retention.Plain

open ByteText Fallible PageCodec LogicalTree SelfDelimiting Incremental

def format {α : Type} (c : Code α) : Format α where
  encode := c.put
  decode bytes := okOr (c.read bytes) "malformed record"
  round a := by rw [c.read_put]; rfl

/-! ## Codes of the records -/

def limits : Code CacheLimits :=
  (nat.pair (nat.pair (nat.pair (nat.pair (nat.pair (nat.pair (nat.pair (nat.pair (nat.pair
    (nat.pair nat)))))))))).map
    (fun ⟨a,b,c,d,e,f,g,h,i,j,k⟩ => ⟨a,b,c,d,e,f,g,h,i,j,k⟩)
    (fun l => (l.maxBytes,l.proofHeadroomBytes,l.maxEntries,l.maxOwners,l.maxInventoryBytes,
      l.maxMetadataBytes,l.maxRootNodes,l.maxRecordBytes,l.maxScanMillis,l.maxDeleteEntries,
      l.maxDeleteBytes)) fun _ => rfl

def policy : Code CapacityPolicy :=
  (nat.pair limits).map (fun r => ⟨r.1,r.2⟩) (fun p => (p.revision,p.limits)) fun _ => rfl

def charges : Code Charges :=
  (nat.pair (nat.pair nat)).map (fun r => ⟨r.1,r.2.1,r.2.2⟩)
    (fun c => (c.revision,c.bytes,c.entries)) fun _ => rfl

def writerIntent : Code WriterIntent :=
  (nat.pair (text.pair (text.pair (text.pair (text.pair nat))))).map
    (fun ⟨a,b,c,d,e,f⟩ => ⟨a,b,c,d,e,f⟩)
    (fun i => (i.revision,i.operationId,i.relativeDirectory,i.finalName,i.temporaryName,
      i.maximumBytes)) fun _ => rfl

def cacheBinding : Code CacheBinding :=
  (nat.pair (text.pair (text.pair text.option))).map (fun ⟨a,b,c,d⟩ => ⟨a,b,c,d⟩)
    (fun b => (b.revision,b.domain,b.scope,b.snapshotId)) fun _ => rfl

def workspaceBinding : Code WorkspaceBinding :=
  (nat.pair (text.pair (text.pair (text.pair text)))).map (fun ⟨a,b,c,d,e⟩ => ⟨a,b,c,d,e⟩)
    (fun b => (b.revision,b.workspaceId,b.snapshotId,b.scope,b.authDomain)) fun _ => rfl

def hydrationIntent : Code HydrationIntent :=
  (nat.pair (text.pair (workspaceBinding.pair nat))).map (fun ⟨a,b,c,d⟩ => ⟨a,b,c,d⟩)
    (fun i => (i.revision,i.operationId,i.binding,i.maximumBytes)) fun _ => rfl

def registrationState : Code RegistrationState :=
  bool.map (fun b => if b then .released else .active) (fun s => decide (s = .released))
    fun s => by cases s <;> rfl

def registration : Code Registration :=
  (workspaceBinding.pair registrationState).map (fun r => ⟨r.1,r.2⟩)
    (fun r => (r.binding,r.state)) fun _ => rfl

def releasePhase : Code ReleasePhase :=
  bool.map (fun b => if b then .revoked else .revoking) (fun s => decide (s = .revoked))
    fun s => by cases s <;> rfl

def releaseRecord : Code ReleaseRecord :=
  (workspaceBinding.pair (text.pair releasePhase)).map (fun ⟨a,b,c⟩ => ⟨a,b,c⟩)
    (fun r => (r.binding,r.operationId,r.phase)) fun _ => rfl

def pageDependency : Code PageDependency :=
  (text.pair nat).map (fun r => ⟨r.1,r.2⟩) (fun p => (p.pageId,p.size)) fun _ => rfl

def blobDependency : Code BlobDependency :=
  (text.pair nat).map (fun r => ⟨r.1,r.2⟩) (fun p => (p.digest,p.size)) fun _ => rfl

def workspaceUse : Code WorkspaceUse :=
  (nat.pair (workspaceBinding.pair (bool.pair (text.option.pair pageDependency.list)))).map
    (fun ⟨a,b,c,d,e⟩ => ⟨a,b,c,d,e⟩)
    (fun u => (u.revision,u.binding,u.retired,u.descriptorDigest,u.pages)) fun _ => rfl

def view : Code ViewMeta :=
  (text.pair (text.pair (text.pair text))).map (fun ⟨a,b,c,d⟩ => ⟨a,b,c,d⟩)
    (fun v => (v.snapshotId,v.namespaceViewId,v.scope,v.leaseId)) fun _ => rfl

def snapshotFile : Code SnapshotFile :=
  (text.pair (text.pair (nat.pair text))).map (fun ⟨a,b,c,d⟩ => ⟨a,b,c,d⟩)
    (fun f => (f.relPath,f.fsKind,f.size,f.contentDigest)) fun _ => rfl

def fileRecord : Code FileRecord :=
  (text.pair (text.pair nat)).map (fun ⟨a,b,c⟩ => ⟨a,b,c⟩)
    (fun f => (f.relPath,f.digest,f.size)) fun _ => rfl

def grant : Code OfflineGrant :=
  (text.pair (text.pair (text.pair (text.pair text)))).map (fun ⟨a,b,c,d,e⟩ => ⟨a,b,c,d,e⟩)
    (fun g => (g.grantId,g.snapshotId,g.actorDomainId,g.expiresAt,g.policy)) fun _ => rfl

def completionKind : Code CompletionKind :=
  bool.map (fun b => if b then .fullSnapshot else .fileClosure) (fun k => decide (k = .fullSnapshot))
    fun k => by cases k <;> rfl

def marker : Code CompleteMarker :=
  (nat.pair (completionKind.pair (text.pair (text.pair (text.pair (text.pair (text.pair
    (text.pair (nat.pair (nat.pair nat)))))))))).map
    (fun ⟨a,b,c,d,e,f,g,h,i,j,k⟩ => ⟨a,b,c,d,e,f,g,h,i,j,k⟩)
    (fun m => (m.verificationRevision,m.completionKind,m.snapshotId,m.namespaceViewId,m.viewDigest,
      m.manifestDigest,m.pinDigest,m.offlineGrantDigest,m.files,m.bytes,m.hydratedAtUnix))
    fun _ => rfl

def pin : Code PinRecord :=
  (nat.pair (text.pair (text.pair (text.pair (text.pair (text.pair (text.pair (text.pair
    (blobDependency.list.pair (text.pair nat)))))))))).map
    (fun ⟨a,b,c,d,e,f,g,h,i,j,k⟩ => ⟨a,b,c,d,e,f,g,h,i,j,k⟩)
    (fun p => (p.verificationRevision,p.pinId,p.snapshotId,p.namespaceViewId,p.scope,p.leaseId,
      p.viewDigest,p.manifestDigest,p.blobs,p.offlineGrantDigest,p.pinnedAtUnix)) fun _ => rfl

def snapshotDirectory : Code SnapshotDirectory :=
  (text.pair text).map (fun r => ⟨r.1,r.2⟩) (fun d => (d.relPath,d.directoryRoot)) fun _ => rfl

def index : Code MetadataIndex :=
  (nat.pair (pageDependency.list.pair snapshotDirectory.list)).map (fun ⟨a,b,c⟩ => ⟨a,b,c⟩)
    (fun i => (i.verificationRevision,i.pages,i.directories)) fun _ => rfl

def snapshotPin : Code SnapshotPinRecord :=
  (nat.pair (text.pair (text.pair (text.pair (text.pair (text.pair (text.pair (text.pair (text.pair
    (text.pair (pageDependency.list.pair (blobDependency.list.pair (text.pair nat))))))))))))).map
    (fun ⟨a,b,c,d,e,f,g,h,i,j,k,l,m,n⟩ => ⟨a,b,c,d,e,f,g,h,i,j,k,l,m,n⟩)
    (fun p => (p.verificationRevision,p.pinId,p.snapshotId,p.namespaceViewId,p.scope,p.leaseId,
      p.viewDigest,p.manifestDigest,p.descriptorDigest,p.metadataIndexDigest,p.pages,p.blobs,
      p.offlineGrantDigest,p.pinnedAtUnix)) fun _ => rfl

def snapshotMarker : Code SnapshotCompleteMarker :=
  (nat.pair (completionKind.pair (text.pair (text.pair (text.pair (text.pair (text.pair (text.pair
    (text.pair (text.pair (nat.pair (nat.pair (nat.pair (nat.pair nat)))))))))))))).map
    (fun ⟨a,b,c,d,e,f,g,h,i,j,k,l,m,n,o⟩ => ⟨a,b,c,d,e,f,g,h,i,j,k,l,m,n,o⟩)
    (fun p => (p.verificationRevision,p.completionKind,p.snapshotId,p.namespaceViewId,p.viewDigest,
      p.manifestDigest,p.descriptorDigest,p.metadataIndexDigest,p.pinDigest,p.offlineGrantDigest,
      p.files,p.directories,p.pages,p.bytes,p.hydratedAtUnix)) fun _ => rfl

def closureRecord : Code ClosureRecord :=
  (text.pair (nat.pair (nat.pair (text.pair (text.list.pair (nat.pair (snapshotFile.list.pair
    text))))))).map (fun ⟨a,b,c,d,e,f,g,h⟩ => ⟨a,b,c,d,e,f,g,h⟩)
    (fun r => (r.authDomain,r.metadataCodec,r.policyRevision,r.rootPageId,r.pageIds,r.totalEntries,
      r.files,r.pinRef)) fun _ => rfl

/-- The revision at the front of a completion record. -/
def header (bytes : Bytes) : Except Text ℕ := okOr ((nat.take bytes).map Prod.fst) "malformed record"

theorem header_front {α : Type} (c : Code α) (n : ℕ) (a : α) :
    header ((nat.pair c).put (n,a)) = .ok n := by
  show okOr ((nat.take (nat.put n ++ c.put a)).map Prod.fst) _ = _
  rw [nat.law]
  rfl

def formats : Formats where
  policy := format policy
  charges := format charges
  writerIntent := format writerIntent
  hydrationIntent := format hydrationIntent
  cacheBinding := format cacheBinding
  workspaceBinding := format workspaceBinding
  registration := format registration
  releaseRecord := format releaseRecord
  workspaceUse := format workspaceUse
  view := format view
  manifest := format snapshotFile.list
  fileRecord := format fileRecord
  grant := format grant
  marker := format marker
  pin := format pin
  index := format index
  snapshotPin := format snapshotPin
  snapshotMarker := format snapshotMarker
  closures := format (text.pair closureRecord).list
  header := header
  header_marker _ := header_front _ _ _
  header_pin _ := header_front _ _ _
  header_snapshotMarker _ := header_front _ _ _
  header_snapshotPin _ := header_front _ _ _
  manifestSize files := (snapshotFile.list.put files).length

/-! ## The host -/

/-- Identifiers count up in their last twelve digits. -/
def uuidOf (n : ℕ) : Text :=
  txt "00000000-0000-4000-8000-" ++ hexEncode ((List.range 6).reverse.map fun i =>
    UInt8.ofNat (n/256^i))

def host (codec : Codec) (hash : Bytes → Digest) : Host where
  fault _ := none
  fault_kind _ _ hf := nomatch hf
  torn _ := 0
  busy _ := false
  uuid := uuidOf
  millis _ := 0
  seconds _ := 0
  processId := "1"
  hash := hash
  codec := codec
  formats := formats
  instantFits _ := true
  timestamp _ := true
  lossy bytes := bytes
  blank t := t.all (· = 32)

end Scorpio.Retention.Plain

/-! ## A small scope -/

namespace Scorpio.Retention.Sample

open ByteText PageCodec

def sum (bytes : Bytes) : Digest := RadixTree.Sample.digestOf bytes

def host : Host := Plain.host RadixTree.Sample.codec sum

def domain : Text := hexName (sum [1])

def scope : Path := [scopeId host (txt "/"),domain]

def snapshot : Text := digest (sum [6])

def workspace : Text := Plain.uuidOf 1

def view : Path := hexName (sum [6]) :: scope

def root : Path := ownerRoot scope (hexName (sum [6])) workspace

def binding : WorkspaceBinding := ⟨1,workspace,snapshot,txt "/",domain⟩

def file {α : Type} (f : Format α) (a : α) : Node := .regular (f.encode a)

def use (retired : Bool) : WorkspaceUse where
  revision := 1
  binding := binding
  retired := retired
  descriptorDigest := some (digestOf host [9])
  pages := [[1],[2],[3],[4]].map fun page => ⟨digest (sum page),page.length⟩

/-- The files of a managed scope without content. -/
def bare (limits : CacheLimits) : List (Path × Node) :=
  [([],.directory),([domain],.directory),(scope,.directory),
    (policyName :: scope,file Plain.formats.policy ⟨1,limits⟩),
    (ledgerName :: scope,file Plain.formats.charges ⟨1,0,0⟩),
    (authorityFile :: scope,file Plain.formats.cacheBinding ⟨1,domain,txt "/",none⟩),
    (blobDir :: scope,.directory),
    (authorityFile :: blobDir :: scope,file Plain.formats.cacheBinding ⟨1,domain,txt "/",none⟩)]

/-- The directory of the owner with its records and its registration. -/
def owned (state : RegistrationState) (retired : Bool) : List (Path × Node) :=
  [(registryDir :: scope,.directory),
    (registryFile scope workspace,file Plain.formats.registration ⟨binding,state⟩),
    (view,.directory),(ownersName :: view,.directory),(root,.directory),
    (authorityFile :: root,file Plain.formats.cacheBinding ⟨1,domain,txt "/",some snapshot⟩),
    (ownerFile :: root,file Plain.formats.workspaceBinding binding),
    (transactionLock :: root,.regular []),
    (useRecordName :: root,file Plain.formats.workspaceUse (use retired))]

/-- The retained root of the small closure. -/
def retained : List (Path × Node) :=
  [(retentionDir :: root,.directory),
    (retainedDescriptor :: retentionDir :: root,.regular [9]),
    (pagesName :: retentionDir :: root,.directory)] ++
  [[1],[2],[3],[4]].map fun page =>
    (hexName (sum page) :: pagesName :: retentionDir :: root,.regular page)

def blob (bytes content : Bytes) : Path × Node := (hexName (sum bytes) :: blobDir :: scope,.regular content)

end Scorpio.Retention.Sample
