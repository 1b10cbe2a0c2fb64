import Scorpio.Snapshot.Incremental

/-!
# The records of a scope cache

The fixed names and the serialised records of `cache_retention`, `auth`,
`workspace_pins` and `durable`. The serialiser is a parameter: for every kind of
record a pair of functions, of which the first is undone by the second.
-/

set_option autoImplicit false

namespace Scorpio.Retention

open ByteText Fallible PageCodec LogicalTree Incremental

/-- A path lists its names from the node up to the root of the file system. -/
abbrev Path := List Text

/-! ## Fixed names and sizes -/

def policyName : Text := "cache-capacity.json"
def ledgerName : Text := "cache-charges.json"
def fenceName : Text := "cache-lifecycle.lock"
def admissionLock : Text := "cache-admission.lock"
def ownerAdmissionLock : Text := "cache-owner-admission.lock"
def intentsName : Text := "cache-writers"
def useRecordName : Text := "CACHE_USE.json"
def retentionDir : Text := "retention"
def entryCharge : ℕ := 4096
def controlBytes : ℕ := 16*1024

def authorityFile : Text := "authority.json"
def authorityLock : Text := "authority.lock"
def authorityTmp : Text := "authority.json.tmp"

def ownerFile : Text := "workspace.json"
def registryDir : Text := "workspace-pins"
def revokeFile : Text := "LOCAL_PIN_REVOKE"

def viewFile : Text := "view.json"
def manifestFile : Text := "manifest.json"
def journalFile : Text := "journal.log"
def completeMarker : Text := "DURABLE_COMPLETE"
def pinFile : Text := "pin.json"
def offlineGrantFile : Text := "offline_grant.json"
def blobDir : Text := "blobs"
def transactionLock : Text := ".hydrate.lock"
def repairFile : Text := "NEEDS_REPAIR"
def descriptorFile : Text := "descriptor.bin"
def metadataIndexFile : Text := "metadata.json"
def metadataDir : Text := "metadata"
def verificationRevision : ℕ := 2
def snapshotVerificationRevision : ℕ := 3

def ownersName : Text := "owners"
def pagesName : Text := "pages"
def retainedDescriptor : Text := "descriptor.msd2"
def closuresFile : Text := "closures.json"
def closuresLock : Text := "closures.lock"

/-! ## Records -/

structure CacheLimits where
  maxBytes : ℕ
  proofHeadroomBytes : ℕ
  maxEntries : ℕ
  maxOwners : ℕ
  maxInventoryBytes : ℕ
  maxMetadataBytes : ℕ
  maxRootNodes : ℕ
  maxRecordBytes : ℕ
  maxScanMillis : ℕ
  maxDeleteEntries : ℕ
  maxDeleteBytes : ℕ
  deriving DecidableEq, Repr

def defaultLimits : CacheLimits where
  maxBytes := 64*1024*1024*1024
  proofHeadroomBytes := 256*1024*1024
  maxEntries := 2000000
  maxOwners := 4096
  maxInventoryBytes := 256*1024*1024
  maxMetadataBytes := 128*1024*1024
  maxRootNodes := 1000000
  maxRecordBytes := 16*1024*1024
  maxScanMillis := 2000
  maxDeleteEntries := 128
  maxDeleteBytes := 64*1024*1024*1024

structure CapacityPolicy where
  revision : ℕ
  limits : CacheLimits
  deriving DecidableEq, Repr

structure Charges where
  revision : ℕ
  bytes : ℕ
  entries : ℕ
  deriving DecidableEq, Repr

structure WriterIntent where
  revision : ℕ
  operationId : Text
  relativeDirectory : Text
  finalName : Text
  temporaryName : Text
  maximumBytes : ℕ
  deriving DecidableEq, Repr

structure CacheBinding where
  revision : ℕ
  domain : Text
  scope : Text
  snapshotId : Option Text
  deriving DecidableEq, Repr

structure WorkspaceBinding where
  revision : ℕ
  workspaceId : Text
  snapshotId : Text
  scope : Text
  authDomain : Text
  deriving DecidableEq, Repr

structure HydrationIntent where
  revision : ℕ
  operationId : Text
  binding : WorkspaceBinding
  maximumBytes : ℕ
  deriving DecidableEq, Repr

inductive RegistrationState where
  | active
  | released
  deriving DecidableEq, Repr

structure Registration where
  binding : WorkspaceBinding
  state : RegistrationState
  deriving DecidableEq, Repr

inductive ReleasePhase where
  | revoking
  | revoked
  deriving DecidableEq, Repr

structure ReleaseRecord where
  binding : WorkspaceBinding
  operationId : Text
  phase : ReleasePhase
  deriving DecidableEq, Repr

structure PageDependency where
  pageId : Text
  size : ℕ
  deriving DecidableEq, Repr

structure BlobDependency where
  digest : Text
  size : ℕ
  deriving DecidableEq, Repr

structure WorkspaceUse where
  revision : ℕ
  binding : WorkspaceBinding
  retired : Bool
  descriptorDigest : Option Text
  pages : List PageDependency
  deriving DecidableEq, Repr

structure ViewMeta where
  snapshotId : Text
  namespaceViewId : Text
  scope : Text
  leaseId : Text
  deriving DecidableEq, Repr

structure FileRecord where
  relPath : Text
  digest : Text
  size : ℕ
  deriving DecidableEq, Repr

structure OfflineGrant where
  grantId : Text
  snapshotId : Text
  actorDomainId : Text
  expiresAt : Text
  policy : Text
  deriving DecidableEq, Repr

inductive CompletionKind where
  | fileClosure
  | fullSnapshot
  deriving DecidableEq, Repr

structure CompleteMarker where
  verificationRevision : ℕ
  completionKind : CompletionKind
  snapshotId : Text
  namespaceViewId : Text
  viewDigest : Text
  manifestDigest : Text
  pinDigest : Text
  offlineGrantDigest : Text
  files : ℕ
  bytes : ℕ
  hydratedAtUnix : ℕ
  deriving DecidableEq, Repr

structure PinRecord where
  verificationRevision : ℕ
  pinId : Text
  snapshotId : Text
  namespaceViewId : Text
  scope : Text
  leaseId : Text
  viewDigest : Text
  manifestDigest : Text
  blobs : List BlobDependency
  offlineGrantDigest : Text
  pinnedAtUnix : ℕ
  deriving DecidableEq, Repr

structure MetadataIndex where
  verificationRevision : ℕ
  pages : List PageDependency
  directories : List SnapshotDirectory
  deriving DecidableEq, Repr

structure SnapshotPinRecord where
  verificationRevision : ℕ
  pinId : Text
  snapshotId : Text
  namespaceViewId : Text
  scope : Text
  leaseId : Text
  viewDigest : Text
  manifestDigest : Text
  descriptorDigest : Text
  metadataIndexDigest : Text
  pages : List PageDependency
  blobs : List BlobDependency
  offlineGrantDigest : Text
  pinnedAtUnix : ℕ
  deriving DecidableEq, Repr

structure SnapshotCompleteMarker where
  verificationRevision : ℕ
  completionKind : CompletionKind
  snapshotId : Text
  namespaceViewId : Text
  viewDigest : Text
  manifestDigest : Text
  descriptorDigest : Text
  metadataIndexDigest : Text
  pinDigest : Text
  offlineGrantDigest : Text
  files : ℕ
  directories : ℕ
  pages : ℕ
  bytes : ℕ
  hydratedAtUnix : ℕ
  deriving DecidableEq, Repr

/-! ## The serialiser -/

/-- `serde_json` at one type: what is written is read back. The error is the text it reports. -/
structure Format (α : Type) where
  encode : α → Bytes
  decode : Bytes → Except Text α
  round : ∀ a, decode (encode a) = .ok a

/-- A completion record is also read for its revision alone. -/
structure Formats where
  policy : Format CapacityPolicy
  charges : Format Charges
  writerIntent : Format WriterIntent
  hydrationIntent : Format HydrationIntent
  cacheBinding : Format CacheBinding
  workspaceBinding : Format WorkspaceBinding
  registration : Format Registration
  releaseRecord : Format ReleaseRecord
  workspaceUse : Format WorkspaceUse
  view : Format ViewMeta
  manifest : Format (List SnapshotFile)
  fileRecord : Format FileRecord
  grant : Format OfflineGrant
  marker : Format CompleteMarker
  pin : Format PinRecord
  index : Format MetadataIndex
  snapshotPin : Format SnapshotPinRecord
  snapshotMarker : Format SnapshotCompleteMarker
  closures : Format (List (Text × ClosureRecord))
  header : Bytes → Except Text ℕ
  header_marker : ∀ m, header (marker.encode m) = .ok m.verificationRevision
  header_pin : ∀ p, header (pin.encode p) = .ok p.verificationRevision
  header_snapshotMarker : ∀ m, header (snapshotMarker.encode m) = .ok m.verificationRevision
  header_snapshotPin : ∀ p, header (snapshotPin.encode p) = .ok p.verificationRevision
  /-- The compact text of a manifest, whose length `serialized_size` counts. -/
  manifestSize : List SnapshotFile → ℕ

/-! ## Identifiers -/

def dash : UInt8 := 45

/-- `Uuid::parse_str` gives back its own text, and the identifier is not nil. -/
def canonicalUuid (id : Text) : Bool :=
  id.length = 36 && (id.zipIdx.all fun c =>
    if c.2 = 8 ∨ c.2 = 13 ∨ c.2 = 18 ∨ c.2 = 23 then c.1 = dash else isLowerHex c.1) &&
  id.any fun c => c ≠ dash ∧ c ≠ 48

def canonicalHex (name : Text) : Bool := name.length = 64 && name.all isLowerHex

def hexName (id : Digest) : Text := hexEncode id.val

def tempName (finalName id : Text) : Text :=
  txt "." ++ finalName ++ txt ".tmp." ++ id

/-- `validate_child`. -/
def validateChild (name : Text) : Result Unit :=
  require (name ≠ [] ∧ name ≠ txt "." ∧ name ≠ txt ".." ∧ ¬ name.any fun c =>
      c = slash ∨ c = 92 ∨ c = 0)
    (integrity "invalid managed cache child name")

def busyError (message : Text) : SnapshotError := ⟨.snapshotNotReady,message⟩

end Scorpio.Retention
