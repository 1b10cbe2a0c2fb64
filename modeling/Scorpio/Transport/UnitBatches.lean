import Scorpio.Base.Assoc
import Scorpio.Transport.ResponseFrames

/-!
# Object and chunk batches

`objects` and `chunks` of `snapshot::frames`: a call is split into batches, each
batch is one request, and the units of its response are gathered under their
keys and merged into the result. The answer of the server to the `n`-th request
of a call is `server n`. A hash map is a list with distinct keys, and the set
`seen` beside a list of units is the set of their keys.
-/

set_option autoImplicit false

namespace Scorpio.UnitBatches

open ByteText Fallible PageCodec JsonText OwnedTransport RequestBatches ResponseFrames

def maxChunkBatch : ℕ := 128

def maxObjectBatch : ℕ := 128

def maxObjectBatchBytes : ℕ := 8*1024*1024

/-- `as u32`. -/
def asU32 (n : ℕ) : ℕ := n % 2^32

def frameKinds : SnapshotError :=
  unreachable "endpoint frame kinds and successful END were checked"

/-- The server's answers to the requests of one call. -/
abbrev Server := ℕ → Result Bytes

/-! ## Objects -/

structure ObjectItem where
  path : Text
  digest : Text
  deriving DecidableEq, Repr

def objectItemValue (item : ObjectItem) : Json :=
  .object [("expected_digest",.string item.digest),("path",.string item.path)]

def objectBatchSize : SnapshotError := ⟨.scopeInvalid,"objects batch must hold 1..128 items"⟩

def objectByteBudget : SnapshotError := limit "objects response exceeds the unique raw byte limit"

section Objects

variable (t : FrameCodec) (client : FrameClient)

def requestObject (requested : Finset Digest) (item : ObjectItem) : Result (Finset Digest) := do
  let id ← parseDigest item.digest
  pure (insert id requested)

/-- The objects gathered so far and their bytes. -/
structure Objects where
  out : List (Digest × Bytes)
  logicalBytes : ℕ

def takeObject (requested : Finset Digest) (s : Objects) (object : Digest × Bytes) :
    Result Objects := do
  require (¬(object.1 ∉ requested ∨ object.1 ∈ Assoc.keys s.out))
    (invalid "objects response contains an unrequested or duplicate content_id")
  let logicalBytes := s.logicalBytes+object.2.length
  require (logicalBytes ≤ client.objectByteLimit) objectByteBudget
  pure ⟨s.out ++ [object],logicalBytes⟩

def takeObjectFrame (requested : Finset Digest) (s : Objects) : Frame → Result Objects
  | .objectFrame objects => objects.foldlM (takeObject client requested) s
  | .endFrame _ => .ok s
  | _ => .error frameKinds

def objectsBatch (items : List ObjectItem) (encoding : Option Text) (answer : Result Bytes) :
    Result (List (Digest × Bytes)) := do
  require (¬(items = [] ∨ maxObjectBatch < items.length)) objectBatchSize
  let requested ← items.foldlM requestObject ∅
  let budget ← ResponseBudget.new t requested.card
    (min (requested.card*t.objectMaxLen) client.objectByteLimit) (40+4)
  let raw ← answer
  let frames ← responseFrames t client raw "objects stream" t.kindObject "OBJECT" budget
  let (expectedUnits,expectedBytes) ← checkEnd client frames
    (requestBody encoding objectItemValue items) (asU32 items.length)
  let s ← frames.foldlM (takeObjectFrame client requested) ⟨[],0⟩
  require (¬(s.out.length ≠ requested.card ∨ asU32 s.out.length ≠ expectedUnits ∨
      s.logicalBytes ≠ expectedBytes))
    (invalid "objects response unit set or END counts do not match the request")
  pure s.out

/-- One turn of the loop over the batches: the result so far, and the bytes in it. -/
def mergeObjects (encoding : Option Text) (server : Server) (s : List (Digest × Bytes) × ℕ)
    (batch : List ObjectItem × ℕ) : Result (List (Digest × Bytes) × ℕ) := do
  let objects ← objectsBatch t client batch.1 encoding (server batch.2)
  let bytes := s.2+((objects.filter fun o => o.1 ∉ Assoc.keys s.1).map fun o => o.2.length).sum
  require (bytes ≤ maxObjectBatchBytes) objectByteBudget
  pure (objects.foldl (fun out o => Assoc.insert out o.1 o.2) s.1,bytes)

def objectMaxItems : ℕ :=
  min client.requestItemLimit (max (client.objectByteLimit/t.objectMaxLen) 1)

def objects (items : List ObjectItem) (encoding : Option Text) (server : Server) :
    Result (List (Digest × Bytes)) := do
  client.requireFeature "objects"
  client.validateEncoding encoding
  items.forM fun item => client.validatePath item.path
  require (¬(items = [] ∨ maxObjectBatch < items.length)) objectBatchSize
  let batches ← requestBatches items encoding client.requestByteLimit (objectMaxItems t client)
    objectItemValue
  let s ← batches.zipIdx.foldlM (mergeObjects t client encoding server) ([],0)
  pure s.1

end Objects

/-! ## Chunks -/

structure ChunkRequest where
  path : Text
  expectedDigest : Text
  mapId : Text
  chunkIndex : ℕ
  deriving DecidableEq, Repr

structure ChunkUnit where
  mapId : Digest
  fileContentId : Digest
  chunkIndex : ℕ
  bytes : Bytes
  deriving DecidableEq, Repr

def ChunkUnit.key (u : ChunkUnit) : Digest × ℕ := (u.mapId,u.chunkIndex)

def chunkRequestValue (item : ChunkRequest) : Json :=
  .object [("chunk_index",.string (decimal item.chunkIndex)),
    ("expected_digest",.string item.expectedDigest),("map_id",.string item.mapId),
    ("path",.string item.path)]

def chunkBatchSize : SnapshotError := ⟨.scopeInvalid,"chunks batch must hold 1..128 items"⟩

section Chunks

variable (t : FrameCodec) (client : FrameClient)

/-- The loop that both `chunks` and `chunks_batch` make over their items. -/
def requestChunk (requested : List ((Digest × ℕ) × Digest)) (item : ChunkRequest) :
    Result (List ((Digest × ℕ) × Digest)) := do
  let mapId ← parseDigest item.mapId
  let fileId ← parseDigest item.expectedDigest
  require (¬(requested.lookup (mapId,item.chunkIndex)).any (· ≠ fileId))
    ⟨.scopeInvalid,"a chunk unit cannot name different file content ids"⟩
  pure (Assoc.insert requested (mapId,item.chunkIndex) fileId)

/-- The chunks gathered so far and their bytes. -/
structure Chunks where
  out : List ChunkUnit
  logicalBytes : ℕ

def takeChunkFrame (requested : List ((Digest × ℕ) × Digest)) (s : Chunks) :
    Frame → Result Chunks
  | .chunkFrame mapId fileContentId chunkIndex chunkBytes => do
    require (¬(requested.lookup (mapId,chunkIndex) ≠ some fileContentId ∨
        (mapId,chunkIndex) ∈ s.out.map ChunkUnit.key))
      (invalid "chunks response contains an unrequested or duplicate chunk unit")
    pure ⟨s.out ++ [⟨mapId,fileContentId,chunkIndex,chunkBytes⟩],
      s.logicalBytes+chunkBytes.length⟩
  | .endFrame _ => .ok s
  | _ => .error frameKinds

def chunksBatch (items : List ChunkRequest) (encoding : Option Text) (answer : Result Bytes) :
    Result (List ChunkUnit) := do
  require (¬(items = [] ∨ maxChunkBatch < items.length)) chunkBatchSize
  let requested ← items.foldlM requestChunk []
  let budget ← ResponseBudget.new t requested.length
    (min (requested.length*t.chunkMaxLen) client.chunkByteLimit) 76
  let raw ← answer
  let frames ← responseFrames t client raw "chunks stream" t.kindChunk "CHUNK" budget
  let (expectedUnits,expectedBytes) ← checkEnd client frames
    (requestBody encoding chunkRequestValue items) (asU32 items.length)
  let s ← frames.foldlM (takeChunkFrame requested) ⟨[],0⟩
  require (¬(s.out.length ≠ requested.length ∨ asU32 s.out.length ≠ expectedUnits ∨
      s.logicalBytes ≠ expectedBytes))
    (invalid "chunks response unit set or END counts do not match the request")
  pure s.out

/-- The loop over the units of a batch keeps those whose key is new. -/
def keepNew (out : List ChunkUnit) (u : ChunkUnit) : List ChunkUnit :=
  if u.key ∈ out.map ChunkUnit.key then out else out ++ [u]

def mergeChunks (encoding : Option Text) (server : Server) (out : List ChunkUnit)
    (batch : List ChunkRequest × ℕ) : Result (List ChunkUnit) := do
  let units ← chunksBatch t client batch.1 encoding (server batch.2)
  pure (units.foldl keepNew out)

def chunkMaxItems : ℕ :=
  min client.requestItemLimit (max (client.chunkByteLimit/t.chunkMaxLen) 1)

def chunks (items : List ChunkRequest) (encoding : Option Text) (server : Server) :
    Result (List ChunkUnit) := do
  client.requireFeature "chunks"
  client.validateEncoding encoding
  items.forM fun item => client.validatePath item.path
  require (¬(items = [] ∨ maxChunkBatch < items.length)) chunkBatchSize
  let _ ← items.foldlM requestChunk []
  let batches ← requestBatches items encoding client.requestByteLimit (chunkMaxItems t client)
    chunkRequestValue
  batches.zipIdx.foldlM (mergeChunks t client encoding server) []

end Chunks

end Scorpio.UnitBatches
