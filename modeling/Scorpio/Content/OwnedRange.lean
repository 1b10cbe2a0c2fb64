import Scorpio.Base.RecencyTable
import Scorpio.Base.Traces
import Scorpio.Transport.OwnedTransport

/-!
# Owned ranges of a large file

Readers of one open file share a table of verified chunks and a table of leaves of
its authenticated chunk map. Each event below is a section of the lock of one table,
the answer to a request, or the work of one reader up to its next await point. The
server's chunks are arbitrary; every other error may come up wherever a reader
validates, reserves or awaits.
-/

set_option autoImplicit false

namespace Scorpio.OwnedRange

open ByteText Fallible PageCodec OwnedTransport Traces Slices RecencyTable

def cachedChunks : ℕ := 16
def cachedLeaves : ℕ := 16
def objectCap : ℕ := 256*1024
def maxFileSize : ℕ := 8*1024*1024*1024*1024
def maxBufferedFileBytes : ℕ := 64*1024*1024

/-- An open file with its verified map; the page sizes are those of the codec. -/
structure ChunkedFile where
  size : ℕ
  large : objectCap < size
  bounded : size ≤ maxFileSize
  chunkSize : ℕ
  chunkSizePos : 0 < chunkSize
  chunksPerPage : ℕ
  mapId : Digest
  fileContentId : Digest
  leaves : ℕ → List Digest
  sha256 : Bytes → Digest

structure VerifiedChunk where
  bytes : Bytes
  map : Digest
  index : ℕ
  digest : Digest
  deriving DecidableEq

abbrev LeafEntry := ℕ × List Digest

namespace ChunkedFile

variable (f : ChunkedFile)

def chunkCount : ℕ := (f.size+f.chunkSize-1)/f.chunkSize

def chunkLen (index : ℕ) : Result ℕ :=
  if index < f.chunkCount then .ok (min f.chunkSize (f.size-index*f.chunkSize))
  else .error ⟨.internal,"chunk codec: chunk index out of range"⟩

/-- `VerifiedChunk::publish`. -/
def publishChunk (bytes : Bytes) (index : ℕ) (digest : Digest) (expected : ℕ) :
    Result VerifiedChunk := do
  require (bytes.length = expected && f.sha256 bytes = digest)
    (invalid "chunk differs from its authenticated digest and map length")
  pure ⟨bytes,f.mapId,index,digest⟩

/-- The sink of one request; its state is the chunk that was seen. -/
def chunkSink (index expected : ℕ) (seen : Option Bytes) : Frame → Result (Option Bytes)
  | .chunkFrame mapId fileContentId chunkIndex chunkBytes => do
    require (seen = none && mapId = f.mapId && fileContentId = f.fileContentId &&
        chunkIndex = index && chunkBytes.length = expected)
      (invalid "unrequested duplicate or short range chunk")
    pure (some chunkBytes)
  | _ => .error (invalid "range data is not a chunk")

/-- The data frames of an answer up to its receipt, and the chunk that they verify. -/
def collectChunk (index expected : ℕ) (want : Digest) (frames : List Frame) :
    Result VerifiedChunk := do
  let seen ← frames.foldlM (f.chunkSink index expected) none
  let bytes ← okOr seen (invalid "range response omitted requested chunk")
  let owner ← f.publishChunk bytes index want expected
  require (owner.map = f.mapId && owner.digest = want)
    (invalid "verified chunk cache identity changed")
  pure owner

end ChunkedFile

/-! ## Readers -/

/-- `returned` is the length of the answer and `stop` its end. -/
structure Range where
  offset : ℕ
  length : ℕ
  returned : ℕ
  stop : ℕ
  deriving DecidableEq

inductive Reader where
  | idle
  | reading (r : Range) (index : ℕ) (output : Bytes)
  | leafing (r : Range) (index : ℕ) (output : Bytes)
  | mapping (r : Range) (index : ℕ) (output : Bytes)
  | mapped (r : Range) (index : ℕ) (output : Bytes) (digests : List Digest)
  | wanting (r : Range) (index : ℕ) (output : Bytes) (digests : List Digest)
  | asking (r : Range) (index : ℕ) (output : Bytes) (want : Digest) (expected : ℕ)
  | published (r : Range) (index : ℕ) (output : Bytes) (chunk : VerifiedChunk)
  | copying (r : Range) (index : ℕ) (output : Bytes) (chunk : VerifiedChunk)
  | closing (r : Range) (output : Bytes)
  | done (r : Range) (answer : Bytes)
  | failed (r : Range) (e : SnapshotError)
  | panicked
  deriving DecidableEq

/-- The range of a reader that has not come to an end. -/
def Reader.range : Reader → Option Range
  | reading r .. | leafing r .. | mapping r .. | mapped r .. | wanting r .. | asking r ..
  | published r .. | copying r .. | closing r _ => some r
  | _ => none

/-- The call that a reader answers. -/
def Reader.call : Reader → Option (ℕ × ℕ)
  | done r _ | failed r _ => some (r.offset,r.length)
  | p => p.range.map fun r => (r.offset,r.length)

def checkedSub (a b : ℕ) : Option ℕ := if b ≤ a then some (a-b) else none

/-- `read_range_owned` up to its first chunk. -/
def openRange (f : ChunkedFile) (offset length : ℕ) : Reader :=
  let returned := if f.size ≤ offset then 0 else min length (f.size-offset)
  if maxBufferedFileBytes < returned then
    .failed ⟨offset,length,returned,offset⟩ (limit "owned range output exceeds 64 MiB")
  else if returned = 0 then .closing ⟨offset,length,0,offset⟩ []
  else
    (checkedAdd offset returned).elim .panicked fun stop =>
      .reading ⟨offset,length,returned,stop⟩ (offset/f.chunkSize) []

/-- `get(from..to)`. -/
def getSlice (bytes : Bytes) (start stop : ℕ) : Option Bytes :=
  if start ≤ stop ∧ stop ≤ bytes.length then some (slice bytes start stop) else none

/-- One round of the loop, once it has its chunk. -/
def copyChunk (f : ChunkedFile) (r : Range) (index : ℕ) (output : Bytes) (chunk : VerifiedChunk) :
    Reader :=
  (checkedMul index f.chunkSize).elim .panicked fun start =>
    (checkedSub r.stop start).elim .panicked fun rest =>
      (getSlice chunk.bytes (r.offset-start) (min rest chunk.bytes.length)).elim
        (.failed r (invalid "verified chunk does not cover requested range")) fun bytes =>
          if r.returned-output.length < bytes.length then
            .failed r (invalid "body exceeds its fixed expected size")
          else if index < (r.stop-1)/f.chunkSize then .reading r (index+1) (output ++ bytes)
          else .closing r (output ++ bytes)

structure State where
  chunks : Slots VerifiedChunk
  leaves : Slots LeafEntry
  readers : ℕ → Reader

def start : State := ⟨Slots.new cachedChunks,Slots.new cachedLeaves,fun _ => .idle⟩

inductive Event where
  | call (t offset length : ℕ)
  | fail (t : ℕ) (e : SnapshotError)
  | clear
  | getChunk (t index : ℕ)
  | getLeaf (t page : ℕ)
  | page (t : ℕ)
  | putLeaf (t : ℕ) (leaf : LeafEntry)
  | want (t : ℕ)
  | answer (t : ℕ) (frames : List Frame)
  | putChunk (t : ℕ) (chunk : VerifiedChunk)
  | copy (t : ℕ)
  | publish (t : ℕ)
  | finish (t : ℕ)

def State.goto (s : State) (t : ℕ) (p : Reader) : State :=
  {s with readers := Function.update s.readers t p}

/-- A panic of the table code ends the reader that runs it. -/
def State.panics (s : State) (t : ℕ) : State := s.goto t .panicked

def step (f : ChunkedFile) (s : State) : Event → Option State
  | .call t offset length =>
    guarded (s.readers t = .idle ∧ offset ≤ usizeMax ∧ length ≤ usizeMax)
      (s.goto t (openRange f offset length))
  | .fail t e => (s.readers t).range.map fun r => s.goto t (.failed r e)
  -- A reservation that is refused is tried again after the chunks have been dropped.
  | .clear => some {s with chunks := s.chunks.clear}
  | .getChunk t index =>
    match s.readers t with
    | .reading r i output => guarded (i = index)
        ((s.chunks.get VerifiedChunk.index index).elim (s.panics t) fun p =>
          {s.goto t (p.1.elim (.leafing r index output) (.copying r index output)) with
            chunks := p.2})
    | _ => none
  | .getLeaf t page =>
    match s.readers t with
    | .leafing r index output => guarded (index/f.chunksPerPage = page)
        ((s.leaves.get Prod.fst page).elim (s.panics t) fun p =>
          {s.goto t (p.1.elim (.mapping r index output) fun leaf =>
            .wanting r index output leaf.2) with leaves := p.2})
    | _ => none
  -- The page is verified against the root of the map.
  | .page t =>
    match s.readers t with
    | .mapping r index output =>
      some (s.goto t (.mapped r index output (f.leaves (index/f.chunksPerPage))))
    | _ => none
  | .putLeaf t leaf =>
    match s.readers t with
    | .mapped r index output digests => guarded (leaf = (index/f.chunksPerPage,digests))
        ((s.leaves.insert Prod.fst cachedLeaves leaf).elim (s.panics t) fun leaves =>
          {s.goto t (.wanting r index output digests) with leaves := leaves})
    | _ => none
  | .want t =>
    match s.readers t with
    | .wanting r index output digests => some (s.goto t
        (match (digests[index%f.chunksPerPage]?,f.chunkLen index) with
        | (some want,.ok expected) => .asking r index output want expected
        | (none,_) => .failed r (invalid "authenticated leaf omits requested chunk")
        | (_,.error e) => .failed r e))
    | _ => none
  | .answer t frames =>
    match s.readers t with
    | .asking r index output want expected => some (s.goto t
        (match f.collectChunk index expected want frames with
        | .ok chunk => .published r index output chunk
        | .error e => .failed r e))
    | _ => none
  | .putChunk t chunk =>
    match s.readers t with
    | .published r index output owner => guarded (chunk = owner)
        ((s.chunks.insert VerifiedChunk.index cachedChunks chunk).elim (s.panics t) fun chunks =>
          {s.goto t (.copying r index output chunk) with chunks := chunks})
    | _ => none
  | .copy t =>
    match s.readers t with
    | .copying r index output chunk => some (s.goto t (copyChunk f r index output chunk))
    | _ => none
  | .publish t =>
    match s.readers t with
    | .closing r output => some (s.goto t
        (if output.length = r.returned then .done r output
        else .failed r (invalid "incomplete verified range coverage")))
    | _ => none
  | .finish t => some (s.goto t .idle)

/-! ## What a history asks of the readers and the tables -/

/-- The offset and the length of a reader's last call. -/
def lastCall (t : ℕ) (es : List Event) : Option (ℕ × ℕ) :=
  es.foldl (fun c e =>
    match e with
    | .call u offset length => if u = t then some (offset,length) else c
    | _ => c) none

def chunkOps (es : List Event) : List (Op ℕ VerifiedChunk) :=
  es.filterMap fun e =>
    match e with
    | .clear => some .clear
    | .getChunk _ index => some (.get index)
    | .putChunk _ chunk => some (.put chunk)
    | _ => none

def leafOps (es : List Event) : List (Op ℕ LeafEntry) :=
  es.filterMap fun e =>
    match e with
    | .getLeaf _ page => some (.get page)
    | .putLeaf _ leaf => some (.put leaf)
    | _ => none

end Scorpio.OwnedRange
