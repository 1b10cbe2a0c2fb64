import Scorpio.Base.Dialogue
import Scorpio.Content.IndexCache

/-!
# Range reads of the local content store

`snapshot::cas_index` as a program in dialogue with the operating system, the
hash function and the shared cache of chunk facts. The object file may change at
any moment, so every read of it is answered by any bytes that fit the buffer.
A read that is interrupted is asked again, and is one question here.
-/

set_option autoImplicit false

namespace Scorpio.CasRead

open ByteText PageCodec Dialogues IndexCache

def chunkSize : ℕ := 1024*1024

def maxDigestBytes : ℕ := 8*1024*1024

def indexOverhead : ℕ := 512

def maxBufferedFileBytes : ℕ := 64*1024*1024

inductive IoError where
  | notFound (text : Text)
  | other (text : Text)
  deriving DecidableEq, Repr

def IoError.text : IoError → Text
  | .notFound t => t
  | .other t => t

structure Metadata where
  isFile : Bool
  len : ℕ
  deriving DecidableEq, Repr

/-- The questions a read asks. The first group is answered by the operating system. -/
inductive Op where
  | ioGuard (path : Text)
  | openFile (path : Text)
  | metadata
  | seek (start : ℕ)
  | read (len : ℕ)
  | canonicalize (path : Text)
  | tryReserve (capacity : ℕ)
  | sha256 (b : Bytes)
  | cacheGet (domain : Text) (digest : Digest) (size : ℕ)
  | cacheReserve (bytes : ℕ)
  | cachePublish (fact : Index)
  | cacheDrop (r : Reservation)

def Answer : Op → Type
  | .ioGuard _ => Except SnapshotError Unit
  | .openFile _ => Except IoError Unit
  | .metadata => Except IoError Metadata
  | .seek _ => Except IoError Unit
  | .read len => Except IoError {b : Bytes // b.length ≤ len}
  | .canonicalize _ => Except IoError Text
  | .tryReserve capacity => Option {n : ℕ // capacity ≤ n}
  | .sha256 _ => Digest
  | .cacheGet _ _ _ => Option Index
  | .cacheReserve _ => Option Reservation
  | .cachePublish _ => Unit
  | .cacheDrop _ => Unit

/-- An indexing past the end of a vector panics. -/
inductive Failure where
  | error (e : SnapshotError)
  | panicked
  deriving DecidableEq, Repr

structure Meters where
  bytesRead : ℕ := 0
  wholeSha256Bytes : ℕ := 0
  chunkSha256Bytes : ℕ := 0
  outputAppendBytes : ℕ := 0
  indexHit : Bool := false
  indexBuilt : Bool := false
  strictFallback : Bool := false
  indexFactChargeBytes : ℕ := 0
  deriving DecidableEq, Repr

/-- The two sinks differ in the message of an overflow only. -/
structure RangeSink where
  accounted : Bool
  capacity : ℕ
  bytes : Bytes
  deriving DecidableEq, Repr

structure Work where
  output : RangeSink
  meters : Meters
  deriving DecidableEq, Repr

abbrev Read := Task Answer Failure Work

def ask (op : Op) : Read (Answer op) := call op

def mismatch (message : Text) : Failure := .error ⟨.digestMismatch,message⟩

def ioError (e : IoError) : Failure := .error ⟨.internal,e.text⟩

def allocationError : Failure := .error ⟨.limitExceeded,"local CAS range allocation failed"⟩

def system {α : Type} (x : Except IoError α) : Read α := lift (x.mapError ioError)

def sha256 (b : Bytes) : Read Digest := ask (.sha256 b)

def meter (f : Meters → Meters) : Read Unit := update fun w => (.ok (),{w with meters := f w.meters})

def RangeSink.append (out : RangeSink) (b : Bytes) : Except Failure RangeSink :=
  if out.capacity-out.bytes.length < b.length then
    .error (mismatch (if out.accounted then "body exceeds its fixed expected size"
      else "local CAS range exceeds its fixed output capacity"))
  else .ok {out with bytes := out.bytes ++ b}

def checkMetadata (size : ℕ) : Read Unit := do
  let metadata ← (ask .metadata : Read (Except IoError Metadata)) >>= system
  if metadata.isFile = false ∨ metadata.len ≠ size then
    fail (mismatch "local CAS object size/type differs from the fixed view")
  else pure ()

/-- `open`: false when there is no such object. -/
def openObject (path : Text) (size : ℕ) : Read Bool := do
  let input ← (ask (.openFile path) : Read (Except IoError Unit))
  match input with
  | .error (.notFound _) => pure false
  | .error e => fail (ioError e)
  | .ok _ => do
    checkMetadata size
    pure true

/-- `output`: the allocation of the result, and the end of the range. -/
def output (size offset len : ℕ) : Read ℕ := do
  let want := min (size-offset) len
  if maxBufferedFileBytes < want then
    fail (.error ⟨.limitExceeded,
      "local CAS read exceeds the 64 MiB output budget; request a smaller range"⟩)
  else do
    let capacity ← (ask (.tryReserve want) : Read (Option {n : ℕ // want ≤ n}))
    match capacity with
    | none => fail allocationError
    | some n => do
      update fun w => (.ok (),{w with output := ⟨false,n.val,[]⟩})
      pure (saturatingAdd offset want)

def copyIntersection (buffer : Bytes) (start offset stop : ℕ) : Read Unit := update fun w =>
  let lo := max start offset
  let hi := min (start+buffer.length) stop
  if lo < hi then
    match w.output.append ((buffer.take (hi-start)).drop (lo-start)) with
    | .error e => (.error e,w)
    | .ok out => (.ok (),⟨out,{w.meters with
        outputAppendBytes := w.meters.outputAppendBytes+(hi-lo)}⟩)
  else (.ok (),w)

def readRetry (len : ℕ) : Read Bytes := do
  let b ← (ask (.read len) : Read (Except IoError {b : Bytes // b.length ≤ len})) >>= system
  meter fun m => {m with bytesRead := m.bytesRead+b.val.length}
  pure b.val

/-! ## The whole scan -/

/-- A hash context is the bytes it has been fed. -/
structure Scan where
  read : ℕ
  whole : Bytes
  chunk : Bytes
  chunkBytes : ℕ
  chunks : Option (List Digest)

def Scan.push (s : Scan) (d : Digest) : Scan := {s with chunks := s.chunks.map (· ++ [d])}

/-- The inner loop of `scan_body`: one buffer may end one chunk and start the next. -/
def feed : ℕ → Bytes → Scan → Read Scan
  | 0, _, s => pure s
  | fuel+1, rest, s =>
    if rest = [] then pure s
    else do
      let take := min (chunkSize-s.chunkBytes) rest.length
      meter fun m => {m with chunkSha256Bytes := m.chunkSha256Bytes+take}
      let s := {s with chunk := s.chunk ++ rest.take take, chunkBytes := s.chunkBytes+take}
      if s.chunkBytes = chunkSize then do
        let d ← sha256 s.chunk
        feed fuel (rest.drop take) {s.push d with chunk := [], chunkBytes := 0}
      else feed fuel (rest.drop take) s

def hashBuffer (b : Bytes) (s : Scan) : Read Scan :=
  if s.chunks.isSome then feed b.length b s else pure s

/-- The loop of `scan_body`; `limit` is what the bounded reader still gives. -/
def scanLoop (size offset stop capacity : ℕ) : ℕ → ℕ → Scan → Read Scan
  | 0, _, s => pure s
  | fuel+1, limit, s =>
    if limit = 0 then pure s
    else do
      let buffer ← readRetry (min capacity limit)
      if buffer = [] then pure s
      else if size < s.read+buffer.length then
        fail (mismatch "local CAS object grew past its fixed size")
      else do
        meter fun m => {m with wholeSha256Bytes := m.wholeSha256Bytes+buffer.length}
        let s ← hashBuffer buffer {s with whole := s.whole ++ buffer}
        copyIntersection buffer s.read offset stop
        scanLoop size offset stop capacity fuel (limit-buffer.length)
          {s with read := s.read+buffer.length}

def lastChunk (s : Scan) : Read Scan :=
  if s.chunks.isSome ∧ s.chunkBytes ≠ 0 then do
    let d ← sha256 s.chunk
    pure (s.push d)
  else pure s

def wholeMismatch : Failure :=
  mismatch "local CAS object does not match the fixed whole-file identity"

def scanBody (digest : Text) (size offset stop scratch : ℕ) (chunks : Option (List Digest)) :
    Read (Option (List Digest)) := do
  let capacity := min scratch (64*1024)
  if capacity = 0 then fail allocationError
  else do
    let bound := saturatingAdd size 1
    let s ← scanLoop size offset stop capacity bound bound ⟨0,[],[],0,chunks⟩
    let s ← lastChunk s
    let w ← state
    if s.read ≠ size ∨ w.output.bytes.length ≠ stop-offset then fail wholeMismatch
    else do
      let d ← sha256 s.whole
      if PageCodec.digest d ≠ digest then fail wholeMismatch else pure s.chunks

def scan (digest : Text) (size offset stop scratch : ℕ) (chunks : Option (List Digest)) :
    Read (Option (List Digest)) := do
  let chunks ← scanBody digest size offset stop scratch chunks
  checkMetadata size
  pure chunks

/-- Without a caller's scratch the stack buffer of `scan_legacy` is used. -/
def scanWithScratch (digest : Text) (size offset stop : ℕ) (scratch : Option ℕ)
    (chunks : Option (List Digest)) : Read (Option (List Digest)) :=
  scan digest size offset stop (scratch.getD (64*1024)) chunks

/-! ## Reads of covering chunks -/

def fill (chunkLen : ℕ) : ℕ → Bytes → Read Bytes
  | 0, buffer => pure buffer
  | fuel+1, buffer =>
    if chunkLen ≤ buffer.length then pure buffer
    else do
      let b ← readRetry (chunkLen-buffer.length)
      if b = [] then fail (mismatch "local CAS covering chunk is truncated")
      else fill chunkLen fuel (buffer ++ b)

/-- The subtraction of the chunk's start wraps around in a release build. -/
def readChunk (fact : Index) (offset stop scratch index : ℕ) : Read Unit := do
  let start := index*chunkSize
  let chunkLen := min ((fact.size+2^64-start)%2^64) chunkSize
  if scratch < chunkLen then fail allocationError
  else do
    (ask (.seek start) : Read (Except IoError Unit)) >>= system
    let buffer ← fill chunkLen chunkLen []
    let hash ← sha256 buffer
    meter fun m => {m with chunkSha256Bytes := m.chunkSha256Bytes+chunkLen}
    match fact.chunks[index]? with
    | none => fail .panicked
    | some d =>
      if hash ≠ d then
        fail (mismatch "local CAS covering chunk does not match its verified digest")
      else copyIntersection buffer start offset stop

def readChunkList (fact : Index) (offset stop scratch : ℕ) : List ℕ → Read Unit
  | [] => pure ()
  | index :: rest => do
    readChunk fact offset stop scratch index
    readChunkList fact offset stop scratch rest

/-- The chunks from the one with the first byte to the one with the last. -/
def readCovering (fact : Index) (offset stop scratch : ℕ) : Read Unit :=
  if offset < stop then
    readChunkList fact offset stop scratch
      (List.range' (offset/chunkSize) ((stop-1)/chunkSize+1-offset/chunkSize))
  else pure ()

def readChunks (fact : Index) (offset stop scratch : ℕ) : Read Unit := do
  readCovering fact offset stop scratch
  let w ← state
  if w.output.bytes.length ≠ stop-offset then
    fail (mismatch "local CAS range differs from its fixed output length")
  else checkMetadata fact.size

def readChunksWithScratch (fact : Index) (offset stop : ℕ) (scratch : Option ℕ) : Read Unit :=
  match scratch with
  | some scratch => readChunks fact offset stop scratch
  | none =>
    if offset < stop then do
      let capacity ← (ask (.tryReserve chunkSize) : Read (Option {n : ℕ // chunkSize ≤ n}))
      if capacity.isNone then fail allocationError else readChunks fact offset stop chunkSize
    else readChunks fact offset stop 0

/-! ## The choice of the lane -/

/-- Only a canonical lower-case digest has facts. -/
def fixedDigest (digest : Text) : Option Digest := (parseDigest digest).toOption

def strictFallback (digest : Text) (size offset stop : ℕ) (scratch : Option ℕ) : Read Unit := do
  meter fun m => {m with strictFallback := true}
  let _ ← scanWithScratch digest size offset stop scratch none
  pure ()

/-- The digests of the file's chunks, or none if their vector could not be allocated. -/
def chunkVector (count payload : ℕ) : Read Bool := do
  let capacity ← (ask (.tryReserve count) : Read (Option {n : ℕ // count ≤ n}))
  pure (match capacity with
    | none => false
    | some n => decide (saturatingMul n.val 32 ≤ payload))

/-- The scan that builds facts owns the reservation until they are published. -/
def buildIndex (domain digest : Text) (fixed : Digest) (size offset stop : ℕ)
    (scratch : Option ℕ) (count : ℕ) (reservation : Reservation) : Read Index := do
  let chunks ← scanWithScratch digest size offset stop scratch (some [])
  let chunks := chunks.getD []
  if chunks.length ≠ count then
    fail (mismatch "local CAS chunk geometry differs from the fixed file")
  else do
    meter fun m => {m with indexFactChargeBytes := reservation.bytes}
    pure ⟨domain,fixed,size,indexFormat,chunks,reservation⟩

def dropReservation (r : Reservation) : Read Unit := (ask (.cacheDrop r) : Read Unit)

/-- The cleanup of a failing task: the reservation is dropped with the frame. -/
def orDrop (m : Read Index) (r : Reservation) : Read Index := fun w =>
  (m w).bind fun result =>
    match result.1 with
    | .ok _ => .done result
    | .error _ => (dropReservation r result.2).bind fun _ => .done result

def readInputWithCache (domain digest : Text) (size offset stop : ℕ) (scratch : Option ℕ) :
    Read Unit := do
  let count := (size+chunkSize-1)/chunkSize
  let canonical ← (ask (.canonicalize domain) : Read (Except IoError Text))
  match canonical, fixedDigest digest with
  | .ok domain, some fixed =>
    if maxDigestBytes/32 < count then strictFallback digest size offset stop scratch
    else do
      let cached ← (ask (.cacheGet domain fixed size) : Read (Option Index))
      match cached with
      | some fact => do
        meter fun m => {m with indexHit := true, indexFactChargeBytes := fact.reservation.bytes}
        ensuring (readChunksWithScratch fact offset stop scratch)
          (dropReservation fact.reservation)
      | none => do
        let payload := min (count*32).nextPowerOfTwo maxDigestBytes
        let charge := saturatingAdd
          (saturatingAdd payload (saturatingMul domain.length 2)) indexOverhead
        let reserved ← (ask (.cacheReserve charge) : Read (Option Reservation))
        match reserved with
        | none => strictFallback digest size offset stop scratch
        | some reservation => do
          let room ← chunkVector count payload
          if room = false then do
            dropReservation reservation
            strictFallback digest size offset stop scratch
          else do
            let fact ← orDrop (buildIndex domain digest fixed size offset stop scratch count
              reservation) reservation
            (ask (.cachePublish fact) : Read Unit)
            meter fun m => {m with indexBuilt := true}
  | _, _ => strictFallback digest size offset stop scratch

/-! ## The entry points -/

def ioGuard (path : Text) : Read Unit :=
  (ask (.ioGuard path) : Read (Except SnapshotError Unit)) >>= fun x =>
    lift (x.mapError Failure.error)

def readStrict (path digest : Text) (size offset len : ℕ) : Read (Option Bytes) := do
  ioGuard path
  let found ← openObject path size
  if found = false then pure none
  else do
    let stop ← output size offset len
    let _ ← scanWithScratch digest size offset stop none none
    let w ← state
    pure (some w.output.bytes)

def readIndexed (path domain digest : Text) (size offset len : ℕ) : Read (Option Bytes) := do
  ioGuard path
  let found ← openObject path size
  if found = false then pure none
  else do
    let stop ← output size offset len
    readInputWithCache domain digest size offset stop none
    let w ← state
    pure (some w.output.bytes)

def readIndexedInto (path domain digest : Text) (size offset wanted scratch : ℕ) : Read Bool := do
  ioGuard path
  let found ← openObject path size
  if found = false then pure false
  else do
    readInputWithCache domain digest size offset (saturatingAdd offset wanted) (some scratch)
    pure true

end Scorpio.CasRead
