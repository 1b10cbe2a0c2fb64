import Scorpio.Base.Slices
import Scorpio.Snapshot.PageCodec

/-!
# The owned TreeFrame stream

`snapshot::owned_transport`: the cursor that gathers headers and payloads from
transport chunks, and `consume_frames`, which hands each verified data frame to
a sink and returns a receipt after the terminal END and the end of input.

A response is its status, its announced length, its chunks and what the
transport reports after them. The external codec is a record. Capacity is
reserved from a budget shared with other tasks: `reserve n` is the answer to
the `n`-th request for it. The log keeps what the result alone does not show:
the frames that were admitted and the frames the sink was given.
-/

set_option autoImplicit false

namespace Scorpio.OwnedTransport

open ByteText Fallible Slices PageCodec

/-! ## Frames -/

structure EndPayload where
  requestItemCount : ℕ
  uniqueUnitCount : ℕ
  logicalBytes : ℕ
  requestBodySha256 : Digest
  deriving DecidableEq, Repr

inductive Frame where
  | metaFrame (pages : List (Digest × Bytes))
  | objectFrame (objects : List (Digest × Bytes))
  | chunkFrame (mapId fileContentId : Digest) (chunkIndex : ℕ) (chunkBytes : Bytes)
  | endFrame (payload : EndPayload)
  | errorFrame (code requestId : Text) (retryable : Bool)
  deriving DecidableEq, Repr

/-- `mst2_codec::treeframe`, and the sizes that `size_of` gives for its types. -/
structure Treeframe where
  headerLen : ℕ
  headerFits : 32 ≤ headerLen
  kindMeta : UInt8
  kindObject : UInt8
  kindChunk : UInt8
  kindEnd : UInt8
  kindError : UInt8
  kindsDiffer : [kindMeta,kindObject,kindChunk,kindEnd,kindError].Nodup
  flagZstd : UInt8
  objectMaxCount : ℕ
  objectMaxRaw : ℕ
  chunkMaxLen : ℕ
  errorMaxBytes : ℕ
  parseFrame : Bytes → Except Text (Frame × ℕ)
  scratchFrameSize : ℕ
  frameSize : ℕ
  accountedBufferSize : ℕ

def Treeframe.kindOf (t : Treeframe) : Frame → UInt8
  | .metaFrame .. => t.kindMeta
  | .objectFrame .. => t.kindObject
  | .chunkFrame .. => t.kindChunk
  | .endFrame .. => t.kindEnd
  | .errorFrame .. => t.kindError

def headerKind (header : Bytes) : UInt8 := header.getD 6 0

def headerFlags (header : Bytes) : UInt8 := header.getD 7 0

def headerWireLen (header : Bytes) : ℕ := fromLeBytes (slice header 12 16)

def headerRawLen (header : Bytes) : ℕ := fromLeBytes (slice header 16 20)

def headerStream (header : Bytes) : ℕ := fromLeBytes (slice header 20 24)

def headerSequence (header : Bytes) : ℕ := fromLeBytes (slice header 24 32)

/-! ## Responses and requests -/

/-- The limits `Mst2Client` has discovered, and its reading of an error body. -/
structure Client where
  requestItemLimit : ℕ
  objectByteLimit : ℕ
  chunkByteLimit : ℕ
  frameWireLimit : ℕ
  responseByteLimit : ℕ
  responseError : Bytes → ℕ → SnapshotError
  sha256 : Bytes → Digest

structure Response where
  status : ℕ
  contentLength : Option ℕ
  chunks : List Bytes
  failure : Option SnapshotError

structure FrameRequest where
  body : Bytes
  dataKind : UInt8
  itemCount : ℕ
  logicalMax : ℕ
  allowZstd : Bool

/-- The answers of the shared budget. -/
abbrev Reserve := ℕ → ℕ → Result Unit

/-- A sink with its own state. -/
abbrev Sink (τ : Type) := τ → Frame → Result (ℕ × ℕ) × τ

structure Log (τ : Type) where
  admitted : List (ℕ × ℕ)
  given : List Frame
  sink : τ

def invalid (message : Text) : SnapshotError := ⟨.digestMismatch,message⟩

def capacityLimit : SnapshotError := limit "content capacity admission limit reached"

def checkedMul (a b : ℕ) : Option ℕ := if a*b ≤ usizeMax then some (a*b) else none

def u32Max : ℕ := 2^32-1

/-- `checked_add` on `u32`. -/
def checkedAdd32 (a b : ℕ) : Option ℕ := if a+b ≤ u32Max then some (a+b) else none

def fromServer (code : Text) : SnapshotErrorCode :=
  (([("SCOPE_INVALID",.scopeInvalid),("INVALID_REQUEST",.invalidRequest),
    ("LIMIT_EXCEEDED",.limitExceeded),("UNAUTHENTICATED",.unauthenticated),
    ("SCOPE_FORBIDDEN",.scopeForbidden),("VIEW_NOT_FOUND",.viewNotFound),
    ("SNAPSHOT_NOT_READY",.snapshotNotReady),("METADATA_NOT_READY",.metadataNotReady),
    ("SNAPSHOT_GONE",.snapshotGone),("PATH_NOT_FOUND",.pathNotFound),
    ("NOT_DIRECTORY",.notDirectory),("UNSUPPORTED_ENTRY",.unsupportedEntry),
    ("LEASE_UNKNOWN",.leaseUnknown),("LEASE_EXPIRED",.leaseExpired),
    ("CURSOR_INVALID",.cursorInvalid),("CURSOR_STALE",.cursorStale),
    ("PROOF_BUDGET_EXCEEDED",.proofBudgetExceeded),("EXPECTED_DIGEST_MISMATCH",.digestMismatch),
    ("INTEGRITY_ERROR",.integrityError),("OBJECT_UNAVAILABLE",.objectUnavailable),
    ("OBJECT_DIGEST_MISMATCH",.digestMismatch),("RANGE_NOT_SUPPORTED",.rangeNotSupported),
    ("SYMLINK_TRAVERSAL",.symlinkTraversal),
    ("TEMPORARY_UNAVAILABLE",.temporaryUnavailable)] : List (String × SnapshotErrorCode)).find?
      fun row => txt row.1 = code).elim .internal Prod.snd

/-! ## The cursor -/

structure WireCursor where
  pending : List Bytes
  failure : Option SnapshotError
  current : Bytes
  offset : ℕ
  bounded : offset ≤ current.length

namespace WireCursor

/-- Step to the next chunk while the present one is used up. -/
def refillFrom (failure : Option SnapshotError) :
    List Bytes → (current : Bytes) → (offset : ℕ) → offset ≤ current.length →
      Result (Bool × WireCursor)
  | pending, current, offset, h =>
    if offset = current.length then
      match pending with
      | [] =>
        match failure with
        | some e => .error e
        | none => .ok (false,⟨[],failure,current,offset,h⟩)
      | chunk :: pending => refillFrom failure pending chunk 0 (Nat.zero_le _)
    else .ok (true,⟨pending,failure,current,offset,h⟩)

def refill (c : WireCursor) : Result (Bool × WireCursor) :=
  refillFrom c.failure c.pending c.current c.offset c.bounded

/-- What one turn of a copy loop takes when `room` bytes are missing. -/
def step (c : WireCursor) (room : ℕ) : ℕ := min room (c.current.length-c.offset)

def advance (c : WireCursor) (room : ℕ) : WireCursor where
  pending := c.pending
  failure := c.failure
  current := c.current
  offset := c.offset+c.step room
  bounded := by
    have h := c.bounded
    unfold step
    omega

/-- The copy loop of `header` and `payload`: `out` grows to `size` bytes. Each turn copies at
least one byte, so there are at most as many turns as bytes missing. -/
def fill (truncated : Text) (size : ℕ) : ℕ → WireCursor → Bytes → Result (Bytes × WireCursor)
  | 0, c, out => .ok (out,c)
  | turns+1, c, out =>
    if out.length < size then do
      let (more,c) ← c.refill
      require more (invalid truncated)
      fill truncated size turns (c.advance (size-out.length))
        (out ++ slice c.current c.offset (c.offset+c.step (size-out.length)))
    else .ok (out,c)

def header (t : Treeframe) (c : WireCursor) : Result (Option Bytes × WireCursor) := do
  let (more,c) ← c.refill
  if more then
    let (header,c) ← fill "truncated TreeFrame header" t.headerLen t.headerLen c []
    pure (some header,c)
  else pure (none,c)

/-- `output` has the capacity `size`, and the header is already in it. -/
def payload (size : ℕ) (c : WireCursor) (output : Bytes) : Result (Bytes × WireCursor) :=
  fill "truncated TreeFrame payload" size (size-output.length) c output

end WireCursor

/-! ## Frames of one response -/

section Consume

variable {τ : Type} (t : Treeframe) (client : Client) (request : FrameRequest) (reserve : Reserve)

/-- `AccountedBuffer::new`. -/
def newBuffer (n capacity extra : ℕ) : Result Unit := do
  let charge ← okOr ((checkedAdd capacity extra).bind fun c =>
    checkedAdd c (t.accountedBufferSize+16)) capacityLimit
  reserve n charge

def decodeCapacity (kind : UInt8) (raw : ℕ) (compressed : Bool) : Result ℕ :=
  let compressedRaw := if compressed then raw else 0
  let (data,tables) :=
    if kind = t.kindObject then (raw,t.objectMaxCount*88)
    else if kind = t.kindChunk then (raw-76,0)
    else if kind = t.kindError then (4*t.errorMaxBytes,256)
    else (0,0)
  okOr (((checkedAdd compressedRaw data).bind fun n => checkedAdd n tables).bind fun n =>
    checkedAdd n (t.scratchFrameSize+t.frameSize)) (limit "frame construction capacity overflow")

def typedErrorLoop (response : Response) (capacity : ℕ) : List Bytes → Bytes → SnapshotError
  | [], buffer => response.failure.elim (client.responseError buffer response.status) id
  | chunk :: rest, buffer =>
    if capacity-buffer.length < chunk.length then
      limit "JSON error response exceeds the protocol byte budget"
    else typedErrorLoop response capacity rest (buffer ++ chunk)

def typedError (response : Response) : SnapshotError :=
  if response.contentLength.any (client.responseByteLimit < ·) then
    limit "JSON error response exceeds the protocol byte budget"
  else
    match newBuffer t reserve 0 (min client.responseByteLimit 1048576) 0 with
    | .error e => e
    | .ok _ =>
      typedErrorLoop client response (min client.responseByteLimit 1048576) response.chunks []

/-- What the loop of `consume_frames` carries from frame to frame. -/
structure Progress where
  stream : Option ℕ
  sequence : ℕ
  frames : ℕ
  rawTotal : ℕ
  wireTotal : ℕ
  units : ℕ
  logical : ℕ

structure Budgets where
  rawMax : ℕ
  wireMax : ℕ

def unitOverhead : ℕ := if request.dataKind = t.kindChunk then 76 else 44

def responseBudgets : Result Budgets := do
  let rawMax ← okOr (((checkedMul request.itemCount (unitOverhead t request)).bind fun n =>
    checkedAdd n request.logicalMax).bind fun n => checkedAdd n t.errorMaxBytes)
    (limit "frame response budget overflow")
  let wireMax ← okOr ((checkedMul rawMax 2).bind fun n =>
    checkedAdd n ((request.itemCount+1)*t.headerLen)) (limit "frame response budget overflow")
  pure ⟨rawMax,wireMax⟩

def terminalKind (kind : UInt8) : Bool := kind = t.kindEnd || kind = t.kindError

/-- The checks on a header before its payload is read. -/
def headerAccepted (p : Progress) (header : Bytes) : Bool :=
  !(header.take 4 ≠ txt "MST2" || fromLeBytes (slice header 4 6) ≠ 2 ||
    fromLeBytes (slice header 8 12) ≠ t.headerLen ||
    headerFlags header &&& ~~~t.flagZstd ≠ 0 ||
    (headerFlags header ≠ 0 && !request.allowZstd) ||
    headerStream header = 0 ||
    p.stream.any (· ≠ headerStream header) ||
    headerSequence header ≠ p.sequence ||
    (headerKind header ≠ request.dataKind && !terminalKind t (headerKind header)) ||
    (terminalKind t (headerKind header) && headerFlags header ≠ 0) ||
    (headerFlags header = 0 && headerWireLen header ≠ headerRawLen header))

def frameRawMax (kind : UInt8) : Option ℕ :=
  if kind = t.kindObject then some t.objectMaxRaw
  else if kind = t.kindChunk then some (76+t.chunkMaxLen)
  else if kind = t.kindEnd then some 48
  else if kind = t.kindError then some t.errorMaxBytes
  else none

/-- The part of a turn before the payload: header checks, running totals, reservation. -/
def admitFrame (budgets : Budgets) (p : Progress) (header : Bytes) : Result Progress := do
  require (headerAccepted t request p header)
    (invalid "invalid endpoint frame header or stream ordering")
  let rawMax ← okOr (frameRawMax t (headerKind header)) ⟨.internal,"endpoint kind checked"⟩
  require (headerRawLen header ≤ rawMax ∧ headerWireLen header ≤ client.frameWireLimit)
    (limit "frame exceeds its payload byte limit")
  let rawTotal ← okOr (checkedAdd p.rawTotal (headerRawLen header)) (limit "raw count overflow")
  let wireTotal ← okOr (checkedAdd p.wireTotal (t.headerLen+headerWireLen header))
    (limit "wire count overflow")
  require (p.frames+1 ≤ request.itemCount+2 ∧ rawTotal ≤ budgets.rawMax ∧
      wireTotal ≤ budgets.wireMax)
    (limit "frame response exceeds its request aggregate budget")
  let sequence ← okOr (checkedAdd p.sequence 1) (invalid "sequence overflow")
  let extra ← decodeCapacity t (headerKind header) (headerRawLen header) (headerFlags header ≠ 0)
  newBuffer t reserve (p.frames+1) (t.headerLen+headerWireLen header) extra
  pure { p with
    stream := some (headerStream header)
    sequence := sequence
    frames := p.frames+1
    rawTotal := rawTotal
    wireTotal := wireTotal }

/-- The payload is gathered behind its header and parsed. -/
def readFrame (c : WireCursor) (header : Bytes) : Result (Frame × WireCursor) := do
  let (wire,c) ← c.payload (t.headerLen+headerWireLen header) header
  let (frame,used) ← (t.parseFrame wire).mapError fun e => invalid ("frame: " ++ e)
  require (used = wire.length) (invalid "frame parser did not consume its fixed wire buffer")
  pure (frame,c)

def endAccepted (p : Progress) (e : EndPayload) : Bool :=
  e.requestItemCount = request.itemCount && e.uniqueUnitCount = p.units &&
    p.units = request.itemCount && e.logicalBytes = p.logical &&
    e.requestBodySha256 = client.sha256 request.body

def acceptEnd (p : Progress) (e : EndPayload) (c : WireCursor) : Result Unit := do
  require (endAccepted client request p e)
    (invalid "END unit set, logical bytes or request digest differs")
  let (more,_) ← c.refill
  require (!more) (invalid "bytes after terminal END")

def serverRejection (code requestId : Text) : SnapshotError :=
  ⟨fromServer code,"server rejected TreeFrame request: " ++ code ++ " (request_id " ++
    requestId ++ ")"⟩

/-- The units and bytes the sink reports for one frame. -/
def chargeUnits (p : Progress) (added : ℕ × ℕ) : Result Progress := do
  let units ← okOr (checkedAdd32 p.units added.1) (invalid "unit count overflow")
  let logical ← okOr (checkedAdd p.logical added.2) (invalid "logical count overflow")
  require (units ≤ request.itemCount ∧ logical ≤ request.logicalMax)
    (invalid "unrequested units or excessive logical bytes")
  pure { p with units := units, logical := logical }

def Log.record (log : Log τ) (header : Bytes) : Log τ :=
  { log with admitted := log.admitted ++ [(headerRawLen header,t.headerLen+headerWireLen header)] }

def Log.give (log : Log τ) (frame : Frame) (s : τ) : Log τ :=
  { log with given := log.given ++ [frame], sink := s }

/-- How one turn of the loop ends. -/
inductive Turn where
  | stop (result : Result Unit)
  | go (p : Progress) (c : WireCursor)

def offer (sink : Sink τ) (p : Progress) (c : WireCursor) (log : Log τ) (frame : Frame) :
    Turn × Log τ :=
  match (sink log.sink frame).1 >>= chargeUnits request p with
  | .error e => (.stop (.error e),log.give frame (sink log.sink frame).2)
  | .ok p => (.go p c,log.give frame (sink log.sink frame).2)

def deliver (sink : Sink τ) (p : Progress) (c : WireCursor) (log : Log τ) : Frame → Turn × Log τ
  | .endFrame e => (.stop (acceptEnd client request p e c),log)
  | .errorFrame code requestId _ => (.stop (.error (serverRejection code requestId)),log)
  | frame => offer request sink p c log frame

def turn (budgets : Budgets) (sink : Sink τ) (p : Progress) (c : WireCursor) (log : Log τ) :
    Turn × Log τ :=
  match c.header t with
  | .error e => (.stop (.error e),log)
  | .ok (none,_) => (.stop (.error (invalid "stream missing terminal END")),log)
  | .ok (some header,c) =>
    match admitFrame t client request reserve budgets p header with
    | .error e => (.stop (.error e),log)
    | .ok p =>
      match readFrame t c header with
      | .error e => (.stop (.error e),log.record t header)
      | .ok (frame,c) => deliver client request sink p c (log.record t header) frame

/-- The loop. A turn that goes on has counted one more frame, so the frame budget bounds the
turns. -/
def frameLoop (budgets : Budgets) (sink : Sink τ) :
    ℕ → Progress → WireCursor → Log τ → Result Unit × Log τ
  | 0, _, _, log => (.error ⟨.internal,"frame loop did not end"⟩,log)
  | turns+1, p, c, log =>
    match turn t client request reserve budgets sink p c log with
    | (.stop result,log) => (result,log)
    | (.go p c,log) => frameLoop budgets sink turns p c log

/-- The checks of a request before it is sent. -/
def requestAccepted : Result Unit := do
  let byteLimit ← okOr (if request.dataKind = t.kindObject then some client.objectByteLimit
    else if request.dataKind = t.kindChunk then some client.chunkByteLimit else none)
    (invalid "unsupported owned endpoint")
  require (request.logicalMax ≤ byteLimit) (limit "owned request exceeds the discovered batch limit")

def Progress.start : Progress := ⟨none,0,0,0,0,0,0⟩

def startCursor (response : Response) : WireCursor :=
  ⟨response.chunks,response.failure,[],0,le_rfl⟩

/-- `answer` is what `owned_frame_response` returns for the request. -/
def consumeFrames (answer : Result Response) (sink : Sink τ) (s : τ) : Result Unit × Log τ :=
  let log : Log τ := ⟨[],[],s⟩
  if client.requestItemLimit < request.itemCount then
    (.error (limit "owned request exceeds the discovered batch limit"),log)
  else
    match requestAccepted t client request with
    | .error e => (.error e,log)
    | .ok _ =>
      match answer with
      | .error e => (.error e,log)
      | .ok response =>
        if ¬(200 ≤ response.status ∧ response.status < 300) then
          (.error (typedError t client reserve response),log)
        else
          match responseBudgets t request with
          | .error e => (.error e,log)
          | .ok budgets =>
            if response.contentLength.any (budgets.wireMax < ·) then
              (.error (limit "frame response exceeds its request byte budget"),log)
            else
              frameLoop t client request reserve budgets sink (request.itemCount+3) .start
                (startCursor response) log

end Consume

end Scorpio.OwnedTransport
