import Scorpio.Transport.OwnedTransport
import Scorpio.Transport.RequestBatches

/-!
# Responses of the frame endpoints

The part of `snapshot::frames` that the endpoints share: the budget of a
response, the header checks made before the codec parses the stream, and the
comparison of the END frame with the request. `post_treeframe` is left to its
answer, any bytes or an error. A branch the source marks unreachable panics
there; here it is an internal error.
-/

set_option autoImplicit false

namespace Scorpio.ResponseFrames

open ByteText Fallible Slices PageCodec OwnedTransport

/-- What the endpoints use of `mst2_codec::treeframe`. -/
structure FrameCodec extends Treeframe where
  metaMaxRaw : ℕ
  objectMaxLen : ℕ
  parseStream : Bytes → Except Text (List Frame)

/-- What the endpoints use of `Mst2Client`. -/
structure FrameClient extends Client where
  requestByteLimit : ℕ
  metadataItemLimit : ℕ
  isCanonical : Bool
  requireFeature : Text → Result Unit
  validateEncoding : Option Text → Result Unit
  validatePath : Text → Result Unit

def frameErr (context e : Text) : SnapshotError := ⟨.digestMismatch,context ++ txt ": " ++ e⟩

def unreachable (message : Text) : SnapshotError := ⟨.internal,message⟩

structure ResponseBudget where
  units : ℕ
  rawBytes : ℕ
  wireBytes : ℕ

section Responses

variable (t : FrameCodec) (client : FrameClient)

def ResponseBudget.new (units logicalBytes unitOverhead : ℕ) : Result ResponseBudget := do
  let rawBytes ← okOr (((checkedMul units unitOverhead).bind fun overhead =>
    checkedAdd overhead logicalBytes).bind fun bytes => checkedAdd bytes t.errorMaxBytes)
    (limit "TreeFrame response byte budget overflow")
  let wireBytes ← okOr (((checkedAdd units 1).bind fun frames =>
    checkedMul frames t.headerLen).bind fun headers => (checkedMul rawBytes 2).bind fun bytes =>
      checkedAdd bytes headers) (limit "TreeFrame response byte budget overflow")
  pure ⟨units,rawBytes,wireBytes⟩

def maxRaw (kind : UInt8) : Result ℕ :=
  if kind = t.kindMeta then .ok t.metaMaxRaw
  else if kind = t.kindObject then .ok t.objectMaxRaw
  else if kind = t.kindChunk then .ok (76+t.chunkMaxLen)
  else if kind = t.kindEnd then .ok 48
  else if kind = t.kindError then .ok t.errorMaxBytes
  else .error (unreachable "endpoint frame kind checked above")

/-- The loop over the headers. Each turn passes one header, so the bytes bound the turns. -/
def headerLoop (raw : Bytes) (context : Text) (dataKind : UInt8) (dataName : Text)
    (budget : ResponseBudget) : ℕ → ℕ → ℕ → ℕ → Result Unit
  | 0, _, _, _ => .ok ()
  | turns+1, offset, frames, rawTotal =>
    if offset < raw.length then do
      require (offset+t.headerLen ≤ raw.length) (invalid "truncated TreeFrame header")
      let header := slice raw offset (offset+t.headerLen)
      let kind := headerKind header
      require (terminalKind t.toTreeframe kind || kind = dataKind)
        (invalid (context ++ " contains a non-" ++ dataName ++ " data frame"))
      let max ← maxRaw t kind
      require (headerRawLen header ≤ max ∧ headerWireLen header ≤ client.frameWireLimit)
        (limit "TreeFrame payload exceeds its frame byte limit")
      require (¬(client.isCanonical ∧ headerFlags header ≠ 0))
        (limit "reader selected identity TreeFrames")
      let rawTotal ← okOr (checkedAdd rawTotal (headerRawLen header))
        (limit "TreeFrame raw response byte count overflow")
      require (frames+1 ≤ budget.units+2 ∧ rawTotal ≤ budget.rawBytes)
        (limit "TreeFrame response exceeds its request's frame or raw byte budget")
      let stop ← okOr ((checkedAdd offset t.headerLen).bind fun start =>
        (checkedAdd start (headerWireLen header)).filter (· ≤ raw.length))
        (invalid "truncated TreeFrame payload")
      headerLoop raw context dataKind dataName budget turns stop (frames+1) rawTotal
    else .ok ()

def responseFrames (raw : Bytes) (context : Text) (dataKind : UInt8) (dataName : Text)
    (budget : ResponseBudget) : Result (List Frame) := do
  headerLoop t client raw context dataKind dataName budget raw.length 0 0 0
  (t.parseStream raw).mapError (frameErr context)

/-- Numbers in an error text. -/
def endCountMessage (got want : ℕ) : Text :=
  "END item count " ++ JsonText.decimal got ++ " != request " ++ JsonText.decimal want

def checkEnd (frames : List Frame) (requestBody : Bytes) (expectItems : ℕ) : Result (ℕ × ℕ) :=
  match frames.getLast? with
  | some (.errorFrame code requestId _) =>
    .error ⟨.internal,"server rejected TreeFrame request: " ++ code ++ " (request_id " ++
      requestId ++ ")"⟩
  | some (.endFrame e) => do
    require (e.requestItemCount = expectItems)
      (invalid (endCountMessage e.requestItemCount expectItems))
    require (e.requestBodySha256 = client.sha256 requestBody)
      (invalid "END request_body_sha256 does not match the body sent")
    pure (e.uniqueUnitCount,e.logicalBytes)
  | _ => .error (invalid "missing END frame")

variable {t client}

theorem response_frames_ok {raw : Bytes} {context dataName : Text} {dataKind : UInt8}
    {budget : ResponseBudget} {frames : List Frame}
    (h : responseFrames t client raw context dataKind dataName budget = .ok frames) :
    t.parseStream raw = .ok frames := by
  obtain ⟨_,_,h⟩ := bind_ok.mp h
  exact map_error_ok.mp h

theorem check_end_ok {frames : List Frame} {body : Bytes} {expectItems units bytes : ℕ}
    (h : checkEnd client frames body expectItems = .ok (units,bytes)) :
    frames.getLast? = some (.endFrame ⟨expectItems,units,bytes,client.sha256 body⟩) := by
  unfold checkEnd at h
  split at h
  · cases h
  · rename_i e hlast
    obtain ⟨_,hitems,h⟩ := bind_ok.mp h
    obtain ⟨_,hbody,h⟩ := bind_ok.mp h
    obtain ⟨rfl,rfl⟩ := Prod.mk.inj (pure_ok.mp h)
    rw [hlast, ← of_decide_eq_true (require_ok.mp hitems),
      ← of_decide_eq_true (require_ok.mp hbody)]
  · cases h

end Responses

end Scorpio.ResponseFrames
