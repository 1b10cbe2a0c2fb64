import Scorpio.Transport.FrameTurns

/-!
# The language of accepted streams

A receipt is given for exactly one form of input: data frames of the requested
kind on one stream, numbered from zero, then an END that repeats what was
requested and observed, and nothing behind it. Whatever the input is, the
frames admitted before the end stay within the budgets of the request.
-/

set_option autoImplicit false

namespace Scorpio.ExactStream

open ByteText Fallible Slices PageCodec OwnedTransport ChunkSplits FrameTurns

/-- `parse_frame` inverts the encoders: it reads exactly what one of them writes for a frame, a
stream and a sequence number, and the header holds these. -/
structure Inverts (t : Treeframe) (Encoded : Frame → ℕ → ℕ → Bytes → Prop) : Prop where
  parses : ∀ w f n, t.parseFrame w = .ok (f,n) ↔
    n ≤ w.length ∧ ∃ sid seq, Encoded f sid seq (w.take n)
  kind : ∀ f sid seq w, Encoded f sid seq w → headerKind w = t.kindOf f
  stream : ∀ f sid seq w, Encoded f sid seq w → headerStream w = sid
  sequence : ∀ f sid seq w, Encoded f sid seq w → headerSequence w = seq

/-- Encoded frames of one kind on one stream, in sequence. -/
inductive DataStream (t : Treeframe) (Encoded : Frame → ℕ → ℕ → Bytes → Prop) (kind : UInt8)
    (sid : ℕ) : ℕ → List Frame → Bytes → Prop
  | nil (seq : ℕ) : DataStream t Encoded kind sid seq [] []
  | cons {seq : ℕ} {frame : Frame} {frames : List Frame} {wire more : Bytes}
    (hwire : Encoded frame sid seq wire) (hkind : t.kindOf frame = kind)
    (hmore : DataStream t Encoded kind sid (seq+1) frames more) :
    DataStream t Encoded kind sid seq (frame :: frames) (wire ++ more)

/-- The units and bytes a sink reports for a list of frames, if it takes them all. -/
def sinkTotals {τ : Type} (sink : Sink τ) : τ → List Frame → Option (ℕ × ℕ)
  | _, [] => some (0,0)
  | s, frame :: frames =>
    match (sink s frame).1 with
    | .error _ => none
    | .ok added => (sinkTotals sink (sink s frame).2 frames).map fun total =>
        (added.1+total.1,added.2+total.2)

/-! ## The accepted language -/

section Language

variable {τ : Type} {t : Treeframe} {Encoded : Frame → ℕ → ℕ → Bytes → Prop} {client : Client}
  {request : FrameRequest} {reserve : Reserve} {budgets : Budgets} {sink : Sink τ}
  {p p' : Progress} {c : WireCursor} {log log' : Log τ}

theorem header_accepted_inv {header : Bytes} (h : headerAccepted t request p header = true) :
    headerStream header ≠ 0 ∧ (∀ sid, p.stream = some sid → sid = headerStream header) ∧
      headerSequence header = p.sequence ∧
      (headerKind header = request.dataKind ∨ terminalKind t (headerKind header) = true) := by
  simp only [headerAccepted, Bool.not_or, Bool.and_eq_true, Bool.not_eq_true',
    decide_eq_false_iff_not, not_not] at h
  obtain ⟨⟨⟨⟨⟨⟨_,hnonzero⟩,hstream⟩,hsequence⟩,hkind⟩,_⟩,_⟩ := h
  refine ⟨hnonzero,?_,hsequence,?_⟩
  · intro sid hsid
    rw [hsid] at hstream
    simpa using hstream
  · by_cases hsame : headerKind header = request.dataKind
    · exact .inl hsame
    · simp only [hsame, not_false_eq_true, decide_true, Bool.true_and, Bool.not_eq_false', ne_eq] at hkind
      exact .inr hkind

theorem header_kind_append {header : Bytes} (part : Bytes) (h : 32 ≤ header.length) :
    headerKind (header ++ part) = headerKind header := by
  unfold headerKind
  rw [List.getD_append _ _ _ _ (by omega)]

theorem header_stream_append {header : Bytes} (part : Bytes) (h : 32 ≤ header.length) :
    headerStream (header ++ part) = headerStream header := by
  unfold headerStream
  rw [slice_append_left (by omega)]

theorem header_sequence_append {header : Bytes} (part : Bytes) (h : 32 ≤ header.length) :
    headerSequence (header ++ part) = headerSequence header := by
  unfold headerSequence
  rw [slice_append_left h]

/-- An admitted and parsed frame is encoded for the stream and the sequence number the loop
expects. -/
theorem parsed_encoded (hinv : Inverts t Encoded) {header part : Bytes} {frame : Frame}
    (hsize : header.length = t.headerLen) (hadm : Admitted t request budgets p header p')
    (hparse : t.parseFrame (header ++ part) = .ok (frame,(header ++ part).length)) :
    Encoded frame (headerStream header) p.sequence (header ++ part) ∧ headerStream header ≠ 0 ∧
      (∀ sid, p.stream = some sid → sid = headerStream header) ∧
      (terminalKind t (t.kindOf frame) = false → t.kindOf frame = request.dataKind) := by
  have hfits : 32 ≤ header.length := hsize ▸ t.headerFits
  obtain ⟨hnonzero,hstream,hsequence,hkind⟩ := header_accepted_inv hadm.accepted
  obtain ⟨_,sid,seq,hencoded⟩ := (hinv.parses _ _ _).mp hparse
  rw [List.take_length] at hencoded
  have hsid := hinv.stream _ _ _ _ hencoded
  have hseq := hinv.sequence _ _ _ _ hencoded
  have hk := hinv.kind _ _ _ _ hencoded
  rw [header_stream_append part hfits] at hsid
  rw [header_sequence_append part hfits, hsequence] at hseq
  rw [header_kind_append part hfits] at hk
  rw [hsid, hseq]
  refine ⟨hencoded,hsid ▸ hnonzero,hsid ▸ hstream,fun hdata => ?_⟩
  rw [← hk] at hdata ⊢
  exact hkind.resolve_right (by rw [hdata]; exact Bool.false_ne_true)

theorem end_accepted_inv {e : EndPayload} (h : endAccepted client request p e = true) :
    e = ⟨request.itemCount,request.itemCount,p.logical,client.sha256 request.body⟩ ∧
      p.units = request.itemCount := by
  simp only [endAccepted, Bool.and_eq_true, decide_eq_true_eq] at h
  obtain ⟨⟨⟨⟨h₁,h₂⟩,h₃⟩,h₄⟩,h₅⟩ := h
  refine ⟨?_,h₃⟩
  obtain ⟨_,_,_,_⟩ := e
  simp only at h₁ h₂ h₄ h₅
  rw [h₁, h₂, h₃, h₄, h₅]

/-- The bytes from the present point of the loop to the end of an accepted stream. -/
def Remaining (t : Treeframe) (Encoded : Frame → ℕ → ℕ → Bytes → Prop) (client : Client)
    (request : FrameRequest) (sink : Sink τ) (s : τ) (p : Progress) (stream : Bytes)
    (frames : List Frame) : Prop :=
  ∃ sid body last total, sid ≠ 0 ∧ (∀ first, p.stream = some first → first = sid) ∧
    stream = body ++ last ∧ DataStream t Encoded request.dataKind sid p.sequence frames body ∧
    sinkTotals sink s frames = some total ∧ p.units+total.1 = request.itemCount ∧
    Encoded (.endFrame ⟨request.itemCount,request.itemCount,p.logical+total.2,
      client.sha256 request.body⟩) sid (p.sequence+frames.length) last

theorem frame_loop_exact (hinv : Inverts t Encoded) (turns : ℕ)
    (h : frameLoop t client request reserve budgets sink turns p c log = (.ok (),log')) :
    c.failure = none ∧ ∃ frames, log'.given = log.given ++ frames ∧
      Remaining t Encoded client request sink log.sink p (rest c) frames := by
  induction turns generalizing p c log with
  | zero => cases h
  | succ turns ih =>
    unfold frameLoop at h
    rcases hturn : turn t client request reserve budgets sink p c log with ⟨result | ⟨p',c'⟩,log₁⟩
    · rw [hturn] at h
      cases h
      obtain ⟨⟨header,part,e,p₁,ended⟩,hgiven⟩ := turn_end hturn
      obtain ⟨hencoded,hnonzero,hstream,_⟩ := parsed_encoded hinv ended.size ended.admitted
        ended.parsed
      obtain ⟨rfl,hunits⟩ := end_accepted_inv ended.accepted
      rw [ended.admitted.next] at hunits hencoded
      refine ⟨ended.failure,[],by simpa using hgiven,⟨headerStream header,[],header ++ part,(0,0),
        hnonzero,hstream,ended.bytes,.nil _,rfl,hunits,hencoded⟩⟩
    · rw [hturn] at h
      obtain ⟨header,part,frame,added,p₁,went⟩ := turn_go hturn
      obtain ⟨hencoded,hnonzero,hstream,hkind⟩ := parsed_encoded hinv went.size went.admitted
        went.parsed
      obtain ⟨hfail,frames,hgiven,⟨sid,body,last,total,_,hsame,hbytes,hdata,hsunk,hunits,hend⟩⟩ :=
        ih h
      have hnext : p' = ⟨some (headerStream header),p.sequence+1,p.frames+1,
          p.rawTotal+headerRawLen header,p.wireTotal+(t.headerLen+headerWireLen header),
          p.units+added.1,p.logical+added.2⟩ := by rw [went.next, went.admitted.next]
      subst hnext
      obtain rfl := hsame _ rfl
      refine ⟨went.failure ▸ hfail,frame :: frames,?_,⟨headerStream header,header ++ part ++ body,
        last,(added.1+total.1,added.2+total.2),hnonzero,hstream,?_,.cons hencoded (hkind went.data)
        hdata,?_,?_,?_⟩⟩
      · rw [hgiven, went.logged]
        simp [Log.give, Log.record]
      · rw [went.bytes, hbytes, List.append_assoc _ body]
      · rw [went.logged] at hsunk
        rw [sinkTotals, went.sunk]
        exact congrArg (Option.map fun total => (added.1+total.1,added.2+total.2)) hsunk
      · rw [← hunits]
        exact (Nat.add_assoc _ _ _).symm
      · convert hend using 1
        · rw [← Nat.add_assoc]
        · simp only [List.length_cons]
          omega

/-- Data frames of the requested kind on one stream, numbered from zero, and an END with the item
count of the request, the units and bytes the sink has counted, and the digest of the request. -/
def Exact (t : Treeframe) (Encoded : Frame → ℕ → ℕ → Bytes → Prop) (client : Client)
    (request : FrameRequest) (sink : Sink τ) (s : τ) (stream : Bytes) (frames : List Frame) :
    Prop :=
  ∃ sid body last units logical, sid ≠ 0 ∧ stream = body ++ last ∧
    DataStream t Encoded request.dataKind sid 0 frames body ∧
    sinkTotals sink s frames = some (units,logical) ∧ units = request.itemCount ∧
    Encoded (.endFrame ⟨request.itemCount,units,logical,client.sha256 request.body⟩) sid
      frames.length last

/-- The budgets of a request. -/
def requestBudgets (t : Treeframe) (request : FrameRequest) : Budgets where
  rawMax := request.itemCount*unitOverhead t request+request.logicalMax+t.errorMaxBytes
  wireMax := (request.itemCount*unitOverhead t request+request.logicalMax+t.errorMaxBytes)*2+
    (request.itemCount+1)*t.headerLen

theorem checked_mul_some {a b n : ℕ} (h : checkedMul a b = some n) : n = a*b := by
  unfold checkedMul at h
  split at h
  · exact (Option.some.inj h).symm
  · cases h

theorem response_budgets_inv (h : responseBudgets t request = .ok budgets) :
    budgets = requestBudgets t request := by
  obtain ⟨raw,hraw,h⟩ := bind_ok.mp h
  obtain ⟨wire,hwire,h⟩ := bind_ok.mp h
  cases h
  simp only [ok_or_ok, Option.bind_eq_some_iff, checked_add_some] at hraw hwire
  obtain ⟨n,⟨k,hk,_,rfl⟩,_,rfl⟩ := hraw
  obtain ⟨m,hm,_,rfl⟩ := hwire
  rw [checked_mul_some hk] at hm ⊢
  rw [checked_mul_some hm]
  rfl

/-- What `consume_frames` does once the response has begun. -/
theorem consume_frames_cases (t : Treeframe) (client : Client) (request : FrameRequest)
    (reserve : Reserve) (sink : Sink τ) (answer : Result Response) (s : τ) :
    (∃ e, consumeFrames t client request reserve answer sink s = (.error e,⟨[],[],s⟩)) ∨
    ∃ response, answer = .ok response ∧
      consumeFrames t client request reserve answer sink s =
        frameLoop t client request reserve (requestBudgets t request) sink (request.itemCount+3)
          .start (startCursor response) ⟨[],[],s⟩ := by
  unfold consumeFrames
  dsimp only
  split
  · exact .inl ⟨_,rfl⟩
  cases requestAccepted t client request with
  | error e => exact .inl ⟨e,rfl⟩
  | ok _ =>
    cases answer with
    | error e => exact .inl ⟨e,rfl⟩
    | ok response =>
      dsimp only
      split
      · exact .inl ⟨_,rfl⟩
      cases hbudgets : responseBudgets t request with
      | error e => exact .inl ⟨e,rfl⟩
      | ok budgets =>
        dsimp only
        split
        · exact .inl ⟨_,rfl⟩
        · exact .inr ⟨response,rfl,by rw [response_budgets_inv hbudgets]⟩

theorem counted_start (s : τ) : Counted request budgets .start (⟨[],[],s⟩ : Log τ) :=
  ⟨⟨Nat.zero_le _,Nat.zero_le _,Nat.zero_le _⟩,rfl,rfl,rfl⟩

/-- Result, frames and errors do not depend on how the response was cut into chunks; a receipt is
given only for an exact stream that is consumed to its end, and every other outcome is an error;
in every case the admitted frames are within the budgets of the request. -/
theorem consume_frames_exact (t : Treeframe) (Encoded : Frame → ℕ → ℕ → Bytes → Prop)
    (hinv : Inverts t Encoded) (client : Client) (request : FrameRequest) (reserve : Reserve)
    (sink : Sink τ) (s : τ) (response : Response) :
    (∀ chunks, chunks.flatten = response.chunks.flatten →
      consumeFrames t client request reserve (.ok { response with chunks := chunks }) sink s =
        consumeFrames t client request reserve (.ok response) sink s) ∧
    (((consumeFrames t client request reserve (.ok response) sink s).1 = .ok () ∧
        response.failure = none ∧
        Exact t Encoded client request sink s response.chunks.flatten
          (consumeFrames t client request reserve (.ok response) sink s).2.given) ∨
      ∃ e, (consumeFrames t client request reserve (.ok response) sink s).1 = .error e) ∧
    WithinBudgets request (requestBudgets t request)
      (consumeFrames t client request reserve (.ok response) sink s).2 := by
  refine ⟨?_,?_,?_⟩
  · intro chunks hchunks
    rw [consume_frames_unsplit, consume_frames_unsplit response]
    simp only [unsplit, hchunks]
  · rcases consume_frames_cases t client request reserve sink (.ok response) s with
      ⟨e,hrun⟩ | ⟨_,⟨⟩,hrun⟩
    · exact .inr ⟨e,by rw [hrun]⟩
    · rw [hrun]
      rcases hloop : frameLoop t client request reserve (requestBudgets t request) sink
        (request.itemCount+3) .start (startCursor response) ⟨[],[],s⟩ with ⟨e | _,log⟩
      · exact .inr ⟨e,rfl⟩
      obtain ⟨hfail,frames,hgiven,sid,body,last,total,hnonzero,_,hbytes,hdata,hsunk,hunits,hend⟩ :=
        frame_loop_exact hinv _ hloop
      have hgiven : log.given = frames := hgiven
      have hunits : total.1 = request.itemCount := (Nat.zero_add _).symm.trans hunits
      subst hgiven
      refine .inl ⟨rfl,hfail,sid,body,last,total.1,total.2,hnonzero,hbytes,hdata,hsunk,hunits,?_⟩
      rw [hunits]
      simpa only [Progress.start, Nat.zero_add] using hend
  · rcases consume_frames_cases t client request reserve sink (.ok response) s with
      ⟨e,hrun⟩ | ⟨_,⟨⟩,hrun⟩
    · rw [hrun]
      exact ⟨Nat.zero_le _,Nat.zero_le _,Nat.zero_le _⟩
    · rw [hrun]
      exact frame_loop_within _ (counted_start s)

end Language

/-! ## A stream of one object -/

namespace Sample

def body : Bytes := "items"

def digestOf (b : Bytes) : Digest := ⟨(b ++ List.replicate 32 0).take 32,padded_length b⟩

def object : Frame := .objectFrame [(digestOf [1],[7,8,9])]

def last : EndPayload := ⟨1,1,3,digestOf body⟩

def headerOf (kind length sequence : UInt8) : Bytes :=
  txt "MST2" ++ [2,0,kind,0] ++ [32,0,0,0] ++ [length,0,0,0] ++ [length,0,0,0] ++ [27,0,0,0] ++
    [sequence,0,0,0,0,0,0,0]

def objectWire : Bytes := headerOf 2 3 0 ++ [7,8,9]

def endWire : Bytes := headerOf 4 0 1

/-- The encoders of this codec know two frames. -/
inductive Encoded : Frame → ℕ → ℕ → Bytes → Prop
  | object : Encoded object 27 0 objectWire
  | last : Encoded (.endFrame last) 27 1 endWire

def parse (w : Bytes) : Except Text (Frame × ℕ) :=
  if objectWire <+: w then .ok (object,35)
  else if endWire <+: w then .ok (.endFrame last,32)
  else .error "unknown frame"

def treeframe : Treeframe where
  headerLen := 32
  headerFits := le_rfl
  kindMeta := 1
  kindObject := 2
  kindChunk := 3
  kindEnd := 4
  kindError := 5
  kindsDiffer := by decide
  flagZstd := 1
  objectMaxCount := 128
  objectMaxRaw := 1000
  chunkMaxLen := 1000
  errorMaxBytes := 1000
  parseFrame := parse
  scratchFrameSize := 100
  frameSize := 100
  accountedBufferSize := 32

theorem inverts : Inverts treeframe Encoded where
  parses w f n := by
    change parse w = .ok (f,n) ↔ _
    constructor
    · intro h
      unfold parse at h
      split_ifs at h with hobject hlast
      · cases h
        obtain ⟨more,rfl⟩ := hobject
        have htake : (objectWire ++ more).take 35 = objectWire := List.take_left' (by decide)
        exact ⟨List.length_append ▸ Nat.le_add_right 35 _,27,0,htake ▸ .object⟩
      · cases h
        obtain ⟨more,rfl⟩ := hlast
        have htake : (endWire ++ more).take 32 = endWire := List.take_left' (by decide)
        exact ⟨List.length_append ▸ Nat.le_add_right 32 _,27,1,htake ▸ .last⟩
    · rintro ⟨hn,sid,seq,hencoded⟩
      have hlen : (w.take n).length = n := List.length_take_of_le hn
      have hstart : w.take n <+: w := List.take_prefix n w
      generalize w.take n = x at hencoded hlen hstart
      subst hlen
      cases hencoded with
      | object => exact if_pos hstart
      | last =>
        have hother : ¬objectWire <+: w := fun hobject =>
          absurd (List.prefix_of_prefix_length_le hstart hobject (by decide)) (by decide)
        exact (if_neg hother).trans (if_pos hstart)
  kind f sid seq w h := by cases h <;> decide
  stream f sid seq w h := by cases h <;> decide
  sequence f sid seq w h := by cases h <;> decide

def client : Client where
  requestItemLimit := 128
  objectByteLimit := 1000
  chunkByteLimit := 1000
  frameWireLimit := 1000
  responseByteLimit := 1000
  responseError := fun b _ => ⟨.internal,b⟩
  sha256 := digestOf

def request : FrameRequest := ⟨body,2,1,3,false⟩

def sink : Sink Bool := fun seen frame =>
  (if seen || frame ≠ object then .error (invalid "unrequested or duplicate object") else .ok (1,3),
    true)

/-- The stream in chunks of one byte. -/
def response : Response := ⟨200,none,(objectWire ++ endWire).map fun b => [b],none⟩

end Sample

theorem consume_frames_exact_sample :
    (consumeFrames Sample.treeframe Sample.client Sample.request (fun _ _ => .ok ())
      (.ok Sample.response) Sample.sink false).1 = .ok () ∧
    Exact Sample.treeframe Sample.Encoded Sample.client Sample.request Sample.sink false
      (Sample.objectWire ++ Sample.endWire) [Sample.object] := by
  have hok : (consumeFrames Sample.treeframe Sample.client Sample.request (fun _ _ => .ok ())
      (.ok Sample.response) Sample.sink false).1.toOption = some () := by decide +kernel
  have hgiven : (consumeFrames Sample.treeframe Sample.client Sample.request (fun _ _ => .ok ())
      (.ok Sample.response) Sample.sink false).2.given = [Sample.object] := by decide +kernel
  obtain ⟨_,hexact,_⟩ := consume_frames_exact Sample.treeframe Sample.Encoded Sample.inverts
    Sample.client Sample.request (fun _ _ => .ok ()) Sample.sink false Sample.response
  rcases hexact with ⟨hresult,_,hexact⟩ | ⟨e,he⟩
  · rw [hgiven] at hexact
    exact ⟨hresult,hexact⟩
  · rw [he] at hok
    cases hok

open Sample in
theorem frame_loop_ends_sample :
    let loop turns := frameLoop treeframe client request (fun _ _ => .ok ())
      (requestBudgets treeframe request) sink turns .start (startCursor response) ⟨[],[],false⟩
    loop (4+96) = loop 4 :=
  frame_loop_ends 4 96 (counted_start false) (by decide)

end Scorpio.ExactStream
