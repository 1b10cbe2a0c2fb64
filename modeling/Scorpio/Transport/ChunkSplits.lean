import Scorpio.Base.TwoRuns
import Scorpio.Transport.OwnedTransport

/-!
# Splitting a response into chunks

The bytes a cursor still has before it are the rest of the current chunk and
the chunks to come. Every operation of the cursor is determined by these bytes
and by what the transport reports behind them, so neither the frames, nor the
errors, nor what the sink sees depend on where the chunks were cut.
-/

set_option autoImplicit false

namespace Scorpio.ChunkSplits

open ByteText TwoRuns Slices PageCodec OwnedTransport

/-- The bytes before the cursor. -/
def rest (c : WireCursor) : Bytes := c.current.drop c.offset ++ c.pending.flatten

/-- Two cursors before the same bytes. -/
structure Alike (c c' : WireCursor) : Prop where
  rest : rest c = rest c'
  failure : c.failure = c'.failure

/-! ## The cursor -/

section Cursor

theorem refill_from_spec (failure : Option SnapshotError) (pending : List Bytes) (current : Bytes)
    (offset : ℕ) (h : offset ≤ current.length) :
    (current.drop offset ++ pending.flatten = [] ∧
      ((∃ e, failure = some e ∧
        WireCursor.refillFrom failure pending current offset h = .error e) ∨
       (failure = none ∧ ∃ c,
        WireCursor.refillFrom failure pending current offset h = .ok (false,c) ∧
          rest c = [] ∧ c.failure = none))) ∨
    ∃ c, WireCursor.refillFrom failure pending current offset h = .ok (true,c) ∧
      rest c = current.drop offset ++ pending.flatten ∧ c.failure = failure ∧
      c.offset < c.current.length := by
  induction pending generalizing current offset with
  | nil =>
    unfold WireCursor.refillFrom
    split
    · rename_i hend
      refine .inl ⟨by simp [hend],?_⟩
      cases failure with
      | some e => exact .inl ⟨e,rfl,rfl⟩
      | none => exact .inr ⟨rfl,_,rfl,by simp [rest, hend],rfl⟩
    · rename_i hmore
      exact .inr ⟨_,rfl,rfl,rfl,lt_of_le_of_ne h hmore⟩
  | cons chunk pending ih =>
    unfold WireCursor.refillFrom
    split
    · rename_i hend
      simpa [hend] using ih chunk 0 (Nat.zero_le _)
    · rename_i hmore
      exact .inr ⟨_,rfl,rfl,rfl,lt_of_le_of_ne h hmore⟩

variable {c c' : WireCursor}

theorem refill_empty (h : rest c = []) :
    (∃ e, c.failure = some e ∧ c.refill = .error e) ∨
      (c.failure = none ∧ ∃ c', c.refill = .ok (false,c') ∧ rest c' = [] ∧ c'.failure = none) := by
  rcases refill_from_spec c.failure c.pending c.current c.offset c.bounded with
    ⟨_,hend⟩ | ⟨c',_,hrest,_,hlt⟩
  · exact hend
  · have hne : rest c' ≠ [] := by
      intro hnil
      have hdrop := (List.append_eq_nil_iff.mp hnil).1
      rw [List.drop_eq_nil_iff] at hdrop
      omega
    exact absurd (hrest.trans h) hne

theorem refill_more (h : rest c ≠ []) :
    ∃ c', c.refill = .ok (true,c') ∧ rest c' = rest c ∧ c'.failure = c.failure ∧
      c'.offset < c'.current.length := by
  rcases refill_from_spec c.failure c.pending c.current c.offset c.bounded with ⟨hend,_⟩ | hmore
  · exact absurd hend h
  · exact hmore

theorem step_length (c : WireCursor) (room : ℕ) :
    (slice c.current c.offset (c.offset+c.step room)).length = c.step room := by
  have h := c.bounded
  simp only [slice_length, WireCursor.step]
  omega

theorem rest_advance (c : WireCursor) (room : ℕ) :
    rest c = slice c.current c.offset (c.offset+c.step room) ++ rest (c.advance room) := by
  have hsplit : c.current.drop c.offset =
      slice c.current c.offset (c.offset+c.step room) ++
        c.current.drop (c.offset+c.step room) := by
    rw [slice, List.drop_take, Nat.add_sub_cancel_left, ← List.drop_drop, List.take_append_drop]
  rw [rest, hsplit, List.append_assoc]
  rfl

/-- One turn of the copy loop moves some of the missing bytes. -/
theorem fill_step (truncated : Text) {size : ℕ} (turns : ℕ) {out : Bytes} (hlt : out.length < size)
    (hne : rest c ≠ []) :
    ∃ part c', 0 < part.length ∧ part.length ≤ size-out.length ∧ rest c = part ++ rest c' ∧
      c'.failure = c.failure ∧ WireCursor.fill truncated size (turns+1) c out =
        WireCursor.fill truncated size turns c' (out ++ part) := by
  obtain ⟨c₁,hrefill,hrest₁,hfail₁,hoff⟩ := refill_more hne
  have hlen := step_length c₁ (size-out.length)
  have hpos : 0 < c₁.step (size-out.length) ∧ c₁.step (size-out.length) ≤ size-out.length := by
    unfold WireCursor.step
    omega
  refine ⟨slice c₁.current c₁.offset (c₁.offset+c₁.step (size-out.length)),
    c₁.advance (size-out.length),by rw [hlen]; exact hpos.1,by rw [hlen]; exact hpos.2,
    hrest₁ ▸ rest_advance c₁ (size-out.length),hfail₁,?_⟩
  rw [WireCursor.fill, if_pos hlt, hrefill]
  rfl

/-- The copy loop takes exactly the bytes that are missing. -/
theorem fill_ok (truncated : Text) (size turns : ℕ) (c : WireCursor) (out : Bytes)
    (hturns : size-out.length ≤ turns) (hrest : size-out.length ≤ (rest c).length) :
    ∃ c', WireCursor.fill truncated size turns c out =
        .ok (out ++ (rest c).take (size-out.length),c') ∧
      rest c' = (rest c).drop (size-out.length) ∧ c'.failure = c.failure := by
  induction turns generalizing c out with
  | zero =>
    have hzero : size-out.length = 0 := Nat.le_zero.mp hturns
    exact ⟨c,by simp [WireCursor.fill, hzero],by simp [hzero],rfl⟩
  | succ turns ih =>
    by_cases hlt : out.length < size
    · have hne : rest c ≠ [] := List.ne_nil_of_length_pos (by omega)
      obtain ⟨part,c₁,hpos,hle,hsplit,hfail,hrun⟩ := fill_step truncated turns hlt hne
      have hroom : size-(out ++ part).length = size-out.length-part.length := by
        rw [List.length_append]
        omega
      have hlong : size-(out ++ part).length ≤ (rest c₁).length := by
        rw [hsplit, List.length_append] at hrest
        omega
      obtain ⟨c',hfill,hrest',hfail'⟩ := ih c₁ (out ++ part) (by omega) hlong
      refine ⟨c',?_,?_,hfail'.trans hfail⟩
      · rw [hrun, hfill, hsplit, List.take_append, List.take_of_length_le hle, hroom,
          List.append_assoc]
      · rw [hrest', hsplit, List.drop_append, List.drop_of_length_le hle, hroom, List.nil_append]
    · have hzero : size-out.length = 0 := by omega
      exact ⟨c,by simp [WireCursor.fill, hlt, hzero],by simp [hzero],rfl⟩

/-- Bytes that do not come end the copy with the failure of the transport or a truncation. -/
theorem fill_short (truncated : Text) (size turns : ℕ) (c : WireCursor) (out : Bytes)
    (hturns : size-out.length ≤ turns) (hrest : (rest c).length < size-out.length) :
    WireCursor.fill truncated size turns c out =
      .error (c.failure.getD (invalid truncated)) := by
  induction turns generalizing c out with
  | zero => omega
  | succ turns ih =>
    have hlt : out.length < size := by omega
    by_cases hnil : rest c = []
    · rw [WireCursor.fill, if_pos hlt]
      rcases refill_empty hnil with ⟨e,he,hrefill⟩ | ⟨he,c',hrefill,_,_⟩
      · rw [hrefill, he]
        rfl
      · rw [hrefill, he]
        rfl
    · obtain ⟨part,c₁,hpos,hle,hsplit,hfail,hrun⟩ := fill_step truncated turns hlt hnil
      rw [hsplit, List.length_append] at hrest
      have hroom : size-(out ++ part).length = size-out.length-part.length := by
        rw [List.length_append]
        omega
      rw [hrun, ih c₁ (out ++ part) (by omega) (by omega), hfail]

/-- Results with cursors before the same bytes. -/
def AlikeWith {α : Type} (x y : α × WireCursor) : Prop := x.1 = y.1 ∧ Alike x.2 y.2

theorem refill_alike (h : Alike c c') : Matched AlikeWith c.refill c'.refill := by
  by_cases hnil : rest c = []
  · rcases refill_empty hnil with ⟨e,he,hrun⟩ | ⟨he,d,hrun,hrest,hfail⟩ <;>
    rcases refill_empty (h.rest ▸ hnil) with ⟨e',he',hrun'⟩ | ⟨he',d',hrun',hrest',hfail'⟩ <;>
    rw [← h.failure, he] at he'
    · cases he'
      rw [hrun, hrun']
      rfl
    · cases he'
    · cases he'
    · rw [hrun, hrun']
      exact ⟨rfl,hrest.trans hrest'.symm,hfail.trans hfail'.symm⟩
  · obtain ⟨d,hrun,hrest,hfail,_⟩ := refill_more hnil
    obtain ⟨d',hrun',hrest',hfail',_⟩ := refill_more (h.rest ▸ hnil)
    rw [hrun, hrun']
    exact ⟨rfl,by rw [hrest, hrest', h.rest],by rw [hfail, hfail', h.failure]⟩

theorem fill_alike (truncated : Text) (size turns : ℕ) (out : Bytes)
    (hturns : size-out.length ≤ turns) (h : Alike c c') :
    Matched AlikeWith (WireCursor.fill truncated size turns c out)
      (WireCursor.fill truncated size turns c' out) := by
  by_cases hlong : size-out.length ≤ (rest c).length
  · obtain ⟨d,hrun,hrest,hfail⟩ := fill_ok truncated size turns c out hturns hlong
    obtain ⟨d',hrun',hrest',hfail'⟩ := fill_ok truncated size turns c' out hturns (h.rest ▸ hlong)
    rw [hrun, hrun', h.rest]
    exact ⟨rfl,by rw [hrest, hrest', h.rest],by rw [hfail, hfail', h.failure]⟩
  · rw [not_le] at hlong
    rw [fill_short truncated size turns c out hturns hlong,
      fill_short truncated size turns c' out hturns (h.rest ▸ hlong), h.failure]
    rfl

theorem header_alike (t : Treeframe) (h : Alike c c') :
    Matched AlikeWith (c.header t) (c'.header t) := by
  refine (refill_alike h).bind ?_
  rintro ⟨more,d⟩ ⟨_,d'⟩ ⟨rfl,hd⟩
  cases more with
  | false => exact ⟨rfl,hd⟩
  | true =>
    refine (fill_alike _ _ _ [] (by simp) hd).bind ?_
    rintro ⟨header,e⟩ ⟨_,e'⟩ ⟨rfl,he⟩
    exact ⟨rfl,he⟩

theorem read_frame_alike (t : Treeframe) (header : Bytes) (h : Alike c c') :
    Matched AlikeWith (readFrame t c header) (readFrame t c' header) := by
  refine (fill_alike _ _ _ header le_rfl h).bind ?_
  rintro ⟨wire,d⟩ ⟨_,d'⟩ ⟨rfl,hd⟩
  refine (matched_same _).bind ?_
  rintro ⟨frame,used⟩ _ rfl
  refine (matched_same _).bind fun _ _ _ => ?_
  exact ⟨rfl,hd⟩

end Cursor

/-! ## The loop -/

section Loop

variable {τ : Type} {t : Treeframe} {client : Client} {request : FrameRequest} {reserve : Reserve}
  {budgets : Budgets} {sink : Sink τ} {c c' : WireCursor}

/-- Turns that end alike, with the same log. -/
inductive AlikeTurn : Turn × Log τ → Turn × Log τ → Prop
  | stop (result : Result Unit) (log : Log τ) : AlikeTurn (.stop result,log) (.stop result,log)
  | go (p : Progress) (log : Log τ) {c c' : WireCursor} (h : Alike c c') :
    AlikeTurn (.go p c,log) (.go p c',log)

theorem accept_end_alike (p : Progress) (e : EndPayload) (h : Alike c c') :
    acceptEnd client request p e c = acceptEnd client request p e c' := by
  apply eq_of_matched
  refine (matched_same _).bind fun _ _ _ => ?_
  refine (refill_alike h).bind ?_
  rintro ⟨more,d⟩ ⟨_,d'⟩ ⟨rfl,hd⟩
  exact matched_same _

theorem offer_alike (p : Progress) (log : Log τ) (frame : Frame) (h : Alike c c') :
    AlikeTurn (offer request sink p c log frame) (offer request sink p c' log frame) := by
  unfold offer
  cases (sink log.sink frame).1 >>= chargeUnits request p with
  | error e => exact .stop _ _
  | ok p => exact .go p _ h

theorem deliver_alike (p : Progress) (log : Log τ) (frame : Frame) (h : Alike c c') :
    AlikeTurn (deliver client request sink p c log frame)
      (deliver client request sink p c' log frame) := by
  cases frame with
  | endFrame e =>
    simp only [deliver, accept_end_alike p e h]
    exact .stop _ _
  | errorFrame code requestId retryable => exact .stop _ _
  | metaFrame pages => exact offer_alike p log _ h
  | objectFrame objects => exact offer_alike p log _ h
  | chunkFrame mapId fileContentId chunkIndex chunkBytes => exact offer_alike p log _ h

theorem turn_alike (p : Progress) (log : Log τ) (h : Alike c c') :
    AlikeTurn (turn t client request reserve budgets sink p c log)
      (turn t client request reserve budgets sink p c' log) := by
  have hheader := header_alike t h
  unfold turn
  rcases hx : c.header t with e | ⟨header,d⟩ <;> rcases hy : c'.header t with e' | ⟨header',d'⟩ <;>
    rw [hx, hy] at hheader
  · cases hheader
    exact .stop _ _
  · exact hheader.elim
  · exact hheader.elim
  obtain ⟨rfl,hd⟩ : header = header' ∧ Alike d d' := hheader
  cases header with
  | none => exact .stop _ _
  | some header =>
    dsimp only
    cases admitFrame t client request reserve budgets p header with
    | error e => exact .stop _ _
    | ok p =>
      have hread := read_frame_alike t header hd
      rcases hu : readFrame t d header with e | ⟨frame,f⟩ <;>
        rcases hw : readFrame t d' header with e' | ⟨frame',f'⟩ <;>
        rw [hu, hw] at hread
      · cases hread
        exact .stop _ _
      · exact hread.elim
      · exact hread.elim
      · obtain ⟨rfl,hf⟩ : frame = frame' ∧ Alike f f' := hread
        exact deliver_alike p _ frame hf

theorem frame_loop_alike (turns : ℕ) (p : Progress) (log : Log τ) (h : Alike c c') :
    frameLoop t client request reserve budgets sink turns p c log =
      frameLoop t client request reserve budgets sink turns p c' log := by
  induction turns generalizing p c c' log with
  | zero => rfl
  | succ turns ih =>
    have hturn : AlikeTurn (turn t client request reserve budgets sink p c log)
      (turn t client request reserve budgets sink p c' log) := turn_alike p log h
    unfold frameLoop
    generalize turn t client request reserve budgets sink p c log = x at hturn
    generalize turn t client request reserve budgets sink p c' log = y at hturn
    cases hturn with
    | stop result log => rfl
    | go p log h => exact ih p log h

/-- An error body is read as a whole too. -/
theorem typed_error_loop_eq (response : Response) (capacity : ℕ) (chunks : List Bytes)
    (buffer : Bytes) (hroom : buffer.length ≤ capacity) :
    typedErrorLoop client response capacity chunks buffer =
      if capacity < buffer.length+chunks.flatten.length then
        limit "JSON error response exceeds the protocol byte budget"
      else response.failure.elim (client.responseError (buffer ++ chunks.flatten) response.status)
        id := by
  induction chunks generalizing buffer with
  | nil =>
    rw [typedErrorLoop, if_neg (by simpa using hroom)]
    simp
  | cons chunk chunks ih =>
    rw [typedErrorLoop]
    split
    · rename_i hover
      rw [if_pos (by simp only [List.flatten_cons, List.length_append]; omega)]
    · rename_i hfits
      rw [ih _ (by rw [List.length_append]; omega)]
      simp only [List.flatten_cons, List.length_append, List.append_assoc, Nat.add_assoc]

/-- The response as one chunk. -/
def unsplit (response : Response) : Response := { response with chunks := [response.chunks.flatten] }

theorem typed_error_unsplit (response : Response) :
    typedError t client reserve (unsplit response) = typedError t client reserve response := by
  unfold typedError
  cases hbuffer : newBuffer t reserve 0 (min client.responseByteLimit 1048576) 0 with
  | error e => rfl
  | ok _ =>
    rw [typed_error_loop_eq _ _ _ _ (Nat.zero_le _), typed_error_loop_eq _ _ _ _ (Nat.zero_le _)]
    simp [unsplit]

theorem start_cursor_unsplit (response : Response) :
    Alike (startCursor (unsplit response)) (startCursor response) :=
  ⟨by simp [startCursor, unsplit, rest],rfl⟩

theorem consume_frames_unsplit (response : Response) (s : τ) :
    consumeFrames t client request reserve (.ok response) sink s =
      consumeFrames t client request reserve (.ok (unsplit response)) sink s := by
  unfold consumeFrames
  simp only [typed_error_unsplit,
    frame_loop_alike _ _ _ (start_cursor_unsplit response)]
  rfl

end Loop

end Scorpio.ChunkSplits
