import Scorpio.Transport.ChunkSplits

/-!
# One turn of the frame loop

A turn refuses a header before anything is admitted, refuses a frame after it
was admitted, hands a data frame to the sink, or ends. Each outcome is stated
once, over the bytes before the cursor. The running totals count what the log
shows as admitted, so every run stays within the budgets and ends by itself.
-/

set_option autoImplicit false

namespace Scorpio.FrameTurns

open ByteText Fallible PageCodec OwnedTransport ChunkSplits

section Turn

variable {τ : Type} {t : Treeframe} {client : Client} {request : FrameRequest} {reserve : Reserve}
  {budgets : Budgets} {sink : Sink τ} {p p' : Progress} {c c' : WireCursor} {log log' : Log τ}

/-! ## What one turn does -/

theorem fill_inv {truncated : Text} {size turns : ℕ} {out wire : Bytes}
    (hturns : size-out.length ≤ turns) (h : WireCursor.fill truncated size turns c out =
      .ok (wire,c')) :
    ∃ part, wire = out ++ part ∧ part.length = size-out.length ∧ rest c = part ++ rest c' ∧
      c'.failure = c.failure := by
  by_cases hlong : size-out.length ≤ (rest c).length
  · obtain ⟨d,hrun,hrest,hfail⟩ := fill_ok truncated size turns c out hturns hlong
    rw [h] at hrun
    cases hrun
    refine ⟨_,rfl,List.length_take_of_le hlong,?_,hfail⟩
    rw [hrest, List.take_append_drop]
  · rw [fill_short truncated size turns c out hturns (not_le.mp hlong)] at h
    cases h

theorem refill_inv {more : Bool} (h : c.refill = .ok (more,c')) :
    rest c' = rest c ∧ c'.failure = c.failure ∧
      (more = false → rest c = [] ∧ c.failure = none) := by
  by_cases hnil : rest c = []
  · rcases refill_empty hnil with ⟨e,_,hrun⟩ | ⟨hnone,d,hrun,hrest,hfail⟩
    · rw [h] at hrun
      cases hrun
    · rw [h] at hrun
      cases hrun
      exact ⟨hrest.trans hnil.symm,hfail.trans hnone.symm,fun _ => ⟨hnil,hnone⟩⟩
  · obtain ⟨d,hrun,hrest,hfail,_⟩ := refill_more hnil
    rw [h] at hrun
    cases hrun
    exact ⟨hrest,hfail,nofun⟩

theorem header_inv {header : Bytes} (h : c.header t = .ok (some header,c')) :
    header.length = t.headerLen ∧ rest c = header ++ rest c' ∧ c'.failure = c.failure := by
  obtain ⟨⟨more,d⟩,hrefill,h⟩ := bind_ok.mp h
  obtain ⟨hrest,hfail,_⟩ := refill_inv hrefill
  cases more with
  | false => cases h
  | true =>
    obtain ⟨⟨out,e⟩,hfill,h⟩ := bind_ok.mp h
    cases h
    obtain ⟨part,rfl,hlen,hsplit,hfail'⟩ := fill_inv (by simp) hfill
    exact ⟨hlen,hrest ▸ hsplit,hfail'.trans hfail⟩

theorem read_frame_inv {header : Bytes} {frame : Frame} (h : readFrame t c header = .ok (frame,c')) :
    ∃ part, rest c = part ++ rest c' ∧ c'.failure = c.failure ∧
      t.parseFrame (header ++ part) = .ok (frame,(header ++ part).length) := by
  obtain ⟨⟨wire,d⟩,hfill,h⟩ := bind_ok.mp h
  obtain ⟨⟨found,used⟩,hparse,h⟩ := bind_ok.mp h
  obtain ⟨_,hused,h⟩ := bind_ok.mp h
  cases h
  obtain ⟨part,rfl,_,hsplit,hfail⟩ := fill_inv le_rfl hfill
  have hused : used = (header ++ part).length := by simpa using hused
  exact ⟨part,hsplit,hfail,hused ▸ map_error_ok.mp hparse⟩

/-- What is known of an admitted header. -/
structure Admitted (t : Treeframe) (request : FrameRequest) (budgets : Budgets) (p : Progress)
    (header : Bytes) (p' : Progress) : Prop where
  accepted : headerAccepted t request p header = true
  frames : p.frames+1 ≤ request.itemCount+2
  raw : p.rawTotal+headerRawLen header ≤ budgets.rawMax
  wire : p.wireTotal+(t.headerLen+headerWireLen header) ≤ budgets.wireMax
  next : p' = ⟨some (headerStream header),p.sequence+1,p.frames+1,p.rawTotal+headerRawLen header,
    p.wireTotal+(t.headerLen+headerWireLen header),p.units,p.logical⟩

theorem admit_frame_inv {header : Bytes}
    (h : admitFrame t client request reserve budgets p header = .ok p') :
    Admitted t request budgets p header p' := by
  obtain ⟨_,haccepted,h⟩ := bind_ok.mp h
  obtain ⟨_,_,h⟩ := bind_ok.mp h
  obtain ⟨_,_,h⟩ := bind_ok.mp h
  obtain ⟨raw,hraw,h⟩ := bind_ok.mp h
  obtain ⟨wire,hwire,h⟩ := bind_ok.mp h
  obtain ⟨_,hroom,h⟩ := bind_ok.mp h
  obtain ⟨sequence,hsequence,h⟩ := bind_ok.mp h
  obtain ⟨_,_,h⟩ := bind_ok.mp h
  obtain ⟨_,_,h⟩ := bind_ok.mp h
  cases h
  rw [ok_or_ok, checked_add_some] at hraw hwire hsequence
  obtain ⟨_,rfl⟩ := hraw
  obtain ⟨_,rfl⟩ := hwire
  obtain ⟨_,rfl⟩ := hsequence
  have hroom : p.frames+1 ≤ request.itemCount+2 ∧ p.rawTotal+headerRawLen header ≤ budgets.rawMax ∧
      p.wireTotal+(t.headerLen+headerWireLen header) ≤ budgets.wireMax := by simpa using hroom
  exact ⟨require_ok.mp haccepted,hroom.1,hroom.2.1,hroom.2.2,rfl⟩

/-- The parts of a turn: refused before admission, refused after it, or delivered. -/
theorem turn_cases (t : Treeframe) (client : Client) (request : FrameRequest) (reserve : Reserve)
    (budgets : Budgets) (sink : Sink τ) (p : Progress) (c : WireCursor) (log : Log τ) :
    (∃ e, turn t client request reserve budgets sink p c log = (.stop (.error e),log)) ∨
    ∃ header p' d, c.header t = .ok (some header,d) ∧ Admitted t request budgets p header p' ∧
      ((∃ e, turn t client request reserve budgets sink p c log =
        (.stop (.error e),log.record t header)) ∨
       ∃ frame c', readFrame t d header = .ok (frame,c') ∧
        turn t client request reserve budgets sink p c log =
          deliver client request sink p' c' (log.record t header) frame) := by
  unfold turn
  rcases hheader : c.header t with e | ⟨header,d⟩
  · exact .inl ⟨e,rfl⟩
  cases header with
  | none => exact .inl ⟨_,rfl⟩
  | some header =>
    dsimp only
    cases hadm : admitFrame t client request reserve budgets p header with
    | error e => exact .inl ⟨e,rfl⟩
    | ok p' =>
      refine .inr ⟨header,p',d,rfl,admit_frame_inv hadm,?_⟩
      rcases hread : readFrame t d header with e | ⟨frame,c'⟩
      · exact .inl ⟨e,rfl⟩
      · exact .inr ⟨frame,c',rfl,rfl⟩

theorem offer_cases (request : FrameRequest) (sink : Sink τ) (p : Progress) (c : WireCursor)
    (log : Log τ) (frame : Frame) :
    (∃ e, offer request sink p c log frame =
      (.stop (.error e),log.give frame (sink log.sink frame).2)) ∨
    ∃ added p', (sink log.sink frame).1 = .ok added ∧ chargeUnits request p added = .ok p' ∧
      offer request sink p c log frame = (.go p' c,log.give frame (sink log.sink frame).2) := by
  unfold offer
  cases hanswer : (sink log.sink frame).1 >>= chargeUnits request p with
  | error e => exact .inl ⟨e,rfl⟩
  | ok p' =>
    obtain ⟨added,hadded,hcharge⟩ := bind_ok.mp hanswer
    exact .inr ⟨added,p',hadded,hcharge,rfl⟩

/-- A delivered frame is an END, an error of the server, or data for the sink. -/
theorem deliver_cases (t : Treeframe) (client : Client) (request : FrameRequest) (sink : Sink τ)
    (p : Progress) (c : WireCursor) (log : Log τ) (frame : Frame) :
    (∃ e, frame = .endFrame e ∧
      deliver client request sink p c log frame = (.stop (acceptEnd client request p e c),log)) ∨
    (∃ e, deliver client request sink p c log frame = (.stop (.error e),log)) ∨
    (terminalKind t (t.kindOf frame) = false ∧
      deliver client request sink p c log frame = offer request sink p c log frame) := by
  have hkinds := t.kindsDiffer
  simp only [List.nodup_cons, List.mem_cons, not_or, List.not_mem_nil, or_false] at hkinds
  cases frame with
  | endFrame e => exact .inl ⟨e,rfl,rfl⟩
  | errorFrame code requestId retryable => exact .inr (.inl ⟨_,rfl⟩)
  | metaFrame pages => exact .inr (.inr ⟨by simp [terminalKind, Treeframe.kindOf, hkinds],rfl⟩)
  | objectFrame objects => exact .inr (.inr ⟨by simp [terminalKind, Treeframe.kindOf, hkinds],rfl⟩)
  | chunkFrame mapId fileContentId chunkIndex chunkBytes =>
    exact .inr (.inr ⟨by simp [terminalKind, Treeframe.kindOf, hkinds],rfl⟩)

theorem charge_units_inv {added : ℕ × ℕ} (h : chargeUnits request p added = .ok p') :
    p' = { p with units := p.units+added.1, logical := p.logical+added.2 } := by
  obtain ⟨units,hunits,h⟩ := bind_ok.mp h
  obtain ⟨logical,hlogical,h⟩ := bind_ok.mp h
  obtain ⟨_,_,h⟩ := bind_ok.mp h
  cases h
  rw [ok_or_ok, checked_add_some] at hlogical
  rw [ok_or_ok] at hunits
  unfold checkedAdd32 at hunits
  split at hunits
  · cases hunits
    rw [hlogical.2]
  · cases hunits

/-- A turn that hands a frame to the sink and goes on. -/
structure Went (t : Treeframe) (request : FrameRequest) (budgets : Budgets) (sink : Sink τ)
    (p : Progress) (c : WireCursor) (log : Log τ) (p' : Progress) (c' : WireCursor) (log' : Log τ)
    (header part : Bytes) (frame : Frame) (added : ℕ × ℕ) (p₁ : Progress) : Prop where
  size : header.length = t.headerLen
  bytes : rest c = header ++ part ++ rest c'
  failure : c'.failure = c.failure
  admitted : Admitted t request budgets p header p₁
  parsed : t.parseFrame (header ++ part) = .ok (frame,(header ++ part).length)
  data : terminalKind t (t.kindOf frame) = false
  sunk : (sink log.sink frame).1 = .ok added
  next : p' = { p₁ with units := p₁.units+added.1, logical := p₁.logical+added.2 }
  logged : log' = (log.record t header).give frame (sink log.sink frame).2

theorem turn_go (h : turn t client request reserve budgets sink p c log = (.go p' c',log')) :
    ∃ header part frame added p₁,
      Went t request budgets sink p c log p' c' log' header part frame added p₁ := by
  rcases turn_cases t client request reserve budgets sink p c log with
    ⟨e,hturn⟩ | ⟨header,p₁,d,hheader,hadm,⟨e,hturn⟩ | ⟨frame,c₁,hread,hturn⟩⟩
  · rw [h] at hturn
    cases hturn
  · rw [h] at hturn
    cases hturn
  rw [h] at hturn
  rcases deliver_cases t client request sink p₁ c₁ (log.record t header) frame with
    ⟨e,_,hdeliver⟩ | ⟨e,hdeliver⟩ | ⟨hdata,hdeliver⟩
  · rw [hdeliver] at hturn
    cases hturn
  · rw [hdeliver] at hturn
    cases hturn
  rw [hdeliver] at hturn
  rcases offer_cases request sink p₁ c₁ (log.record t header) frame with
    ⟨e,hoffer⟩ | ⟨added,p₂,hadded,hcharge,hoffer⟩
  · rw [hoffer] at hturn
    cases hturn
  rw [hoffer] at hturn
  cases hturn
  obtain ⟨hlen,hrest,hfail⟩ := header_inv hheader
  obtain ⟨part,hpart,hfail',hparse⟩ := read_frame_inv hread
  exact ⟨header,part,frame,added,p₁,hlen,by rw [hrest, hpart, List.append_assoc],
    hfail'.trans hfail,hadm,hparse,hdata,hadded,charge_units_inv hcharge,rfl⟩

/-- A turn that ends with a receipt. -/
structure Ended (t : Treeframe) (client : Client) (request : FrameRequest) (budgets : Budgets)
    (p : Progress) (c : WireCursor) (header part : Bytes) (e : EndPayload) (p₁ : Progress) :
    Prop where
  size : header.length = t.headerLen
  bytes : rest c = header ++ part
  failure : c.failure = none
  admitted : Admitted t request budgets p header p₁
  parsed : t.parseFrame (header ++ part) = .ok (.endFrame e,(header ++ part).length)
  accepted : endAccepted client request p₁ e = true

theorem turn_end (h : turn t client request reserve budgets sink p c log = (.stop (.ok ()),log')) :
    (∃ header part e p₁, Ended t client request budgets p c header part e p₁) ∧
      log'.given = log.given := by
  rcases turn_cases t client request reserve budgets sink p c log with
    ⟨e,hturn⟩ | ⟨header,p₁,d,hheader,hadm,⟨e,hturn⟩ | ⟨frame,c₁,hread,hturn⟩⟩
  · rw [h] at hturn
    cases hturn
  · rw [h] at hturn
    cases hturn
  rw [h] at hturn
  rcases deliver_cases t client request sink p₁ c₁ (log.record t header) frame with
    ⟨e,rfl,hdeliver⟩ | ⟨e,hdeliver⟩ | ⟨_,hdeliver⟩
  · rw [hdeliver] at hturn
    obtain ⟨hresult,hlog⟩ := Prod.mk.inj hturn
    obtain ⟨_,haccepted,haccept⟩ := bind_ok.mp (Turn.stop.inj hresult).symm
    obtain ⟨⟨more,d'⟩,hrefill,hmore⟩ := bind_ok.mp haccept
    have hmore : more = false := by simpa using hmore
    obtain ⟨_,_,hend⟩ := refill_inv hrefill
    obtain ⟨hnil,hnone⟩ := hend hmore
    obtain ⟨hlen,hrest,hfail⟩ := header_inv hheader
    obtain ⟨part,hpart,hfail',hparse⟩ := read_frame_inv hread
    refine ⟨⟨header,part,e,p₁,hlen,?_,?_,hadm,hparse,require_ok.mp haccepted⟩,by rw [hlog]; rfl⟩
    · rw [hrest, hpart, hnil, List.append_nil]
    · rw [← hfail, ← hfail', hnone]
  · rw [hdeliver] at hturn
    cases hturn
  · rw [hdeliver] at hturn
    rcases offer_cases request sink p₁ c₁ (log.record t header) frame with
      ⟨e,hoffer⟩ | ⟨added,p₂,hadded,hcharge,hoffer⟩
    · rw [hoffer] at hturn
      cases hturn
    · rw [hoffer] at hturn
      cases hturn

/-! ## Budgets -/

/-- What the log shows as admitted is within the budgets. -/
structure WithinBudgets (request : FrameRequest) (budgets : Budgets) (log : Log τ) : Prop where
  frames : log.admitted.length ≤ request.itemCount+2
  raw : (log.admitted.map Prod.fst).sum ≤ budgets.rawMax
  wire : (log.admitted.map Prod.snd).sum ≤ budgets.wireMax

/-- The running totals count what the log shows. -/
structure Counted (request : FrameRequest) (budgets : Budgets) (p : Progress) (log : Log τ) :
    Prop extends WithinBudgets request budgets log where
  countFrames : log.admitted.length = p.frames
  countRaw : (log.admitted.map Prod.fst).sum = p.rawTotal
  countWire : (log.admitted.map Prod.snd).sum = p.wireTotal

theorem Counted.record {header : Bytes} (h : Counted request budgets p log)
    (hadm : Admitted t request budgets p header p') :
    Counted request budgets p' (log.record t header) := by
  obtain ⟨_,hframes,hraw,hwire,rfl⟩ := hadm
  rw [← h.countFrames] at hframes
  rw [← h.countRaw] at hraw
  rw [← h.countWire] at hwire
  refine ⟨⟨?_,?_,?_⟩,?_,?_,?_⟩ <;>
    simp only [Log.record, List.length_append, List.length_singleton, List.map_append, List.map_cons,
      List.map_nil, List.sum_append, List.sum_singleton, h.countFrames, h.countRaw, h.countWire]
  · exact h.countFrames ▸ hframes
  · exact h.countRaw ▸ hraw
  · exact h.countWire ▸ hwire

/-- A turn that goes on has counted its frame, and one that stops is within the budgets. -/
def CountedTurn (request : FrameRequest) (budgets : Budgets) : Turn × Log τ → Prop
  | (.stop _,log) => WithinBudgets request budgets log
  | (.go p _,log) => Counted request budgets p log

theorem turn_counted (t : Treeframe) (client : Client) (reserve : Reserve) (sink : Sink τ)
    (c : WireCursor) (h : Counted request budgets p log) :
    CountedTurn request budgets (turn t client request reserve budgets sink p c log) := by
  rcases turn_cases t client request reserve budgets sink p c log with
    ⟨e,hturn⟩ | ⟨header,p₁,d,_,hadm,⟨e,hturn⟩ | ⟨frame,c₁,_,hturn⟩⟩
  · rw [hturn]
    exact h.toWithinBudgets
  · rw [hturn]
    exact (h.record hadm).toWithinBudgets
  · have hcounted := h.record hadm
    rw [hturn]
    rcases deliver_cases t client request sink p₁ c₁ (log.record t header) frame with
      ⟨e,rfl,hdeliver⟩ | ⟨e,hdeliver⟩ | ⟨_,hdeliver⟩
    · rw [hdeliver]
      exact hcounted.toWithinBudgets
    · rw [hdeliver]
      exact hcounted.toWithinBudgets
    · rw [hdeliver]
      rcases offer_cases request sink p₁ c₁ (log.record t header) frame with
        ⟨e,hoffer⟩ | ⟨added,p₂,_,hcharge,hoffer⟩
      · rw [hoffer]
        exact ⟨hcounted.frames,hcounted.raw,hcounted.wire⟩
      · rw [hoffer, charge_units_inv hcharge]
        exact ⟨⟨hcounted.frames,hcounted.raw,hcounted.wire⟩,hcounted.countFrames,
          hcounted.countRaw,hcounted.countWire⟩

theorem frame_loop_within (turns : ℕ) (h : Counted request budgets p log) :
    WithinBudgets request budgets
      (frameLoop t client request reserve budgets sink turns p c log).2 := by
  induction turns generalizing p c log with
  | zero => exact h.toWithinBudgets
  | succ turns ih =>
    have hcounted := turn_counted t client reserve sink c h
    unfold frameLoop
    rcases hturn : turn t client request reserve budgets sink p c log with ⟨result | ⟨p',c'⟩,log'⟩
    · rw [hturn] at hcounted
      exact hcounted
    · rw [hturn] at hcounted
      exact ih hcounted

/-- The turns the frame budget leaves are enough: the loop ends by itself. -/
theorem frame_loop_ends (turns more : ℕ) (h : Counted request budgets p log)
    (hturns : request.itemCount+2 < p.frames+turns) :
    frameLoop t client request reserve budgets sink (turns+more) p c log =
      frameLoop t client request reserve budgets sink turns p c log := by
  induction turns generalizing p c log with
  | zero =>
    have hframes := h.countFrames ▸ h.frames
    omega
  | succ turns ih =>
    have hcounted := turn_counted t client reserve sink c h
    rw [Nat.succ_add]
    unfold frameLoop
    rcases hturn : turn t client request reserve budgets sink p c log with ⟨result | ⟨p',c'⟩,log'⟩
    · rfl
    · rw [hturn] at hcounted
      obtain ⟨header,part,frame,added,p₁,went⟩ := turn_go hturn
      have hnext : p'.frames = p.frames+1 := by rw [went.next, went.admitted.next]
      exact ih hcounted (by omega)

end Turn

end Scorpio.FrameTurns
