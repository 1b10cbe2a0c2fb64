import Scorpio.Base.Slices
import Scorpio.Content.CasRead

/-!
# What a successful range read returns

The contract of a read: a hash is the digest of its bytes, a cached fact
describes some content, and only such a fact is published. Under this contract
every lane returns a slice of one content with the requested digest. The scan is
carried by its progress through the bytes it has hashed; a covering chunk is
the same chunk of the content because their digests agree.
-/

set_option autoImplicit false

namespace Scorpio.CasRead

open ByteText PageCodec Dialogues IndexCache Slices

/-! ## Chunks of a content -/

theorem chunk_size_pos : 0 < chunkSize := Nat.zero_lt_succ _

def piece (c : Bytes) (i : ℕ) : Bytes := slice c (i*chunkSize) ((i+1)*chunkSize)

/-! ## The contract -/

section Contract

variable (sha : Bytes → Digest) (W : Set Bytes)

/-- The fact holds the digests of the chunks of `c`, and `c` has the fact's digest and size. -/
structure Describes (f : Index) (c : Bytes) : Prop where
  known : c ∈ W
  digest : sha c = f.digest
  size : c.length = f.size
  bounded : f.size ≤ usizeMax
  count : f.chunks.length = (c.length+chunkSize-1)/chunkSize
  chunk : ∀ i d, f.chunks[i]? = some d → d = sha (piece c i) ∧ piece c i ∈ W

/-- `W` is any set with the byte strings that were hashed. -/
def terms : Contract Answer where
  asks
    | .cachePublish f => ∃ c, Describes sha W f c
    | _ => True
  answers
    | .sha256 b, d => d = sha b ∧ b ∈ W
    | .cacheGet domain digest size, some f =>
      f.matches domain digest size = true ∧ ∃ c, Describes sha W f c
    | _, _ => True

variable {sha W} {w : Work}

theorem ensures_sha256 {b : Bytes} {Q : Digest → Work → Prop} (h : b ∈ W → Q (sha b) w) :
    Ensures (terms sha W) (sha256 b) w Q :=
  ensures_call trivial fun _ hr => hr.1 ▸ h hr.2

variable {Q : Unit → Work → Prop} {len i n fuel : ℕ} {d fixed : Digest} {domain path : Text}

theorem ensures_meter {f : Meters → Meters} (h : Q () {w with meters := f w.meters}) :
    Ensures (terms sha W) (meter f) w Q :=
  ensures_update fun _ => h

theorem ensures_system {α : Type} {x : Except IoError α} {Q : α → Work → Prop}
    (h : ∀ a, Q a w) : Ensures (terms sha W) (system x) w Q :=
  ensures_lift fun a _ => h a

theorem ensures_check_metadata {size : ℕ} (h : Q () w) :
    Ensures (terms sha W) (checkMetadata size) w Q := by
  refine Ensures.bind (Ensures.bind (P := fun _ t => t = w) (ensures_call trivial fun _ _ => rfl)
    fun x t ht => ?_) (P := fun _ t => t = w) fun m t ht => ?_
  · subst ht
    exact ensures_system fun _ => rfl
  · subst ht
    split
    · exact ensures_fail
    · exact ensures_pure h

/-- A read gives at most the buffer, and touches the meters only. -/
theorem ensures_read_retry {Q : Bytes → Work → Prop}
    (h : ∀ b t, b.length ≤ len → t.output = w.output → Q b t) :
    Ensures (terms sha W) (readRetry len) w Q := by
  refine Ensures.bind (Ensures.bind (P := fun _ t => t = w) (ensures_call trivial fun _ _ => rfl)
    fun x t ht => ?_) (P := fun _ t => t = w) fun b t ht => ?_
  · subst ht
    exact ensures_system fun _ => rfl
  · subst ht
    exact Ensures.bind (P := fun _ t' => t'.output = t.output) (ensures_meter rfl)
      fun _ t' ht' => ensures_pure (h b.val t' b.property ht')

theorem ensures_copy {c buffer : Bytes} {start offset stop : ℕ}
    (hbuf : buffer = slice c start (start+buffer.length)) (hlen : start+buffer.length ≤ c.length)
    (hout : w.output.bytes = slice c offset (min stop start)) :
    Ensures (terms sha W) (copyIntersection buffer start offset stop) w
      fun _ t => t.output.bytes = slice c offset (min stop (start+buffer.length)) := by
  refine ensures_update ?_
  dsimp only
  by_cases hlt : max start offset < min (start+buffer.length) stop
  · rw [if_pos hlt]
    unfold RangeSink.append
    split
    · intro h
      cases h
    · rename_i out happ
      split at happ
      · cases happ
      · cases happ
        intro _
        dsimp only
        rw [hout, hbuf, slice_length, slice_slice (by omega) (by omega)]
        rw [show min (start+buffer.length) c.length-start = buffer.length by omega]
        rcases Nat.le_total offset start with h | h
        · rw [show min stop start = start by omega, show max start offset = start by omega,
            slice_join h (by omega) (by omega), Nat.min_comm]
        · have hempty : slice c offset (min stop start) = slice c offset offset :=
            slice_stop (by omega)
          rw [hempty, show max start offset = offset by omega,
            slice_join le_rfl (by omega) (by omega), Nat.min_comm]
  · rw [if_neg hlt]
    intro _
    rw [hout]
    exact slice_stop (by omega)

/-! ## The scan -/

/-- The chunk digests `l` cover `p` up to the open chunk of the scan. -/
structure Chunked (sha : Bytes → Digest) (W : Set Bytes) (p : Bytes) (s : Scan)
    (l : List Digest) : Prop where
  chunks : s.chunks = some l
  bytes : s.chunkBytes = s.chunk.length
  room : s.chunk.length < chunkSize
  rest : s.chunk = p.drop (l.length*chunkSize)
  past : l.length*chunkSize ≤ p.length
  each : ∀ i d, l[i]? = some d → d = sha (piece p i) ∧ piece p i ∈ W

theorem piece_append {p b : Bytes} (hi : i < n) (hn : n*chunkSize ≤ p.length) :
    piece (p ++ b) i = piece p i :=
  slice_append_left (le_trans (Nat.mul_le_mul_right _ hi) hn)

variable {p b : Bytes} {s : Scan} {l : List Digest}

section Chunks

variable (h : Chunked sha W p s l)

include h

theorem Chunked.each_append (b : Bytes) (hi : l[i]? = some d) :
    d = sha (piece (p ++ b) i) ∧ piece (p ++ b) i ∈ W := by
  rw [piece_append (List.getElem?_eq_some_iff.mp hi).1 h.past]
  exact h.each i d hi

theorem Chunked.length : s.chunk.length+l.length*chunkSize = p.length := by
  have hlen := congrArg List.length h.rest
  have := h.past
  rw [List.length_drop] at hlen
  omega

theorem Chunked.open_append (b : Bytes) : s.chunk ++ b = (p ++ b).drop (l.length*chunkSize) := by
  rw [List.drop_append_of_le_length h.past, ← h.rest]

/-- The bytes stay in the open chunk. -/
theorem Chunked.extend (hb : s.chunk.length+b.length < chunkSize) : Chunked sha W (p ++ b)
      {s with chunk := s.chunk ++ b, chunkBytes := s.chunkBytes+b.length} l where
  chunks := h.chunks
  bytes := by simp [h.bytes]
  room := by simpa using hb
  rest := h.open_append b
  past := le_trans h.past (by simp)
  each := fun _ _ hi => h.each_append b hi

/-- The open chunk with `b` is the next piece of the content. -/
theorem Chunked.next_piece (hb : s.chunk.length+b.length ≤ chunkSize) :
    piece (p ++ b) l.length = s.chunk ++ b := by
  have hlen := h.length
  rw [h.open_append b, piece, slice, List.take_of_length_le]
  rw [List.length_append, Nat.succ_mul]
  omega

theorem Chunked.each_next (hb : s.chunk.length+b.length ≤ chunkSize)
    (hW : s.chunk ++ b ∈ W) (hi : (l ++ [sha (s.chunk ++ b)])[i]? = some d) :
    d = sha (piece (p ++ b) i) ∧ piece (p ++ b) i ∈ W := by
  rcases Nat.lt_trichotomy i l.length with hlt | rfl | hgt
  · rw [List.getElem?_append_left hlt] at hi
    exact h.each_append b hi
  · rw [List.getElem?_append_right le_rfl, Nat.sub_self] at hi
    cases hi
    rw [h.next_piece hb]
    exact ⟨rfl,hW⟩
  · rw [List.getElem?_eq_none (by simp; omega)] at hi
    cases hi

/-- The bytes end the open chunk, and its digest is taken. -/
theorem Chunked.close (hb : s.chunk.length+b.length = chunkSize) (hW : s.chunk ++ b ∈ W) :
    Chunked sha W (p ++ b)
      {s.push (sha (s.chunk ++ b)) with chunk := [], chunkBytes := 0}
      (l ++ [sha (s.chunk ++ b)]) := by
  have hlen := h.length
  have hpast : (l ++ [sha (s.chunk ++ b)]).length*chunkSize = (p ++ b).length := by
    rw [List.length_append, List.length_singleton, List.length_append, Nat.succ_mul]
    omega
  refine ⟨by simp [Scan.push, h.chunks],rfl,Nat.zero_lt_succ _,?_,hpast.le,
    fun _ _ hi => h.each_next hb.le hW hi⟩
  rw [hpast, List.drop_length]

end Chunks

theorem ensures_feed {rest : Bytes} (h : Chunked sha W p s l) (hfuel : rest.length ≤ fuel) :
    Ensures (terms sha W) (feed fuel rest s) w fun s' t => t.output = w.output ∧
      s'.read = s.read ∧ s'.whole = s.whole ∧ ∃ l', Chunked sha W (p ++ rest) s' l' := by
  induction fuel generalizing rest p s l w with
  | zero =>
    obtain rfl : rest = [] := List.length_eq_zero_iff.mp (by omega)
    exact ensures_pure ⟨rfl,rfl,rfl,l,by simpa using h⟩
  | succ fuel ih =>
    unfold feed
    split
    · rename_i hnil
      subst hnil
      exact ensures_pure ⟨rfl,rfl,rfl,l,by simpa using h⟩
    · rename_i hne
      have hpos : 0 < rest.length := List.length_pos_iff.mpr hne
      have hroom := h.room
      have hbytes := h.bytes
      generalize htake : min (chunkSize-s.chunkBytes) rest.length = take
      have hlen : (rest.take take).length = take := by rw [List.length_take]; omega
      have hrest : (rest.drop take).length ≤ fuel := by rw [List.length_drop]; omega
      have happ : p ++ rest = (p ++ rest.take take) ++ rest.drop take := by
        rw [List.append_assoc, List.take_append_drop]
      refine Ensures.bind (P := fun _ t => t.output = w.output) (ensures_meter rfl) fun _ t ht => ?_
      dsimp only
      split
      · rename_i hfull
        refine Ensures.bind (P := fun d t' => t' = t ∧ d = sha (s.chunk ++ rest.take take) ∧
          s.chunk ++ rest.take take ∈ W) (ensures_sha256 fun hW => ⟨rfl,rfl,hW⟩) ?_
        rintro d t' ⟨rfl,rfl,hW⟩
        have hclose := h.close (b := rest.take take) (by omega) hW
        rw [happ]
        refine Ensures.mono (ih hclose hrest) fun s' t' hs' => ?_
        rw [← ht]
        exact hs'
      · rename_i hopen
        have hext := h.extend (b := rest.take take) (by omega)
        rw [happ]
        rw [hlen] at hext
        refine Ensures.mono (ih hext hrest) fun s' t' hs' => ?_
        rw [← ht]
        exact hs'

/-- What the loop of the scan keeps: the output is the part of the range read so far. -/
structure Progress (sha : Bytes → Digest) (W : Set Bytes) (offset stop : ℕ) (s : Scan)
    (w : Work) : Prop where
  read : s.read = s.whole.length
  output : w.output.bytes = slice s.whole offset (min stop s.read)
  chunked : ∀ l, s.chunks = some l → Chunked sha W s.whole s l

variable {size offset stop : ℕ}

/-- The hashes of one buffer. -/
theorem ensures_hash_buffer (h : ∀ l, s.chunks = some l → Chunked sha W p s l) (b : Bytes) :
    Ensures (terms sha W) (hashBuffer b s) w fun s' t => t.output = w.output ∧ s'.read = s.read ∧
      s'.whole = s.whole ∧ ∀ l, s'.chunks = some l → Chunked sha W (p ++ b) s' l := by
  unfold hashBuffer
  cases hchunks : s.chunks with
  | none => exact ensures_pure ⟨rfl,rfl,rfl,fun l hl => by simp [hchunks] at hl⟩
  | some l =>
    refine Ensures.mono (ensures_feed (h l hchunks) le_rfl) ?_
    rintro s' t ⟨hout,hread,hwhole,l',hl'⟩
    refine ⟨hout,hread,hwhole,fun l'' hl'' => ?_⟩
    obtain rfl : l' = l'' := Option.some.inj (hl'.chunks ▸ hl'')
    exact hl'

theorem ensures_scan_loop {capacity limit bound : ℕ} (h : Progress sha W offset stop s w)
    (hbound : s.read+limit ≤ bound) :
    Ensures (terms sha W) (scanLoop size offset stop capacity fuel limit s) w
      fun s' t => Progress sha W offset stop s' t ∧ s'.read ≤ bound := by
  induction fuel generalizing limit s w with
  | zero => exact ensures_pure ⟨h,by omega⟩
  | succ fuel ih =>
    unfold scanLoop
    split
    · exact ensures_pure ⟨h,by omega⟩
    refine Ensures.bind (P := fun b t => b.length ≤ limit ∧ t.output = w.output)
      (ensures_read_retry fun b t hb ht => ⟨by omega,ht⟩) ?_
    rintro buffer t ⟨hlen,ht⟩
    split
    · exact ensures_pure ⟨⟨h.read,ht ▸ h.output,h.chunked⟩,by omega⟩
    split
    · exact ensures_fail
    refine Ensures.bind (P := fun _ t' => t'.output = w.output) (ensures_meter ht) fun _ t' ht' => ?_
    refine Ensures.bind (ensures_hash_buffer (p := s.whole) (fun l hl => ?_) buffer) ?_
    · have hc := h.chunked l hl
      exact {hc with}
    rintro s' u ⟨hu,hread,hwhole,hchunked⟩
    dsimp only at hread hwhole
    have hcopy : Ensures (terms sha W) (copyIntersection buffer s'.read offset stop) u fun _ v =>
        v.output.bytes = slice (s.whole ++ buffer) offset (min stop (s'.read+buffer.length)) := by
      rw [hread, h.read]
      refine ensures_copy (slice_append_right _ _).symm (by simp) ?_
      rw [slice_append_left (Nat.min_le_right _ _), hu, ht', h.output, h.read]
    refine Ensures.bind hcopy fun _ v hv => ih ⟨?_,?_,?_⟩ ?_
    · simp [hread, hwhole, h.read]
    · rw [hwhole]
      exact hv
    · intro l hl
      have hc := hchunked l hl
      rw [← hwhole] at hc
      exact {hc with}
    · dsimp only
      omega

/-- The chunk digests of a whole content. -/
structure ChunkDigests (sha : Bytes → Digest) (W : Set Bytes) (c : Bytes) (l : List Digest) :
    Prop where
  count : l.length = (c.length+chunkSize-1)/chunkSize
  each : ∀ i d, l[i]? = some d → d = sha (piece c i) ∧ piece c i ∈ W

theorem whole_pieces (n : ℕ) : (n*chunkSize+chunkSize-1)/chunkSize = n := by
  have hpos := chunk_size_pos
  apply Nat.div_eq_of_lt_le
  · omega
  · rw [Nat.succ_mul]
    omega

theorem whole_pieces_open (n : ℕ) {r : ℕ} (hr : r ≠ 0) (hlt : r < chunkSize) :
    (r+n*chunkSize+chunkSize-1)/chunkSize = n+1 := by
  apply Nat.div_eq_of_lt_le
  · rw [Nat.succ_mul]
    omega
  · rw [Nat.succ_mul, Nat.succ_mul]
    omega

theorem ensures_last_chunk (h : ∀ l, s.chunks = some l → Chunked sha W s.whole s l) :
    Ensures (terms sha W) (lastChunk s) w fun s' t => t = w ∧ s'.read = s.read ∧
      s'.whole = s.whole ∧ ∀ l, s'.chunks = some l → ChunkDigests sha W s.whole l := by
  unfold lastChunk
  split
  · rename_i hopen
    obtain ⟨l,hl⟩ := Option.isSome_iff_exists.mp hopen.1
    have hc := h l hl
    have hroom := hc.room
    have hpos := hc.bytes ▸ hopen.2
    refine Ensures.bind (P := fun d t => t = w ∧ d = sha s.chunk ∧ s.chunk ∈ W)
      (ensures_sha256 fun hW => ⟨rfl,rfl,hW⟩) ?_
    rintro d t ⟨rfl,rfl,hW⟩
    refine ensures_pure ⟨rfl,rfl,rfl,fun l' hl' => ?_⟩
    obtain rfl : l ++ [sha s.chunk] = l' := by simpa [Scan.push, hl] using hl'
    refine ⟨?_,fun i d hi => ?_⟩
    · have hlen := hc.length
      rw [List.length_append, List.length_singleton, ← hlen, whole_pieces_open _ hpos hroom]
    · simpa using hc.each_next (b := []) (by simpa using hroom.le) (by simpa using hW)
        (by simpa using hi)
  · rename_i hclosed
    refine ensures_pure ⟨rfl,rfl,rfl,fun l hl => ?_⟩
    have hc := h l hl
    have hzero : s.chunk.length = 0 := by
      rw [← hc.bytes]
      by_contra hne
      exact hclosed ⟨by simp [hl],hne⟩
    refine ⟨?_,hc.each⟩
    have hlen := hc.length
    rw [← hlen, hzero, Nat.zero_add, whole_pieces]

/-- The bytes are the requested part of a content with the requested digest and size. -/
structure Served (sha : Bytes → Digest) (W : Set Bytes) (text : Text) (n offset stop : ℕ)
    (c out : Bytes) : Prop where
  known : c ∈ W
  digest : PageCodec.digest (sha c) = text
  size : c.length = n
  bounded : n ≤ usizeMax
  bytes : out = slice c offset stop
  length : out.length = stop-offset

theorem ensures_scan {digest : Text} {scratch : ℕ} {chunks : Option (List Digest)}
    (hw : w.output.bytes = []) (hchunks : ∀ l, chunks = some l → l = []) :
    Ensures (terms sha W) (scan digest size offset stop scratch chunks) w fun r t =>
      ∃ c, Served sha W digest size offset stop c t.output.bytes ∧
        ∀ l, r = some l → ChunkDigests sha W c l := by
  refine Ensures.bind (P := fun r t => ∃ c, Served sha W digest size offset stop c t.output.bytes ∧
    ∀ l, r = some l → ChunkDigests sha W c l) ?_ fun r t h => Ensures.bind
      (P := fun _ t => ∃ c, Served sha W digest size offset stop c t.output.bytes ∧
        ∀ l, r = some l → ChunkDigests sha W c l)
      (ensures_check_metadata h) fun _ t h => ensures_pure h
  unfold scanBody
  dsimp only
  split
  · exact ensures_fail
  have hstart : Progress sha W offset stop ⟨0,[],[],0,chunks⟩ w := by
    refine ⟨rfl,?_,fun l hl => ?_⟩
    · rw [hw]
      exact List.eq_nil_of_length_eq_zero (by simp) |>.symm
    · obtain rfl := hchunks l hl
      exact ⟨hl,rfl,Nat.zero_lt_succ _,rfl,by simp,fun i d hi => by simp at hi⟩
  refine Ensures.bind (ensures_scan_loop hstart (Nat.zero_add _).le) ?_
  rintro s t ⟨hprogress,hread⟩
  refine Ensures.bind (ensures_last_chunk hprogress.chunked) ?_
  rintro s' t' ⟨rfl,hread',hwhole',hfacts⟩
  refine ensures_state_bind ?_
  split
  · exact ensures_fail
  rename_i hfit
  push Not at hfit
  refine Ensures.bind (P := fun d t => t = t' ∧ d = sha s'.whole ∧ s'.whole ∈ W)
    (ensures_sha256 fun hW => ⟨rfl,rfl,hW⟩) ?_
  rintro _ _ ⟨rfl,rfl,hW⟩
  split
  · exact ensures_fail
  · rename_i hdigest
    push Not at hdigest
    rw [hwhole'] at hW hdigest
    have hsize : s.whole.length = size := by rw [← hprogress.read, ← hread', hfit.1]
    refine ensures_pure ⟨s.whole,⟨hW,hdigest,hsize,?_,?_,hfit.2⟩,hfacts⟩
    · rw [← hread', hfit.1] at hread
      exact le_trans hread (Nat.min_le_right _ _)
    · rw [hprogress.output]
      exact slice_stop (by rw [hprogress.read]; omega)

/-! ## Covering chunks -/

theorem ensures_fill {buffer : Bytes} (hle : buffer.length ≤ n) (hfuel : n ≤ buffer.length+fuel) :
    Ensures (terms sha W) (fill n fuel buffer) w fun b t => t.output = w.output ∧ b.length = n := by
  induction fuel generalizing buffer w with
  | zero => exact ensures_pure ⟨rfl,by omega⟩
  | succ fuel ih =>
    unfold fill
    split
    · exact ensures_pure ⟨rfl,by omega⟩
    refine Ensures.bind (P := fun b t => b.length ≤ n-buffer.length ∧ t.output = w.output)
      (ensures_read_retry fun b t hb ht => ⟨hb,ht⟩) ?_
    rintro b t ⟨hb,ht⟩
    split
    · exact ensures_fail
    · rename_i hne
      have hpos : 0 < b.length := List.length_pos_iff.mpr hne
      refine Ensures.mono (ih (by simp; omega) (by simp; omega)) fun b' t' h => ?_
      exact ⟨h.1.trans ht,h.2⟩

variable {f : Index} {c : Bytes}

theorem Describes.start_lt (h : Describes sha W f c) (hi : f.chunks[i]? = some d) :
    i*chunkSize < c.length := by
  have hlt := (List.getElem?_eq_some_iff.mp hi).1
  rw [h.count, Nat.lt_div_iff_mul_lt chunk_size_pos] at hlt
  omega

theorem piece_length (c : Bytes) (i : ℕ) :
    (piece c i).length = min (c.length-i*chunkSize) chunkSize := by
  rw [piece, slice_length, Nat.succ_mul]
  omega

theorem ensures_read_chunk (hsha : Set.InjOn sha W) (h : Describes sha W f c) {scratch : ℕ}
    (hout : w.output.bytes = slice c offset (min stop (i*chunkSize))) :
    Ensures (terms sha W) (readChunk f offset stop scratch i) w fun _ t =>
      t.output.bytes = slice c offset (min stop ((i+1)*chunkSize)) := by
  unfold readChunk
  dsimp only
  split
  · exact ensures_fail
  refine Ensures.bind (P := fun _ t => t = w) (Ensures.bind (P := fun _ t => t = w)
    (ensures_call trivial fun _ _ => rfl) fun x t ht => ht ▸ ensures_system fun _ => rfl) ?_
  rintro _ _ rfl
  refine Ensures.bind (ensures_fill (Nat.zero_le _) (Nat.le_add_left _ _)) ?_
  rintro buffer t ⟨ht,hlen⟩
  refine Ensures.bind (P := fun d t' => t' = t ∧ d = sha buffer ∧ buffer ∈ W)
    (ensures_sha256 fun hW => ⟨rfl,rfl,hW⟩) ?_
  rintro _ u ⟨rfl,rfl,hW⟩
  refine Ensures.bind (P := fun _ t' => t'.output = u.output) (ensures_meter rfl) fun _ t' ht' => ?_
  split
  · exact ensures_fail
  rename_i d hd
  split
  · exact ensures_fail
  rename_i heq
  push Not at heq
  obtain ⟨hdigest,hpiece⟩ := h.chunk i d hd
  have hsame : buffer = piece c i := hsha hW hpiece (heq.trans hdigest)
  have hlt := h.start_lt hd
  have hstop : i*chunkSize+buffer.length = min ((i+1)*chunkSize) c.length := by
    rw [hsame, piece_length, Nat.succ_mul]
    omega
  refine Ensures.mono (ensures_copy (c := c) ?_ (by omega) (by rw [ht', ht, hout])) fun _ u hu => ?_
  · rw [hstop, hsame, piece]
    exact slice_stop (by omega)
  · rw [hu, hstop]
    exact slice_stop (by omega)

theorem ensures_read_chunk_list (hsha : Set.InjOn sha W) (h : Describes sha W f c) {scratch : ℕ}
    (hout : w.output.bytes = slice c offset (min stop (i*chunkSize))) :
    Ensures (terms sha W) (readChunkList f offset stop scratch (List.range' i n)) w fun _ t =>
      t.output.bytes = slice c offset (min stop ((i+n)*chunkSize)) := by
  induction n generalizing i w with
  | zero => exact ensures_pure hout
  | succ n ih =>
    rw [List.range'_succ]
    refine Ensures.bind (ensures_read_chunk hsha h hout) fun _ t ht => ?_
    rw [show i+(n+1) = i+1+n by omega]
    exact ih ht

theorem ensures_read_covering (hsha : Set.InjOn sha W) (h : Describes sha W f c) {scratch : ℕ}
    (hw : w.output.bytes = []) :
    Ensures (terms sha W) (readCovering f offset stop scratch) w fun _ t =>
      t.output.bytes = slice c offset stop := by
  have hempty {b : ℕ} (hb : b ≤ offset) : w.output.bytes = slice c offset b := by
    rw [hw]
    exact (List.eq_nil_of_length_eq_zero (by rw [slice_length]; omega)).symm
  unfold readCovering
  split
  · rename_i hlt
    have hle : offset/chunkSize ≤ (stop-1)/chunkSize := Nat.div_le_div_right (by omega)
    have hfirst : offset/chunkSize*chunkSize ≤ offset := Nat.div_mul_le_self ..
    have hlast : stop ≤ ((stop-1)/chunkSize+1)*chunkSize := by
      have := Nat.lt_div_mul_add chunk_size_pos (a := stop-1)
      rw [Nat.succ_mul]
      omega
    refine Ensures.mono (ensures_read_chunk_list hsha h (hempty (by omega))) fun _ t ht => ?_
    rw [ht, show offset/chunkSize+((stop-1)/chunkSize+1-offset/chunkSize)
      = (stop-1)/chunkSize+1 by omega, Nat.min_eq_left hlast]
  · exact ensures_pure (hempty (by omega))

theorem ensures_read_chunks (hsha : Set.InjOn sha W) (h : Describes sha W f c) {scratch : ℕ}
    (hw : w.output.bytes = []) :
    Ensures (terms sha W) (readChunks f offset stop scratch) w fun _ t =>
      t.output.bytes = slice c offset stop ∧ t.output.bytes.length = stop-offset := by
  refine Ensures.bind (ensures_read_covering hsha h hw) fun _ t ht => ?_
  refine ensures_state_bind ?_
  split
  · exact ensures_fail
  · rename_i hlen
    push Not at hlen
    exact ensures_check_metadata ⟨ht,hlen⟩

theorem ensures_read_chunks_scratch (hsha : Set.InjOn sha W) (h : Describes sha W f c)
    {scratch : Option ℕ} (hw : w.output.bytes = []) :
    Ensures (terms sha W) (readChunksWithScratch f offset stop scratch) w fun _ t =>
      t.output.bytes = slice c offset stop ∧ t.output.bytes.length = stop-offset := by
  unfold readChunksWithScratch
  split
  · exact ensures_read_chunks hsha h hw
  · split
    · refine ensures_call_bind trivial fun _ _ => ?_
      split
      · exact ensures_fail
      · exact ensures_read_chunks hsha h hw
    · exact ensures_read_chunks hsha h hw

/-! ## The lanes -/

theorem meets_drop (r : Reservation) (t : Work) :
    Meets (terms sha W) (dropReservation r t) fun x => x.2 = t :=
  ⟨trivial,fun _ _ => rfl⟩

theorem ensures_or_drop {m : Read Index} {r : Reservation} {Q : Index → Work → Prop}
    (h : Ensures (terms sha W) m w Q) : Ensures (terms sha W) (orDrop m r) w Q := by
  refine Meets.bind h fun x hx => ?_
  obtain ⟨x,t⟩ := x
  cases x with
  | ok a => exact hx
  | error e => exact Meets.bind (meets_drop r t) fun _ _ => hx

variable {text : Text} {scratch : Option ℕ}

theorem ensures_strict_fallback (hw : w.output.bytes = []) :
    Ensures (terms sha W) (strictFallback text size offset stop scratch) w fun _ t =>
      ∃ c, Served sha W text size offset stop c t.output.bytes := by
  refine Ensures.bind (P := fun _ t => t.output = w.output) (ensures_meter rfl) fun _ t ht => ?_
  refine Ensures.bind (ensures_scan (by rw [ht, hw]) (fun l hl => by cases hl)) ?_
  rintro _ t' ⟨c,hc,-⟩
  exact ensures_pure ⟨c,hc⟩

theorem ensures_build_index {r : Reservation} (hfixed : PageCodec.digest fixed = text)
    (hw : w.output.bytes = []) :
    Ensures (terms sha W) (buildIndex domain text fixed size offset stop scratch
      ((size+chunkSize-1)/chunkSize) r) w fun f t =>
        ∃ c, Describes sha W f c ∧ Served sha W text size offset stop c t.output.bytes := by
  refine Ensures.bind (ensures_scan hw (by rintro _ ⟨⟩; rfl)) ?_
  rintro chunks t ⟨c,hc,hfacts⟩
  dsimp only
  split
  · exact ensures_fail
  · rename_i hcount
    push Not at hcount
    refine Ensures.bind (P := fun _ t' => t'.output = t.output) (ensures_meter rfl) fun _ t' ht' => ?_
    refine ensures_pure ⟨c,?_,ht' ▸ hc⟩
    have hl : ChunkDigests sha W c (chunks.getD []) := by
      cases chunks with
      | none => exact ⟨by rw [hc.size]; exact hcount,fun i d hi => by simp at hi⟩
      | some l => exact hfacts l rfl
    exact ⟨hc.known,digest_injective (hc.digest.trans hfixed.symm),hc.size,hc.bounded,hl.count,
      hl.each⟩

theorem fixed_digest_some (h : fixedDigest text = some fixed) :
    PageCodec.digest fixed = text := by
  unfold fixedDigest at h
  cases hparse : parseDigest text with
  | error e =>
    rw [hparse] at h
    cases h
  | ok d =>
    rw [hparse] at h
    cases h
    exact (parse_digest_ok hparse).symm

theorem index_matches (h : f.matches domain fixed size = true) :
    f.digest = fixed ∧ f.size = size := by
  simp only [Index.matches, Bool.and_eq_true, decide_eq_true_eq] at h
  exact ⟨h.1.1.2,h.1.2⟩

theorem ensures_chunk_vector {count payload : ℕ} {Q : Work → Prop} (h : Q w) :
    Ensures (terms sha W) (chunkVector count payload) w fun _ => Q :=
  ensures_call_bind trivial fun _ _ => ensures_pure h

/-- Every lane returns the requested part of one content. -/
theorem ensures_read_input (hsha : Set.InjOn sha W) (hw : w.output.bytes = []) :
    Ensures (terms sha W) (readInputWithCache domain text size offset stop scratch) w fun _ t =>
      ∃ c, Served sha W text size offset stop c t.output.bytes := by
  unfold readInputWithCache
  dsimp only
  refine ensures_call_bind trivial fun canonical _ => ?_
  split
  swap
  · exact ensures_strict_fallback hw
  rename_i domain fixed hfixed _
  have htext := fixed_digest_some hfixed
  split
  · exact ensures_strict_fallback hw
  refine ensures_call_bind trivial fun cached hcached => ?_
  split
  · -- a hit: the chunks of the fact are chunks of the content it describes
    rename_i fact
    obtain ⟨hmatch,c,hc⟩ := hcached
    obtain ⟨hdigest,hsize⟩ := index_matches hmatch
    refine Ensures.bind (P := fun _ t => t.output = w.output) (ensures_meter rfl) fun _ t ht => ?_
    refine Ensures.ensuring (Ensures.mono (ensures_read_chunks_scratch hsha hc (by rw [ht, hw]))
      fun _ u h => ?_) (meets_drop _)
    refine ⟨c,hc.known,?_,hc.size.trans hsize,hsize ▸ hc.bounded,h.1,h.2⟩
    rw [hc.digest, hdigest, htext]
  · refine ensures_call_bind trivial fun reserved _ => ?_
    split
    · exact ensures_strict_fallback hw
    refine Ensures.bind (ensures_chunk_vector (Q := fun t => t.output.bytes = []) hw)
      fun room t ht => ?_
    split
    · exact ensures_call_bind trivial fun _ _ => ensures_strict_fallback ht
    · refine Ensures.bind (ensures_or_drop (ensures_build_index htext ht)) ?_
      rintro f t ⟨c,hdescribes,hserved⟩
      exact ensures_call_bind ⟨c,hdescribes⟩ fun _ _ => ensures_meter ⟨c,hserved⟩

/-! ## The entry points -/

/-- The bytes are the range of the content, cut at its end. -/
structure Range (sha : Bytes → Digest) (W : Set Bytes) (text : Text) (n offset len : ℕ)
    (c out : Bytes) : Prop where
  known : c ∈ W
  digest : PageCodec.digest (sha c) = text
  size : c.length = n
  bytes : out = slice c offset (min (offset+len) n)

theorem ensures_open {Q : Bool → Work → Prop} (h : ∀ b, Q b w) :
    Ensures (terms sha W) (openObject path size) w Q := by
  refine ensures_call_bind trivial fun input _ => ?_
  split
  · exact ensures_pure (h _)
  · exact ensures_fail
  · exact Ensures.bind (P := fun _ t => Q true t) (ensures_check_metadata (h _))
      fun _ t ht => ensures_pure ht

theorem ensures_io_guard (h : Q () w) :
    Ensures (terms sha W) (ioGuard path) w Q := by
  refine ensures_call_bind trivial fun x _ => ?_
  exact ensures_lift fun _ _ => h

theorem ensures_output :
    Ensures (terms sha W) (output size offset len) w fun stop t => t.output.bytes = [] ∧
      stop = saturatingAdd offset (min (size-offset) len) := by
  unfold output
  dsimp only
  split
  · exact ensures_fail
  refine ensures_call_bind trivial fun capacity _ => ?_
  split
  · exact ensures_fail
  · refine Ensures.bind (P := fun _ t => t.output.bytes = []) (ensures_update fun _ => rfl)
      fun _ t ht => ensures_pure ⟨ht,rfl⟩

theorem Served.clipped {out : Bytes}
    (h : Served sha W text size offset (saturatingAdd offset (min (size-offset) len)) c out) :
    Range sha W text size offset len c out where
  known := h.known
  digest := h.digest
  size := h.size
  bytes := by
    have hbound := h.bounded
    rw [h.bytes, ← h.size, saturatingAdd] at *
    exact slice_stop (by omega)

/-- A range past the end is never served, so an unclipped end is inside the content. -/
theorem Served.unclipped {out : Bytes}
    (h : Served sha W text size offset (saturatingAdd offset len) c out) :
    Range sha W text size offset len c out where
  known := h.known
  digest := h.digest
  size := h.size
  bytes := by
    have hbound := h.bounded
    have hlen := h.length
    rw [h.bytes, slice_length, saturatingAdd] at hlen
    rw [h.bytes, ← h.size, saturatingAdd] at *
    exact slice_stop (by omega)

theorem ensures_read_strict :
    Ensures (terms sha W) (readStrict path text size offset len) w fun r _ => ∀ out, r = some out →
      ∃ c, Range sha W text size offset len c out := by
  refine Ensures.bind (P := fun _ _ => True) (ensures_io_guard trivial) fun _ t _ => ?_
  refine Ensures.bind (P := fun _ _ => True) (ensures_open fun _ => trivial) fun found t _ => ?_
  split
  · exact ensures_pure fun _ h => nomatch h
  refine Ensures.bind ensures_output ?_
  rintro stop t ⟨ht,rfl⟩
  refine Ensures.bind (ensures_scan ht fun l hl => by cases hl) ?_
  rintro _ t' ⟨c,hc,-⟩
  refine ensures_state_bind (ensures_pure ?_)
  rintro _ ⟨⟩
  exact ⟨c,hc.clipped⟩

theorem ensures_read_indexed (hsha : Set.InjOn sha W) :
    Ensures (terms sha W) (readIndexed path domain text size offset len) w fun r _ =>
      ∀ out, r = some out → ∃ c, Range sha W text size offset len c out := by
  refine Ensures.bind (P := fun _ _ => True) (ensures_io_guard trivial) fun _ t _ => ?_
  refine Ensures.bind (P := fun _ _ => True) (ensures_open fun _ => trivial) fun found t _ => ?_
  split
  · exact ensures_pure fun _ h => nomatch h
  refine Ensures.bind ensures_output ?_
  rintro stop t ⟨ht,rfl⟩
  refine Ensures.bind (ensures_read_input hsha ht) ?_
  rintro _ t' ⟨c,hc⟩
  refine ensures_state_bind (ensures_pure ?_)
  rintro _ ⟨⟩
  exact ⟨c,hc.clipped⟩

theorem ensures_read_indexed_into (hsha : Set.InjOn sha W) {wanted scratch : ℕ}
    (hw : w.output.bytes = []) :
    Ensures (terms sha W) (readIndexedInto path domain text size offset wanted scratch) w
      fun r t => r = true → ∃ c, Range sha W text size offset wanted c t.output.bytes := by
  refine Ensures.bind (P := fun _ t => t.output.bytes = []) (ensures_io_guard hw) fun _ u hu => ?_
  refine Ensures.bind (P := fun _ t => t.output.bytes = []) (ensures_open fun _ => hu)
    fun found v hv => ?_
  split
  · exact ensures_pure fun h => nomatch h
  refine Ensures.bind (ensures_read_input hsha hv) ?_
  rintro _ t ⟨c,hc⟩
  exact ensures_pure fun _ => ⟨c,hc.unclipped⟩

end Contract

end Scorpio.CasRead
