import Scorpio.Content.OwnedRange

/-!
# The content that a chunk map names

The leaves of an authenticated map name the chunks of one content. Between two events
a reader has the content from its offset up to its next chunk; the chunk it copies
carries this on, and after the last one it has the whole range.
-/

set_option autoImplicit false

namespace Scorpio.OwnedRange

open ByteText Fallible PageCodec OwnedTransport Traces
  Scorpio.Slices Scorpio.RecencyTable

/-! ## The content that a map names -/

/-- The chunks that the leaves name; no other bytes have one of these digests. -/
structure Names (f : ChunkedFile) (chunks : ℕ → Bytes) : Prop where
  sized : ∀ i < f.chunkCount, (chunks i).length = min f.chunkSize (f.size-i*f.chunkSize)
  named : ∀ i < f.chunkCount,
    (f.leaves (i/f.chunksPerPage))[i%f.chunksPerPage]? = some (f.sha256 (chunks i))
  unique : ∀ i < f.chunkCount, ∀ bytes, f.sha256 bytes = f.sha256 (chunks i) → bytes = chunks i

def content (f : ChunkedFile) (chunks : ℕ → Bytes) : Bytes :=
  (List.range f.chunkCount).flatMap chunks

section Content

variable {f : ChunkedFile} {chunks : ℕ → Bytes} {i : ℕ}

theorem lt_chunk_count : i < f.chunkCount ↔ i*f.chunkSize < f.size := by
  have hpos := f.chunkSizePos
  rw [ChunkedFile.chunkCount, ← Nat.succ_le_iff, Nat.le_div_iff_mul_le hpos, Nat.succ_mul]
  omega

theorem chunks_length (h : Names f chunks) :
    ∀ k ≤ f.chunkCount, ((List.range k).flatMap chunks).length = min (k*f.chunkSize) f.size := by
  intro k
  induction k with
  | zero => simp
  | succ k ih =>
    intro hk
    rw [List.range_succ, List.flatMap_append, List.length_append, ih (by omega),
      List.flatMap_singleton, h.sized k hk, Nat.succ_mul]
    omega

theorem content_length (h : Names f chunks) : (content f chunks).length = f.size := by
  have hend : ¬ f.chunkCount*f.chunkSize < f.size := fun hlt =>
    Nat.lt_irrefl _ (lt_chunk_count.mpr hlt)
  rw [content, chunks_length h _ (Nat.le_refl _)]
  omega

theorem chunk_slice (h : Names f chunks) (hi : i < f.chunkCount) :
    slice (content f chunks) (i*f.chunkSize) (i*f.chunkSize+(chunks i).length) = chunks i := by
  obtain ⟨d,hd⟩ := Nat.exists_eq_add_of_lt hi
  have hbefore : ((List.range i).flatMap chunks).length = i*f.chunkSize := by
    have hlt := lt_chunk_count.mp hi
    rw [chunks_length h i hi.le]
    omega
  have hparts : content f chunks = (List.range i).flatMap chunks ++ chunks i ++
      ((List.range d).map (i+1+·)).flatMap chunks := by
    rw [content, hd, show i+d+1 = i+1+d by omega, List.range_add, List.range_succ,
      List.flatMap_append, List.flatMap_append, List.flatMap_singleton]
  rw [hparts, ← hbefore, slice_append_left (by rw [List.length_append]), slice_append_right]

/-- What a chunk adds to the bytes before it. -/
theorem slice_chunk (h : Names f chunks) (hi : i < f.chunkCount) (offset : ℕ) {stop : ℕ}
    (hstart : i*f.chunkSize ≤ stop) :
    slice (content f chunks) offset (i*f.chunkSize) ++
      slice (chunks i) (offset-i*f.chunkSize) (min (stop-i*f.chunkSize) (chunks i).length) =
    slice (content f chunks) offset (min stop (i*f.chunkSize+(chunks i).length)) := by
  have hlt := lt_chunk_count.mp hi
  have hlen := content_length h
  have hchunk := chunk_slice h hi
  generalize hfrom : i*f.chunkSize = start at hstart hlt hchunk ⊢
  generalize hto : min stop (start+(chunks i).length) = upto
  have hpiece : slice (chunks i) (offset-start) (min (stop-start) (chunks i).length) =
      slice (content f chunks) (max start offset) upto := by
    have hinner := slice_slice (x := content f chunks) (a := start)
      (b := start+(chunks i).length) (le_max_left start offset) (show upto ≤ _ by omega)
    rw [hchunk, show upto-start = min (stop-start) (chunks i).length by omega,
      show max start offset-start = offset-start by omega] at hinner
    exact hinner
  rw [hpiece]
  by_cases hlow : start ≤ offset
  · have hnone : slice (content f chunks) offset start = [] := by
      apply List.eq_nil_of_length_eq_zero
      rw [slice_length]
      omega
    rw [hnone, List.nil_append, max_eq_right hlow]
  · rw [max_eq_left (by omega)]
    exact slice_join (by omega) (by omega) (by omega)

end Content

/-! ## Readers -/

/-- A range that is not empty. -/
structure Range.Fits (f : ChunkedFile) (r : Range) : Prop where
  inside : r.offset < f.size
  some : 0 < r.returned
  returned : r.returned = min r.length (f.size-r.offset)
  stop : r.stop = r.offset+r.returned

/-- A reader that has the bytes before its next chunk. -/
structure Before (f : ChunkedFile) (chunks : ℕ → Bytes) (r : Range) (index : ℕ)
    (output : Bytes) : Prop where
  fits : r.Fits f
  last : index ≤ (r.stop-1)/f.chunkSize
  output : output = slice (content f chunks) r.offset (index*f.chunkSize)

/-- The answer to a call. -/
def wholeRange (f : ChunkedFile) (chunks : ℕ → Bytes) (offset length : ℕ) : Bytes :=
  slice (content f chunks) offset (min (offset+length) f.size)

def Sound (f : ChunkedFile) (chunks : ℕ → Bytes) : Reader → Prop
  | .reading r index output | .leafing r index output | .mapping r index output =>
    Before f chunks r index output
  | .mapped r index output digests | .wanting r index output digests =>
    Before f chunks r index output ∧ digests = f.leaves (index/f.chunksPerPage)
  | .asking r index output want expected => Before f chunks r index output ∧
    want = f.sha256 (chunks index) ∧ expected = (chunks index).length
  | .published r index output chunk | .copying r index output chunk =>
    Before f chunks r index output ∧ chunk.index = index ∧ chunk.bytes = chunks index
  | .closing r output | .done r output => output = wholeRange f chunks r.offset r.length
  | .idle | .failed .. => True
  | .panicked => False

section Readers

variable {f : ChunkedFile} {chunks : ℕ → Bytes} {r : Range} {index : ℕ} {output : Bytes}

theorem whole_range_past {offset length : ℕ} (h : Names f chunks) (hpast : f.size ≤ offset) :
    wholeRange f chunks offset length = [] := by
  apply List.eq_nil_of_length_eq_zero
  rw [wholeRange, slice_length, content_length h]
  omega

theorem size_le_max : f.size ≤ usizeMax := by
  have hbound := f.bounded
  have hmax : maxFileSize ≤ usizeMax := by decide
  omega

theorem Before.chunk (hb : Before f chunks r index output) : index < f.chunkCount ∧
    index*f.chunkSize < r.stop := by
  obtain ⟨hinside,hsome,hreturned,hstop⟩ := hb.fits
  have hlast : index*f.chunkSize ≤ r.stop-1 :=
    (Nat.le_div_iff_mul_le f.chunkSizePos).mp hb.last
  rw [lt_chunk_count]
  omega

theorem open_range_sound {offset length : ℕ} (h : Names f chunks) :
    Sound f chunks (openRange f offset length) := by
  have hmax := size_le_max (f := f)
  unfold openRange
  dsimp only
  by_cases hlimit : maxBufferedFileBytes < if f.size ≤ offset then 0 else min length (f.size-offset)
  · rw [if_pos hlimit]
    trivial
  rw [if_neg hlimit]
  by_cases hzero : (if f.size ≤ offset then 0 else min length (f.size-offset)) = 0
  · rw [if_pos hzero]
    show ([] : Bytes) = wholeRange f chunks offset length
    symm
    apply List.eq_nil_of_length_eq_zero
    rw [wholeRange, slice_length, content_length h]
    split at hzero <;> omega
  rw [if_neg hzero]
  by_cases hpast : f.size ≤ offset
  · rw [if_pos hpast] at hzero
    exact absurd rfl hzero
  rw [if_neg hpast] at hzero ⊢
  have hadd : checkedAdd offset (min length (f.size-offset)) =
      some (offset+min length (f.size-offset)) := if_pos (by omega)
  rw [hadd, Option.elim_some]
  refine ⟨⟨by dsimp only; omega,by dsimp only; omega,rfl,rfl⟩,?_,?_⟩
  · apply Nat.div_le_div_right
    dsimp only
    omega
  · symm
    apply List.eq_nil_of_length_eq_zero
    have hlow := Nat.div_mul_le_self offset f.chunkSize
    rw [slice_length]
    dsimp only
    omega

theorem copy_chunk_sound {chunk : VerifiedChunk} (h : Names f chunks)
    (hb : Before f chunks r index output) (hbytes : chunk.bytes = chunks index) :
    Sound f chunks (copyChunk f r index output chunk) := by
  obtain ⟨hindex,hstart⟩ := hb.chunk
  obtain ⟨hinside,hsome,hreturned,hstop⟩ := hb.fits
  have hmax := size_le_max (f := f)
  have hlen := h.sized index hindex
  have hmul : checkedMul index f.chunkSize = some (index*f.chunkSize) := if_pos (by omega)
  have hsub : checkedSub r.stop (index*f.chunkSize) = some (r.stop-index*f.chunkSize) :=
    if_pos hstart.le
  unfold copyChunk
  rw [hmul, Option.elim_some, hsub, Option.elim_some, hbytes]
  cases hpiece : getSlice (chunks index) (r.offset-index*f.chunkSize)
      (min (r.stop-index*f.chunkSize) (chunks index).length) with
  | none => trivial
  | some bytes =>
    obtain ⟨-,hvalue⟩ := guarded_eq_some.mp hpiece
    rw [Option.elim_some]
    by_cases hroom : r.returned-output.length < bytes.length
    · rw [if_pos hroom]
      trivial
    rw [if_neg hroom]
    have hjoin := slice_chunk h hindex r.offset hstart.le
    rw [hvalue, ← hb.output] at hjoin
    by_cases hmore : index < (r.stop-1)/f.chunkSize
    · have hnext := (Nat.le_div_iff_mul_le f.chunkSizePos).mp (Nat.succ_le_of_lt hmore)
      rw [Nat.succ_mul] at hnext
      rw [if_pos hmore]
      refine ⟨hb.fits,hmore,?_⟩
      rw [hjoin, Nat.succ_mul]
      congr 1
      omega
    · have hlast : r.stop-1 < (index+1)*f.chunkSize :=
        (Nat.div_lt_iff_lt_mul f.chunkSizePos).mp (by omega)
      rw [Nat.succ_mul] at hlast
      rw [if_neg hmore]
      show output ++ bytes = wholeRange f chunks r.offset r.length
      rw [hjoin, wholeRange]
      congr 1
      omega

theorem open_range_call {offset length : ℕ} {c : ℕ × ℕ}
    (h : (openRange f offset length).call = some c) : some (offset,length) = some c := by
  unfold openRange at h
  dsimp only at h
  generalize (if f.size ≤ offset then 0 else min length (f.size-offset)) = returned at h
  split at h
  · exact h
  · split at h
    · exact h
    · cases hadd : checkedAdd offset returned with
      | none =>
        rw [hadd] at h
        cases h
      | some stop =>
        rw [hadd] at h
        exact h

theorem copy_chunk_call {chunk : VerifiedChunk} {c : ℕ × ℕ}
    (h : (copyChunk f r index output chunk).call = some c) : some (r.offset,r.length) = some c := by
  unfold copyChunk at h
  cases hmul : checkedMul index f.chunkSize with
  | none =>
    rw [hmul] at h
    cases h
  | some start =>
    rw [hmul, Option.elim_some] at h
    cases hsub : checkedSub r.stop start with
    | none =>
      rw [hsub] at h
      cases h
    | some rest =>
      rw [hsub, Option.elim_some] at h
      cases hget : getSlice chunk.bytes (r.offset-start) (min rest chunk.bytes.length) with
      | none =>
        rw [hget] at h
        exact h
      | some bytes =>
        rw [hget, Option.elim_some] at h
        split at h
        · exact h
        · split at h <;> exact h

/-- A collected chunk has the length and the digest that the map gives its index. -/
theorem collect_chunk_ok {chunk : VerifiedChunk} {expected : ℕ} {want : Digest}
    {frames : List Frame} (h : f.collectChunk index expected want frames = .ok chunk) :
    chunk.index = index ∧ f.sha256 chunk.bytes = want := by
  unfold ChunkedFile.collectChunk at h
  obtain ⟨seen,-,hafter⟩ := bind_ok.mp h
  obtain ⟨bytes,-,hthen⟩ := bind_ok.mp hafter
  obtain ⟨owner,howner,hrest⟩ := bind_ok.mp hthen
  obtain ⟨_,-,hlast⟩ := bind_ok.mp hrest
  obtain rfl := pure_ok.mp hlast
  obtain ⟨_,hcheck,hvalue⟩ := bind_ok.mp howner
  obtain rfl := pure_ok.mp hvalue
  rw [require_ok, Bool.and_eq_true, decide_eq_true_eq, decide_eq_true_eq] at hcheck
  exact ⟨rfl,hcheck.2⟩

end Readers

end Scorpio.OwnedRange
