import Scorpio.Content.RangeContent

/-!
# What owned ranges return

A cached chunk is that of its index and a cached leaf that of its page. The tables
follow their lists, so a lookup never finds anything else, and each event keeps what
the readers have of the content. No history of calls, answers and evictions leads a
reader to other bytes or to a panic.
-/

set_option autoImplicit false

namespace Scorpio.OwnedRange

open ByteText Fallible PageCodec OwnedTransport Traces Slices RecencyTable

/-! ## Histories -/

/-- What holds after a history. -/
structure Kept (f : ChunkedFile) (chunks : ℕ → Bytes) (es : List Event) (s : State) : Prop where
  chunkTable : s.chunks.Follows VerifiedChunk.index cachedChunks
    (fun chunk => chunk.bytes = chunks chunk.index) (chunkOps es)
  leafTable : s.leaves.Follows Prod.fst cachedLeaves (fun leaf => leaf.2 = f.leaves leaf.1)
    (leafOps es)
  readers : ∀ t, Sound f chunks (s.readers t)
  calls : ∀ t c, (s.readers t).call = some c → lastCall t es = some c

section Histories

variable {f : ChunkedFile} {chunks : ℕ → Bytes} {es : List Event} {e : Event} {s s' : State} {t : ℕ}
  {p q : Reader}

theorem start_kept : Kept f chunks [] start := by
  refine ⟨Slots.new_follows,Slots.new_follows,fun _ => trivial,?_⟩
  intro t c hc
  cases hc

theorem chunk_ops_snoc : chunkOps (es ++ [e]) = chunkOps es ++ chunkOps [e] :=
  List.filterMap_append

theorem leaf_ops_snoc : leafOps (es ++ [e]) = leafOps es ++ leafOps [e] :=
  List.filterMap_append

/-- An event of a reader that is not a call, once the tables have been dealt with. -/
theorem Kept.moves (h : Kept f chunks es s) (hphase : s.readers t = q)
    (hchunks : s'.chunks.Follows VerifiedChunk.index cachedChunks
      (fun chunk => chunk.bytes = chunks chunk.index) (chunkOps es ++ chunkOps [e]))
    (hleaves : s'.leaves.Follows Prod.fst cachedLeaves (fun leaf => leaf.2 = f.leaves leaf.1)
      (leafOps es ++ leafOps [e]))
    (hreaders : s'.readers = Function.update s.readers t p)
    (hnone : ∀ u, lastCall u (es ++ [e]) = lastCall u es) (hp : Sound f chunks q → Sound f chunks p)
    (hcall : ∀ c, p.call = some c → q.call = some c) : Kept f chunks (es ++ [e]) s' := by
  refine ⟨chunk_ops_snoc ▸ hchunks,leaf_ops_snoc ▸ hleaves,?_,?_⟩
  · intro u
    rw [hreaders, Function.update_apply]
    split
    · exact hp (hphase ▸ h.readers t)
    · exact h.readers u
  · intro u c hc
    rw [hreaders, Function.update_apply] at hc
    rw [hnone]
    split at hc
    · subst u
      exact h.calls t c (hphase ▸ hcall c hc)
    · exact h.calls u c hc

theorem Kept.goto (h : Kept f chunks es s) (hphase : s.readers t = q) (hchunks : chunkOps [e] = [])
    (hleaves : leafOps [e] = []) (hnone : ∀ u, lastCall u (es ++ [e]) = lastCall u es)
    (hp : Sound f chunks q → Sound f chunks p) (hcall : ∀ c, p.call = some c → q.call = some c) :
    Kept f chunks (es ++ [e]) (s.goto t p) := by
  refine h.moves hphase ?_ ?_ rfl hnone hp hcall
  · rw [hchunks, List.append_nil]
    exact h.chunkTable
  · rw [hleaves, List.append_nil]
    exact h.leafTable

theorem range_call {r : Range} (h : p.range = some r) : p.call = some (r.offset,r.length) := by
  cases p <;> cases h <;> rfl

theorem last_call_snoc {u : ℕ} : lastCall u (es ++ [e]) =
    match e with
    | .call t offset length => if t = u then some (offset,length) else lastCall u es
    | _ => lastCall u es := by
  rw [lastCall, List.foldl_append]
  cases e <;> rfl

/-- The chunk that a leaf and the codec let a reader ask for. -/
theorem want_sound {r : Range} {index : ℕ} {output : Bytes} {digests : List Digest}
    (hnames : Names f chunks) (h : Sound f chunks (.wanting r index output digests)) :
    ∃ want expected, digests[index%f.chunksPerPage]? = some want ∧
      f.chunkLen index = .ok expected ∧ Sound f chunks (.asking r index output want expected) := by
  obtain ⟨hbefore,rfl⟩ := h
  obtain ⟨hindex,-⟩ := hbefore.chunk
  exact ⟨_,_,hnames.named index hindex,if_pos hindex,hbefore,rfl,(hnames.sized index hindex).symm⟩

theorem step_kept (hnames : Names f chunks) (h : Kept f chunks es s)
    (hstep : step f s e = some s') : Kept f chunks (es ++ [e]) s' := by
  cases e with
  | call t offset length =>
    obtain ⟨-,rfl⟩ := guarded_eq_some.mp hstep
    refine ⟨?_,?_,?_,?_⟩
    · rw [chunk_ops_snoc, show chunkOps [.call t offset length] = [] from rfl, List.append_nil]
      exact h.chunkTable
    · rw [leaf_ops_snoc, show leafOps [.call t offset length] = [] from rfl, List.append_nil]
      exact h.leafTable
    · intro u
      show Sound f chunks (Function.update s.readers t _ u)
      rw [Function.update_apply]
      split
      · exact open_range_sound hnames
      · exact h.readers u
    · intro u c hc
      change (Function.update s.readers t _ u).call = some c at hc
      rw [Function.update_apply] at hc
      rw [last_call_snoc]
      dsimp only
      by_cases hu : u = t
      · rw [if_pos hu] at hc
        rw [if_pos hu.symm]
        exact open_range_call hc
      · rw [if_neg hu] at hc
        rw [if_neg (Ne.symm hu)]
        exact h.calls u c hc
  | fail t err =>
    rw [step, Option.map_eq_some_iff] at hstep
    obtain ⟨r,hr,rfl⟩ := hstep
    refine h.goto rfl rfl rfl (fun _ => last_call_snoc) (fun _ => trivial) ?_
    intro c hc
    rw [range_call hr]
    exact hc
  | clear =>
    cases hstep
    refine ⟨chunk_ops_snoc ▸ h.chunkTable.clear,?_,h.readers,?_⟩
    · rw [leaf_ops_snoc, show leafOps [.clear] = [] from rfl, List.append_nil]
      exact h.leafTable
    · intro u c hc
      rw [last_call_snoc]
      exact h.calls u c hc
  | getChunk t index =>
    rw [step] at hstep
    split at hstep
    · rename_i r i output hphase
      obtain ⟨rfl,rfl⟩ := guarded_eq_some.mp hstep
      obtain ⟨found,chunks',hget,hfound,hafter⟩ := h.chunkTable.get i
      rw [hget, Option.elim_some]
      refine h.moves hphase hafter ?_ rfl (fun _ => last_call_snoc) ?_ ?_
      · rw [show leafOps [.getChunk t i] = [] from rfl, List.append_nil]
        exact h.leafTable
      · intro hsound
        cases found with
        | none => exact hsound
        | some chunk =>
          obtain ⟨hindex,hbytes⟩ := hfound chunk rfl
          exact ⟨hsound,hindex,hindex ▸ hbytes⟩
      · intro c hc
        cases found <;> exact hc
    · cases hstep
  | getLeaf t page =>
    rw [step] at hstep
    split at hstep
    · rename_i r index output hphase
      obtain ⟨rfl,rfl⟩ := guarded_eq_some.mp hstep
      obtain ⟨found,leaves,hget,hfound,hafter⟩ := h.leafTable.get (index/f.chunksPerPage)
      rw [hget, Option.elim_some]
      refine h.moves hphase ?_ hafter rfl (fun _ => last_call_snoc) ?_ ?_
      · rw [show chunkOps [.getLeaf t _] = [] from rfl, List.append_nil]
        exact h.chunkTable
      · intro hsound
        cases found with
        | none => exact hsound
        | some leaf =>
          obtain ⟨hpage,hleaf⟩ := hfound leaf rfl
          exact ⟨hsound,hpage ▸ hleaf⟩
      · intro c hc
        cases found <;> exact hc
    · cases hstep
  | page t =>
    rw [step] at hstep
    split at hstep
    · rename_i r index output hphase
      cases hstep
      exact h.goto hphase rfl rfl (fun _ => last_call_snoc) (fun hsound => ⟨hsound,rfl⟩)
        fun c hc => hc
    · cases hstep
  | putLeaf t leaf =>
    rw [step] at hstep
    split at hstep
    · rename_i r index output digests hphase
      obtain ⟨rfl,rfl⟩ := guarded_eq_some.mp hstep
      have hsound := h.readers t
      rw [hphase] at hsound
      obtain ⟨leaves,hinsert,hafter⟩ := h.leafTable.insert
        (x := (index/f.chunksPerPage,digests)) (by decide) hsound.2
      rw [hinsert, Option.elim_some]
      refine h.moves hphase ?_ hafter rfl (fun _ => last_call_snoc) id fun c hc => hc
      rw [show chunkOps [.putLeaf t _] = [] from rfl, List.append_nil]
      exact h.chunkTable
    · cases hstep
  | want t =>
    rw [step] at hstep
    split at hstep
    · rename_i r index output digests hphase
      cases hstep
      have hsound := h.readers t
      rw [hphase] at hsound
      obtain ⟨want,expected,hwant,hexpected,hasking⟩ := want_sound hnames hsound
      rw [hwant, hexpected]
      exact h.goto hphase rfl rfl (fun _ => last_call_snoc) (fun _ => hasking) fun c hc => hc
    · cases hstep
  | answer t frames =>
    rw [step] at hstep
    split at hstep
    · rename_i r index output want expected hphase
      cases hstep
      cases hchunk : f.collectChunk index expected want frames with
      | error err =>
        exact h.goto hphase rfl rfl (fun _ => last_call_snoc) (fun _ => trivial) fun c hc => hc
      | ok chunk =>
        obtain ⟨hindex,hdigest⟩ := collect_chunk_ok hchunk
        refine h.goto hphase rfl rfl (fun _ => last_call_snoc) ?_ fun c hc => hc
        rintro ⟨hbefore,rfl,-⟩
        exact ⟨hbefore,hindex,hnames.unique index hbefore.chunk.1 _ hdigest⟩
    · cases hstep
  | putChunk t chunk =>
    rw [step] at hstep
    split at hstep
    · rename_i r index output owner hphase
      obtain ⟨rfl,rfl⟩ := guarded_eq_some.mp hstep
      have hsound := h.readers t
      rw [hphase] at hsound
      obtain ⟨hbefore,rfl,hbytes⟩ := hsound
      obtain ⟨table,hinsert,hafter⟩ := h.chunkTable.insert (by decide) hbytes
      rw [hinsert, Option.elim_some]
      refine h.moves hphase hafter ?_ rfl (fun _ => last_call_snoc) id fun c hc => hc
      rw [show leafOps [.putChunk t _] = [] from rfl, List.append_nil]
      exact h.leafTable
    · cases hstep
  | copy t =>
    rw [step] at hstep
    split at hstep
    · rename_i r index output chunk hphase
      cases hstep
      exact h.goto hphase rfl rfl (fun _ => last_call_snoc)
        (fun hsound => copy_chunk_sound hnames hsound.1 hsound.2.2) fun _ => copy_chunk_call
    · cases hstep
  | publish t =>
    rw [step] at hstep
    split at hstep
    · rename_i r output hphase
      cases hstep
      by_cases hlen : output.length = r.returned
      · rw [if_pos hlen]
        exact h.goto hphase rfl rfl (fun _ => last_call_snoc) id fun c hc => hc
      · rw [if_neg hlen]
        exact h.goto hphase rfl rfl (fun _ => last_call_snoc) (fun _ => trivial) fun c hc => hc
    · cases hstep
  | finish t =>
    cases hstep
    exact h.goto rfl rfl rfl (fun _ => last_call_snoc) (fun _ => trivial) nofun

end Histories

/-- In every history of concurrent calls, whatever the server answers, a call returns
its part of the content, no operation overflows or panics, and the two tables stay
packed in the order of their last uses. -/
theorem owned_range_reads (f : ChunkedFile) (chunks : ℕ → Bytes) (hnames : Names f chunks)
    (es : List Event) (s : State) (h : run (step f) start es = some s) :
    (∀ t offset length r answer, lastCall t es = some (offset,length) →
      s.readers t = .done r answer →
        answer = slice (content f chunks) offset (min (offset+length) f.size) ∧
        (f.size ≤ offset → answer = [])) ∧
    (content f chunks).length = f.size ∧ (∀ t, s.readers t ≠ .panicked) ∧
    (∃ l, s.chunks.Packed cachedChunks l ∧ (l.map VerifiedChunk.index).Nodup ∧
      Recent VerifiedChunk.index cachedChunks (chunkOps es) l) ∧
    ∃ l, s.leaves.Packed cachedLeaves l ∧ (l.map Prod.fst).Nodup ∧
      Recent Prod.fst cachedLeaves (leafOps es) l := by
  have hkept : Kept f chunks es s :=
    run_history (Kept f chunks) start_kept (fun _ _ _ _ => step_kept hnames) h
  have hchunks : Recent VerifiedChunk.index cachedChunks (chunkOps es) _ :=
    after_recent (by decide) (chunkOps es)
  have hleaves : Recent Prod.fst cachedLeaves (leafOps es) _ :=
    after_recent (by decide) (leafOps es)
  refine ⟨?_,content_length hnames,?_,⟨_,hkept.chunkTable.packed,hchunks.distinct,hchunks⟩,
    ⟨_,hkept.leafTable.packed,hleaves.distinct,hleaves⟩⟩
  · intro t offset length r answer hlast hdone
    have hsound := hkept.readers t
    have hcall := hkept.calls t (r.offset,r.length) (by rw [hdone]; rfl)
    rw [hdone] at hsound
    rw [hlast] at hcall
    cases hcall
    exact ⟨hsound,fun hpast => hsound.trans (whole_range_past hnames hpast)⟩
  · intro t hpanic
    have hsound := hkept.readers t
    rw [hpanic] at hsound
    exact hsound

/-! ## A file of one chunk -/

section OneChunk

variable {bytes : Bytes}

def chunkDigest : Digest := ⟨List.replicate 32 1,List.length_replicate⟩
def otherDigest : Digest := ⟨List.replicate 32 0,List.length_replicate⟩

def oneChunkFile (bytes : Bytes) : ChunkedFile where
  size := 262145
  large := by decide
  bounded := by decide
  chunkSize := 1048576
  chunkSizePos := by decide
  chunksPerPage := 1024
  mapId := otherDigest
  fileContentId := otherDigest
  leaves := fun _ => [chunkDigest]
  sha256 := fun b => if b = bytes then chunkDigest else otherDigest

theorem one_chunk_len : (oneChunkFile bytes).chunkLen 0 = .ok 262145 := by
  simp [ChunkedFile.chunkLen, ChunkedFile.chunkCount, oneChunkFile]

theorem one_chunk_names (h : bytes.length = 262145) :
    Names (oneChunkFile bytes) fun _ => bytes := by
  have hcount : ∀ i < (oneChunkFile bytes).chunkCount, i = 0 := by
    intro i hi
    have hone : (oneChunkFile bytes).chunkCount = 1 := by simp [ChunkedFile.chunkCount, oneChunkFile]
    omega
  refine ⟨?_,?_,?_⟩
  · intro i hi
    obtain rfl := hcount i hi
    exact h
  · intro i hi
    obtain rfl := hcount i hi
    show some chunkDigest = some (if bytes = bytes then chunkDigest else otherDigest)
    rw [if_pos rfl]
  · intro i hi b hb
    by_contra hne
    simp only [oneChunkFile, if_neg hne, if_true] at hb
    revert hb
    decide

def oneChunkOwner (bytes : Bytes) : VerifiedChunk := ⟨bytes,otherDigest,0,chunkDigest⟩

/-- The reading of its first byte. -/
def oneChunkRead (bytes : Bytes) : List Event :=
  [.call 0 0 1,.getChunk 0 0,.getLeaf 0 0,.page 0,.putLeaf 0 (0,[chunkDigest]),.want 0,
    .answer 0 [.chunkFrame otherDigest otherDigest 0 bytes],.putChunk 0 (oneChunkOwner bytes),
    .copy 0,.publish 0]

def firstByte : Range := ⟨0,1,1,1⟩

theorem one_chunk_open : openRange (oneChunkFile bytes) 0 1 = .reading firstByte 0 [] := by
  have hadd : checkedAdd 0 1 = some 1 := by
    rw [checked_add_some]
    decide
  simp [openRange, oneChunkFile, maxBufferedFileBytes, hadd, firstByte]

theorem one_chunk_collect (h : bytes.length = 262145) :
    (oneChunkFile bytes).collectChunk 0 262145 chunkDigest
      [.chunkFrame otherDigest otherDigest 0 bytes] = .ok (oneChunkOwner bytes) := by
  simp [ChunkedFile.collectChunk, ChunkedFile.chunkSink, ChunkedFile.publishChunk, oneChunkFile,
    h, require, okOr, oneChunkOwner]

theorem one_chunk_copy (h : bytes.length = 262145) :
    copyChunk (oneChunkFile bytes) firstByte 0 [] (oneChunkOwner bytes) =
      .closing firstByte (slice bytes 0 1) := by
  simp [copyChunk, checkedMul, checkedSub, getSlice, oneChunkFile, oneChunkOwner, h, firstByte,
    usizeMax]

theorem one_chunk_publish (h : bytes.length = 262145) :
    (slice bytes 0 1).length = firstByte.returned := by
  rw [slice_length, h]
  simp [firstByte]

def oneEntry {α : Type} (x : α) : Slots α := ⟨some x :: List.replicate 15 none,1⟩

/-- The file with one reader. -/
def alone (chunks : Slots VerifiedChunk) (leaves : Slots LeafEntry) (p : Reader) : State :=
  ⟨chunks,leaves,Function.update (fun _ => .idle) 0 p⟩

theorem alone_step {chunks : Slots VerifiedChunk} {leaves : Slots LeafEntry} {p : Reader}
    {e : Event} {es : List Event} {s : State} (chunks' : Slots VerifiedChunk)
    (leaves' : Slots LeafEntry) (q : Reader)
    (h : ∀ readers : ℕ → Reader, readers 0 = p →
      step (oneChunkFile bytes) ⟨chunks,leaves,readers⟩ e =
        some ⟨chunks',leaves',Function.update readers 0 q⟩)
    (hrest : run (step (oneChunkFile bytes)) (alone chunks' leaves' q) es = some s) :
    run (step (oneChunkFile bytes)) (alone chunks leaves p) (e :: es) = some s := by
  refine run_cons.mpr ⟨_,h _ (Function.update_self ..),?_⟩
  rw [Function.update_idem]
  exact hrest

theorem one_chunk_read (h : bytes.length = 262145) :
    ∃ s, run (step (oneChunkFile bytes)) start (oneChunkRead bytes) = some s ∧
      s.readers 0 = .done firstByte (slice bytes 0 1) := by
  have hcall : start.goto 0 (openRange (oneChunkFile bytes) 0 1) =
      alone (Slots.new 16) (Slots.new 16) (.reading firstByte 0 []) := by
    rw [one_chunk_open]
    rfl
  refine ⟨alone (oneEntry (oneChunkOwner bytes)) (oneEntry (0,[chunkDigest]))
    (.done firstByte (slice bytes 0 1)),?_,rfl⟩
  refine run_cons.mpr ⟨_,guarded_eq_some.mpr ⟨by decide,hcall⟩,?_⟩
  -- The tables are empty, so the reader asks for the leaf and for the chunk.
  apply alone_step (Slots.new 16) (Slots.new 16) (.leafing firstByte 0 [])
  on_goal 2 => apply alone_step (Slots.new 16) (Slots.new 16) (.mapping firstByte 0 [])
  on_goal 3 => apply alone_step (Slots.new 16) (Slots.new 16) (.mapped firstByte 0 [] [chunkDigest])
  on_goal 4 =>
    apply alone_step (Slots.new 16) (oneEntry (0,[chunkDigest]))
      (.wanting firstByte 0 [] [chunkDigest])
  on_goal 5 =>
    apply alone_step (Slots.new 16) (oneEntry (0,[chunkDigest]))
      (.asking firstByte 0 [] chunkDigest 262145)
  on_goal 6 =>
    apply alone_step (Slots.new 16) (oneEntry (0,[chunkDigest]))
      (.published firstByte 0 [] (oneChunkOwner bytes))
  on_goal 7 =>
    apply alone_step (oneEntry (oneChunkOwner bytes)) (oneEntry (0,[chunkDigest]))
      (.copying firstByte 0 [] (oneChunkOwner bytes))
  on_goal 8 =>
    apply alone_step (oneEntry (oneChunkOwner bytes)) (oneEntry (0,[chunkDigest]))
      (.closing firstByte (slice bytes 0 1))
  on_goal 9 => refine alone_step _ _ _ ?_ rfl
  all_goals
    intro readers hp
    simp only [step, hp, State.goto, one_chunk_len, one_chunk_collect h, one_chunk_copy h,
      if_pos (one_chunk_publish h), Nat.zero_div, Nat.zero_mod]
  all_goals rfl

def sevens : Bytes := List.replicate 262145 7

theorem owned_range_first_byte :
    ∃ s, run (step (oneChunkFile sevens)) start (oneChunkRead sevens) = some s ∧
      s.readers 0 = .done firstByte (slice sevens 0 1) ∧
      slice sevens 0 1 = slice (content (oneChunkFile sevens) fun _ => sevens) 0
        (min (0+1) (oneChunkFile sevens).size) := by
  have hlen : sevens.length = 262145 := List.length_replicate
  obtain ⟨s,hrun,hdone⟩ := one_chunk_read hlen
  obtain ⟨hread,-⟩ := owned_range_reads (oneChunkFile sevens) (fun _ => sevens)
    (one_chunk_names hlen) (oneChunkRead sevens) s hrun
  exact ⟨s,hrun,hdone,(hread 0 0 1 _ _ rfl hdone).1⟩

end OneChunk

end Scorpio.OwnedRange
