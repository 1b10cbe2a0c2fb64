import Scorpio.Transport.UnitSets

/-!
# The order of returned chunks

`chunks` checks that the units of a response are the requested set and keeps
them in the order of the frames. The result is in request order exactly when
the server has placed the frames of every batch in the order of its items.
-/

set_option autoImplicit false

namespace Scorpio.ChunkOrder

open ByteText Fallible PageCodec OwnedTransport RequestBatches ResponseFrames UnitBatches UnitSets

def chunkKey (item : ChunkRequest) : Option (Digest × ℕ) :=
  (parseDigest item.mapId).toOption.map fun id => (id,item.chunkIndex)

theorem chunk_key_some {item : ChunkRequest} {key : Digest × ℕ} :
    chunkKey item = some key ↔ NamesChunk item key := by
  rw [chunkKey, Option.map_eq_some_iff]
  constructor
  · rintro ⟨id,hid,rfl⟩
    exact ⟨to_option_ok.mp hid,rfl⟩
  · rintro ⟨hid,hindex⟩
    exact ⟨key.1,to_option_ok.mpr hid,by rw [hindex]⟩

/-- The `i`-th unit has the key of the `i`-th item. -/
def InOrder (items : List ChunkRequest) (units : List ChunkUnit) : Prop :=
  items.map chunkKey = units.map fun u => some u.key

instance (items : List ChunkRequest) (units : List ChunkUnit) : Decidable (InOrder items units) :=
  inferInstanceAs (Decidable (_ = _))

theorem in_order_append {items items' : List ChunkRequest} {units units' : List ChunkUnit}
    (hlength : items.length = units.length) :
    InOrder (items ++ items') (units ++ units') ↔ InOrder items units ∧ InOrder items' units' := by
  unfold InOrder
  rw [List.map_append, List.map_append]
  constructor
  · exact fun h => List.append_inj h (by simpa using hlength)
  · rintro ⟨h,h'⟩
    rw [h, h']

/-- Units in order, each with the content of its key, add up to the content of the items. -/
theorem InOrder.content {items : List ChunkRequest} {units : List ChunkUnit}
    (h : InOrder items units) {content : Digest × ℕ → Bytes}
    (hunits : ∀ u ∈ units, u.bytes = content u.key) :
    units.flatMap (·.bytes) = items.flatMap fun item => (chunkKey item).elim [] content := by
  have hkeys : (items.flatMap fun item => (chunkKey item).elim [] content) =
      (items.map chunkKey).flatMap (·.elim [] content) := by rw [List.flatMap_map]
  rw [hkeys, h, List.flatMap_map]
  exact List.flatMap_congr hunits

section Merge

variable {t : FrameCodec} {client : FrameClient} {encoding : Option Text} {server : Server}

theorem keep_new_fresh {units out : List ChunkUnit}
    (h : ((out ++ units).map ChunkUnit.key).Nodup) : units.foldl keepNew out = out ++ units := by
  induction units generalizing out with
  | nil => simp
  | cons u units ih =>
    rw [List.append_cons] at h ⊢
    have hnew : u.key ∉ out.map ChunkUnit.key := by
      rw [List.map_append, List.map_append] at h
      exact fun hu => (List.nodup_append.mp (List.nodup_append.mp h).1).2.2 _ hu _ (by simp) rfl
    rw [List.foldl_cons, keepNew, if_neg hnew]
    exact ih h

/-- The units of one batch are those of its frames, one for each item. -/
theorem batch_units {batch : List ChunkRequest} {answer : Result Bytes} {units : List ChunkUnit}
    (h : chunksBatch t client batch encoding answer = .ok units)
    (hnamed : ∀ item ∈ batch, ∃ key, chunkKey item = some key)
    (hdistinct : (batch.map chunkKey).Nodup) :
    (units.map fun u => some u.key).Perm (batch.map chunkKey) ∧
      ∃ raw frames, answer = .ok raw ∧ t.parseStream raw = .ok frames ∧
        units = frames.flatMap frameChunks := by
  obtain ⟨hexact,⟨raw,frames,_,hraw,hframes,_,hunits,_⟩,_⟩ := chunks_batch_ok h
  refine ⟨?_,raw,frames,hraw,hframes,hunits⟩
  rw [show (units.map fun u => some u.key) = (units.map ChunkUnit.key).map some by simp]
  refine (List.perm_ext_iff_of_nodup (hexact.nodup.map (Option.some_injective _)) hdistinct).mpr ?_
  intro key
  rw [List.mem_map, List.mem_map]
  constructor
  · rintro ⟨k,hk,rfl⟩
    obtain ⟨item,hitem,hnames⟩ := (hexact.mem k).mp hk
    exact ⟨item,hitem,chunk_key_some.mpr hnames⟩
  · rintro ⟨item,hitem,rfl⟩
    obtain ⟨k,hk⟩ := hnamed item hitem
    exact ⟨k,(hexact.mem k).mpr ⟨item,hitem,chunk_key_some.mp hk⟩,hk.symm⟩

/-- The server has placed the chunks of each response in the order of the batch. -/
def ServedInOrder (t : FrameCodec) (server : Server) (batches : List (List ChunkRequest × ℕ)) :
    Prop :=
  ∀ batch ∈ batches, ∀ raw frames, server batch.2 = .ok raw → t.parseStream raw = .ok frames →
    InOrder batch.1 (frames.flatMap frameChunks)

theorem merge_run {batches : List (List ChunkRequest)} {n : ℕ} {out out' : List ChunkUnit}
    (hrun : (batches.zipIdx n).foldlM (mergeChunks t client encoding server) out = .ok out')
    (hnamed : ∀ item ∈ batches.flatten, ∃ key, chunkKey item = some key)
    (hdistinct : ((out.map fun u => some u.key) ++ batches.flatten.map chunkKey).Nodup) :
    ∃ added, out' = out ++ added ∧
      (InOrder batches.flatten added ↔ ServedInOrder t server (batches.zipIdx n)) := by
  induction batches generalizing n out with
  | nil =>
    rw [List.zipIdx_nil, List.foldlM_nil, pure_ok] at hrun
    exact ⟨[],by simp [hrun],by simp [InOrder, ServedInOrder]⟩
  | cons batch batches ih =>
    rw [List.zipIdx_cons, List.foldlM_cons] at hrun
    obtain ⟨out₁,hfirst,hrun⟩ := bind_ok.mp hrun
    obtain ⟨units,hunits,hmerged⟩ := bind_ok.mp hfirst
    rw [pure_ok] at hmerged
    rw [List.flatten_cons, List.map_append, ← List.append_assoc] at hdistinct
    obtain ⟨hperm,raw,frames,hraw,hframes,heq⟩ := batch_units hunits
      (fun item hitem => hnamed item (by simp [hitem]))
      (List.nodup_append.mp (List.nodup_append.mp hdistinct).1).2.1
    -- the batch puts its own keys behind those gathered before
    have hnext := ((hperm.symm.append_left (out.map fun u => some u.key)).append_right
      (batches.flatten.map chunkKey)).nodup_iff.mp hdistinct
    rw [← List.map_append] at hnext
    have hout : out₁ = out ++ units := by
      rw [← hmerged]
      refine keep_new_fresh (List.Nodup.of_map some ?_)
      rw [List.map_map]
      exact (List.nodup_append.mp hnext).1
    rw [hout] at hrun
    obtain ⟨added,hadded,hiff⟩ := ih hrun (fun item hitem => hnamed item (by simp [hitem])) hnext
    refine ⟨units ++ added,by rw [hadded, List.append_assoc],?_⟩
    have hlength : batch.length = units.length := by simpa using hperm.length_eq.symm
    rw [List.flatten_cons, in_order_append hlength, hiff, List.zipIdx_cons]
    unfold ServedInOrder
    rw [List.forall_mem_cons]
    refine and_congr_left' ⟨fun h raw' frames' hraw' hframes' => ?_,fun h => ?_⟩
    · cases hraw.symm.trans hraw'
      cases hframes.symm.trans hframes'
      rwa [← heq]
    · rw [heq]
      exact h raw frames hraw hframes

end Merge

/-- The units of an accepted call are in request order if and only if the server has placed the
chunks of every response in the order of its batch, and then they add up to the file range. -/
theorem chunk_order_iff (t : FrameCodec) (client : FrameClient) (encoding : Option Text)
    (server : Server) {items : List ChunkRequest} (hdistinct : (items.map chunkKey).Nodup)
    {out : List ChunkUnit} (h : chunks t client items encoding server = .ok out) :
    ∃ batches, requestBatches items encoding client.requestByteLimit (chunkMaxItems t client)
        chunkRequestValue = .ok batches ∧
      (InOrder items out ↔ ServedInOrder t server batches.zipIdx) ∧
      (ServedInOrder t server batches.zipIdx → ∀ content : Digest × ℕ → Bytes,
        (∀ u ∈ out, u.bytes = content u.key) →
        out.flatMap (·.bytes) = items.flatMap fun item => (chunkKey item).elim [] content) := by
  obtain ⟨_,_,h⟩ := bind_ok.mp h
  obtain ⟨_,_,h⟩ := bind_ok.mp h
  obtain ⟨_,_,h⟩ := bind_ok.mp h
  obtain ⟨_,_,h⟩ := bind_ok.mp h
  obtain ⟨requested,hrequested,h⟩ := bind_ok.mp h
  obtain ⟨batches,hbatches,hrun⟩ := bind_ok.mp h
  have hnamed : ∀ item ∈ items, ∃ key, chunkKey item = some key := by
    intro item hitem
    obtain ⟨key,_,hnames,_⟩ := (requested_chunks hrequested).files item hitem
    exact ⟨key,chunk_key_some.mpr hnames⟩
  have hflatten := (request_batches_ok hbatches).1
  rw [← hflatten] at hnamed hdistinct
  obtain ⟨added,rfl,hiff⟩ := merge_run hrun hnamed hdistinct
  rw [hflatten] at hiff
  exact ⟨batches,hbatches,hiff,fun hserved _ => (hiff.mpr hserved).content⟩

namespace Sample

open ExactStream.Sample (digestOf headerOf)
open UnitSets.Sample (client server)

def items : List ChunkRequest :=
  [⟨"a",digest (digestOf [8]),digest (digestOf [9]),4⟩,
    ⟨"a",digest (digestOf [8]),digest (digestOf [9]),5⟩]

def chunk (index : ℕ) (bytes : Bytes) : ChunkUnit := ⟨digestOf [9],digestOf [8],index,bytes⟩

def orderedRaw : Bytes := headerOf 3 2 0 ++ [7,8] ++ headerOf 4 0 1

def swappedRaw : Bytes := headerOf 3 3 0 ++ [7,8,9] ++ headerOf 4 0 1

/-- A codec that knows the two chunks in both orders. -/
def codec : FrameCodec := { UnitSets.Sample.codec with
  parseStream := fun raw =>
    let frames : List Frame := [.chunkFrame (digestOf [9]) (digestOf [8]) 4 [1,2],
      .chunkFrame (digestOf [9]) (digestOf [8]) 5 [3]]
    .ok ((if raw = swappedRaw then frames.reverse else frames) ++
      [.endFrame ⟨2,2,3,digestOf (requestBody none chunkRequestValue items)⟩]) }

/-- A response with its two chunks the other way round is accepted. -/
theorem swapped_chunks_returned : (items.map chunkKey).Nodup ∧
    (chunks codec client items none (server swappedRaw)).toOption =
      some [chunk 5 [3],chunk 4 [1,2]] ∧ ¬InOrder items [chunk 5 [3],chunk 4 [1,2]] := by
  decide +kernel

theorem chunk_order_iff_ordered : ∃ batches,
    requestBatches items none client.requestByteLimit (chunkMaxItems codec client)
      chunkRequestValue = .ok batches ∧
    ServedInOrder codec (server orderedRaw) batches.zipIdx := by
  have hrun : (chunks codec client items none (server orderedRaw)).toOption =
      some [chunk 4 [1,2],chunk 5 [3]] := by decide +kernel
  obtain ⟨batches,hbatches,hiff,_⟩ := chunk_order_iff codec client none (server orderedRaw)
    (by decide +kernel) (to_option_ok.mp hrun)
  exact ⟨batches,hbatches,hiff.mp (by decide +kernel)⟩

end Sample

end Scorpio.ChunkOrder
