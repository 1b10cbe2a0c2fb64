import Scorpio.Transport.ExactStream
import Scorpio.Transport.UnitBatches

/-!
# Exact unit sets

A successful call returns one unit for each key that its items name and nothing
else, however the items were split and whatever frames the server chose. The
argument is the same for objects and chunks: within a batch the units are new
and asked for, and their number is the number of keys asked for; batches are
merged under the keys. The END frame of each batch has declared its counts.
-/

set_option autoImplicit false

namespace Scorpio.UnitSets

open ByteText Fallible PageCodec OwnedTransport RequestBatches ResponseFrames UnitBatches

/-! ## Units under their keys -/

section Units

variable {U κ I σ α : Type} {key : U → κ} {size : U → ℕ} {P : U → Prop} {asks : I → κ → Prop}
  {B : List I → U → Prop}

/-- The units are those the items ask for, one for each key. -/
structure Exactly (key : U → κ) (asks : I → κ → Prop) (items : List I) (units : List U) : Prop where
  nodup : (units.map key).Nodup
  mem : ∀ k, k ∈ units.map key ↔ ∃ item ∈ items, asks item k

theorem exactly_nil : Exactly key asks [] [] := ⟨List.nodup_nil,by simp⟩

variable {units out out' : List U} {bytes : ℕ} {unitsOf : Frame → List U}

/-- Units with distinct keys, all of them asked for, are all that is asked for when there are
enough of them. -/
theorem exactly_of_count [DecidableEq κ] {items : List I} {requested : Finset κ}
    (hrequested : ∀ k, k ∈ requested ↔ ∃ item ∈ items, asks item k)
    (hnodup : (units.map key).Nodup) (heach : ∀ u ∈ units, key u ∈ requested)
    (hcount : units.length = requested.card) : Exactly key asks items units := by
  have hsubset : (units.map key).toFinset ⊆ requested := by
    intro k hk
    obtain ⟨u,hu,rfl⟩ := List.mem_map.mp (List.mem_toFinset.mp hk)
    exact heach u hu
  have hcard : requested.card ≤ (units.map key).toFinset.card := by
    rw [List.toFinset_card_of_nodup hnodup, List.length_map, hcount]
  have heq := Finset.eq_of_subset_of_card_le hsubset hcard
  exact ⟨hnodup,fun k => by rw [← hrequested, ← heq, List.mem_toFinset]⟩

/-- Units were added to a list and their sizes to a sum. -/
structure Taken (key : U → κ) (size : U → ℕ) (P : U → Prop) (out : List U) (bytes : ℕ)
    (units : List U) (out' : List U) (bytes' : ℕ) : Prop where
  grown : out' = out ++ units
  summed : bytes' = bytes+(units.map size).sum
  fresh : (out.map key).Nodup → (out'.map key).Nodup
  each : ∀ u ∈ units, P u

theorem Taken.refl : Taken key size P out bytes [] out bytes :=
  ⟨by simp,by simp,id,by simp⟩

theorem Taken.one {u : U} (hnew : key u ∉ out.map key) (hu : P u) :
    Taken key size P out bytes [u] (out ++ [u]) (bytes+size u) := by
  refine ⟨rfl,by simp,fun hnodup => ?_,by simpa using hu⟩
  rw [List.map_append, List.map_singleton]
  exact List.Nodup.append hnodup (List.nodup_singleton _) (List.disjoint_singleton.mpr hnew)

theorem Taken.trans {out'' xs ys : List U} {bytes' bytes'' : ℕ}
    (h : Taken key size P out bytes xs out' bytes')
    (h' : Taken key size P out' bytes' ys out'' bytes'') :
    Taken key size P out bytes (xs ++ ys) out'' bytes'' := by
  refine ⟨by rw [h'.grown, h.grown, List.append_assoc],?_,fun hnodup => h'.fresh (h.fresh hnodup),?_⟩
  · rw [h'.summed, h.summed, List.map_append, List.sum_append, Nat.add_assoc]
  · intro u hu
    rcases List.mem_append.mp hu with hu | hu
    · exact h.each u hu
    · exact h'.each u hu

/-- A loop takes the units of its turns. -/
theorem taken_run {step : σ → α → Result σ} {out : σ → List U} {bytes : σ → ℕ}
    {units : α → List U} (hstep : ∀ s x s', step s x = .ok s' →
      Taken key size P (out s) (bytes s) (units x) (out s') (bytes s')) {xs : List α} {s s' : σ}
    (h : xs.foldlM step s = .ok s') :
    Taken key size P (out s) (bytes s) (xs.flatMap units) (out s') (bytes s') := by
  induction xs generalizing s with
  | nil =>
    rw [List.foldlM_nil, pure_ok] at h
    subst h
    exact .refl
  | cons x xs ih =>
    rw [List.foldlM_cons] at h
    obtain ⟨s₁,hfirst,h⟩ := bind_ok.mp h
    rw [List.flatMap_cons]
    exact (hstep s x s₁ hfirst).trans (ih h)

/-- What the END frame of a batch declares about the units of the batch. -/
def Declared (t : FrameCodec) (unitsOf : Frame → List U) (size : U → ℕ) (answer : Result Bytes)
    (count : ℕ) (units : List U) : Prop :=
  ∃ raw frames e, answer = .ok raw ∧ t.parseStream raw = .ok frames ∧
    frames.getLast? = some (.endFrame e) ∧ units = frames.flatMap unitsOf ∧
    e.requestItemCount = count ∧ e.uniqueUnitCount = units.length ∧
    e.logicalBytes = (units.map size).sum

/-- Two results are merged under their keys. -/
structure Merged (key : U → κ) (out units out' : List U) : Prop where
  nodup : (out.map key).Nodup → (out'.map key).Nodup
  keys : ∀ k, k ∈ out'.map key ↔ k ∈ out.map key ∨ k ∈ units.map key
  units : ∀ u ∈ out', u ∈ out ∨ u ∈ units

theorem Exactly.merge {items items' : List I} (h : Exactly key asks items out)
    (h' : Exactly key asks items' units) (hmerged : Merged key out units out') :
    Exactly key asks (items ++ items') out' := by
  refine ⟨hmerged.nodup h.nodup,fun k => ?_⟩
  rw [hmerged.keys, h.mem, h'.mem]
  simp only [List.mem_append, or_and_right, exists_or]

/-- A fold that merges one unit at a time merges them all. -/
theorem merged_fold {add : List U → U → List U}
    (hadd : ∀ out u, Merged key out [u] (add out u)) (units out : List U) :
    Merged key out units (units.foldl add out) := by
  induction units generalizing out with
  | nil => exact ⟨id,by simp,by simp⟩
  | cons u units ih =>
    obtain ⟨hnodup,hkeys,hunits⟩ := hadd out u
    obtain ⟨hnodup',hkeys',hunits'⟩ := ih (add out u)
    refine ⟨fun h => hnodup' (hnodup h),fun k => ?_,fun v hv => ?_⟩
    · rw [List.foldl_cons, hkeys', hkeys, or_assoc, List.map_singleton, List.mem_singleton,
        List.map_cons, List.mem_cons]
    · rcases hunits' v hv with hv | hv
      · rcases hunits v hv with hv | hv
        · exact .inl hv
        · exact .inr (List.mem_cons.mpr (.inl (List.mem_singleton.mp hv)))
      · exact .inr (List.mem_cons_of_mem u hv)

/-- Every batch was answered exactly, and every unit of the result is one of theirs and bound to
the batch by `B`. -/
structure Answered (key : U → κ) (asks : I → κ → Prop) (B : List I → U → Prop) (t : FrameCodec)
    (unitsOf : Frame → List U) (size : U → ℕ) (server : Server) (batches : List (List I))
    (out : List U) : Prop where
  whole : Exactly key asks batches.flatten out
  declared : ∀ n batch, batches[n]? = some batch → ∃ units, Exactly key asks batch units ∧
    Declared t unitsOf size (server n) batch.length units
  received : ∀ u ∈ out, ∃ n batch raw frames, batches[n]? = some batch ∧ server n = .ok raw ∧
    t.parseStream raw = .ok frames ∧ u ∈ frames.flatMap unitsOf ∧ B batch u

theorem Answered.nil {t : FrameCodec} {server : Server} :
    Answered key asks B t unitsOf size server [] [] :=
  ⟨exactly_nil,by simp,by simp⟩

theorem Answered.snoc {t : FrameCodec} {server : Server} {batches : List (List I)}
    {batch : List I} (h : Answered key asks B t unitsOf size server batches out)
    (hexact : Exactly key asks batch units)
    (hdeclared : Declared t unitsOf size (server batches.length) batch.length units)
    (hmerged : Merged key out units out') (hbound : ∀ u ∈ units, B batch u) :
    Answered key asks B t unitsOf size server (batches ++ [batch]) out' := by
  refine ⟨?_,fun n batch' hn => ?_,fun u hu => ?_⟩
  · rw [List.flatten_append, List.flatten_singleton]
    exact h.whole.merge hexact hmerged
  · by_cases hlt : n < batches.length
    · rw [List.getElem?_append_left hlt] at hn
      exact h.declared n batch' hn
    · rw [List.getElem?_append_right (not_lt.mp hlt)] at hn
      obtain ⟨hzero,rfl⟩ := List.getElem?_eq_some_iff.mp hn
      obtain rfl : n = batches.length := by
        rw [List.length_singleton] at hzero
        omega
      exact ⟨units,by simpa using hexact,by simpa using hdeclared⟩
  · rcases hmerged.units u hu with hu | hu
    · obtain ⟨n,batch',raw,frames,hn,hrest⟩ := h.received u hu
      have hlt := (List.getElem?_eq_some_iff.mp hn).1
      exact ⟨n,batch',raw,frames,by rw [List.getElem?_append_left hlt, hn],hrest⟩
    · obtain ⟨raw,frames,_,hraw,hframes,_,rfl,_⟩ := hdeclared
      exact ⟨batches.length,batch,raw,frames,by simp,hraw,hframes,hu,hbound u hu⟩

/-- The loop over the batches. -/
theorem answered_run {t : FrameCodec} {server : Server} {step : σ → List I × ℕ → Result σ}
    (out : σ → List U)
    (hstep : ∀ s batch n s', step s (batch,n) = .ok s' → ∃ units, Exactly key asks batch units ∧
      Declared t unitsOf size (server n) batch.length units ∧ Merged key (out s) units (out s') ∧
      ∀ u ∈ units, B batch u) {batches before : List (List I)} {s s' : σ}
    (hbefore : Answered key asks B t unitsOf size server before (out s))
    (h : (batches.zipIdx before.length).foldlM step s = .ok s') :
    Answered key asks B t unitsOf size server (before ++ batches) (out s') := by
  induction batches generalizing before s with
  | nil =>
    rw [List.zipIdx_nil, List.foldlM_nil, pure_ok] at h
    subst h
    rwa [List.append_nil]
  | cons batch batches ih =>
    rw [List.zipIdx_cons, List.foldlM_cons] at h
    obtain ⟨s₁,hfirst,h⟩ := bind_ok.mp h
    obtain ⟨units,hexact,hdeclared,hmerged,hbound⟩ := hstep s batch _ s₁ hfirst
    have hnext := hbefore.snoc hexact hdeclared hmerged hbound
    rw [List.append_cons]
    refine ih hnext ?_
    rwa [List.length_append, List.length_singleton]

end Units

theorem as_u32_small {n : ℕ} (h : n ≤ 128) : asU32 n = n := Nat.mod_eq_of_lt (by omega)

/-! ## Objects -/

section Objects

variable {t : FrameCodec} {client : FrameClient}

/-- The digest an item names. -/
def NamesObject (item : ObjectItem) (id : Digest) : Prop := parseDigest item.digest = .ok id

def frameObjects : Frame → List (Digest × Bytes)
  | .objectFrame objects => objects
  | _ => []

variable {items : List ObjectItem} {requested : Finset Digest} {encoding : Option Text}

theorem requested_objects {requested' : Finset Digest}
    (h : items.foldlM requestObject requested = .ok requested') :
    (∀ id, id ∈ requested' ↔ id ∈ requested ∨ ∃ item ∈ items, NamesObject item id) ∧
      requested'.card ≤ requested.card+items.length := by
  induction items generalizing requested with
  | nil =>
    rw [List.foldlM_nil, pure_ok] at h
    subst h
    exact ⟨by simp,le_rfl⟩
  | cons item items ih =>
    rw [List.foldlM_cons] at h
    obtain ⟨requested₁,hfirst,h⟩ := bind_ok.mp h
    obtain ⟨id,hid,hfirst⟩ := bind_ok.mp hfirst
    rw [pure_ok] at hfirst
    subst hfirst
    obtain ⟨hmem,hcard⟩ := ih h
    have hnames : ∀ id', NamesObject item id' ↔ id' = id := fun id' => by
      rw [NamesObject, hid, Except.ok.injEq, eq_comm]
    refine ⟨fun id' => ?_,?_⟩
    · rw [hmem, Finset.mem_insert]
      simp only [List.mem_cons, exists_eq_or_imp, hnames]
      tauto
    · have := Finset.card_insert_le id requested
      rw [List.length_cons]
      omega

theorem take_object_ok {s s' : Objects} {object : Digest × Bytes}
    (h : takeObject client requested s object = .ok s') :
    Taken Prod.fst (fun o => o.2.length) (fun o => o.1 ∈ requested) s.out s.logicalBytes [object]
      s'.out s'.logicalBytes := by
  obtain ⟨_,hnew,h⟩ := bind_ok.mp h
  obtain ⟨_,_,h⟩ := bind_ok.mp h
  rw [pure_ok] at h
  subst h
  obtain ⟨hasked,hfresh⟩ := not_or.mp (of_decide_eq_true (require_ok.mp hnew))
  exact .one hfresh (not_not.mp hasked)

theorem take_object_frame_ok {s s' : Objects} {frame : Frame}
    (h : takeObjectFrame client requested s frame = .ok s') :
    Taken Prod.fst (fun o => o.2.length) (fun o => o.1 ∈ requested) s.out s.logicalBytes
      (frameObjects frame) s'.out s'.logicalBytes := by
  cases frame with
  | objectFrame objects =>
    have hrun : Taken Prod.fst (fun o => o.2.length) (fun o => o.1 ∈ requested) s.out
        s.logicalBytes (objects.flatMap fun o => [o]) s'.out s'.logicalBytes :=
      taken_run (fun s x s' hs => take_object_ok hs) h
    rwa [List.flatMap_singleton'] at hrun
  | endFrame e =>
    cases h
    exact .refl
  | metaFrame => cases h
  | chunkFrame => cases h
  | errorFrame => cases h

theorem objects_batch_ok {answer : Result Bytes} {out : List (Digest × Bytes)}
    (h : objectsBatch t client items encoding answer = .ok out) :
    Exactly Prod.fst NamesObject items out ∧
      Declared t frameObjects (fun o => o.2.length) answer items.length out := by
  obtain ⟨_,hsize,h⟩ := bind_ok.mp h
  obtain ⟨requested,hrequested,h⟩ := bind_ok.mp h
  obtain ⟨budget,_,h⟩ := bind_ok.mp h
  obtain ⟨raw,hraw,h⟩ := bind_ok.mp h
  obtain ⟨frames,hframes,h⟩ := bind_ok.mp h
  obtain ⟨⟨units,bytes⟩,hend,h⟩ := bind_ok.mp h
  obtain ⟨s,hrun,h⟩ := bind_ok.mp h
  obtain ⟨_,hcounts,h⟩ := bind_ok.mp h
  rw [pure_ok] at h
  subst h
  have hsmall : items.length ≤ 128 :=
    not_lt.mp (not_or.mp (of_decide_eq_true (require_ok.mp hsize))).2
  obtain ⟨hmem,hcard⟩ := requested_objects hrequested
  have htaken := taken_run (fun s x s' hs => take_object_frame_ok hs) hrun
  have hcounts := of_decide_eq_true (require_ok.mp hcounts)
  push Not at hcounts
  obtain ⟨hlength,hunits,hbytes⟩ := hcounts
  have hout : s.out = frames.flatMap frameObjects := htaken.grown
  have hfew : s.out.length ≤ 128 := by
    rw [Finset.card_empty] at hcard
    omega
  refine ⟨?_,raw,frames,_,hraw,response_frames_ok hframes,check_end_ok hend,hout,
    as_u32_small hsmall,?_,?_⟩
  · refine exactly_of_count (fun id => by simpa using hmem id) (htaken.fresh List.nodup_nil) ?_ hlength
    rw [hout]
    exact htaken.each
  · exact hunits.symm.trans (as_u32_small hfew)
  · rw [hout]
    exact hbytes.symm.trans (htaken.summed.trans (Nat.zero_add _))

theorem insert_merged (out : List (Digest × Bytes)) (o : Digest × Bytes) :
    Merged Prod.fst out [o] (Assoc.insert out o.1 o.2) := by
  refine ⟨fun h => Assoc.keys_insert_nodup h,fun k => ?_,fun u hu => ?_⟩
  · simp only [List.mem_map, Assoc.mem_insert, List.mem_singleton, exists_eq_left]
    constructor
    · rintro ⟨u,⟨hu,_⟩ | rfl,rfl⟩
      · exact .inl ⟨u,hu,rfl⟩
      · exact .inr rfl
    · rintro (⟨u,hu,rfl⟩ | rfl)
      · by_cases hk : u.1 = o.1
        · exact ⟨o,.inr rfl,hk.symm⟩
        · exact ⟨u,.inl ⟨hu,hk⟩,rfl⟩
      · exact ⟨o,.inr rfl,rfl⟩
  · rcases Assoc.mem_insert.mp hu with ⟨hu,_⟩ | rfl
    · exact .inl hu
    · exact .inr (List.mem_singleton_self _)

theorem merge_objects_ok {server : Server} {s s' : List (Digest × Bytes) × ℕ}
    {batch : List ObjectItem} {n : ℕ}
    (h : mergeObjects t client encoding server s (batch,n) = .ok s') :
    ∃ units, Exactly Prod.fst NamesObject batch units ∧
      Declared t frameObjects (fun o => o.2.length) (server n) batch.length units ∧
      Merged Prod.fst s.1 units s'.1 ∧ ∀ u ∈ units, True := by
  obtain ⟨units,hbatch,h⟩ := bind_ok.mp h
  obtain ⟨_,_,h⟩ := bind_ok.mp h
  rw [pure_ok] at h
  subst h
  obtain ⟨hexact,hdeclared⟩ := objects_batch_ok hbatch
  exact ⟨units,hexact,hdeclared,merged_fold insert_merged units s.1,fun _ _ => trivial⟩

theorem objects_answered {server : Server} {out : List (Digest × Bytes)}
    (h : objects t client items encoding server = .ok out) :
    ∃ batches, requestBatches items encoding client.requestByteLimit (objectMaxItems t client)
        objectItemValue = .ok batches ∧ batches.flatten = items ∧
      Answered Prod.fst NamesObject (fun _ _ => True) t frameObjects (fun o => o.2.length) server batches out := by
  obtain ⟨_,_,h⟩ := bind_ok.mp h
  obtain ⟨_,_,h⟩ := bind_ok.mp h
  obtain ⟨_,_,h⟩ := bind_ok.mp h
  obtain ⟨_,_,h⟩ := bind_ok.mp h
  obtain ⟨batches,hbatches,h⟩ := bind_ok.mp h
  obtain ⟨s,hrun,h⟩ := bind_ok.mp h
  rw [pure_ok] at h
  subst h
  have hanswered : Answered Prod.fst NamesObject (fun _ _ => True) t frameObjects (fun o => o.2.length) server
      ([] ++ batches) s.1 :=
    answered_run Prod.fst (fun _ _ _ _ hs => merge_objects_ok hs) .nil hrun
  exact ⟨batches,hbatches,(request_batches_ok hbatches).1,hanswered⟩

end Objects

/-! ## Chunks -/

section Chunks

variable {t : FrameCodec} {client : FrameClient}

/-- The unit an item names, and the file it names for it. -/
def NamesChunk (item : ChunkRequest) (key : Digest × ℕ) : Prop :=
  parseDigest item.mapId = .ok key.1 ∧ item.chunkIndex = key.2

def frameChunks : Frame → List ChunkUnit
  | .chunkFrame mapId fileContentId chunkIndex chunkBytes =>
    [⟨mapId,fileContentId,chunkIndex,chunkBytes⟩]
  | _ => []

/-- The map of the units asked for: it has the file of every item, and nothing else. -/
structure Requested (items : List ChunkRequest) (requested : List ((Digest × ℕ) × Digest)) :
    Prop where
  nodup : (Assoc.keys requested).Nodup
  files : ∀ item ∈ items, ∃ key file, NamesChunk item key ∧
    parseDigest item.expectedDigest = .ok file ∧ requested.lookup key = some file
  named : ∀ key file, requested.lookup key = some file → ∃ item ∈ items, NamesChunk item key
  count : requested.length ≤ items.length

variable {item : ChunkRequest} {requested : List ((Digest × ℕ) × Digest)}
  {items : List ChunkRequest} {encoding : Option Text} {out : List ChunkUnit}

theorem names_chunk_unique {key key' : Digest × ℕ} (h : NamesChunk item key)
    (h' : NamesChunk item key') : key = key' :=
  Prod.ext (Except.ok.inj (h.1.symm.trans h'.1)) (h.2.symm.trans h'.2)

theorem Requested.step {before : List ChunkRequest} {requested' : List ((Digest × ℕ) × Digest)}
    (h : Requested before requested) (hstep : requestChunk requested item = .ok requested') :
    Requested (before ++ [item]) requested' := by
  obtain ⟨mapId,hmap,hstep⟩ := bind_ok.mp hstep
  obtain ⟨fileId,hfile,hstep⟩ := bind_ok.mp hstep
  obtain ⟨_,hsame,hstep⟩ := bind_ok.mp hstep
  rw [pure_ok] at hstep
  subst hstep
  have hlookup := Assoc.lookup_insert (k := (mapId,item.chunkIndex)) (v := fileId) h.nodup
  -- an earlier file of the key is the same file
  have hkept : ∀ key file, requested.lookup key = some file →
      (Assoc.insert requested (mapId,item.chunkIndex) fileId).lookup key = some file := by
    intro key file hkey
    rw [hlookup]
    split
    · rename_i heq
      subst heq
      rw [require_ok, hkey] at hsame
      have hfile' : file = fileId := by simpa using hsame
      rw [hfile']
    · exact hkey
  refine ⟨Assoc.keys_insert_nodup h.nodup,?_,fun key file hkey => ?_,?_⟩
  · intro item' hitem'
    rcases List.mem_append.mp hitem' with hitem' | hitem'
    · obtain ⟨key,file,hnames,hfile',hkey⟩ := h.files item' hitem'
      exact ⟨key,file,hnames,hfile',hkept key file hkey⟩
    · obtain rfl := List.mem_singleton.mp hitem'
      exact ⟨_,fileId,⟨hmap,rfl⟩,hfile,by rw [hlookup, if_pos rfl]⟩
  · rw [hlookup] at hkey
    split at hkey
    · rename_i heq
      subst heq
      exact ⟨item,by simp,hmap,rfl⟩
    · obtain ⟨item',hitem',hnames⟩ := h.named key file hkey
      exact ⟨item',by simp [hitem'],hnames⟩
  · have herase : (Assoc.erase requested (mapId,item.chunkIndex)).length ≤ requested.length :=
      List.length_filter_le _ _
    rw [Assoc.insert, List.length_append, List.length_append, List.length_singleton,
      List.length_singleton]
    have hcount := h.count
    omega

theorem Requested.run {before : List ChunkRequest} {requested' : List ((Digest × ℕ) × Digest)}
    (h : Requested before requested) (hrun : items.foldlM requestChunk requested = .ok requested') :
    Requested (before ++ items) requested' := by
  induction items generalizing before requested with
  | nil =>
    rw [List.foldlM_nil, pure_ok] at hrun
    subst hrun
    rwa [List.append_nil]
  | cons item items ih =>
    rw [List.foldlM_cons] at hrun
    obtain ⟨requested₁,hfirst,hrun⟩ := bind_ok.mp hrun
    rw [List.append_cons]
    exact ih (h.step hfirst) hrun

theorem requested_chunks (h : items.foldlM requestChunk [] = .ok requested) :
    Requested items requested := by
  have hnil : Requested [] [] := ⟨List.nodup_nil,by simp,by simp,le_rfl⟩
  exact hnil.run h

theorem Requested.mem_keys (h : Requested items requested) (key : Digest × ℕ) :
    key ∈ (Assoc.keys requested).toFinset ↔ ∃ item ∈ items, NamesChunk item key := by
  rw [List.mem_toFinset]
  constructor
  · intro hkey
    obtain ⟨file,hfile⟩ := Assoc.exists_of_mem_keys hkey
    exact h.named key file (Assoc.lookup_of_mem h.nodup hfile)
  · rintro ⟨item,hitem,hnames⟩
    obtain ⟨key',file,hnames',_,hlookup⟩ := h.files item hitem
    obtain rfl := names_chunk_unique hnames hnames'
    exact Assoc.mem_keys_of_mem (Assoc.mem_of_lookup hlookup)

/-- All items that name a unit name one file for it. -/
theorem Requested.file (h : Requested items requested) (hitem : item ∈ items) {key : Digest × ℕ}
    (hnames : NamesChunk item key) {file : Digest} (hfile : requested.lookup key = some file) :
    parseDigest item.expectedDigest = .ok file := by
  obtain ⟨key',file',hnames',hparsed,hlookup⟩ := h.files item hitem
  obtain rfl := names_chunk_unique hnames hnames'
  rw [hlookup, Option.some.injEq] at hfile
  rwa [← hfile]

theorem take_chunk_frame_ok {s s' : Chunks} {frame : Frame}
    (h : takeChunkFrame requested s frame = .ok s') :
    Taken ChunkUnit.key (fun u => u.bytes.length)
      (fun u => requested.lookup u.key = some u.fileContentId) s.out s.logicalBytes
      (frameChunks frame) s'.out s'.logicalBytes := by
  cases frame with
  | chunkFrame mapId fileContentId chunkIndex chunkBytes =>
    obtain ⟨_,hnew,h⟩ := bind_ok.mp h
    rw [pure_ok] at h
    subst h
    obtain ⟨hasked,hfresh⟩ := not_or.mp (of_decide_eq_true (require_ok.mp hnew))
    exact .one hfresh (not_not.mp hasked)
  | endFrame e =>
    cases h
    exact .refl
  | metaFrame => cases h
  | objectFrame => cases h
  | errorFrame => cases h

/-- Every item that names the unit names its file. -/
def BoundTo (items : List ChunkRequest) (u : ChunkUnit) : Prop :=
  ∀ item ∈ items, NamesChunk item u.key → parseDigest item.expectedDigest = .ok u.fileContentId

/-- An item of the batch names the unit and its file. -/
def NamedIn (batch : List ChunkRequest) (u : ChunkUnit) : Prop :=
  ∃ item ∈ batch, NamesChunk item u.key ∧ parseDigest item.expectedDigest = .ok u.fileContentId

theorem Requested.bound (h : Requested items requested) {u : ChunkUnit} (hnamed : NamedIn items u) :
    BoundTo items u := by
  obtain ⟨item,hitem,hnames,hfile⟩ := hnamed
  obtain ⟨key,file,hnames',hfile',hlookup⟩ := h.files item hitem
  obtain rfl := names_chunk_unique hnames hnames'
  obtain rfl := Except.ok.inj (hfile.symm.trans hfile')
  exact fun item' hitem' hitem'_names => h.file hitem' hitem'_names hlookup

theorem chunks_batch_ok {answer : Result Bytes}
    (h : chunksBatch t client items encoding answer = .ok out) :
    Exactly ChunkUnit.key NamesChunk items out ∧
      Declared t frameChunks (fun u => u.bytes.length) answer items.length out ∧
      ∀ u ∈ out, NamedIn items u := by
  obtain ⟨_,hsize,h⟩ := bind_ok.mp h
  obtain ⟨requested,hrequested,h⟩ := bind_ok.mp h
  obtain ⟨budget,_,h⟩ := bind_ok.mp h
  obtain ⟨raw,hraw,h⟩ := bind_ok.mp h
  obtain ⟨frames,hframes,h⟩ := bind_ok.mp h
  obtain ⟨⟨units,bytes⟩,hend,h⟩ := bind_ok.mp h
  obtain ⟨s,hrun,h⟩ := bind_ok.mp h
  obtain ⟨_,hcounts,h⟩ := bind_ok.mp h
  rw [pure_ok] at h
  subst h
  have hsmall : items.length ≤ 128 :=
    not_lt.mp (not_or.mp (of_decide_eq_true (require_ok.mp hsize))).2
  have hasked := requested_chunks hrequested
  have htaken := taken_run (fun s x s' hs => take_chunk_frame_ok hs) hrun
  have hcounts := of_decide_eq_true (require_ok.mp hcounts)
  push Not at hcounts
  obtain ⟨hlength,hunits,hbytes⟩ := hcounts
  have hout : s.out = frames.flatMap frameChunks := htaken.grown
  have heach : ∀ u ∈ s.out, requested.lookup u.key = some u.fileContentId := hout ▸ htaken.each
  have hfew : s.out.length ≤ 128 := by
    have hcount := hasked.count
    omega
  refine ⟨?_,⟨raw,frames,_,hraw,response_frames_ok hframes,check_end_ok hend,hout,
    as_u32_small hsmall,hunits.symm.trans (as_u32_small hfew),?_⟩,?_⟩
  · refine exactly_of_count hasked.mem_keys (htaken.fresh List.nodup_nil) (fun u hu => ?_) ?_
    · exact List.mem_toFinset.mpr (Assoc.mem_keys_of_mem (Assoc.mem_of_lookup (heach u hu)))
    · rw [List.toFinset_card_of_nodup hasked.nodup, hlength, Assoc.keys, List.length_map]
  · rw [hout]
    exact hbytes.symm.trans (htaken.summed.trans (Nat.zero_add _))
  · intro u hu
    obtain ⟨item,hitem,hnames⟩ := hasked.named _ _ (heach u hu)
    exact ⟨item,hitem,hnames,hasked.file hitem hnames (heach u hu)⟩

theorem keep_new_merged (out : List ChunkUnit) (u : ChunkUnit) :
    Merged ChunkUnit.key out [u] (keepNew out u) := by
  unfold keepNew
  split
  · rename_i hold
    refine ⟨id,fun k => ?_,fun v hv => .inl hv⟩
    rw [List.map_singleton, List.mem_singleton]
    exact ⟨.inl,fun h => h.elim id fun hk => hk ▸ hold⟩
  · rename_i hnew
    refine ⟨fun h => ?_,fun k => by simp,fun v hv => List.mem_append.mp hv⟩
    rw [List.map_append, List.map_singleton]
    exact List.Nodup.append h (List.nodup_singleton _) (List.disjoint_singleton.mpr hnew)

theorem merge_chunks_ok {server : Server} {out' : List ChunkUnit} {batch : List ChunkRequest}
    {n : ℕ} (h : mergeChunks t client encoding server out (batch,n) = .ok out') :
    ∃ units, Exactly ChunkUnit.key NamesChunk batch units ∧
      Declared t frameChunks (fun u => u.bytes.length) (server n) batch.length units ∧
      Merged ChunkUnit.key out units out' ∧ ∀ u ∈ units, NamedIn batch u := by
  obtain ⟨units,hbatch,h⟩ := bind_ok.mp h
  rw [pure_ok] at h
  subst h
  obtain ⟨hexact,hdeclared,hbound⟩ := chunks_batch_ok hbatch
  exact ⟨units,hexact,hdeclared,merged_fold keep_new_merged units out,hbound⟩

theorem chunks_answered {server : Server} (h : chunks t client items encoding server = .ok out) :
    ∃ batches, requestBatches items encoding client.requestByteLimit (chunkMaxItems t client)
        chunkRequestValue = .ok batches ∧ batches.flatten = items ∧
      Answered ChunkUnit.key NamesChunk NamedIn t frameChunks (fun u => u.bytes.length) server
        batches out ∧ ∀ u ∈ out, BoundTo items u := by
  obtain ⟨_,_,h⟩ := bind_ok.mp h
  obtain ⟨_,_,h⟩ := bind_ok.mp h
  obtain ⟨_,_,h⟩ := bind_ok.mp h
  obtain ⟨_,_,h⟩ := bind_ok.mp h
  obtain ⟨requested,hrequested,h⟩ := bind_ok.mp h
  obtain ⟨batches,hbatches,hrun⟩ := bind_ok.mp h
  have hflatten := (request_batches_ok hbatches).1
  have hanswered : Answered ChunkUnit.key NamesChunk NamedIn t frameChunks
      (fun u => u.bytes.length) server ([] ++ batches) out :=
    answered_run id (fun _ _ _ _ hs => merge_chunks_ok hs) .nil hrun
  refine ⟨batches,hbatches,hflatten,hanswered,fun u hu => ?_⟩
  -- the items of all batches agree on the file of the unit
  obtain ⟨n,batch,_,_,hbatch,_,_,_,item,hitem,hnames⟩ := hanswered.received u hu
  refine (requested_chunks hrequested).bound ⟨item,?_,hnames⟩
  rw [← hflatten]
  exact List.mem_flatten.mpr ⟨batch,List.mem_of_getElem? hbatch,hitem⟩

end Chunks

theorem exact_unit_sets (t : FrameCodec) (client : FrameClient) (encoding : Option Text)
    (server : Server) :
    (∀ items out, objects t client items encoding server = .ok out →
      Exactly Prod.fst NamesObject items out ∧
      (∃ batches, requestBatches items encoding client.requestByteLimit (objectMaxItems t client)
          objectItemValue = .ok batches ∧ batches.flatten = items ∧
        ∀ n batch, batches[n]? = some batch → ∃ units, Exactly Prod.fst NamesObject batch units ∧
          Declared t frameObjects (fun o => o.2.length) (server n) batch.length units) ∧
      ((∀ raw frames, t.parseStream raw = .ok frames →
        ∀ o ∈ frames.flatMap frameObjects, client.sha256 o.2 = o.1) →
          ∀ o ∈ out, client.sha256 o.2 = o.1)) ∧
    (∀ items out, chunks t client items encoding server = .ok out →
      Exactly ChunkUnit.key NamesChunk items out ∧ (∀ u ∈ out, BoundTo items u) ∧
      ∃ batches, requestBatches items encoding client.requestByteLimit (chunkMaxItems t client)
          chunkRequestValue = .ok batches ∧ batches.flatten = items ∧
        ∀ n batch, batches[n]? = some batch → ∃ units, Exactly ChunkUnit.key NamesChunk batch units ∧
          Declared t frameChunks (fun u => u.bytes.length) (server n) batch.length units) := by
  constructor
  · intro items out h
    obtain ⟨batches,hbatches,hflatten,hanswered⟩ := objects_answered h
    refine ⟨hflatten ▸ hanswered.whole,⟨batches,hbatches,hflatten,hanswered.declared⟩,?_⟩
    intro hverified o ho
    obtain ⟨_,_,raw,frames,_,_,hframes,hmem,_⟩ := hanswered.received o ho
    exact hverified raw frames hframes o hmem
  · intro items out h
    obtain ⟨batches,hbatches,hflatten,hanswered,hbound⟩ := chunks_answered h
    exact ⟨hflatten ▸ hanswered.whole,hbound,batches,hbatches,hflatten,hanswered.declared⟩

namespace Sample

open ExactStream.Sample (digestOf headerOf)

def objectItems : List ObjectItem := [⟨"a",digest (digestOf [7])⟩,⟨"b",digest (digestOf [7])⟩]

def chunkItems : List ChunkRequest :=
  [⟨"a",digest (digestOf [8]),digest (digestOf [9]),4⟩,
    ⟨"b",digest (digestOf [8]),digest (digestOf [9]),4⟩]

def objectsRaw : Bytes := headerOf 2 3 0 ++ [7,8,9] ++ headerOf 4 0 1

def chunksRaw : Bytes := headerOf 3 3 0 ++ [7,8,9] ++ headerOf 4 0 1

def objectFrames : List Frame :=
  [.objectFrame [(digestOf [7],[7])],
    .endFrame ⟨2,1,1,digestOf (requestBody none objectItemValue objectItems)⟩]

def chunkFrames : List Frame :=
  [.chunkFrame (digestOf [9]) (digestOf [8]) 4 [7,8],
    .endFrame ⟨2,1,2,digestOf (requestBody none chunkRequestValue chunkItems)⟩]

def codec : FrameCodec where
  toTreeframe := ExactStream.Sample.treeframe
  metaMaxRaw := 1000
  objectMaxLen := 1000
  parseStream raw := if raw = objectsRaw then .ok objectFrames
    else if raw = chunksRaw then .ok chunkFrames else .error "unknown stream"

def client : FrameClient where
  toClient := { ExactStream.Sample.client with objectByteLimit := 5000, chunkByteLimit := 5000 }
  requestByteLimit := 1000
  metadataItemLimit := 64
  isCanonical := true
  requireFeature := fun _ => .ok ()
  validateEncoding := fun _ => .ok ()
  validatePath := fun _ => .ok ()

def server (raw : Bytes) : Server := fun _ => .ok raw

end Sample

open Sample ExactStream.Sample in
theorem exact_unit_sets_sample :
    Exactly Prod.fst NamesObject objectItems [(digestOf [7],([7] : Bytes))] ∧
    ∀ u ∈ [(⟨digestOf [9],digestOf [8],4,[7,8]⟩ : ChunkUnit)], BoundTo chunkItems u := by
  have hobjects : (objects codec Sample.client objectItems none (server objectsRaw)).toOption =
      some [(digestOf [7],[7])] := by decide +kernel
  have hchunks : (chunks codec Sample.client chunkItems none (server chunksRaw)).toOption =
      some [⟨digestOf [9],digestOf [8],4,[7,8]⟩] := by decide +kernel
  exact ⟨((exact_unit_sets codec Sample.client none (server objectsRaw)).1 _ _
      (to_option_ok.mp hobjects)).1,
    ((exact_unit_sets codec Sample.client none (server chunksRaw)).2 _ _
      (to_option_ok.mp hchunks)).2.1⟩

end Scorpio.UnitSets
