import Scorpio.Base.JsonText
import Scorpio.Base.Slices
import Scorpio.Snapshot.PageCodec

/-!
# Splitting a request into batches

`request_batches` of `snapshot::frames` splits the items of one call into
consecutive batches, each sent as one JSON body. The size of a body is estimated
while the items are read: the empty envelope, the items, and a comma before each
item that is not the first of its batch. Sizes are natural numbers; a `usize`
would overflow only past what any number of serialised items can hold.
-/

set_option autoImplicit false

namespace Scorpio.RequestBatches

open ByteText Fallible Slices PageCodec JsonText

/-- The body of a request; `serde_json` keeps the fields of an object sorted. -/
def envelope (encoding : Option Text) (items : List Json) : Json :=
  .object (match encoding with
    | some encoding => [("encoding",.string encoding),("items",.array items)]
    | none => [("items",.array items)])

section Batches

variable {T : Type} (items : List T) (encoding : Option Text) (byteLimit maxItems : ℕ)
  (itemValue : T → Json)

def requestBody (batch : List T) : Bytes := (envelope encoding (batch.map itemValue)).toVec

def overhead : ℕ := (envelope encoding []).toVec.length

def itemBytes (item : T) : ℕ := (itemValue item).toVec.length

def itemTooLarge : SnapshotError := limit "one TreeFrame item exceeds the JSON request byte limit"

structure Batching (T : Type) where
  batches : List (List T)
  start : ℕ
  bytes : ℕ

/-- `usize::from(index > start)`. -/
def commaBytes (start index : ℕ) : ℕ := if start < index then 1 else 0

/-- One turn of the loop over the items and their positions. -/
def batchItem (s : Batching T) (entry : T × ℕ) : Result (Batching T) := do
  let (item,index) := entry
  require (overhead encoding+itemBytes itemValue item ≤ byteLimit) itemTooLarge
  let s := if byteLimit < s.bytes+commaBytes s.start index+itemBytes itemValue item ∨
      maxItems ≤ index-s.start then
    ⟨s.batches ++ [slice items s.start index],index,overhead encoding⟩
  else s
  pure { s with bytes := s.bytes+(commaBytes s.start index+itemBytes itemValue item) }

def requestBatches : Result (List (List T)) := do
  let s ← items.zipIdx.foldlM (batchItem items encoding byteLimit maxItems itemValue)
    ⟨[],0,overhead encoding⟩
  pure (if s.start < items.length then s.batches ++ [items.drop s.start] else s.batches)

end Batches

/-! ## The estimate -/

section Estimate

variable {T : Type} {items : List T} {encoding : Option Text} {byteLimit maxItems : ℕ}
  {itemValue : T → Json}

/-- The envelope adds the same bytes to every array of items. -/
theorem envelope_length (encoding : Option Text) : ∃ k, ∀ xs,
    (envelope encoding xs).toVec.length = k+(Json.array xs).toVec.length := by
  cases encoding with
  | none =>
    refine ⟨(quote (txt "items")).length+3,fun xs => ?_⟩
    simp only [envelope, object_length, field_length, List.map_cons, List.map_nil, List.sum_cons,
      List.sum_nil, List.length_cons, List.length_nil]
    omega
  | some e =>
    refine ⟨(fieldVec (txt "encoding",.string e)).length+(quote (txt "items")).length+4,
      fun xs => ?_⟩
    simp only [envelope, object_length, field_length, List.map_cons, List.map_nil, List.sum_cons,
      List.sum_nil, List.length_cons, List.length_nil]
    omega

theorem body_length (batch : List T) : (requestBody encoding itemValue batch).length =
    overhead encoding+(batch.map (itemBytes itemValue)).sum+(batch.length-1) := by
  obtain ⟨k,hk⟩ := envelope_length encoding
  rw [requestBody, overhead, hk, hk, array_length, array_length, List.map_map, List.length_map]
  change _+((batch.map (itemBytes itemValue)).sum+(batch.length-1)+2) = _
  simp only [List.map_nil, List.sum_nil, List.length_nil]
  omega

theorem body_nil : (requestBody encoding itemValue []).length = overhead encoding := rfl

theorem body_single (item : T) :
    (requestBody encoding itemValue [item]).length = overhead encoding+itemBytes itemValue item := by
  rw [body_length]
  simp

/-- One more item costs its bytes and the comma before it. -/
theorem body_snoc (batch : List T) (item : T) :
    (requestBody encoding itemValue (batch ++ [item])).length =
      (requestBody encoding itemValue batch).length+
        (commaBytes 0 batch.length+itemBytes itemValue item) := by
  rw [body_length, body_length, commaBytes]
  simp only [List.map_append, List.map_cons, List.map_nil, List.sum_append, List.sum_cons,
    List.sum_nil, List.length_append, List.length_cons, List.length_nil]
  split <;> omega

/-! ## The loop -/

/-- A batch that may be sent. -/
structure Sendable (encoding : Option Text) (byteLimit maxItems : ℕ) (itemValue : T → Json)
    (batch : List T) : Prop where
  nonempty : batch ≠ []
  items : batch.length ≤ maxItems
  bytes : (requestBody encoding itemValue batch).length ≤ byteLimit

/-- Before position `index`: the closed batches hold what stands before `start`, and the open one
can be sent unless nothing was read. With no item allowed the batches still hold all items. -/
structure Split (items : List T) (encoding : Option Text) (byteLimit maxItems : ℕ)
    (itemValue : T → Json) (index : ℕ) (s : Batching T) : Prop where
  bound : s.start ≤ index
  closed : s.batches.flatten = items.take s.start
  sendable : 1 ≤ maxItems →
    ∀ batch ∈ s.batches, Sendable encoding byteLimit maxItems itemValue batch
  bytes : s.bytes = (requestBody encoding itemValue (slice items s.start index)).length
  opened : index = 0 ∨ (1 ≤ maxItems →
    Sendable encoding byteLimit maxItems itemValue (slice items s.start index))

variable {index : ℕ} {item : T} {s s' : Batching T}

theorem slice_snoc {start : ℕ} (hstart : start ≤ index) (hitem : items[index]? = some item) :
    slice items start (index+1) = slice items start index ++ [item] := by
  obtain ⟨hlt,rfl⟩ := List.getElem?_eq_some_iff.mp hitem
  rw [slice, slice, List.take_add_one, hitem, List.drop_append_of_le_length (by simp; omega)]
  rfl

/-- The item is put into the open batch, or into a new one. -/
theorem batch_item_ok
    (h : batchItem items encoding byteLimit maxItems itemValue s (item,index) = .ok s') :
    overhead encoding+itemBytes itemValue item ≤ byteLimit ∧
    ((s.bytes+(commaBytes s.start index+itemBytes itemValue item) ≤ byteLimit ∧
        index-s.start < maxItems ∧
        s' = { s with bytes := s.bytes+(commaBytes s.start index+itemBytes itemValue item) }) ∨
      ((byteLimit < s.bytes+(commaBytes s.start index+itemBytes itemValue item) ∨
          maxItems ≤ index-s.start) ∧
        s' = ⟨s.batches ++ [slice items s.start index],index,
          overhead encoding+itemBytes itemValue item⟩)) := by
  unfold batchItem at h
  obtain ⟨_,hfits,h⟩ := bind_ok.mp h
  refine ⟨of_decide_eq_true (require_ok.mp hfits),?_⟩
  rw [pure_ok] at h
  rw [Nat.add_assoc] at h
  split at h
  · rename_i hfull
    refine .inr ⟨hfull,?_⟩
    rw [← h, commaBytes, if_neg (Nat.lt_irrefl index), Nat.zero_add]
  · rename_i hroom
    obtain ⟨hbytes,hcount⟩ := not_or.mp hroom
    exact .inl ⟨not_lt.mp hbytes,not_le.mp hcount,h.symm⟩

theorem Split.step (hsplit : Split items encoding byteLimit maxItems itemValue index s)
    (hitem : items[index]? = some item)
    (h : batchItem items encoding byteLimit maxItems itemValue s (item,index) = .ok s') :
    Split items encoding byteLimit maxItems itemValue (index+1) s' := by
  have hlt : index < items.length := (List.getElem?_eq_some_iff.mp hitem).1
  obtain ⟨hfits,⟨hroom,hcount,rfl⟩ | ⟨hfull,rfl⟩⟩ := batch_item_ok h
  · -- the open batch grows by the item
    have hgrown := slice_snoc hsplit.bound hitem
    have hlength : (slice items s.start index).length = index-s.start := by
      rw [slice_length]
      omega
    have hcomma : commaBytes 0 (index-s.start) = commaBytes s.start index :=
      if_congr Nat.sub_pos_iff_lt rfl rfl
    have hbytes : s.bytes+(commaBytes s.start index+itemBytes itemValue item) =
        (requestBody encoding itemValue (slice items s.start (index+1))).length := by
      rw [hgrown, body_snoc, hsplit.bytes, hlength, hcomma]
    refine ⟨Nat.le_succ_of_le hsplit.bound,hsplit.closed,hsplit.sendable,hbytes,.inr fun _ => ⟨?_,?_,?_⟩⟩
    · rw [hgrown]
      simp
    · rw [hgrown, List.length_append, hlength]
      exact hcount
    · rw [← hbytes]
      exact hroom
  · -- the open batch is closed; at the start there is none, and then the item fits
    have hnew : slice items index (index+1) = [item] := by
      rw [slice_snoc le_rfl hitem, slice]
      simp
    have hopened : 1 ≤ maxItems →
        Sendable encoding byteLimit maxItems itemValue (slice items s.start index) := by
      intro hmax
      rcases hsplit.opened with rfl | hopened
      · have hstart : s.start = 0 := Nat.le_zero.mp hsplit.bound
        have hbytes : s.bytes = overhead encoding := by
          rw [hsplit.bytes, slice, List.take_zero, List.drop_nil, body_nil]
        rw [hstart, hbytes, commaBytes, if_neg (Nat.lt_irrefl 0)] at hfull
        omega
      · exact hopened hmax
    refine ⟨Nat.le_succ index,?_,?_,?_,.inr ?_⟩
    · rw [List.flatten_append, hsplit.closed, List.flatten_singleton]
      have hjoin := slice_join (Nat.zero_le s.start) hsplit.bound
        (hsplit.bound.trans (Nat.le_of_lt hlt))
      exact hjoin
    · intro hmax batch hbatch
      rcases List.mem_append.mp hbatch with hbatch | hbatch
      · exact hsplit.sendable hmax batch hbatch
      · rw [List.mem_singleton.mp hbatch]
        exact hopened hmax
    · dsimp only
      rw [hnew, body_single]
    · intro hmax
      dsimp only
      rw [hnew]
      exact ⟨by simp,hmax,by rwa [body_single]⟩

/-- The loop from position `index` on. -/
theorem Split.run (rest : List T) (index : ℕ) (hrest : items.drop index = rest)
    (hsplit : Split items encoding byteLimit maxItems itemValue index s)
    (h : (rest.zipIdx index).foldlM (batchItem items encoding byteLimit maxItems itemValue) s =
      .ok s') :
    Split items encoding byteLimit maxItems itemValue (index+rest.length) s' ∧
      ∀ item ∈ rest, overhead encoding+itemBytes itemValue item ≤ byteLimit := by
  induction rest generalizing index s with
  | nil =>
    rw [List.zipIdx_nil, List.foldlM_nil, pure_ok] at h
    subst h
    exact ⟨hsplit,by simp⟩
  | cons item rest ih =>
    rw [List.zipIdx_cons, List.foldlM_cons] at h
    obtain ⟨s₁,hstep,h⟩ := bind_ok.mp h
    have hitem : items[index]? = some item := by
      rw [← List.head?_drop, hrest, List.head?_cons]
    have hdrop : items.drop (index+1) = rest := by
      rw [← List.tail_drop, hrest, List.tail_cons]
    obtain ⟨hend,hall⟩ := ih (index+1) hdrop (hsplit.step hitem hstep) h
    refine ⟨?_,List.forall_mem_cons.mpr ⟨(batch_item_ok hstep).1,hall⟩⟩
    rwa [List.length_cons, Nat.add_comm rest.length, ← Nat.add_assoc]

theorem batch_item_fits (h : overhead encoding+itemBytes itemValue item ≤ byteLimit) :
    ∃ s', batchItem items encoding byteLimit maxItems itemValue s (item,index) = .ok s' := by
  unfold batchItem
  dsimp only
  rw [require, if_pos (decide_eq_true h), ok_bind]
  exact ⟨_,rfl⟩

theorem request_batches_total
    (h : ∀ item ∈ items, overhead encoding+itemBytes itemValue item ≤ byteLimit) :
    ∃ batches, requestBatches items encoding byteLimit maxItems itemValue = .ok batches := by
  obtain ⟨s,hs,_⟩ := foldlM_total (batchItem items encoding byteLimit maxItems itemValue)
    (fun _ rest => ∀ entry ∈ rest, overhead encoding+itemBytes itemValue entry.1 ≤ byteLimit)
    (fun s entry rest hall =>
      have ⟨s',hs'⟩ := batch_item_fits (hall entry (by simp))
      ⟨s',hs',fun e he => hall e (by simp [he])⟩)
    items.zipIdx (fun entry hentry => h entry.1 (List.fst_mem_of_mem_zipIdx hentry))
  exact ⟨_,by rw [requestBatches, hs]; rfl⟩

theorem request_batches_ok {batches : List (List T)}
    (h : requestBatches items encoding byteLimit maxItems itemValue = .ok batches) :
    batches.flatten = items ∧
      (1 ≤ maxItems → ∀ batch ∈ batches, Sendable encoding byteLimit maxItems itemValue batch) ∧
      ∀ item ∈ items, overhead encoding+itemBytes itemValue item ≤ byteLimit := by
  unfold requestBatches at h
  obtain ⟨s,hrun,h⟩ := bind_ok.mp h
  have hinit : Split items encoding byteLimit maxItems itemValue 0 ⟨[],0,overhead encoding⟩ :=
    ⟨le_rfl,rfl,fun _ => by simp,by rw [slice, List.take_zero, List.drop_nil, body_nil],.inl rfl⟩
  obtain ⟨hsplit,hall⟩ := Split.run items 0 rfl hinit hrun
  rw [Nat.zero_add] at hsplit
  have hlast : slice items s.start items.length = items.drop s.start := by
    rw [slice, List.take_length]
  rw [pure_ok] at h
  subst h
  refine ⟨?_,fun hmax batch hbatch => ?_,hall⟩
  · split
    · rw [List.flatten_append, hsplit.closed, List.flatten_singleton, List.take_append_drop]
    · rw [hsplit.closed, List.take_of_length_le (by omega)]
  · split at hbatch
    · rcases List.mem_append.mp hbatch with hbatch | hbatch
      · exact hsplit.sendable hmax batch hbatch
      · rw [List.mem_singleton.mp hbatch, ← hlast]
        exact hsplit.opened.resolve_left (by omega) hmax
    · exact hsplit.sendable hmax batch hbatch

end Estimate

theorem request_batches_exact {T : Type} (items : List T) (encoding : Option Text)
    (byteLimit maxItems : ℕ) (itemValue : T → Json) (hmax : 1 ≤ maxItems) :
    (∀ batches, requestBatches items encoding byteLimit maxItems itemValue = .ok batches →
      batches.flatten = items ∧ ∀ batch ∈ batches, batch ≠ [] ∧ batch.length ≤ maxItems ∧
        (requestBody encoding itemValue batch).length ≤ byteLimit) ∧
    ((∃ e, requestBatches items encoding byteLimit maxItems itemValue = .error e) ↔
      ∃ item ∈ items, byteLimit < (requestBody encoding itemValue [item]).length) := by
  refine ⟨fun batches h => ?_,⟨fun ⟨e,he⟩ => ?_,fun ⟨item,hmem,hlarge⟩ => ?_⟩⟩
  · obtain ⟨hflat,hsend,_⟩ := request_batches_ok h
    exact ⟨hflat,fun batch hb => ⟨(hsend hmax batch hb).nonempty,(hsend hmax batch hb).items,
      (hsend hmax batch hb).bytes⟩⟩
  · by_contra hnone
    push Not at hnone
    obtain ⟨batches,hok⟩ :
        ∃ batches, requestBatches items encoding byteLimit maxItems itemValue = .ok batches :=
      request_batches_total fun item hmem => body_single item ▸ hnone item hmem
    cases hok.symm.trans he
  · cases h : requestBatches items encoding byteLimit maxItems itemValue with
    | error e => exact ⟨e,rfl⟩
    | ok batches =>
      have hfits := (request_batches_ok h).2.2 item hmem
      rw [body_single] at hlarge
      exact absurd hfits (not_le.mpr hlarge)

theorem request_batches_exact_sample :
    (requestBatches [(1:ℤ),23,4] (some "zstd") 34 2 .number).toOption = some [[1,23],[4]] ∧
    ∃ e, requestBatches [(1:ℤ),2345] (some "zstd") 33 2 .number = .error e := by
  refine ⟨by decide +kernel,?_⟩
  exact (request_batches_exact _ _ _ _ _ (by decide)).2.mpr ⟨2345,by simp,by decide +kernel⟩

end Scorpio.RequestBatches
