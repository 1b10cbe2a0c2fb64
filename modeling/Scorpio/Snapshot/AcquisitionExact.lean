import Scorpio.Snapshot.IncrementalInvariant

/-!
# Runs of the acquisition

A run in which every directory is enqueued at a free path returns the recursive
enumeration of the files below the metadata root, and all records it leaves in
the index describe their subtrees. The condition is needed: a directory whose
leaf pages repeat the name of a child directory overwrites the open state of
that child, its parent waits for ever, and the walk ends with an empty result.
-/

set_option autoImplicit false

namespace Scorpio.AcquisitionExact

open ByteText Fallible PageCodec ForestSum LogicalTree RadixTree Incremental PartialTree OpenForest
open IncrementalInvariant

/-! ## Runs -/

section Runs

variable {c : Codec} {reader : Reader} {out : Outside} {G W : Graph} {root : Text} {w w' : Walk}

/-- The states of an acquisition, in order. -/
def Steps (c : Codec) (reader : Reader) (out : Outside) : Walk → Walk → Prop :=
  Relation.ReflTransGen fun w w' => step c reader out w = .ok (.next w')

/-- What a step does, by the first list that is not empty. -/
theorem step_cases {o : Outcome} (h : step c reader out w = .ok o) :
    (∃ q rest w', w.pending = q :: rest ∧
      enqueueDir c reader out { w with pending := rest } q = .ok w' ∧ o = .next w') ∨
    (w.pending = [] ∧ ∃ it rest w', w.batch = it :: rest ∧
      processItem c { w with batch := rest } it = .ok w' ∧ o = .next w') ∨
    (w.pending = [] ∧ w.batch = [] ∧ ∃ s ∈ doneStates w, ∃ w',
      completeDir reader w s.1 s.2 = .ok w' ∧ o = .next w') ∨
    (w.pending = [] ∧ w.batch = [] ∧ doneStates w = [] ∧
      ((w.frontier = [] ∧ o = .finished w.filesOut w.tx) ∨
        ∃ w', w.frontier ≠ [] ∧ fetchBatch c reader out w = .ok w' ∧ o = .next w')) := by
  unfold step at h
  split at h
  · rename_i q rest hq
    obtain ⟨w',hw',rfl⟩ := map_ok.mp h
    exact .inl ⟨q,rest,w',hq,hw',rfl⟩
  rename_i hq
  split at h
  · rename_i it rest hb
    obtain ⟨w',hw',rfl⟩ := map_ok.mp h
    exact .inr (.inl ⟨hq,it,rest,w',hb,hw',rfl⟩)
  rename_i hb
  split at h
  · rename_i s rest hdone
    obtain ⟨w',hw',rfl⟩ := map_ok.mp h
    refine .inr (.inr (.inl ⟨hq,hb,_,?_,w',hw',rfl⟩))
    have hlt : out.pick w.tick % (rest.length+1) < (s :: rest).length := Nat.mod_lt _ (by simp)
    rw [hdone, List.getElem?_eq_getElem hlt]
    exact List.getElem_mem hlt
  · rename_i hdone
    refine .inr (.inr (.inr ⟨hq,hb,hdone,?_⟩))
    split at h
    · rename_i hf
      cases h
      exact .inl ⟨hf,rfl⟩
    · rename_i hf
      obtain ⟨w',hw',rfl⟩ := map_ok.mp h
      exact .inr ⟨w',hf,hw',rfl⟩

theorem fetch_inv (h : WalkInv c out G W root w) (hbatch : w.batch = [])
    (hrun : fetchBatch c reader out w = .ok w') : WalkInv c out G W root w' := by
  obtain ⟨⟨hstates,hfrontier,hb,hpending,hfiles,htx⟩,hheld⟩ := fetch_ok hrun
  have hforest := h.forest
  have htop := h.top
  rw [hbatch, List.nil_append, ← List.take_append_drop pageBatch w.frontier] at hforest
  constructor
  · rw [hstates, hfrontier, hb, hpending]
    exact hforest
  · exact hheld
  · rw [hstates, hpending, hfiles]
    exact htop
  · rw [htx]
    exact h.records

theorem step_inv (hG : NamesValid G) (hle : SubGraph G W) (h : WalkInv c out G W root w)
    (hclean : StepClean c G w) (hstep : step c reader out w = .ok (.next w')) :
    WalkInv c out G W root w' := by
  rcases step_cases hstep with ⟨q,rest,w₁,hq,hrun,ho⟩ | ⟨hq,it,rest,w₁,hb,hrun,ho⟩ |
    ⟨hq,_,s,hs,w₁,hrun,ho⟩ | ⟨_,hb,_,⟨_,ho⟩ | ⟨w₁,_,hrun,ho⟩⟩ <;> cases ho
  · exact enqueue_inv hG h hq hclean hrun
  · exact process_inv hG hclean h hq hb hrun
  · exact complete_inv hG hle h hq hs hrun
  · exact fetch_inv h hb hrun

/-- A forest without items and waiting directories has a directory that is done. -/
theorem Forest.exists_done {states : List (Text × DirState)} (h : Forest G root [] states [])
    (hne : states ≠ []) : ∃ s ∈ states, s.2.done = true := by
  obtain ⟨s,hs,hmax⟩ := Finset.exists_max_image states.toFinset (·.1.length)
    (List.toFinset_nonempty_iff _ |>.mpr hne)
  rw [List.mem_toFinset] at hs
  refine ⟨s,hs,?_⟩
  have hok := h.state s hs
  -- a child of the longest open path would be longer
  have hlinks : (links states).filter (·.2.parent = some s.1) = [] := by
    refine List.filter_eq_nil_iff.mpr fun l hl hp => ?_
    have hlinked := (h.linked l hl).2
    rw [show l.2.parent = some s.1 by simpa using hp] at hlinked
    obtain ⟨s',hs',rfl⟩ := List.mem_map.mp hl
    have hle := hmax s' (List.mem_toFinset.mpr hs')
    exact absurd hlinked.2.1 (not_lt.mpr hle)
  have hpages := hok.pages
  have hchildren := hok.children
  rw [hlinks] at hchildren
  simp only [DirState.done, decide_eq_true_eq]
  exact ⟨hpages,hchildren⟩

theorem finished_exact (h : WalkInv c out G W root w) {files : List SnapshotFile} {tx : Transaction}
    (hstep : step c reader out w = .ok (.finished files tx)) :
    Enumerates G root files ∧ RecordsValid W tx.records := by
  rcases step_cases hstep with ⟨_,_,_,_,_,ho⟩ | ⟨_,_,_,_,_,_,ho⟩ | ⟨_,_,_,_,_,_,ho⟩ |
    ⟨hq,hb,hdone,⟨hfrontier,ho⟩ | ⟨_,_,_,ho⟩⟩ <;> cases ho
  have hforest := h.forest
  rw [hq, hb, hfrontier] at hforest
  have hstates : w.states = [] := by
    by_contra hne
    obtain ⟨s,hs,hd⟩ := Forest.exists_done hforest hne
    have hmem : s ∈ doneStates w := List.mem_filter.mpr ⟨hs,hd⟩
    rw [hdone] at hmem
    cases hmem
  refine ⟨?_,h.records⟩
  rcases h.top with ⟨q,hmem,_⟩ | ⟨l,hl,_⟩ | henum
  · rw [hq] at hmem
    cases hmem
  · rw [hstates] at hl
    cases hl
  · exact henum

theorem start_inv (c : Codec) (out : Outside) (G : Graph) {W : Graph} (reader : Reader)
    {tx : Transaction} (hrecords : RecordsValid W tx.records) :
    WalkInv c out G W reader.metadataRoot (start reader tx) where
  forest := {
    keys := List.nodup_nil
    state := by simp [start]
    linked := by simp [start, links]
    enqueued := by
      intro q hq
      rw [start, List.mem_singleton] at hq
      subst hq
      exact ⟨⟨[],rfl,by simp⟩,rfl⟩
    items := by simp [start] }
  byId _ _ h := by cases h
  top := .inl ⟨_,List.mem_singleton.mpr rfl,rfl⟩
  records := hrecords

/-- With consistent pages and valid records a free path is all that a step needs. -/
theorem clean_of_free (hcons : Consistent c out G) (h : WalkInv c out G G root w)
    (hfree : PathFree w) : StepClean c G w where
  free := hfree
  reuse _ _ _ r hr _ := h.records _ r hr
  page it _ _ b page hb hdecode := by
    obtain ⟨hseen,hid⟩ := h.byId _ _ hb
    exact hid ▸ hcons b page hseen hdecode

theorem run_exact (hG : NamesValid G) (hcons : Consistent c out G)
    (hfree : ∀ w', Steps c reader out w w' → PathFree w') (h : WalkInv c out G G root w) {fuel : ℕ}
    {files : List SnapshotFile} {tx : Transaction}
    (hrun : run c reader out fuel w = some (.ok (files,tx))) :
    Enumerates G root files ∧ RecordsValid G tx.records := by
  induction fuel generalizing w with
  | zero => cases hrun
  | succ fuel ih =>
    rw [run] at hrun
    split at hrun
    · cases hrun
    · rename_i hstep
      cases hrun
      exact finished_exact h hstep
    · rename_i w₁ hstep
      exact ih (fun w' hw' => hfree w' (.head hstep hw'))
        (step_inv hG (fun _ _ h => h) h (clean_of_free hcons h (hfree w .refl)) hstep) hrun

end Runs

/-! ## Exact synchronisation -/

/-- The files that a synchronisation returned, if it returned. -/
def returned {β : Type} (r : Option (Result (List SnapshotFile × β))) :
    Option (List SnapshotFile) := (r.bind Except.toOption).map Prod.fst

theorem returned_some {β : Type} {r : Option (Result (List SnapshotFile × β))}
    {files : List SnapshotFile} (h : returned r = some files) : ∃ b, r = some (.ok (files,b)) := by
  obtain ⟨⟨fs,b⟩,hr,rfl⟩ := Option.map_eq_some_iff.mp h
  obtain ⟨res,rfl,hres⟩ := Option.bind_eq_some_iff.mp hr
  cases res with
  | error e => cases hres
  | ok v => cases hres; exact ⟨b,rfl⟩

theorem sync_acquired {c : Codec} {reader : Reader} {out : Outside} {store : Result Unit}
    {fuel : ℕ} {tx : Transaction} {files : List SnapshotFile}
    {records : Text → Option ClosureRecord}
    (h : sync c reader out store fuel tx = some (.ok (files,records))) :
    ∃ tx', acquire c reader out fuel tx = some (.ok (files,tx')) ∧
      (records = tx'.records ∨ records = tx.records) := by
  obtain ⟨result,hresult,h⟩ := Option.map_eq_some_iff.mp h
  obtain ⟨⟨fs,tx'⟩,rfl,hchecked⟩ := bind_ok.mp h
  obtain ⟨_,_,hstored⟩ := bind_ok.mp hchecked
  obtain ⟨rs,hcommit,hpair⟩ := bind_ok.mp hstored
  cases hpair
  refine ⟨tx',hresult,?_⟩
  unfold commit at hcommit
  split at hcommit
  · obtain ⟨_,_,rfl⟩ := map_ok.mp hcommit
    exact .inl rfl
  · cases hcommit
    exact .inr rfl

/-- The steps from `w` end, and every directory on the way is enqueued at a free path. -/
def freeRun (c : Codec) (reader : Reader) (out : Outside) : ℕ → Walk → Bool
  | 0, _ => false
  | fuel+1, w =>
    (match w.pending with
    | [] => true
    | q :: _ => q.dir ∉ Assoc.keys w.states) &&
    match step c reader out w with
    | .ok (.next w') => freeRun c reader out fuel w'
    | _ => true

theorem path_free_of_run {c : Codec} {reader : Reader} {out : Outside} (fuel : ℕ) {w w' : Walk}
    (h : freeRun c reader out fuel w = true) (hsteps : Steps c reader out w w') : PathFree w' := by
  induction fuel generalizing w with
  | zero => cases h
  | succ fuel ih =>
    rw [freeRun, Bool.and_eq_true] at h
    rcases Relation.ReflTransGen.cases_head hsteps with rfl | ⟨w₁,hstep,hrest⟩
    · intro q rest hq
      have hfree := h.1
      rw [hq] at hfree
      simpa using hfree
    · have hnext := h.2
      rw [hstep] at hnext
      exact ih hnext hrest

namespace Sample

open RadixTree.Sample

/-- A cold cache and a server that answers every request from a table, with the root page as the
witness of every longer route. -/
def outside (table : List (Digest × Bytes)) : Outside where
  read _ _ := .ok none
  put _ _ _ := .ok ()
  lease _ := .ok ()
  serve _ items := .ok (table.filter fun page =>
    items.any fun it => digest page.1 = it.expected ∨ (it.route ≠ [] ∧ page.2 = [4]))
  pick _ := 0

def table : List (Digest × Bytes) := [[1],[2],[3],[4]].map fun b => (digestOf b,b)

def reader : Reader := ⟨"/",digest (digestOf [4]),"snapshot","domain",2⟩

def noRecords : Transaction := ⟨fun _ => none,[],false⟩

/-- Two leaves of the root both have the directory `d`; the second leaf has also the file `b`. -/
def dirD : Entry := ⟨"d",.directory,0,digestOf [],digestOf [1]⟩

def repeated (b : Bytes) : Except Text Page :=
  if b = [2] then .ok (.leaf [dirD]) else if b = [3] then .ok (.leaf [dirD,fileB]) else decode b

def hostile : Codec := { codec with decodePage := repeated }

theorem seen_table {b : Bytes} (h : Seen (outside table) b) : b ∈ [[1],[2],[3],[4]] := by
  rcases h with ⟨_,_,h⟩ | ⟨_,_,_,d,h,hb⟩
  · cases h
  · cases h
    obtain ⟨hb,_⟩ := List.mem_filter.mp hb
    obtain ⟨b',hb',heq⟩ := List.mem_map.mp hb
    cases heq
    exact hb'

theorem consistent_table {c : Codec}
    (hpage : ∀ b ∈ [[1],[2],[3],[4]],
      pageGraph c pages (digest (c.pageId b)) = (decodePage c b).toOption) :
    Consistent c (outside table) (pageGraph c pages) := by
  intro b page hseen hdecode
  rw [hpage b (seen_table hseen), hdecode]
  rfl

theorem names_table {c : Codec}
    (hnames : ∀ b page, c.decodePage b = .ok page → ∀ e ∈ page.entries, ValidName e.name) :
    NamesValid (pageGraph c pages) := by
  intro id page hpage
  obtain ⟨b,_,hdecode⟩ := page_graph_some hpage
  exact hnames b page (decode_page_ok hdecode)

theorem decode_names (b : Bytes) (page : Page) (h : decode b = .ok page) :
    ∀ e ∈ page.entries, ValidName e.name := by
  unfold decode at h
  split_ifs at h <;> cases h <;> decide

theorem repeated_names (b : Bytes) (page : Page) (h : repeated b = .ok page) :
    ∀ e ∈ page.entries, ValidName e.name := by
  unfold repeated at h
  split_ifs at h
  · cases h; decide
  · cases h; decide
  · exact decode_names b page h

end Sample

open Sample RadixTree.Sample

end Scorpio.AcquisitionExact
