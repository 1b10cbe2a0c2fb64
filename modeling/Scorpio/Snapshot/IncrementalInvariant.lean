import Scorpio.Snapshot.OpenForest

/-!
# Every clean acquisition is exact

The server and the cache may present any graph of pages. A step of the
acquisition keeps the forest of open directories as long as no directory is
enqueued at a path that is still open, and as long as a reused record describes
its subtree. A run of such steps returns the recursive enumeration of the files
below the metadata root, and every record it adds describes its subtree.
-/

set_option autoImplicit false

namespace Scorpio.IncrementalInvariant

open ByteText Fallible PageCodec LogicalTree ClosureValidator ClosureConstructor RadixTree
open Incremental PartialTree OpenForest

/-- Bytes that the cache or the server has presented. -/
def Seen (out : Outside) (b : Bytes) : Prop :=
  (∃ n id, out.read n id = .ok (some b)) ∨
    ∃ n items l d, out.serve n items = .ok l ∧ (d,b) ∈ l

/-- `G` has the presented pages under their ids; no id stands for two different pages. -/
def Consistent (c : Codec) (out : Outside) (G : Graph) : Prop :=
  ∀ b page, Seen out b → decodePage c b = .ok page → G (digest (c.pageId b)) = some page

/-- The record exactly describes the subtree of its root. -/
def ValidRecord (G : Graph) (r : ClosureRecord) : Prop :=
  ∃ f, PageFacts G [] r.rootPageId f ∧ ↑r.files = f.files ∧ (∀ i, i ∈ r.pageIds ↔ i ∈ f.pages) ∧
    r.totalEntries = f.entries

def RecordsValid (G : Graph) (records : Text → Option ClosureRecord) : Prop :=
  ∀ k r, records k = some r → ValidRecord G r

/-- The files are the enumeration of the tree below the root. -/
def Enumerates (G : Graph) (root : Text) (files : List SnapshotFile) : Prop :=
  ∃ f, PageFacts G [] root f ∧ ↑files = f.files

/-- Pages are held under their own ids. -/
def PagesHeld (c : Codec) (out : Outside) (w : Walk) : Prop :=
  ∀ id b, w.byId id = some b → Seen out b ∧ digest (c.pageId b) = id

/-- No directory is about to be enqueued at a path that is still open. -/
def PathFree (w : Walk) : Prop :=
  ∀ q rest, w.pending = q :: rest → q.dir ∉ Assoc.keys w.states

/-- What the next step needs: a free path, a valid record if one is reused, and a page of `G`. -/
structure StepClean (c : Codec) (G : Graph) (w : Walk) : Prop where
  free : PathFree w
  reuse : ∀ q rest, w.pending = q :: rest → ∀ r, w.tx.records q.expected = some r →
    r.rootPageId = q.expected → ValidRecord G r
  page : ∀ it rest, w.batch = it :: rest → ∀ b page, w.byId it.expected = some b →
    decodePage c b = .ok page → G it.expected = some page

/-- `G` is the graph of the walked tree, `W` the larger graph in which stored records are valid. -/
structure WalkInv (c : Codec) (out : Outside) (G W : Graph) (root : Text) (w : Walk) : Prop where
  forest : Forest G root (w.batch ++ w.frontier) w.states w.pending
  byId : PagesHeld c out w
  top : (∃ q ∈ w.pending, q.parent = none) ∨ (∃ l ∈ links w.states, l.2.parent = none) ∨
    Enumerates G root w.filesOut
  records : RecordsValid W w.tx.records

section Functions

variable {c : Codec} {reader : Reader} {out : Outside} {w w' : Walk}

theorem cached_page_some {n : ℕ} {id : Text} {b : Bytes}
    (h : cachedPage c out n id = .ok (some b)) : Seen out b ∧ digest (c.pageId b) = id := by
  obtain ⟨raw,hraw,h⟩ := bind_ok.mp h
  split at h
  · rename_i want bytes hwant
    split_ifs at h with hok
    · cases h
      exact ⟨.inl ⟨n,id,hraw⟩,by rw [hok.2, ← parse_digest_ok hwant]⟩
    · cases h
  · cases h

/-- Reuse reads the index and the cache; it changes at most the pin of the record it returns. -/
theorem try_reuse_ok {dir root : Text} {reused : Option ClosureRecord}
    (h : tryReuse c reader out w dir root = .ok (reused,w')) :
    ∃ tx tick, w' = { w with tx := tx, tick := tick } ∧ (reused = none → tx = w.tx) ∧
      ∀ r, reused = some r → w.tx.records root = some r ∧ r.rootPageId = root ∧
        (tx = w.tx ∨ tx.records = Function.update w.tx.records root
          (some { r with pinRef := reader.snapshotId })) := by
  obtain ⟨_,_,h⟩ := bind_ok.mp h
  split at h
  · cases h
    exact ⟨w.tx,w.tick,rfl,fun _ => rfl,by simp⟩
  · rename_i r hr
    by_cases hreusable : reusable reader w.tx root r = true
    · rw [if_pos hreusable] at h
      obtain ⟨⟨present,tick⟩,_,h⟩ := bind_ok.mp h
      have hroot : r.rootPageId = root := by
        simp only [reusable, decide_eq_true_eq] at hreusable
        exact hreusable.2.2.2.1
      cases present with
      | false =>
        cases h
        exact ⟨w.tx,tick,rfl,fun _ => rfl,by simp⟩
      | true =>
        cases h
        refine ⟨transferPin reader w.tx root r,tick,rfl,by simp,?_⟩
        rintro r' ⟨⟩
        refine ⟨hr,hroot,?_⟩
        unfold transferPin
        split
        · exact .inl rfl
        · exact .inr rfl
    · rw [if_neg hreusable] at h
      cases h
      exact ⟨w.tx,w.tick,rfl,fun _ => rfl,by simp⟩

/-- A finished subtree becomes the result, or goes to the open parent. -/
theorem hand_up_ok {parent : Option Text} {base : Text} {files : List SnapshotFile}
    {ids : List Text} {total : ℕ} (h : handUp w parent base files ids total = .ok w') :
    (parent = none ∧ w' = { w with filesOut := files }) ∨
    ∃ p, parent = some p ∧ ((p ∉ Assoc.keys w.states ∧ w' = w) ∨
      ∃ ps, (p,ps) ∈ w.states ∧ ps.totalEntries+total ≤ usizeMax ∧ w' = { w with
        states := Assoc.modify w.states p fun st =>
          st.absorb base files ids (ps.totalEntries+total) }) := by
  unfold handUp at h
  split at h
  · cases h
    exact .inl ⟨rfl,rfl⟩
  · rename_i p
    refine .inr ⟨p,rfl,?_⟩
    split at h
    · rename_i hnone
      cases h
      exact .inl ⟨Assoc.not_mem_keys_of_lookup hnone,rfl⟩
    · rename_i ps hps
      obtain ⟨n,hn,h⟩ := bind_ok.mp h
      cases h
      have hn := checked_add_some.mp (ok_or_ok.mp hn)
      exact .inr ⟨ps,Assoc.mem_of_lookup hps,hn.1,by rw [hn.2]⟩

/-- The directory that an entry leaves to be enqueued. -/
def childEnqueue (dir : Text) (e : Entry) : Option Enqueue :=
  match fsKind e.kind with
  | none => some ⟨childDir dir e.name,digest e.childRoot,some dir,e.name⟩
  | some _ => none

theorem child_enqueue_nodes (dir : Text) (es : List Entry) :
    (es.filterMap (childEnqueue dir)).map enqueueNode = es.flatMap (entryNodes []) := by
  induction es with
  | nil => rfl
  | cons e es ih =>
    cases hk : fsKind e.kind <;>
      simp [childEnqueue, entryNodes, hk, enqueueNode, ← ih]

theorem mem_child_enqueue {dir : Text} {es : List Entry} {q : Enqueue}
    (hq : q ∈ es.filterMap (childEnqueue dir)) :
    ∃ e ∈ es, q = ⟨childDir dir e.name,digest e.childRoot,some dir,e.name⟩ := by
  obtain ⟨e,he,hq⟩ := List.mem_filterMap.mp hq
  refine ⟨e,he,?_⟩
  unfold childEnqueue at hq
  split at hq
  · exact (Option.some.inj hq).symm
  · cases hq

theorem handle_entries_ok {dir : Text} {es : List Entry} {st st' : DirState}
    {acc qs : List Enqueue} (h : es.foldlM (handleEntry dir) (st,acc) = .ok (st',qs)) :
    ∃ fs, st' = { st with
        files := st.files ++ fs, totalEntries := st.totalEntries+es.length } ∧
      qs = acc ++ es.filterMap (childEnqueue dir) ∧
      ↑fs = ((es.map (entryFacts [])).sum).files := by
  induction es generalizing st acc with
  | nil =>
    cases h
    exact ⟨[],by simp,by simp,by simp⟩
  | cons e es ih =>
    rw [List.foldlM_cons] at h
    obtain ⟨⟨st₁,acc₁⟩,hfirst,h⟩ := bind_ok.mp h
    obtain ⟨fs,rfl,rfl,hfs⟩ := ih h
    obtain ⟨name,hname,hfirst⟩ := bind_ok.mp hfirst
    obtain ⟨total,htotal,hfirst⟩ := bind_ok.mp hfirst
    have hname := (fromUtf8_some (ok_or_ok.mp hname)).1
    have htotal := (checked_add_some.mp (ok_or_ok.mp htotal)).2
    subst hname htotal
    have hcount : st.totalEntries+1+es.length = st.totalEntries+(es.length+1) := by omega
    split at hfirst
    · rename_i hk
      cases hfirst
      refine ⟨fs,?_,?_,?_⟩
      · simp only [List.length_cons, hcount]
      · simp [childEnqueue, hk]
      · simp [entryFacts, hk, hfs]
    · rename_i kind hk
      cases hfirst
      refine ⟨⟨e.name,kind,e.size,digest e.contentId⟩ :: fs,?_,?_,?_⟩
      · simp only [List.length_cons, hcount, List.append_assoc, List.singleton_append]
      · simp [childEnqueue, hk]
      · simp [entryFacts, hk, ← hfs]

theorem enqueue_ok {q : Enqueue} (hrun : enqueueDir c reader out w q = .ok w') :
    ∃ tx tick, (∃ r, w.tx.records q.expected = some r ∧ r.rootPageId = q.expected ∧
        (tx = w.tx ∨ tx.records = Function.update w.tx.records q.expected
          (some { r with pinRef := reader.snapshotId })) ∧
        handUp { w with states := countChild w.states q.parent, tx := tx, tick := tick }
          q.parent q.base r.files r.pageIds r.totalEntries = .ok w') ∨
      (tx = w.tx ∧ w' = { w with
        states := Assoc.insert (countChild w.states q.parent) q.dir (freshState q)
        frontier := w.frontier ++ [⟨q.dir,[],q.expected⟩]
        tick := tick }) := by
  obtain ⟨_,_,hrun⟩ := bind_ok.mp hrun
  obtain ⟨⟨reused,w₁⟩,hreuse,hrun⟩ := bind_ok.mp hrun
  obtain ⟨tx,tick,rfl,htx,hsome⟩ := try_reuse_ok hreuse
  refine ⟨tx,tick,?_⟩
  cases reused with
  | some r =>
    obtain ⟨hr,hroot,htx⟩ := hsome r rfl
    exact .inl ⟨r,hr,hroot,htx,hrun⟩
  | none =>
    cases hrun
    have hsame : tx = w.tx := htx rfl
    exact .inr ⟨hsame,by rw [hsame]⟩

end Functions

/-! ## Directory paths -/

theorem trim_start_dir {rel : Text} (hrel : rel.head? ≠ some slash) :
    trimStart (slash :: rel) = rel := by
  have h := trim_start_of_relative hrel
  simpa [trimStart] using h

theorem child_dir_eq {rel name : Text} (hrel : rel.head? ≠ some slash) (hname : name ≠ []) :
    childDir (slash :: rel) name = slash :: joinPath rel name := by
  by_cases hnil : rel = []
  · simp [childDir, hnil, show (txt "/") = [slash] from rfl]
  · have hne : slash :: rel ≠ txt "/" := fun h => hnil (List.cons.inj h).2
    simp [childDir, hne, trim_start_dir hrel, joinPath, hnil, hname]

theorem child_dir_linked {root dir : Text} {open' : List Text} {name rootId : Text}
    (hdir : DirPath dir) (hopen : dir ∈ open') (hname : ValidName name) :
    Linked root open' (childDir dir name) ⟨some dir,name,rootId⟩ := by
  obtain ⟨rel,rfl,hrel⟩ := hdir
  rw [child_dir_eq hrel hname.1]
  refine ⟨⟨_,rfl,relative_join hrel (relative_of_name hname)⟩,hopen,?_,hname⟩
  have hlen := join_length_lt (p := rel) hname.1
  simpa using hlen

/-! ## One step -/

theorem records_valid_update {G : Graph} {records : Text → Option ClosureRecord}
    {k : Text} {r : ClosureRecord} (h : RecordsValid G records) (hr : ValidRecord G r) :
    RecordsValid G (Function.update records k (some r)) := by
  intro k' r' hk'
  by_cases hk : k' = k
  · subst hk
    rw [Function.update_self] at hk'
    cases hk'
    exact hr
  · rw [Function.update_of_ne hk] at hk'
    exact h k' r' hk'

theorem put_record_valid {G : Graph} {tx : Transaction} {r : ClosureRecord}
    (h : RecordsValid G tx.records) (hr : ValidRecord G r) :
    RecordsValid G (tx.putRecord r).records := by
  unfold Transaction.putRecord
  split
  · exact h
  · exact records_valid_update h hr

theorem uncount_count_child (states : List (Text × DirState)) (parent : Option Text) :
    uncountChild (countChild states parent) parent = states := by
  cases parent with
  | none => rfl
  | some p =>
    rw [count_child_some, uncount_child_some, Assoc.modify_modify]
    refine (List.map_congr_left fun s _ => ?_).trans (List.map_id _)
    by_cases hs : s.1 = p <;> simp [hs, decrement, Prod.ext_iff]

section Steps

variable {c : Codec} {reader : Reader} {out : Outside} {G W : Graph} {root : Text} {w w' : Walk}
  {q : Enqueue}

/-- The subtree of `q` is complete; the forest without it is the forest after it is handed up. -/
theorem hand_up_inv (hG : NamesValid G) {items : List Item} {pending : List Enqueue}
    (hforest : Forest G root items (uncountChild w.states q.parent) (q :: pending)) {f : Facts}
    {files : List SnapshotFile} {ids : List Text} {total : ℕ} (hf : PageFacts G [] q.expected f)
    (hfiles : ↑files = f.files) (hids : ∀ i, i ∈ ids ↔ i ∈ f.pages) (htotal : total = f.entries)
    (hrun : handUp w q.parent q.base files ids total = .ok w') :
    ∃ states filesOut, w' = { w with states := states, filesOut := filesOut } ∧
      Forest G root items states pending ∧ links states = links w.states ∧
      (Enumerates G root filesOut ∨ (filesOut = w.filesOut ∧ q.parent ≠ none)) := by
  have hlinked := hforest.enqueued q List.mem_cons_self
  rcases hand_up_ok hrun with ⟨hp,rfl⟩ | ⟨p,hp,⟨hclosed,_⟩ | ⟨ps,hps,_,rfl⟩⟩
  · have hdrop := hforest.drop_root hp
    have hroot := hlinked.2
    rw [hp] at hdrop hroot
    exact ⟨w.states,files,rfl,hdrop,rfl,.inl ⟨f,(show q.expected = root from hroot) ▸ hf,hfiles⟩⟩
  · have hopen := hlinked.parent_mem hp
    rw [keys_uncount_child] at hopen
    exact absurd hopen hclosed
  · rw [hp, uncount_child_some] at hforest
    have hps' : (p,{ ps with pendingChildren := decrement ps.pendingChildren }) ∈
        Assoc.modify w.states p fun st =>
          { st with pendingChildren := decrement st.pendingChildren } :=
      Assoc.mem_modify.mpr (.inr ⟨ps,hps,rfl⟩)
    have hfill := hforest.fill hG hp hps' hf hfiles hids htotal
    rw [Assoc.modify_modify] at hfill
    exact ⟨_,w.filesOut,rfl,hfill,links_modify fun _ _ => rfl,.inr ⟨rfl,by simp [hp]⟩⟩

theorem enqueue_inv (hG : NamesValid G) (h : WalkInv c out G W root w) {rest : List Enqueue}
    (hq : w.pending = q :: rest) (hclean : StepClean c G w)
    (hrun : enqueueDir c reader out { w with pending := rest } q = .ok w') :
    WalkInv c out G W root w' := by
  have hforest := h.forest
  rw [hq] at hforest
  have htop : (q.parent = none ∨ ∃ q' ∈ rest, q'.parent = none) ∨
      (∃ l ∈ links w.states, l.2.parent = none) ∨ Enumerates G root w.filesOut := by
    rcases h.top with ⟨q',hq',hnone⟩ | htop
    · rw [hq] at hq'
      rcases List.mem_cons.mp hq' with rfl | hq'
      · exact .inl (.inl hnone)
      · exact .inl (.inr ⟨q',hq',hnone⟩)
    · exact .inr htop
  obtain ⟨tx,tick,⟨r,hr,hroot,htx,hrun⟩ | ⟨rfl,rfl⟩⟩ := enqueue_ok hrun
  · obtain ⟨f,hf,hfiles,hids,htotal⟩ := hclean.reuse q rest hq r hr hroot
    rw [hroot] at hf
    obtain ⟨states,filesOut,rfl,hforest,hlinks,hout⟩ := hand_up_inv (q := q) hG
      (by rw [uncount_count_child]; exact hforest) hf hfiles hids htotal hrun
    rw [links_count_child] at hlinks
    refine ⟨hforest,h.byId,?_,?_⟩
    · rcases hout with hout | ⟨rfl,hparent⟩
      · exact .inr (.inr hout)
      · rcases htop with (hnone | hrest) | hlink | hdone
        · exact absurd hnone hparent
        · exact .inl hrest
        · exact .inr (.inl (by rwa [hlinks]))
        · exact .inr (.inr hdone)
    · rcases htx with rfl | htx
      · exact h.records
      · rw [htx]
        have hstored : ValidRecord W r := h.records _ _ hr
        exact records_valid_update h.records hstored
  · have hfree := hclean.free q rest hq
    have hkeys : q.dir ∉ Assoc.keys (countChild w.states q.parent) := by
      rwa [keys_count_child]
    have hfresh := hforest.open_fresh hfree
    have hperm : (Assoc.insert (countChild w.states q.parent) q.dir (freshState q)).Perm
        ((q.dir,freshState q) :: countChild w.states q.parent) := by
      rw [Assoc.insert_of_not_mem hkeys]
      exact List.perm_append_singleton _ _
    have hitems (it : Item) : (w.batch ++ (w.frontier ++ [it])).Perm
        (it :: (w.batch ++ w.frontier)) := by
      rw [← List.append_assoc]
      exact List.perm_append_singleton _ _
    refine ⟨(hfresh.perm_states hperm).perm_items (hitems _),h.byId,?_,h.records⟩
    · have hl : (links (Assoc.insert (countChild w.states q.parent) q.dir (freshState q))).Perm
          ((q.dir,⟨q.parent,q.base,q.expected⟩) :: links w.states) := by
        have hmap := hperm.map linkOf
        rwa [List.map_cons, ← links, ← links, links_count_child] at hmap
      rcases htop with (hnone | hrest) | ⟨l,hl',hnone⟩ | hdone
      · exact .inr (.inl ⟨_,hl.mem_iff.mpr List.mem_cons_self,hnone⟩)
      · exact .inl hrest
      · exact .inr (.inl ⟨l,hl.mem_iff.mpr (List.mem_cons_of_mem _ hl'),hnone⟩)
      · exact .inr (.inr hdone)

theorem process_ok {it : Item} (hrun : processItem c w it = .ok w') :
    ∃ b page st fs, w.byId it.expected = some b ∧ decodePage c b = .ok page ∧
      (it.dir,st) ∈ w.states ∧ w' = { w with
        states := Assoc.modify w.states it.dir fun _ => { st with
          pageIds := insertId st.pageIds it.expected
          files := st.files ++ fs
          totalEntries := st.totalEntries+page.entries.length
          pendingPages := st.pendingPages+page.children.length-1 }
        frontier := w.frontier ++ page.children.map (childItem it)
        pending := page.entries.filterMap (childEnqueue it.dir) } ∧
      ↑fs = ((page.entries.map (entryFacts [])).sum).files := by
  obtain ⟨b,hb,hrun⟩ := bind_ok.mp hrun
  obtain ⟨page,hdecode,hrun⟩ := bind_ok.mp hrun
  obtain ⟨st,hst,hrun⟩ := bind_ok.mp hrun
  obtain ⟨⟨st',qs⟩,hentries,hrun⟩ := bind_ok.mp hrun
  obtain ⟨fs,rfl,rfl,hfs⟩ := handle_entries_ok hentries
  refine ⟨b,page,st,fs,ok_or_ok.mp hb,hdecode,Assoc.mem_of_lookup (ok_or_ok.mp hst),?_,hfs⟩
  cases hrun
  rfl

theorem process_inv (hG : NamesValid G) (hclean : StepClean c G w)
    (h : WalkInv c out G W root w) (hpending : w.pending = []) {it : Item} {rest : List Item}
    (hbatch : w.batch = it :: rest) (hrun : processItem c { w with batch := rest } it = .ok w') :
    WalkInv c out G W root w' := by
  have hforest := h.forest
  rw [hpending, hbatch, List.cons_append] at hforest
  obtain ⟨b,page,st,fs,hb,hdecode,hst,rfl,hfs⟩ := process_ok hrun
  have hpage := hclean.page it rest hbatch b page hb hdecode
  have hdir : DirPath it.dir := (hforest.linked (linkOf (it.dir,st)) (List.mem_map_of_mem hst)).1
  have hread := hforest.read hst hpage rfl hfs (child_enqueue_nodes it.dir page.entries)
    (fun q hmem => by obtain ⟨e,_,rfl⟩ := mem_child_enqueue hmem; rfl)
    (fun q hmem => by
      obtain ⟨e,he,rfl⟩ := mem_child_enqueue hmem
      exact child_dir_linked hdir (Assoc.mem_keys_of_mem hst) (hG _ _ hpage e he))
  rw [List.append_assoc] at hread
  refine ⟨hread,h.byId,?_,h.records⟩
  rcases h.top with ⟨q,hmem,_⟩ | hlink | hdone
  · rw [hpending] at hmem
    cases hmem
  · refine .inr (.inl ?_)
    rw [links_modify fun st₁ hst₁ => Assoc.eq_of_mem hforest.keys hst₁ hst ▸ rfl]
    exact hlink
  · exact .inr (.inr hdone)

theorem mem_sort_ids {ids : List Text} {i : Text} : i ∈ sortIds ids ↔ i ∈ ids :=
  (List.perm_insertionSort _ ids).mem_iff

/-- A directory whose counters are zero has no holes when nothing waits to be enqueued. -/
theorem Forest.holes_done {items : List Item} {states : List (Text × DirState)}
    (h : Forest G root items states []) {s : Text × DirState} (hs : s ∈ states)
    (hdone : s.2.done = true) : holes items (links states) [] s.1 = [] := by
  have hok := h.state s hs
  simp only [DirState.done, decide_eq_true_eq] at hdone
  have hitems := List.length_eq_zero_iff.mp (hok.pages.symm.trans hdone.1)
  have hlinks := List.length_eq_zero_iff.mp (hok.children.symm.trans hdone.2)
  simp [holes, hitems, hlinks]

theorem complete_inv (hG : NamesValid G) (hle : SubGraph G W) (h : WalkInv c out G W root w)
    (hpending : w.pending = []) {s : Text × DirState} (hs : s ∈ doneStates w)
    (hrun : completeDir reader w s.1 s.2 = .ok w') : WalkInv c out G W root w' := by
  obtain ⟨d,st⟩ := s
  obtain ⟨hs,hdone⟩ := List.mem_filter.mp hs
  have hforest := h.forest
  rw [hpending] at hforest
  have hnone := Forest.holes_done hforest hs hdone
  obtain ⟨f,hf,hfiles,hids,htotal⟩ := (hforest.state _ hs).complete hnone
  have hids' : ∀ i, i ∈ sortIds st.pageIds ↔ i ∈ f.pages := fun i => mem_sort_ids.trans (hids i)
  have hrecord : ValidRecord W (recordOf reader st) := ⟨f,hle.sums hf,hfiles,hids',htotal⟩
  have hclose := hforest.close hs hnone
  obtain ⟨states,filesOut,rfl,hforest',hlinks,hout⟩ := hand_up_inv
    (q := ⟨d,st.rootPageId,st.parent,st.base⟩) hG hclose hf hfiles hids' htotal hrun
  refine ⟨by rw [← hpending] at hforest'; exact hforest',h.byId,?_,put_record_valid h.records hrecord⟩
  rcases hout with hout | ⟨rfl,hparent⟩
  · exact .inr (.inr hout)
  rcases h.top with ⟨q,hmem,_⟩ | ⟨l,hl,hroot⟩ | hdone
  · rw [hpending] at hmem
    cases hmem
  · right; left
    have hperm : (links w.states).Perm (linkOf (d,st) :: links (Assoc.erase w.states d)) :=
      (Assoc.perm_cons_erase hforest.keys hs).map linkOf
    rcases List.mem_cons.mp (hperm.mem_iff.mp hl) with rfl | hl
    · exact absurd hroot hparent
    · exact ⟨l,hlinks.symm ▸ hl,hroot⟩
  · exact .inr (.inr hdone)

end Steps

/-! ## Fetching a batch -/

section Fetch

variable {c : Codec} {reader : Reader} {out : Outside} {w w' : Walk}

/-- What a batch of lookups and one request leave alone. -/
def SamePlace (w w' : Walk) : Prop :=
  w'.states = w.states ∧ w'.frontier = w.frontier ∧ w'.batch = w.batch ∧ w'.pending = w.pending ∧
    w'.filesOut = w.filesOut ∧ w'.tx = w.tx

theorem pages_held_update (h : PagesHeld c out w) {id : Text} {b : Bytes} (hb : Seen out b)
    (hid : digest (c.pageId b) = id) (hw : w'.byId = Function.update w.byId id (some b)) :
    PagesHeld c out w' := by
  intro id' b' hb'
  rw [hw] at hb'
  by_cases hk : id' = id
  · subst hk
    rw [Function.update_self] at hb'
    cases hb'
    exact ⟨hb,hid⟩
  · rw [Function.update_of_ne hk] at hb'
    exact h id' b' hb'

theorem lookup_item_ok {w₀ : Walk} {acc acc' : Walk × List Item} {it : Item}
    (hrun : lookupItem c reader out acc it = .ok acc') (hsame : SamePlace w₀ acc.1)
    (hheld : PagesHeld c out acc.1) : SamePlace w₀ acc'.1 ∧ PagesHeld c out acc'.1 := by
  obtain ⟨_,_,hrun⟩ := bind_ok.mp hrun
  obtain ⟨_,_,hrun⟩ := bind_ok.mp hrun
  split at hrun
  · cases hrun
    exact ⟨hsame,hheld⟩
  · obtain ⟨cached,hcached,hrun⟩ := bind_ok.mp hrun
    cases cached with
    | none =>
      cases hrun
      exact ⟨hsame,hheld⟩
    | some b =>
      cases hrun
      obtain ⟨hseen,hid⟩ := cached_page_some hcached
      exact ⟨hsame,pages_held_update hheld hseen hid rfl⟩

theorem receive_page_ok {w₀ : Walk} {allowed : List Text} {page : Digest × Bytes}
    (hseen : Seen out page.2) (hrun : receivePage c out allowed w page = .ok w')
    (hsame : SamePlace w₀ w) (hheld : PagesHeld c out w) :
    SamePlace w₀ w' ∧ PagesHeld c out w' := by
  obtain ⟨_,hreq,hrun⟩ := bind_ok.mp hrun
  obtain ⟨_,_,hrun⟩ := bind_ok.mp hrun
  cases hrun
  refine ⟨hsame,pages_held_update hheld hseen ?_ rfl⟩
  have hvalid := of_decide_eq_true (require_ok.mp hreq)
  rw [hvalid.2]

theorem request_pages_ok {w₀ : Walk} {items : List Item}
    (hrun : requestPages c out w items = .ok w') (hsame : SamePlace w₀ w)
    (hheld : PagesHeld c out w) : SamePlace w₀ w' ∧ PagesHeld c out w' := by
  unfold requestPages at hrun
  split at hrun
  · cases hrun
    exact ⟨hsame,hheld⟩
  · obtain ⟨_,_,hrun⟩ := bind_ok.mp hrun
    obtain ⟨pages,hpages,hrun⟩ := bind_ok.mp hrun
    have hseen : ∀ page ∈ pages, Seen out page.2 := fun page hpage =>
      .inr ⟨_,_,_,page.1,hpages,hpage⟩
    refine (foldlM_invariant _ (fun w rest => (SamePlace w₀ w ∧ PagesHeld c out w) ∧
      ∀ page ∈ rest, Seen out page.2) (fun w₁ page rest w₂ h hstep => ?_) pages ?_ hrun).1
    · exact ⟨receive_page_ok (h.2 _ List.mem_cons_self) hstep h.1.1 h.1.2,
        fun page hpage => h.2 page (List.mem_cons_of_mem _ hpage)⟩
    · exact ⟨⟨hsame,hheld⟩,hseen⟩

theorem fetch_ok (hrun : fetchBatch c reader out w = .ok w') :
    SamePlace { w with frontier := w.frontier.drop pageBatch, batch := w.frontier.take pageBatch }
      w' ∧ PagesHeld c out w' := by
  obtain ⟨⟨w₁,items⟩,hlookup,hrun⟩ := bind_ok.mp hrun
  obtain ⟨hsame,hheld⟩ := foldlM_invariant _ (fun acc _ =>
    SamePlace { w with frontier := w.frontier.drop pageBatch, batch := w.frontier.take pageBatch }
      acc.1 ∧ PagesHeld c out acc.1) (fun _ _ _ _ h hstep => lookup_item_ok hstep h.1 h.2)
    _ ⟨⟨rfl,rfl,rfl,rfl,rfl,rfl⟩,fun _ _ h => by cases h⟩ hlookup
  exact request_pages_ok hrun hsame hheld

end Fetch

end Scorpio.IncrementalInvariant
