import Scorpio.Snapshot.RouteWitness
import Scorpio.Snapshot.WorkAccount

/-!
# The acquisition of an accepted tree succeeds

The other half of the acquisition. On the tree of an accepted closure every
step keeps the invariant and takes work out of the account, whatever the cache
and the server answer. If they answer what is asked, no step returns an error,
and after finitely many steps the walk has ended with exactly the files of the
closure.
-/

set_option autoImplicit false

namespace Scorpio.AcquisitionLive

open ByteText Fallible PageCodec ForestSum LogicalTree ClosureConstructor WalkProof Incremental
open OpenForest IncrementalInvariant AcquisitionExact AcceptedTree WorkAccount RouteWitness

/-! ## One step -/

structure Kept (c : Codec) (reader : Reader) (out : Outside) (G W : Graph) (f : Facts) (w : Walk)
    (left : Facts) : Prop where
  inv : WalkInv c out G W reader.metadataRoot w
  account : Account G f w left

structure Live (c : Codec) (reader : Reader) (out : Outside) (G W : Graph) (f : Facts) (w : Walk)
    (left : Facts) : Prop extends Kept c reader out G W f w left where
  routes : RouteInv G f w

section Steps

variable {c : Codec} {reader : Reader} {out : Outside} {G W : Graph} {f : Facts} {w w' : Walk}
  {left : Facts}

theorem dir_path_tail {dir : Text} (h : DirPath dir) : slash :: dir.tail = dir := by
  obtain ⟨rel,rfl,_⟩ := h
  rfl

theorem pending_listed (h : Account G f w left) {q : Enqueue} {rest : List Enqueue}
    (hq : w.pending = q :: rest) :
    (⟨q.dir.tail,q.expected⟩ : SnapshotDirectory) ∈ left.dirs := by
  obtain ⟨g,later,_,_,rfl⟩ := pending_facts h hq
  simp [dirFact]

theorem left_listed (h : Account G f w left) {d : SnapshotDirectory} (hd : d ∈ left.dirs) :
    d ∈ f.dirs :=
  Multiset.mem_of_le h.dirs (Multiset.mem_add.mpr (.inr hd))

/-- In an accepted tree every step finds what it needs. -/
theorem step_clean (tree : WalkableTree c reader.scope G reader.metadataRoot f)
    (hle : SubGraph G W) (hagrees : Agrees c out G) (h : Kept c reader out G W f w left) :
    StepClean c G w where
  free q rest hq hopen := by
    have hnd := Multiset.nodup_of_le (Multiset.map_le_map h.account.dirs) tree.paths
    rw [Multiset.map_add, Multiset.nodup_add] at hnd
    obtain ⟨st,hst⟩ := Assoc.exists_of_mem_keys hopen
    have hmem : (⟨q.dir.tail,st.rootPageId⟩ : SnapshotDirectory) ∈ openDirs (links w.states) :=
      List.mem_map.mpr ⟨linkOf (q.dir,st),List.mem_map_of_mem hst,rfl⟩
    have htwice : q.dir.tail ∈ left.dirs.map (·.relPath) :=
      Multiset.mem_map.mpr ⟨_,pending_listed h.account hq,rfl⟩
    exact Multiset.disjoint_left.mp hnd.2.2 (Multiset.mem_map.mpr ⟨_,hmem,rfl⟩) htwice
  reuse q rest hq r hr hroot := by
    obtain ⟨g,_,hg,_,_⟩ := pending_facts h.account hq
    obtain ⟨g',hg',hfiles,hids,htotal⟩ := h.inv.records _ r hr
    rw [hroot] at hg'
    obtain rfl := sums_unique (hle.sums hg) hg'
    exact ⟨g,hroot ▸ hg,hfiles,hids,htotal⟩
  page it rest hbatch b page hb hdecode := by
    have hmem : itemPlace it ∈ outstanding w := by
      refine List.mem_append_right _ (List.mem_map_of_mem ?_)
      rw [hbatch]
      simp
    obtain ⟨v,hv⟩ := sums_present h.account.sums hmem
    obtain ⟨page',hpage',_⟩ := Option.map_eq_some_iff.mp hv
    obtain ⟨hseen,hid⟩ := h.inv.byId _ b hb
    have hsame := hagrees b page' hseen (hid ▸ hpage')
    rw [hdecode] at hsame
    cases hsame
    exact hpage'

theorem le_collected {states : List (Text × DirState)} {s : Text × DirState} (hs : s ∈ states) :
    s.2.totalEntries ≤ collected states :=
  List.single_le_sum (fun _ _ => Nat.zero_le _) _ (List.mem_map_of_mem hs)

theorem item_dir_path (h : WalkInv c out G W reader.metadataRoot w) {it : Item}
    (hit : it ∈ w.batch) : DirPath it.dir := by
  obtain ⟨st,hst⟩ := Assoc.exists_of_mem_keys (h.forest.items it (List.mem_append_left _ hit))
  exact (h.forest.linked (linkOf (it.dir,st)) (List.mem_map_of_mem hst)).1

/-- Whatever is served, a step that succeeds keeps the invariant and takes work out of the
account. -/
theorem step_kept (tree : WalkableTree c reader.scope G reader.metadataRoot f)
    (hle : SubGraph G W) (hagrees : Agrees c out G) (h : Kept c reader out G W f w left)
    (hstep : step c reader out w = .ok (.next w')) :
    ∃ left', Kept c reader out G W f w' left' ∧ weight w' left' < weight w left := by
  have hclean := step_clean tree hle hagrees h
  have hnd := h.inv.forest.keys
  have hinv := step_inv tree.names hle h.inv hclean hstep
  have haccount : ∃ left', Account G f w' left' ∧ weight w' left' < weight w left := by
    rcases step_cases hstep with ⟨q,rest,w₁,hq,hrun,ho⟩ | ⟨hq,it,rest,w₁,hb,hrun,ho⟩ |
      ⟨_,_,s,hs,w₁,hrun,ho⟩ | ⟨_,hb,_,⟨_,ho⟩ | ⟨w₁,hf,hrun,ho⟩⟩ <;> cases ho
    · exact enqueue_account h.account hnd hq hclean hrun
    · exact process_account tree.names h.account hnd hq hb
        (item_dir_path h.inv (by simp [hb])) hclean hrun
    · exact complete_account h.account hnd hs hrun
    · exact ⟨left,fetch_account h.account hb hf hrun⟩
  obtain ⟨left',haccount,hweight⟩ := haccount
  exact ⟨left',⟨hinv,haccount⟩,hweight⟩

theorem hand_up_live (w : Walk) (parent : Option Text) (base : Text) (files : List SnapshotFile)
    (ids : List Text) {total : ℕ} (hroom : collected w.states + total ≤ usizeMax) :
    ∃ w', handUp w parent base files ids total = .ok w' := by
  cases parent with
  | none => exact ⟨_,rfl⟩
  | some p =>
    unfold handUp
    cases hp : w.states.lookup p with
    | none => exact ⟨w,by simp only [hp]⟩
    | some ps =>
      have hle := le_collected (Assoc.mem_of_lookup hp)
      have hadd : checkedAdd ps.totalEntries total = some (ps.totalEntries+total) :=
        checked_add_some.mpr ⟨by simp only at hle; omega,rfl⟩
      simp only [hp, hadd, okOr, Option.elim, ok_bind]
      exact ⟨_,rfl⟩

theorem pages_present_live (hs : Serves c G f out) (ids : List Text) (n : ℕ) :
    ∃ r, pagesPresent c out ids n = .ok r := by
  induction ids generalizing n with
  | nil => exact ⟨_,rfl⟩
  | cons id ids ih =>
    obtain ⟨cached,hcached⟩ := cached_page_total hs n id
    unfold pagesPresent
    rw [hcached, ok_bind]
    cases cached with
    | none => exact ⟨_,rfl⟩
    | some b => exact ih (n+1)

theorem try_reuse_live (hs : Serves c G f out) (w : Walk) {dir : Text} (root : Text)
    (hdir : validateRelativePath c reader.scope dir = .ok ()) :
    ∃ r, tryReuse c reader out w dir root = .ok r := by
  unfold tryReuse
  rw [hdir, ok_bind]
  cases w.tx.records root with
  | none => exact ⟨_,rfl⟩
  | some r =>
    by_cases hreusable : reusable reader w.tx root r = true
    · obtain ⟨⟨present,n⟩,hpresent⟩ := pages_present_live hs r.pageIds w.tick
      simp only [hreusable, if_true, hpresent, ok_bind]
      cases present <;> exact ⟨_,rfl⟩
    · simp only [hreusable]
      exact ⟨_,rfl⟩

theorem route_inv_same_queue (h : RouteInv G f w) (hs : SameQueue w w') : RouteInv G f w' := by
  constructor
  · rw [hs.routeIds]
    exact h.known
  · rw [hs.batch, hs.frontier]
    exact h.placed
  · rw [hs.frontier, hs.routeIds]
    exact h.frontier
  · rw [hs.batch, hs.routeIds]
    exact h.batch
  · rw [hs.batch, hs.byId]
    exact h.held

theorem enqueue_live (tree : WalkableTree c reader.scope G reader.metadataRoot f)
    (hs : Serves c G f out) (hclean : StepClean c G w) (h : Live c reader out G W f w left)
    {q : Enqueue} {rest : List Enqueue} (hq : w.pending = q :: rest) :
    ∃ w', enqueueDir c reader out { w with pending := rest } q = .ok w' ∧ RouteInv G f w' := by
  have hlisted := left_listed h.account (pending_listed h.account hq)
  have hdir : DirPath q.dir := (h.inv.forest.enqueued q (by simp [hq])).1
  have hvalid : validateRelativePath c reader.scope q.dir = .ok () := by
    rw [← dir_path_tail hdir]
    exact tree.dirs _ hlisted
  have hplaced : PageAt G f q.dir [] q.expected := ⟨_,hlisted,(dir_path_tail hdir).symm,rfl⟩
  have hroutes : RouteInv G f { w with pending := rest } :=
    ⟨h.routes.known,h.routes.placed,h.routes.frontier,h.routes.batch,h.routes.held⟩
  obtain ⟨⟨reused,w₁⟩,hreuse⟩ := try_reuse_live hs { w with
    pending := rest, states := countChild w.states q.parent } q.expected hvalid
  have hreuse' := try_reuse_ok hreuse
  obtain ⟨tx,tick,rfl,_,hsome⟩ := hreuse'
  unfold enqueueDir
  rw [hvalid, ok_bind]
  cases reused with
  | none =>
    simp only [hreuse, ok_bind]
    refine ⟨_,rfl,hroutes.known,?_,?_,hroutes.batch,hroutes.held⟩
    · intro it hit
      rcases List.mem_append.mp hit with hit | hit
      · exact hroutes.placed it (List.mem_append_left _ hit)
      · rcases List.mem_append.mp hit with hit | hit
        · exact hroutes.placed it (List.mem_append_right _ hit)
        · rw [List.mem_singleton.mp hit]
          exact hplaced
    · intro it hit
      rcases List.mem_append.mp hit with hit | hit
      · exact hroutes.frontier it hit
      · rw [List.mem_singleton.mp hit]
        intro k hk
        cases hk
  | some r =>
    obtain ⟨hr,hroot,_⟩ := hsome r rfl
    obtain ⟨g,later,hg,_,rfl⟩ := pending_facts h.account hq
    obtain ⟨g',hg',_,_,htotal⟩ := hclean.reuse q rest hq r hr hroot
    rw [hroot] at hg'
    obtain rfl := sums_unique hg hg'
    have hentries := h.account.entries
    have hmax := tree.entries
    simp only [Facts.add_entries, dirFact, Facts.relocate_entries, zero_add] at hentries
    have hroom : collected (countChild w.states q.parent) + r.totalEntries ≤ usizeMax := by
      rw [collected_count_child, htotal]
      omega
    obtain ⟨w',hw'⟩ := hand_up_live { w with
      pending := rest, states := countChild w.states q.parent, tx := tx, tick := tick }
      q.parent q.base r.files r.pageIds hroom
    have hnd : (Assoc.keys (countChild w.states q.parent)).Nodup := by
      rw [keys_count_child]
      exact h.inv.forest.keys
    have hsame : SameQueue { w with pending := rest } w' := by
      obtain ⟨_,_,_,hqueue⟩ := hand_up_account hnd hw'
      exact {hqueue with}
    refine ⟨w',?_,route_inv_same_queue hroutes hsame⟩
    simp only [hreuse, ok_bind]
    exact hw'

theorem handle_entries_live (dir : Text) {es : List Entry} (st : DirState) (acc : List Enqueue)
    (hnamed : ∀ e ∈ es, Named e) (hroom : st.totalEntries+es.length ≤ usizeMax) :
    ∃ r, es.foldlM (handleEntry dir) (st,acc) = .ok r := by
  induction es generalizing st acc with
  | nil => exact ⟨_,rfl⟩
  | cons e es ih =>
    rw [List.length_cons] at hroom
    have hadd : checkedAdd st.totalEntries 1 = some (st.totalEntries+1) :=
      checked_add_some.mpr ⟨by omega,rfl⟩
    have hname := (hnamed e List.mem_cons_self).1
    have hrest : ∀ e ∈ es, Named e := fun e he => hnamed e (List.mem_cons_of_mem _ he)
    have hstep : ∃ st' acc', handleEntry dir (st,acc) e = .ok (st',acc') ∧
        st'.totalEntries = st.totalEntries+1 := by
      unfold handleEntry
      simp only [hname, hadd, okOr, Option.elim, ok_bind]
      cases fsKind e.kind <;> exact ⟨_,_,rfl,rfl⟩
    obtain ⟨st',acc',hstep,htotal⟩ := hstep
    rw [List.foldlM_cons, hstep, ok_bind]
    exact ih st' acc' hrest (by omega)

theorem process_live (tree : WalkableTree c reader.scope G reader.metadataRoot f)
    (hagrees : Agrees c out G) (h : Live c reader out G W f w left) (hpending : w.pending = [])
    {it : Item} {rest : List Item} (hbatch : w.batch = it :: rest) :
    ∃ w', processItem c { w with batch := rest } it = .ok w' ∧ RouteInv G f w' := by
  have hmem : it ∈ w.batch := by simp [hbatch]
  have hplaced := h.routes.placed it (List.mem_append_left _ hmem)
  obtain ⟨b,hb⟩ := h.routes.held it hmem
  obtain ⟨hseen,hid⟩ := h.inv.byId _ b hb
  obtain ⟨page,below,later,hpage,_,_,rfl⟩ := batch_facts h.account hpending hbatch
  have hdecode := hagrees b page hseen (hid ▸ hpage)
  have hopen := h.inv.forest.items it (List.mem_append_left _ hmem)
  obtain ⟨st,hst⟩ := Assoc.exists_of_mem_keys hopen
  have hlookup := Assoc.lookup_of_mem h.inv.forest.keys hst
  have hroom : st.totalEntries+page.entries.length ≤ usizeMax := by
    have hle := le_collected hst
    have hentries := h.account.entries
    have hmax := tree.entries
    simp only [Facts.add_entries, pageFact, entry_facts_entries] at hentries
    simp only at hle
    omega
  obtain ⟨⟨st',qs⟩,hentries⟩ := handle_entries_live it.dir
    { st with pageIds := insertId st.pageIds it.expected } [] (tree.named _ page hpage) hroom
  unfold processItem
  simp only [hb, hlookup, okOr, Option.elim, ok_bind, hdecode, hentries]
  refine ⟨_,rfl,h.routes.known,?_,?_,?_,?_⟩
  · intro x hx
    rcases List.mem_append.mp hx with hx | hx
    · exact h.routes.placed x (List.mem_append_left _ (by simp [hbatch, hx]))
    · rcases List.mem_append.mp hx with hx | hx
      · exact h.routes.placed x (List.mem_append_right _ hx)
      · obtain ⟨ch,hch,rfl⟩ := List.mem_map.mp hx
        obtain ⟨d,hd,hdir,hroute⟩ := hplaced
        have hfind := find_label (tree.labels _ page hpage) hch
        exact ⟨d,hd,hdir,route_page_snoc hroute hpage hfind⟩
  · intro x hx
    rcases List.mem_append.mp hx with hx | hx
    · exact h.routes.frontier x hx
    · obtain ⟨ch,_,rfl⟩ := List.mem_map.mp hx
      intro k hk
      simp only [childItem, List.length_append, List.length_singleton] at hk
      simp only [childItem, List.take_append_of_le_length (Nat.lt_succ_iff.mp hk)]
      exact h.routes.batch it hmem k hk
  · intro x hx
    exact h.routes.batch x (by simp [hbatch, hx])
  · intro x hx
    exact h.routes.held x (by simp [hbatch, hx])

theorem complete_live (tree : WalkableTree c reader.scope G reader.metadataRoot f)
    (h : Live c reader out G W f w left) {s : Text × DirState} (hs : s ∈ doneStates w) :
    ∃ w', completeDir reader w s.1 s.2 = .ok w' ∧ RouteInv G f w' := by
  obtain ⟨d,st⟩ := s
  have hst : (d,st) ∈ w.states := (List.mem_filter.mp hs).1
  have hroom : collected (Assoc.erase w.states d) + st.totalEntries ≤ usizeMax := by
    have hall := collected_erase h.inv.forest.keys hst
    have hentries := h.account.entries
    have hmax := tree.entries
    omega
  obtain ⟨w',hw'⟩ := hand_up_live { w with
      states := Assoc.erase w.states d
      tx := w.tx.putRecord (recordOf reader st)
      tick := w.tick+1 }
    st.parent st.base st.files (sortIds st.pageIds) hroom
  obtain ⟨_,_,_,hqueue⟩ := hand_up_account (Assoc.keys_erase_nodup h.inv.forest.keys) hw'
  exact ⟨w',hw',route_inv_same_queue h.routes {hqueue with}⟩

end Steps

/-! ## The whole walk -/

section Run

variable {c : Codec} {reader : Reader} {out : Outside} {G W : Graph} {f : Facts} {w : Walk}
  {left : Facts}

variable (tree : WalkableTree c reader.scope G reader.metadataRoot f)

include tree

theorem step_total (hs : Serves c G f out) (hclean : StepClean c G w) (hagrees : Agrees c out G)
    (h : Live c reader out G W f w left) :
    (∃ files tx, step c reader out w = .ok (.finished files tx)) ∨
      ∃ w', step c reader out w = .ok (.next w') ∧ RouteInv G f w' := by
  cases hq : w.pending with
  | cons q rest =>
    obtain ⟨w',hrun,hroutes⟩ := enqueue_live tree hs hclean h hq
    refine .inr ⟨w',?_,hroutes⟩
    simp only [step, hq, hrun, Except.map]
  | nil =>
    cases hb : w.batch with
    | cons it rest =>
      obtain ⟨w',hrun,hroutes⟩ := process_live tree hagrees h hq hb
      refine .inr ⟨w',?_,hroutes⟩
      simp only [hq] at hrun
      simp only [step, hq, hb, hrun, Except.map]
    | nil =>
      cases hd : doneStates w with
      | cons s rest =>
        have hmem : ((s :: rest)[out.pick w.tick % (rest.length+1)]?).getD s ∈ doneStates w := by
          have hlt : out.pick w.tick % (rest.length+1) < (s :: rest).length :=
            Nat.mod_lt _ (by simp)
          rw [hd, List.getElem?_eq_getElem hlt]
          exact List.getElem_mem hlt
        obtain ⟨w',hrun,hroutes⟩ := complete_live tree h hmem
        refine .inr ⟨w',?_,hroutes⟩
        simp only [step, hq, hb, hd, hrun, Except.map]
      | nil =>
        by_cases hf : w.frontier = []
        · refine .inl ⟨w.filesOut,w.tx,?_⟩
          simp only [step, hq, hb, hd, hf, if_true]
        · obtain ⟨w',hrun,hroutes⟩ := fetch_live tree hs h.routes
          refine .inr ⟨w',?_,hroutes⟩
          simp only [step, hq, hb, hd, hf, if_false, hrun, Except.map]

/-- Every step succeeds, and it ends the walk or takes work out of the account. -/
theorem step_live (hs : Serves c G f out) (hle : SubGraph G W) (hagrees : Agrees c out G)
    (h : Live c reader out G W f w left) :
    (∃ files tx, step c reader out w = .ok (.finished files tx)) ∨
      ∃ w' left', step c reader out w = .ok (.next w') ∧ Live c reader out G W f w' left' ∧
        weight w' left' < weight w left := by
  have hclean := step_clean tree hle hagrees h.toKept
  rcases step_total tree hs hclean hagrees h with hend | ⟨w',hstep,hroutes⟩
  · exact .inl hend
  · obtain ⟨left',hkept,hweight⟩ := step_kept tree hle hagrees h.toKept hstep
    exact .inr ⟨w',left',hstep,⟨hkept,hroutes⟩,hweight⟩

variable {files : List SnapshotFile} {tx : Transaction}

/-- A walk that ends has the exact result, whatever was served on the way. -/
theorem run_kept (hle : SubGraph G W)
    (hagrees : Agrees c out G) (h : Kept c reader out G W f w left) {fuel : ℕ}
    (hrun : run c reader out fuel w = some (.ok (files,tx))) :
    Enumerates G reader.metadataRoot files ∧ RecordsValid W tx.records := by
  induction fuel generalizing w left with
  | zero => cases hrun
  | succ fuel ih =>
    rw [run] at hrun
    split at hrun
    · cases hrun
    · rename_i hstep
      cases hrun
      exact finished_exact h.inv hstep
    · rename_i w₁ hstep
      obtain ⟨left',h',_⟩ := step_kept tree hle hagrees h hstep
      exact ih h' hrun

/-- With a bound above the weight the walk returns the exact result. -/
theorem run_live (hs : Serves c G f out) (hle : SubGraph G W) (hagrees : Agrees c out G)
    (h : Live c reader out G W f w left) :
    ∃ files tx, Enumerates G reader.metadataRoot files ∧ RecordsValid W tx.records ∧
      ∀ fuel, weight w left < fuel → run c reader out fuel w = some (.ok (files,tx)) := by
  induction hn : weight w left using Nat.strong_induction_on generalizing w left with
  | _ n ih =>
    rcases step_live tree hs hle hagrees h with ⟨files,tx,hstep⟩ | ⟨w',left',hstep,h',hlt⟩
    · obtain ⟨henum,hvalid⟩ := finished_exact h.inv hstep
      refine ⟨files,tx,henum,hvalid,fun fuel hfuel => ?_⟩
      obtain ⟨k,rfl⟩ := Nat.exists_eq_succ_of_ne_zero (Nat.ne_zero_of_lt hfuel)
      simp only [run, hstep]
    · obtain ⟨files,tx,henum,hvalid,hrun⟩ := ih _ (hn ▸ hlt) h' rfl
      refine ⟨files,tx,henum,hvalid,fun fuel hfuel => ?_⟩
      obtain ⟨k,rfl⟩ := Nat.exists_eq_succ_of_ne_zero (Nat.ne_zero_of_lt hfuel)
      simp only [run, hstep]
      exact hrun k (by omega)

theorem start_kept (hrecords : RecordsValid W tx.records) :
    Kept c reader out G W f (start reader tx) f where
  inv := start_inv c out G reader hrecords
  account := {
    sums := tree.tree
    dirs := by simp [start, links, openDirs]
    entries := by simp [start, collected] }

theorem start_live (hrecords : RecordsValid W tx.records) :
    Live c reader out G W f (start reader tx) f where
  toKept := start_kept tree hrecords
  routes := {
    known := fun _ _ _ h => by cases h
    placed := by simp [start]
    frontier := by simp [start]
    batch := by simp [start]
    held := by simp [start] }

theorem enumerated_files (h : Enumerates G reader.metadataRoot files) :
    (↑files : Multiset SnapshotFile) = f.files := by
  obtain ⟨g,hg,hfiles⟩ := h
  obtain ⟨g',hg',rfl⟩ := tree_facts_iff.mp tree.tree
  rw [hfiles, sums_unique hg hg', Facts.add_files]
  simp [dirFact]

/-- On an accepted tree a synchronisation that succeeds returns exactly the files of the tree, and
the stored records are valid. -/
theorem sync_kept
    (hle : SubGraph G W) (hagrees : Agrees c out G) (hrecords : RecordsValid W tx.records)
    {store : Result Unit} {fuel : ℕ} {records : Text → Option ClosureRecord}
    (hrun : sync c reader out store fuel tx = some (.ok (files,records))) :
    ↑files = f.files ∧ RecordsValid W records := by
  obtain ⟨tx',hacquired,hstored⟩ := sync_acquired hrun
  obtain ⟨henum,hvalid⟩ := run_kept tree hle hagrees (start_kept tree hrecords) hacquired
  refine ⟨enumerated_files tree henum,?_⟩
  rcases hstored with rfl | rfl
  · exact hvalid
  · exact hrecords

/-- On an accepted tree the synchronisation succeeds with exactly the files of the tree. -/
theorem sync_live (hs : Serves c G f out) (hle : SubGraph G W) (hagrees : Agrees c out G)
    (hrecords : RecordsValid W tx.records) :
    ∃ (bound : ℕ) (files : List SnapshotFile) (records : Text → Option ClosureRecord),
      ↑files = f.files ∧ RecordsValid W records ∧
      ∀ fuel, bound < fuel → sync c reader out (.ok ()) fuel tx = some (.ok (files,records)) := by
  obtain ⟨files,tx',henum,hvalid,hrun⟩ :=
    run_live tree hs hle hagrees (start_live tree hrecords)
  have hall := enumerated_files tree henum
  have hcheck : files.forM (fun file => validateRelativePath c reader.scope file.relPath) =
      .ok () := by
    have hok : ∀ x ∈ files, validateRelativePath c reader.scope x.relPath = .ok () := by
      intro x hx
      exact tree.files x (hall ▸ hx)
    clear hall henum hrun
    induction files with
    | nil => rfl
    | cons x files ih =>
      rw [List.forM, hok x List.mem_cons_self, ok_bind]
      exact ih fun y hy => hok y (List.mem_cons_of_mem _ hy)
  refine ⟨weight (start reader tx) f,files,if tx'.dirty then tx'.records else tx.records,hall,?_,?_⟩
  · split
    · exact hvalid
    · exact hrecords
  · intro fuel hfuel
    unfold sync acquire
    rw [hrun fuel hfuel, Option.map_some, ok_bind, hcheck, ok_bind, commit]
    by_cases hdirty : tx'.dirty = true
    · simp only [hdirty, if_true, Except.map, ok_bind]
      rfl
    · simp only [hdirty]
      rfl

end Run

end Scorpio.AcquisitionLive
