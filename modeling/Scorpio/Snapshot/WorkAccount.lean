import Scorpio.Snapshot.AcquisitionExact

/-!
# The work account of an acquisition

Every page that is queued and every directory that waits has a place in the
tree. What is below these places has not been read yet; together with the open
directories and the entries they have counted it never exceeds the tree. Each
step takes work out of the account, so a walk over a finite tree ends.
-/

set_option autoImplicit false

namespace Scorpio.WorkAccount

open ByteText PageCodec ForestSum LogicalTree RadixTree Incremental PartialTree OpenForest
open IncrementalInvariant AcquisitionExact

def itemPlace (it : Item) : Node := .page it.dir.tail it.expected

def enqueuePlace (q : Enqueue) : Node := .dir q.dir.tail q.expected

/-- The nodes still to be unfolded. -/
def outstanding (w : Walk) : List Node :=
  w.pending.map enqueuePlace ++ (w.batch ++ w.frontier).map itemPlace

def openDirs (ls : List (Text × Link)) : Multiset SnapshotDirectory :=
  ↑(ls.map fun l => (⟨l.1.tail,l.2.root⟩ : SnapshotDirectory))

def collected (states : List (Text × DirState)) : ℕ := (states.map (·.2.totalEntries)).sum

structure Account (G : Graph) (f : Facts) (w : Walk) (rest : Facts) : Prop where
  sums : Sums (expand G) (outstanding w) rest
  dirs : openDirs (links w.states) + rest.dirs ≤ f.dirs
  entries : collected w.states + rest.entries ≤ f.entries

/-- A bound on the number of steps that are left. -/
def weight (w : Walk) (rest : Facts) : ℕ :=
  4*(rest.pages.card+rest.dirs.card) + 2*w.states.length + if w.batch = [] then 1 else 0

/-! ## Open directories -/

section States

variable {states states' : List (Text × DirState)} {p : Text} {st : DirState}

theorem collected_perm (h : states.Perm states') : collected states = collected states' :=
  (h.map _).sum_eq

theorem collected_cons (s : Text × DirState) :
    collected (s :: states) = s.2.totalEntries + collected states := by
  simp [collected]

theorem collected_erase (hnd : (Assoc.keys states).Nodup) (hst : (p,st) ∈ states) :
    collected states = st.totalEntries + collected (Assoc.erase states p) := by
  rw [collected_perm (Assoc.perm_cons_erase hnd hst), collected_cons]

theorem collected_erase_le : collected (Assoc.erase states p) ≤ collected states :=
  (List.filter_sublist.map _).sum_le_sum (by simp)

theorem collected_modify (hnd : (Assoc.keys states).Nodup) (hst : (p,st) ∈ states)
    {g : DirState → DirState} {n : ℕ} (hg : (g st).totalEntries = st.totalEntries+n) :
    collected (Assoc.modify states p g) = collected states + n := by
  have hnd' : (Assoc.keys (Assoc.modify states p g)).Nodup := by rwa [Assoc.keys_modify]
  have hst' : (p,g st) ∈ Assoc.modify states p g := Assoc.mem_modify.mpr (.inr ⟨st,hst,rfl⟩)
  have hother : Assoc.erase (Assoc.modify states p g) p = Assoc.erase states p := by
    unfold Assoc.erase Assoc.modify
    rw [List.filter_map]
    refine (List.map_congr_left fun s hs => ?_).trans (List.map_id _) |>.trans ?_
    · have hne := (List.mem_filter.mp hs).2
      by_cases hk : s.1 = p
      · simp [hk] at hne
      · simp [hk]
    · refine List.filter_congr fun s _ => ?_
      by_cases hk : s.1 = p <;> simp [hk]
  rw [collected_erase hnd' hst', collected_erase hnd hst, hother, hg]
  omega

theorem collected_count_child (parent : Option Text) :
    collected (countChild states parent) = collected states := by
  cases parent with
  | none => rfl
  | some p =>
    rw [count_child_some]
    unfold collected Assoc.modify
    rw [List.map_map]
    congr 1
    refine List.map_congr_left fun s _ => ?_
    by_cases hk : s.1 = p <;> simp [hk]

theorem length_count_child (parent : Option Text) :
    (countChild states parent).length = states.length := by
  cases parent with
  | none => rfl
  | some p => exact List.length_map ..

theorem open_dirs_perm {ls ls' : List (Text × Link)} (h : ls.Perm ls') :
    openDirs ls = openDirs ls' :=
  Multiset.coe_eq_coe.mpr (h.map _)

theorem open_dirs_sublist {ls ls' : List (Text × Link)} (h : ls.Sublist ls') :
    openDirs ls ≤ openDirs ls' :=
  Multiset.coe_le.mpr (h.map _).subperm

end States

/-! ## One step -/

section Steps

variable {c : Codec} {reader : Reader} {out : Outside} {G W : Graph} {root : Text} {f : Facts}
  {w w' : Walk} {left : Facts}

/-- The queues and what was fetched for them are the same. -/
structure SameQueue (w w' : Walk) : Prop where
  pending : w'.pending = w.pending
  batch : w'.batch = w.batch
  frontier : w'.frontier = w.frontier
  routeIds : w'.routeIds = w.routeIds
  byId : w'.byId = w.byId

/-- Handing a subtree up changes no directory, and counts at most its entries. -/
theorem hand_up_account {parent : Option Text} {base : Text} {files : List SnapshotFile}
    {ids : List Text} {total : ℕ} (hnd : (Assoc.keys w.states).Nodup)
    (hrun : handUp w parent base files ids total = .ok w') :
    links w'.states = links w.states ∧ w'.states.length = w.states.length ∧
      collected w'.states ≤ collected w.states + total ∧ SameQueue w w' := by
  rcases hand_up_ok hrun with ⟨_,rfl⟩ | ⟨p,_,⟨_,rfl⟩ | ⟨ps,hps,_,rfl⟩⟩
  · exact ⟨rfl,rfl,Nat.le_add_right _ _,rfl,rfl,rfl,rfl,rfl⟩
  · exact ⟨rfl,rfl,Nat.le_add_right _ _,rfl,rfl,rfl,rfl,rfl⟩
  · have hcount := collected_modify hnd hps (n := total)
      (g := fun st => st.absorb base files ids (ps.totalEntries+total)) rfl
    refine ⟨?_,List.length_map ..,hcount.le,rfl,rfl,rfl,rfl,rfl⟩
    exact links_modify (f := fun st => st.absorb base files ids (ps.totalEntries+total))
      fun _ _ => rfl

/-- The tree below a waiting directory. -/
theorem pending_facts (h : Account G f w left) {q : Enqueue} {rest : List Enqueue}
    (hq : w.pending = q :: rest) : ∃ g later, PageFacts G [] q.expected g ∧
      Sums (expand G) (rest.map enqueuePlace ++ (w.batch ++ w.frontier).map itemPlace) later ∧
      left = dirFact q.dir.tail q.expected + Facts.relocate q.dir.tail g + later := by
  have hsums := h.sums
  rw [outstanding, hq, List.map_cons, List.cons_append] at hsums
  obtain ⟨k,later,hk,hlater,rfl⟩ := sums_cons_iff.mp hsums
  obtain ⟨g,hg,rfl⟩ := tree_facts_iff.mp hk
  obtain ⟨g',hg',rfl⟩ := page_facts_at_root hg
  exact ⟨g',later,hg',hlater,rfl⟩

theorem enqueue_account (h : Account G f w left) (hnd : (Assoc.keys w.states).Nodup)
    {q : Enqueue} {rest : List Enqueue} (hq : w.pending = q :: rest) (hclean : StepClean c G w)
    (hrun : enqueueDir c reader out { w with pending := rest } q = .ok w') :
    ∃ left', Account G f w' left' ∧ weight w' left' < weight w left := by
  obtain ⟨g,later,hg,hlater,rfl⟩ := pending_facts h hq
  have hdirs := h.dirs
  have hentries := h.entries
  simp only [Facts.add_dirs, Facts.add_entries, dirFact, Facts.relocate_entries, zero_add]
    at hdirs hentries
  have hcard : (dirFact q.dir.tail q.expected + Facts.relocate q.dir.tail g + later).dirs.card =
      1 + (Facts.relocate q.dir.tail g).dirs.card + later.dirs.card := by
    simp only [Facts.add_dirs, dirFact, Multiset.card_add, Multiset.card_singleton]
  have hpages : (dirFact q.dir.tail q.expected + Facts.relocate q.dir.tail g + later).pages.card =
      g.pages.card + later.pages.card := by
    simp [dirFact]
  obtain ⟨tx,tick,⟨r,hr,hroot,_,hrun⟩ | ⟨_,rfl⟩⟩ := enqueue_ok hrun
  · obtain ⟨f',hf',_,_,htotal⟩ := hclean.reuse q rest hq r hr hroot
    rw [hroot] at hf'
    obtain rfl := sums_unique hg hf'
    have hnd' : (Assoc.keys (countChild w.states q.parent)).Nodup := by rwa [keys_count_child]
    obtain ⟨hlinks,hlength,hcount,hpending,hbatch,hfrontier,_,_⟩ := hand_up_account hnd' hrun
    have hlinks : links w'.states = links w.states := hlinks.trans (links_count_child q.parent)
    have hlength : w'.states.length = w.states.length :=
      hlength.trans (length_count_child q.parent)
    have hbatch : w'.batch = w.batch := hbatch
    have hcount : collected w'.states ≤ collected w.states + g.entries := by
      rw [collected_count_child, htotal] at hcount
      exact hcount
    refine ⟨later,⟨?_,?_,?_⟩,?_⟩
    · rw [outstanding, hpending, hbatch, hfrontier]
      exact hlater
    · rw [hlinks]
      refine le_trans ?_ hdirs
      exact add_le_add le_rfl (Multiset.le_add_left _ _)
    · omega
    · unfold weight
      rw [hcard, hpages, hlength, hbatch]
      omega
  · refine ⟨Facts.relocate q.dir.tail g + later,⟨?_,?_,?_⟩,?_⟩
    · have hitem : PageFacts G q.dir.tail q.expected (Facts.relocate q.dir.tail g) := by
        have hmoved := page_facts_relocate q.dir.tail hg
        rwa [join_nil_right] at hmoved
      refine sums_perm ?_ (sums_append hitem hlater)
      have hplaces : (w.batch ++ (w.frontier ++ [(⟨q.dir,[],q.expected⟩ : Item)])).map itemPlace =
          (w.batch ++ w.frontier).map itemPlace ++ [.page q.dir.tail q.expected] := by
        simp [itemPlace]
      change List.Perm _ (rest.map enqueuePlace ++
        (w.batch ++ (w.frontier ++ [(⟨q.dir,[],q.expected⟩ : Item)])).map itemPlace)
      rw [hplaces, ← List.append_assoc (rest.map enqueuePlace), List.singleton_append]
      exact (List.perm_append_singleton _ _).symm
    · have hsub : openDirs (links (Assoc.insert (countChild w.states q.parent) q.dir
          (freshState q))) ≤ {⟨q.dir.tail,q.expected⟩} + openDirs (links w.states) := by
        have hl : links (Assoc.insert (countChild w.states q.parent) q.dir (freshState q)) =
            links (Assoc.erase (countChild w.states q.parent) q.dir) ++
              [(q.dir,⟨q.parent,q.base,q.expected⟩)] := by
          simp [links, Assoc.insert, linkOf, freshState]
        rw [hl, open_dirs_perm (List.perm_append_singleton _ _)]
        have herase : (links (Assoc.erase (countChild w.states q.parent) q.dir)).Sublist
            (links w.states) := by
          rw [← @links_count_child w.states q.parent]
          exact List.filter_sublist.map _
        exact Multiset.cons_le_cons _ (open_dirs_sublist herase)
      calc openDirs _ + (Facts.relocate q.dir.tail g + later).dirs
          ≤ {⟨q.dir.tail,q.expected⟩} + openDirs (links w.states) +
            (Facts.relocate q.dir.tail g + later).dirs := add_le_add hsub le_rfl
        _ = openDirs (links w.states) +
            ({⟨q.dir.tail,q.expected⟩} + (Facts.relocate q.dir.tail g).dirs + later.dirs) := by
          rw [Facts.add_dirs]
          abel
        _ ≤ f.dirs := hdirs
    · have hcount : collected (Assoc.insert (countChild w.states q.parent) q.dir (freshState q)) ≤
          collected w.states := by
        rw [Assoc.insert, collected_perm (List.perm_append_singleton _ _), collected_cons,
          ← @collected_count_child w.states q.parent]
        simpa [freshState] using collected_erase_le
      change collected (Assoc.insert (countChild w.states q.parent) q.dir (freshState q)) + _ ≤ _
      rw [Facts.add_entries, Facts.relocate_entries]
      omega
    · have hlength : (Assoc.insert (countChild w.states q.parent) q.dir (freshState q)).length ≤
          w.states.length+1 := by
        rw [Assoc.insert, List.length_append, List.length_singleton, Assoc.erase]
        have hle := List.length_filter_le (fun s => decide (s.1 ≠ q.dir))
          (countChild w.states q.parent)
        rw [length_count_child] at hle
        omega
      unfold weight
      rw [hcard, hpages]
      simp only [Facts.add_dirs, Facts.add_pages, Facts.relocate_pages, Multiset.card_add]
      omega

theorem child_enqueue_places {rel : Text} (hrel : rel.head? ≠ some slash) {es : List Entry}
    (hnames : ∀ e ∈ es, ValidName e.name) :
    (es.filterMap (childEnqueue (slash :: rel))).map enqueuePlace =
      es.flatMap (entryNodes rel) := by
  induction es with
  | nil => rfl
  | cons e es ih =>
    have hrest := ih fun e he => hnames e (List.mem_cons_of_mem _ he)
    have hname := (hnames e List.mem_cons_self).1
    cases hk : fsKind e.kind <;>
      simp [childEnqueue, entryNodes, hk, enqueuePlace, child_dir_eq hrel hname, ← hrest]

/-- The page of the next item, and what is below it. -/
theorem batch_facts (h : Account G f w left) (hpending : w.pending = []) {it : Item}
    {rest : List Item} (hbatch : w.batch = it :: rest) : ∃ page below later,
      G it.expected = some page ∧
      Sums (expand G) (page.entries.flatMap (entryNodes it.dir.tail) ++
        page.children.map fun ch => .page it.dir.tail (childId ch)) below ∧
      Sums (expand G) ((rest ++ w.frontier).map itemPlace) later ∧
      left = pageFact it.expected + (page.entries.map (entryFacts it.dir.tail)).sum + below +
        later := by
  have hsums := h.sums
  rw [outstanding, hpending, hbatch, List.map_nil, List.nil_append, List.cons_append,
    List.map_cons] at hsums
  cases hsums with
  | @cons _ _ kids own below later hx hbelow hlater =>
    obtain ⟨page,hpage,hpair⟩ := Option.map_eq_some_iff.mp hx
    cases hpair
    exact ⟨page,below,later,hpage,hbelow,hlater,rfl⟩

theorem process_account (hG : NamesValid G) (h : Account G f w left)
    (hnd : (Assoc.keys w.states).Nodup) (hpending : w.pending = []) {it : Item}
    {rest : List Item} (hbatch : w.batch = it :: rest) (hdir : DirPath it.dir)
    (hclean : StepClean c G w) (hrun : processItem c { w with batch := rest } it = .ok w') :
    ∃ left', Account G f w' left' ∧ weight w' left' < weight w left := by
  obtain ⟨b,page,st,fs,hb,hdecode,hst,rfl,_⟩ := process_ok hrun
  have hst : (it.dir,st) ∈ w.states := hst
  have hpage := hclean.page it rest hbatch b page hb hdecode
  obtain ⟨page',below,later,hpage',hbelow,hlater,rfl⟩ := batch_facts h hpending hbatch
  rw [hpage] at hpage'
  cases hpage'
  have hdirs := h.dirs
  have hentries := h.entries
  simp only [Facts.add_dirs, Facts.add_entries, pageFact, entry_facts_dirs, entry_facts_entries,
    zero_add] at hdirs hentries
  refine ⟨below+later,⟨?_,?_,?_⟩,?_⟩
  · obtain ⟨rel,hrel,hhead⟩ := hdir
    refine sums_perm ?_ (sums_append hbelow hlater)
    have hplaces : (rest ++ (w.frontier ++ page.children.map (childItem it))).map itemPlace =
        (rest ++ w.frontier).map itemPlace ++
          page.children.map fun ch => .page it.dir.tail (childId ch) := by
      simp [itemPlace, childItem]
    have hchildren : (page.entries.filterMap (childEnqueue it.dir)).map enqueuePlace =
        page.entries.flatMap (entryNodes it.dir.tail) := by
      rw [hrel]
      exact child_enqueue_places hhead (hG _ _ hpage)
    change List.Perm _ ((page.entries.filterMap (childEnqueue it.dir)).map enqueuePlace ++
      (rest ++ (w.frontier ++ page.children.map (childItem it))).map itemPlace)
    rw [hplaces, hchildren, List.append_assoc]
    exact List.Perm.append_left _ List.perm_append_comm
  · have hlinks : links (Assoc.modify w.states it.dir fun _ => { st with
        pageIds := insertId st.pageIds it.expected
        files := st.files ++ fs
        totalEntries := st.totalEntries+page.entries.length
        pendingPages := st.pendingPages+page.children.length-1 }) = links w.states :=
      links_modify fun st' hst' => Assoc.eq_of_mem hnd hst' hst ▸ rfl
    change openDirs (links (Assoc.modify w.states it.dir fun _ => _)) + _ ≤ _
    rw [hlinks, Facts.add_dirs]
    exact hdirs
  · have hcount := collected_modify hnd hst (n := page.entries.length) (g := fun _ => { st with
        pageIds := insertId st.pageIds it.expected
        files := st.files ++ fs
        totalEntries := st.totalEntries+page.entries.length
        pendingPages := st.pendingPages+page.children.length-1 }) rfl
    change collected (Assoc.modify w.states it.dir fun _ => _) + _ ≤ _
    rw [hcount, Facts.add_entries]
    omega
  · unfold weight
    rw [hbatch]
    simp only [Facts.add_dirs, Facts.add_pages, pageFact, entry_facts_dirs, entry_facts_pages,
      Multiset.card_add, Multiset.card_singleton, Multiset.card_zero, Assoc.modify, List.length_map]
    rw [if_neg (List.cons_ne_nil it rest)]
    split <;> omega

theorem complete_account (h : Account G f w left) (hnd : (Assoc.keys w.states).Nodup)
    {s : Text × DirState} (hs : s ∈ doneStates w)
    (hrun : completeDir reader w s.1 s.2 = .ok w') :
    ∃ left', Account G f w' left' ∧ weight w' left' < weight w left := by
  obtain ⟨d,st⟩ := s
  have hst : (d,st) ∈ w.states := (List.mem_filter.mp hs).1
  obtain ⟨hlinks,hlength,hcount,hpending,hbatch,hfrontier,_,_⟩ :=
    hand_up_account (Assoc.keys_erase_nodup hnd) hrun
  have hlinks : links w'.states = links (Assoc.erase w.states d) := hlinks
  have hlength : w'.states.length = (Assoc.erase w.states d).length := hlength
  have hcount : collected w'.states ≤ collected (Assoc.erase w.states d) + st.totalEntries := hcount
  have hbatch : w'.batch = w.batch := hbatch
  have hperm := Assoc.perm_cons_erase hnd hst
  refine ⟨left,⟨?_,?_,?_⟩,?_⟩
  · rw [outstanding, hpending, hbatch, hfrontier]
    exact h.sums
  · refine le_trans (add_le_add ?_ le_rfl) h.dirs
    rw [hlinks]
    exact open_dirs_sublist (List.filter_sublist.map _)
  · have hall := collected_erase hnd hst
    have hentries := h.entries
    omega
  · have hlen := hperm.length_eq
    rw [List.length_cons] at hlen
    unfold weight
    rw [hbatch, hlength, hlen]
    omega

theorem fetch_account (h : Account G f w left) (hbatch : w.batch = []) (hne : w.frontier ≠ [])
    (hrun : fetchBatch c reader out w = .ok w') :
    Account G f w' left ∧ weight w' left < weight w left := by
  obtain ⟨⟨hstates,hfrontier,hb,hpending,_,_⟩,_⟩ := fetch_ok hrun
  have hstates : w'.states = w.states := hstates
  refine ⟨⟨?_,?_,?_⟩,?_⟩
  · have hsums := h.sums
    rw [outstanding, hbatch, List.nil_append] at hsums
    rw [outstanding, hpending, hb, hfrontier]
    simp only [List.take_append_drop]
    exact hsums
  · rw [hstates]
    exact h.dirs
  · rw [hstates]
    exact h.entries
  · have hfull : w'.batch ≠ [] := by
      rw [hb]
      simp [List.take_eq_nil_iff, pageBatch, hne]
    unfold weight
    rw [hstates, hbatch, if_neg hfull, if_pos rfl]
    omega

end Steps

end Scorpio.WorkAccount
