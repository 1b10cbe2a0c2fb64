import Scorpio.Snapshot.PartialTree

/-!
# Open directories and their holes

The holes of an open directory are the pages of it that are queued, its child
directories that are open, and its child directories that wait to be enqueued.
The invariant says that filling the holes gives the subtree of the directory,
and that the two counters of a directory count its holes. Each operation of the
acquisition on this forest has one lemma.
-/

set_option autoImplicit false

namespace Scorpio.OpenForest

open ByteText PageCodec ForestSum LogicalTree ClosureConstructor RadixTree Incremental PartialTree

/-! ## The forest -/

/-- What a directory has from the moment it is opened. -/
structure Link where
  parent : Option Text
  base : Text
  root : Text

def linkOf (s : Text × DirState) : Text × Link := (s.1,⟨s.2.parent,s.2.base,s.2.rootPageId⟩)

def links (states : List (Text × DirState)) : List (Text × Link) := states.map linkOf

def itemNode (it : Item) : Node := .page [] it.expected

def linkNode (l : Text × Link) : Node := .dir l.2.base l.2.root

def enqueueNode (q : Enqueue) : Node := .dir q.base q.expected

def holes (items : List Item) (links : List (Text × Link)) (pending : List Enqueue) (p : Text) :
    List Node :=
  (items.filter (·.dir = p)).map itemNode ++
    ((links.filter (·.2.parent = some p)).map linkNode ++
      (pending.filter (·.parent = some p)).map enqueueNode)

structure StateOk (G : Graph) (items : List Item) (links : List (Text × Link))
    (pending : List Enqueue) (s : Text × DirState) : Prop where
  cover : Covers G (holes items links pending s.1) s.2.rootPageId ↑s.2.files s.2.pageIds
    s.2.totalEntries
  pages : s.2.pendingPages = (items.filter (·.dir = s.1)).length
  children : s.2.pendingChildren = (links.filter (·.2.parent = some s.1)).length

/-- Paths of directories start with one slash. -/
def DirPath (dir : Text) : Prop := ∃ rel, dir = slash :: rel ∧ rel.head? ≠ some slash

/-- A directory is the root of the walk or lies below an open directory. -/
def Linked (root : Text) (open' : List Text) (dir : Text) (l : Link) : Prop :=
  DirPath dir ∧ match l.parent with
    | none => l.root = root
    | some p => p ∈ open' ∧ p.length < dir.length ∧ ValidName l.base

structure Forest (G : Graph) (root : Text) (items : List Item) (states : List (Text × DirState))
    (pending : List Enqueue) : Prop where
  keys : (Assoc.keys states).Nodup
  state : ∀ s ∈ states, StateOk G items (links states) pending s
  linked : ∀ l ∈ links states, Linked root (Assoc.keys states) l.1 l.2
  enqueued : ∀ q ∈ pending, Linked root (Assoc.keys states) q.dir ⟨q.parent,q.base,q.expected⟩
  items : ∀ it ∈ items, it.dir ∈ Assoc.keys states

theorem Linked.mono {root dir : Text} {open₁ open₂ : List Text} {l : Link}
    (h : Linked root open₁ dir l) (hsub : ∀ p, l.parent = some p → p ∈ open₁ → p ∈ open₂) :
    Linked root open₂ dir l := by
  refine ⟨h.1,?_⟩
  have h2 := h.2
  split at h2
  · exact h2
  · rename_i p hp
    exact ⟨hsub p hp h2.1,h2.2⟩

/-- `f` changes the collected part only. -/
def KeepsLink (f : DirState → DirState) (p : Text) (st : DirState) : Prop :=
  linkOf (p,f st) = linkOf (p,st)

theorem links_modify {states : List (Text × DirState)} {p : Text} {f : DirState → DirState}
    (hf : ∀ st, (p,st) ∈ states → KeepsLink f p st) :
    links (Assoc.modify states p f) = links states := by
  unfold links Assoc.modify
  rw [List.map_map]
  refine List.map_congr_left fun s hs => ?_
  obtain ⟨k,st⟩ := s
  by_cases hk : k = p
  · subst hk
    have hlink : linkOf (k,f st) = linkOf (k,st) := hf st hs
    simpa using hlink
  · simp [hk]

/-- The collected part grows by a finished subtree. -/
def collect (base : Text) (files : List SnapshotFile) (ids : List Text) (total : ℕ)
    (st : DirState) : DirState :=
  { st with
    files := st.files ++ files.map fun f => { f with relPath := withPrefix f.relPath base }
    pageIds := extendIds st.pageIds ids
    totalEntries := total }

theorem collect_files (base : Text) (files : List SnapshotFile) (ids : List Text) (total : ℕ)
    (st : DirState) : (collect base files ids total st).files =
      st.files ++ files.map fun f => { f with relPath := withPrefix f.relPath base } := rfl

theorem collect_ids (base : Text) (files : List SnapshotFile) (ids : List Text) (total : ℕ)
    (st : DirState) : (collect base files ids total st).pageIds = extendIds st.pageIds ids := rfl

theorem mem_extend_ids {ids more : List Text} {i : Text} :
    i ∈ extendIds ids more ↔ i ∈ ids ∨ i ∈ more := by
  unfold extendIds
  induction more generalizing ids with
  | nil => simp
  | cons id more ih =>
    rw [List.foldl_cons, ih]
    by_cases hid : id ∈ ids
    · simp only [if_pos hid, List.mem_cons]
      constructor
      · tauto
      · rintro (h | rfl | h)
        · exact .inl h
        · exact .inl hid
        · exact .inr h
    · simp only [if_neg hid, List.mem_cons]
      tauto

theorem mem_insert_id {ids : List Text} {id i : Text} :
    i ∈ insertId ids id ↔ i = id ∨ i ∈ ids := by
  by_cases hid : id ∈ ids
  · simp only [insertId, if_pos hid]
    constructor
    · exact .inr
    · rintro (rfl | h)
      · exact hid
      · exact h
  · simp [insertId, hid]

theorem perm_regroup {α : Type*} (a b d e : List α) :
    (a ++ b ++ (d ++ e)).Perm (e ++ b ++ (a ++ d)) := by
  rw [← Multiset.coe_eq_coe]
  simp only [← Multiset.coe_add]
  abel

section Operations

variable {G : Graph} {q : Enqueue} {root : Text} {items items' : List Item} {states : List (Text × DirState)}
  {pending pending' : List Enqueue}

variable {p : Text} {st : DirState} {ls : List (Text × Link)} {s : Text × DirState}

/-- The collected part of one open directory changes together with its own holes. -/
theorem Forest.modify (h : Forest G root items states pending) {f : DirState → DirState}
    (hst : (p,st) ∈ states) (hf : KeepsLink f p st)
    (hother : ∀ k, k ≠ p → holes items' (links states) pending' k =
      holes items (links states) pending k)
    (hcount : ∀ k, k ≠ p → (items'.filter (·.dir = k)).length = (items.filter (·.dir = k)).length)
    (hself : StateOk G items' (links states) pending' (p,f st))
    (henqueued : ∀ q ∈ pending', Linked root (Assoc.keys states) q.dir ⟨q.parent,q.base,q.expected⟩)
    (hitems : ∀ it ∈ items', it.dir ∈ Assoc.keys states) :
    Forest G root items' (Assoc.modify states p f) pending' := by
  have hlinks : links (Assoc.modify states p f) = links states :=
    links_modify fun st' hst' => Assoc.eq_of_mem h.keys hst' hst ▸ hf
  constructor
  case keys => rw [Assoc.keys_modify]; exact h.keys
  case linked => rw [Assoc.keys_modify, hlinks]; exact h.linked
  case enqueued => rw [Assoc.keys_modify]; exact henqueued
  case items => rw [Assoc.keys_modify]; exact hitems
  case state =>
    intro s hs
    rw [hlinks]
    rcases Assoc.mem_modify.mp hs with ⟨hmem,hne⟩ | ⟨st',hst',rfl⟩
    · have hold := h.state s hmem
      exact ⟨by rw [hother s.1 hne]; exact hold.cover,by rw [hcount s.1 hne]; exact hold.pages,
        hold.children⟩
    · rw [Assoc.eq_of_mem h.keys hst' hst]
      exact hself

/-- Nothing refers to a path that is not open. -/
theorem Forest.holes_closed (h : Forest G root items states pending) (hp : p ∉ Assoc.keys states) :
    holes items (links states) pending p = [] := by
  have hi : items.filter (·.dir = p) = [] := by
    refine List.filter_eq_nil_iff.mpr fun it hit hdir => ?_
    have hdir : it.dir = p := by simpa using hdir
    exact hp (hdir ▸ h.items it hit)
  have hl : (links states).filter (·.2.parent = some p) = [] := by
    refine List.filter_eq_nil_iff.mpr fun l hl hpar => ?_
    have hpar : l.2.parent = some p := by simpa using hpar
    have hlinked := (h.linked l hl).2
    rw [hpar] at hlinked
    exact hp hlinked.1
  have hq : pending.filter (·.parent = some p) = [] := by
    refine List.filter_eq_nil_iff.mpr fun q hq hpar => ?_
    have hpar : q.parent = some p := by simpa using hpar
    have hlinked := (h.enqueued q hq).2
    simp only [hpar] at hlinked
    exact hp hlinked.1
  simp [holes, hi, hl, hq]

theorem holes_cons_pending (items : List Item) (ls : List (Text × Link)) (q : Enqueue)
    (rest : List Enqueue) (k : Text) : (holes items ls (q :: rest) k).Perm
      ((if q.parent = some k then [enqueueNode q] else []) ++ holes items ls rest k) := by
  unfold holes
  by_cases hq : q.parent = some k
  · rw [List.filter_cons_of_pos (by simpa using hq), if_pos hq, List.map_cons,
      List.singleton_append]
    refine List.Perm.trans ?_ List.perm_middle
    exact List.Perm.append_left _ List.perm_middle
  · rw [List.filter_cons_of_neg (by simpa using hq), if_neg hq, List.nil_append]

theorem holes_cons_link (items : List Item) (l : Text × Link) (ls : List (Text × Link))
    (pending : List Enqueue) (k : Text) : (holes items (l :: ls) pending k).Perm
      ((if l.2.parent = some k then [linkNode l] else []) ++ holes items ls pending k) := by
  unfold holes
  by_cases hl : l.2.parent = some k
  · rw [List.filter_cons_of_pos (by simpa using hl), if_pos hl, List.map_cons,
      List.singleton_append, List.cons_append]
    exact List.perm_middle
  · rw [List.filter_cons_of_neg (by simpa using hl), if_neg hl, List.nil_append]

theorem holes_cons_item (it : Item) (items : List Item) (ls : List (Text × Link))
    (pending : List Enqueue) (k : Text) : holes (it :: items) ls pending k =
      (if it.dir = k then [itemNode it] else []) ++ holes items ls pending k := by
  unfold holes
  by_cases hit : it.dir = k
  · rw [List.filter_cons_of_pos (by simpa using hit), if_pos hit, List.map_cons,
      List.singleton_append, List.cons_append]
  · rw [List.filter_cons_of_neg (by simpa using hit), if_neg hit, List.nil_append]

theorem holes_perm {ls' : List (Text × Link)} (hi : items'.Perm items) (hl : ls'.Perm ls)
    (hq : pending'.Perm pending) (k : Text) :
    (holes items' ls' pending' k).Perm (holes items ls pending k) :=
  ((hi.filter _).map _).append (((hl.filter _).map _).append ((hq.filter _).map _))

theorem Forest.perm_items (h : Forest G root items states pending) (hp : items'.Perm items) :
    Forest G root items' states pending where
  keys := h.keys
  state s hs := ⟨(h.state s hs).cover.perm (holes_perm hp (.refl _) (.refl _) s.1),
    by rw [(hp.filter _).length_eq]; exact (h.state s hs).pages,(h.state s hs).children⟩
  linked := h.linked
  enqueued := h.enqueued
  items it hit := h.items it (hp.mem_iff.mp hit)

theorem holes_pending_of_ne {q : Enqueue} {rest : List Enqueue} {k : Text}
    (hq : q.parent ≠ some k) : holes items ls rest k = holes items ls (q :: rest) k := by
  unfold holes
  rw [List.filter_cons_of_neg (by simpa using hq)]

theorem Linked.parent_mem {root' dir : Text} {open' : List Text} {l : Link}
    (h : Linked root' open' dir l) (hp : l.parent = some p) : p ∈ open' := by
  have h2 := h.2
  rw [hp] at h2
  exact h2.1

theorem Linked.base_valid {root' dir : Text} {open' : List Text} {l : Link}
    (h : Linked root' open' dir l) (hp : l.parent = some p) : ValidName l.base := by
  have h2 := h.2
  rw [hp] at h2
  exact h2.2.2

/-- A directory waiting without a parent is taken out. -/
theorem Forest.drop_root (h : Forest G root items states (q :: pending))
    (hq : q.parent = none) : Forest G root items states pending where
  keys := h.keys
  state s hs := by
    have hholes : holes items (links states) pending s.1 =
        holes items (links states) (q :: pending) s.1 := holes_pending_of_ne (by simp [hq])
    exact ⟨hholes ▸ (h.state s hs).cover,(h.state s hs).pages,(h.state s hs).children⟩
  linked := h.linked
  enqueued q' hq' := h.enqueued q' (List.mem_cons_of_mem _ hq')
  items := h.items

/-- The subtree of a waiting directory is collected by its parent. -/
theorem Forest.fill (h : Forest G root items states (q :: pending)) (hG : NamesValid G)
    (hq : q.parent = some p) (hst : (p,st) ∈ states) {f : Facts} {files : List SnapshotFile}
    {ids : List Text} {total : ℕ} (hf : PageFacts G [] q.expected f) (hfiles : ↑files = f.files)
    (hids : ∀ i, i ∈ ids ↔ i ∈ f.pages) (htotal : total = f.entries) :
    Forest G root items (Assoc.modify states p (collect q.base files ids (st.totalEntries+total)))
      pending := by
  have hlinked := h.enqueued q List.mem_cons_self
  have hold := h.state (p,st) hst
  refine h.modify hst rfl (fun k hk => ?_) (fun _ _ => rfl) ?_
    (fun q' hq' => h.enqueued q' (List.mem_cons_of_mem _ hq')) h.items
  · exact holes_pending_of_ne (by simp [hq, hk.symm])
  · have hnode : Sums (expand G) [enqueueNode q]
        (dirFact q.base q.expected + Facts.relocate q.base f) := by
      have hmoved := page_facts_relocate q.base hf
      rw [join_nil_right] at hmoved
      exact tree_facts_iff.mpr ⟨_,hmoved,rfl⟩
    have hcover := hold.cover.perm (holes_cons_pending items (links states) q pending p).symm
    rw [if_pos hq, List.singleton_append] at hcover
    refine ⟨hcover.fill hnode ?_ ?_ ?_,hold.pages,hold.children⟩
    · rw [collect_files, ← Multiset.coe_add, prefixed_files hG (hlinked.base_valid hq) hf hfiles]
      simp [dirFact]
    · intro i
      rw [collect_ids, mem_extend_ids, hids]
      simp [dirFact]
    · simp [collect, dirFact, htotal]

theorem count_child_some (states : List (Text × DirState)) (p : Text) : countChild states (some p) =
    Assoc.modify states p fun st => { st with pendingChildren := st.pendingChildren+1 } := rfl

theorem mem_count_child {parent : Option Text} (hs : s ∈ countChild states parent) :
    ∃ st, (s.1,st) ∈ states ∧
      s.2 = { st with pendingChildren := st.pendingChildren + if parent = some s.1 then 1 else 0 } := by
  cases parent with
  | none => exact ⟨s.2,hs,by simp⟩
  | some p =>
    rw [count_child_some] at hs
    rcases Assoc.mem_modify.mp hs with ⟨hmem,hne⟩ | ⟨st,hst,rfl⟩
    · exact ⟨s.2,hmem,by simp [hne.symm]⟩
    · exact ⟨st,hst,by simp⟩

theorem links_count_child (parent : Option Text) : links (countChild states parent) = links states := by
  cases parent with
  | none => rfl
  | some p =>
    rw [count_child_some]
    exact links_modify fun _ _ => rfl

theorem keys_count_child (parent : Option Text) :
    Assoc.keys (countChild states parent) = Assoc.keys states := by
  cases parent with
  | none => rfl
  | some p => rw [count_child_some, Assoc.keys_modify]

/-- A waiting directory is opened at a path that is not open. -/
theorem Forest.open_fresh (h : Forest G root items states (q :: pending))
    (hnew : q.dir ∉ Assoc.keys states) :
    Forest G root (⟨q.dir,[],q.expected⟩ :: items)
      ((q.dir,freshState q) :: countChild states q.parent) pending := by
  have hlinks : links ((q.dir,freshState q) :: countChild states q.parent) =
      (q.dir,⟨q.parent,q.base,q.expected⟩) :: links states := by
    rw [links, List.map_cons]
    exact congrArg _ (links_count_child q.parent)
  have hkeys : Assoc.keys ((q.dir,freshState q) :: countChild states q.parent) =
      q.dir :: Assoc.keys states := congrArg _ (keys_count_child q.parent)
  have hparent : q.parent ≠ some q.dir := fun hp =>
    hnew ((h.enqueued q List.mem_cons_self).parent_mem hp)
  have hnode : linkNode (q.dir,⟨q.parent,q.base,q.expected⟩) = enqueueNode q := rfl
  have hlist : ∀ k, (holes (⟨q.dir,[],q.expected⟩ :: items)
      ((q.dir,⟨q.parent,q.base,q.expected⟩) :: links states) pending k).Perm
      ((if q.dir = k then [.page [] q.expected] else []) ++
        holes items (links states) (q :: pending) k) := by
    intro k
    rw [holes_cons_item]
    refine List.Perm.append_left _ ((holes_cons_link _ _ _ _ _).trans ?_)
    exact (holes_cons_pending items (links states) q pending k).symm
  constructor
  case keys =>
    rw [hkeys]
    exact List.nodup_cons.mpr ⟨hnew,h.keys⟩
  case state =>
    intro s hs
    rw [hlinks]
    rcases List.mem_cons.mp hs with rfl | hs
    · -- nothing refers to the new path yet, so its root page is the only hole
      have hnone := h.holes_closed hnew
      have hfilters := hnone
      simp only [holes, List.append_eq_nil_iff, List.map_eq_nil_iff] at hfilters
      refine ⟨?_,?_,?_⟩
      · refine (covers_fresh G q.expected).perm ?_
        have hall := hlist q.dir
        rwa [hnone, if_pos rfl, List.append_nil] at hall
      · simp [freshState, hfilters.1]
      · rw [List.filter_cons_of_neg (by simpa using hparent), hfilters.2.1]
        rfl
    · obtain ⟨st,hst,hs2⟩ := mem_count_child hs
      have hold := h.state (s.1,st) hst
      have hne : q.dir ≠ s.1 := fun heq => hnew (heq ▸ Assoc.mem_keys_of_mem hst)
      refine ⟨?_,?_,?_⟩
      · rw [hs2]
        refine hold.cover.perm ?_
        have hall := hlist s.1
        rwa [if_neg hne, List.nil_append] at hall
      · rw [hs2, List.filter_cons_of_neg (by simpa using hne)]
        exact hold.pages
      · have hchildren : st.pendingChildren = _ := hold.children
        rw [hs2]
        by_cases hp : q.parent = some s.1
        · rw [List.filter_cons_of_pos (by simpa using hp), List.length_cons]
          simp [hp, hchildren]
        · rw [List.filter_cons_of_neg (by simpa using hp)]
          simp [hp, hchildren]
  case linked =>
    intro l hl
    rw [hlinks] at hl
    rw [hkeys]
    rcases List.mem_cons.mp hl with rfl | hl
    · exact (h.enqueued q List.mem_cons_self).mono fun _ _ hp => List.mem_cons_of_mem _ hp
    · exact (h.linked l hl).mono fun _ _ hp => List.mem_cons_of_mem _ hp
  case enqueued =>
    intro q' hq'
    rw [hkeys]
    exact (h.enqueued q' (List.mem_cons_of_mem _ hq')).mono fun _ _ hp => List.mem_cons_of_mem _ hp
  case items =>
    intro it hit
    rw [hkeys]
    rcases List.mem_cons.mp hit with rfl | hit
    · exact List.mem_cons_self
    · exact List.mem_cons_of_mem _ (h.items it hit)

theorem Forest.perm_states {states' : List (Text × DirState)}
    (h : Forest G root items states pending) (hp : states'.Perm states) :
    Forest G root items states' pending := by
  have hl : (links states').Perm (links states) := hp.map _
  have hk : (Assoc.keys states').Perm (Assoc.keys states) := hp.map _
  constructor
  case keys => exact hk.nodup_iff.mpr h.keys
  case state =>
    intro s hs
    have hold := h.state s (hp.mem_iff.mp hs)
    exact ⟨hold.cover.perm (holes_perm (.refl _) hl (.refl _) s.1),hold.pages,
      by rw [(hl.filter _).length_eq]; exact hold.children⟩
  case linked =>
    intro l hmem
    exact (h.linked l (hl.mem_iff.mp hmem)).mono fun _ _ hp => hk.mem_iff.mpr hp
  case enqueued =>
    intro q hq
    exact (h.enqueued q hq).mono fun _ _ hp => hk.mem_iff.mpr hp
  case items =>
    intro it hit
    exact hk.mem_iff.mpr (h.items it hit)

/-- The parent of a closed directory counts one child less. -/
def uncountChild (states : List (Text × DirState)) (parent : Option Text) :
    List (Text × DirState) :=
  parent.elim states fun p =>
    Assoc.modify states p fun st => { st with pendingChildren := decrement st.pendingChildren }

theorem uncount_child_some (states : List (Text × DirState)) (p : Text) :
    uncountChild states (some p) = Assoc.modify states p fun st =>
      { st with pendingChildren := decrement st.pendingChildren } := rfl

theorem mem_uncount_child {parent : Option Text} (hs : s ∈ uncountChild states parent) :
    ∃ st, (s.1,st) ∈ states ∧ s.2 = { st with
      pendingChildren := if parent = some s.1 then decrement st.pendingChildren
        else st.pendingChildren } := by
  cases parent with
  | none => exact ⟨s.2,hs,by simp⟩
  | some p =>
    rw [uncount_child_some] at hs
    rcases Assoc.mem_modify.mp hs with ⟨hmem,hne⟩ | ⟨st,hst,rfl⟩
    · exact ⟨s.2,hmem,by simp [hne.symm]⟩
    · exact ⟨st,hst,by simp⟩

theorem links_uncount_child (parent : Option Text) :
    links (uncountChild states parent) = links states := by
  cases parent with
  | none => rfl
  | some p =>
    rw [uncount_child_some]
    exact links_modify fun _ _ => rfl

theorem keys_uncount_child (parent : Option Text) :
    Assoc.keys (uncountChild states parent) = Assoc.keys states := by
  cases parent with
  | none => rfl
  | some p => rw [uncount_child_some, Assoc.keys_modify]

/-- What a directory without holes has collected is its subtree. -/
theorem StateOk.complete (h : StateOk G items ls pending s)
    (hnone : holes items ls pending s.1 = []) :
    ∃ f, PageFacts G [] s.2.rootPageId f ∧ ↑s.2.files = f.files ∧
      (∀ i, i ∈ s.2.pageIds ↔ i ∈ f.pages) ∧ s.2.totalEntries = f.entries := by
  have hcover := h.cover
  rw [hnone] at hcover
  obtain ⟨f,hf,hfiles,hids,htotal⟩ := hcover 0 .nil
  refine ⟨f,hf,by simp [hfiles],fun i => ?_,by simp [htotal]⟩
  rw [hids]
  simp

/-- A directory without holes is closed, and waits to be collected by its parent. -/
theorem Forest.close (h : Forest G root items states pending) {d : Text} (hst : (d,st) ∈ states)
    (hnone : holes items (links states) pending d = []) :
    Forest G root items (uncountChild (Assoc.erase states d) st.parent)
      (⟨d,st.rootPageId,st.parent,st.base⟩ :: pending) := by
  simp only [holes, List.append_eq_nil_iff, List.map_eq_nil_iff] at hnone
  obtain ⟨hitems,hlinks,hpending⟩ := hnone
  have hperm : (links states).Perm
      ((d,⟨st.parent,st.base,st.rootPageId⟩) :: links (Assoc.erase states d)) :=
    (Assoc.perm_cons_erase h.keys hst).map linkOf
  have hlist : ∀ k, (holes items (links (Assoc.erase states d))
      (⟨d,st.rootPageId,st.parent,st.base⟩ :: pending) k).Perm
        (holes items (links states) pending k) := by
    intro k
    refine (holes_cons_pending _ _ _ _ _).trans (List.Perm.symm ?_)
    exact (holes_perm (.refl _) hperm (.refl _) k).trans (holes_cons_link _ _ _ _ _)
  have hself : Linked root (Assoc.keys states) d ⟨st.parent,st.base,st.rootPageId⟩ :=
    h.linked (d,⟨st.parent,st.base,st.rootPageId⟩) (List.mem_map.mpr ⟨_,hst,rfl⟩)
  constructor
  case keys =>
    rw [keys_uncount_child]
    exact Assoc.keys_erase_nodup h.keys
  case state =>
    intro s hs
    rw [links_uncount_child]
    obtain ⟨st',hst',hs2⟩ := mem_uncount_child hs
    obtain ⟨hmem,_⟩ := Assoc.mem_erase.mp hst'
    have hold := h.state (s.1,st') hmem
    have hchildren : st'.pendingChildren = _ := hold.children
    rw [(hperm.filter _).length_eq] at hchildren
    refine ⟨?_,?_,?_⟩
    · rw [hs2]
      exact hold.cover.perm (hlist s.1)
    · rw [hs2]
      exact hold.pages
    · rw [hs2]
      by_cases hp : st.parent = some s.1
      · rw [List.filter_cons_of_pos (by simpa using hp), List.length_cons] at hchildren
        simp [hp, hchildren, decrement]
      · rw [List.filter_cons_of_neg (by simpa using hp)] at hchildren
        simp [hp, hchildren]
  case linked =>
    intro l hl
    rw [links_uncount_child] at hl
    rw [keys_uncount_child]
    have hmem : l ∈ links states := hperm.mem_iff.mpr (List.mem_cons_of_mem _ hl)
    refine (h.linked l hmem).mono fun p hp hopen => Assoc.mem_keys_erase.mpr ⟨hopen,?_⟩
    rintro rfl
    exact List.filter_eq_nil_iff.mp hlinks l hmem (by simpa using hp)
  case enqueued =>
    intro q' hq'
    rw [keys_uncount_child]
    rcases List.mem_cons.mp hq' with rfl | hrest
    · refine hself.mono fun p hp hopen => Assoc.mem_keys_erase.mpr ⟨hopen,?_⟩
      rintro rfl
      have hlen := hself.2
      rw [hp] at hlen
      exact lt_irrefl _ hlen.2.1
    · refine (h.enqueued q' hrest).mono fun p hp hopen => Assoc.mem_keys_erase.mpr ⟨hopen,?_⟩
      rintro rfl
      exact List.filter_eq_nil_iff.mp hpending q' hrest (by simpa using hp)
  case items =>
    intro it hit
    rw [keys_uncount_child]
    refine Assoc.mem_keys_erase.mpr ⟨h.items it hit,?_⟩
    intro hdir
    exact List.filter_eq_nil_iff.mp hitems it hit (by simpa using hdir)

/-- One page of an open directory is read: its entries are collected, its children are queued and
its directories wait to be enqueued. -/
theorem Forest.read {it : Item} {page : Page} {st' : DirState} {fs : List SnapshotFile}
    {qs : List Enqueue} (h : Forest G root (it :: items) states []) (hst : (it.dir,st) ∈ states)
    (hpage : G it.expected = some page)
    (hst' : st' = { st with
      pageIds := insertId st.pageIds it.expected
      files := st.files ++ fs
      totalEntries := st.totalEntries+page.entries.length
      pendingPages := st.pendingPages+page.children.length-1 })
    (hfs : (↑fs : Multiset SnapshotFile) = ((page.entries.map (entryFacts [])).sum).files)
    (hqs : qs.map enqueueNode = page.entries.flatMap (entryNodes []))
    (hparent : ∀ q ∈ qs, q.parent = some it.dir)
    (hlinked : ∀ q ∈ qs, Linked root (Assoc.keys states) q.dir ⟨q.parent,q.base,q.expected⟩) :
    Forest G root (items ++ page.children.map (childItem it))
      (Assoc.modify states it.dir fun _ => st') qs := by
  have hold := h.state (it.dir,st) hst
  have hopen := Assoc.mem_keys_of_mem hst
  have hkids : ∀ k, (page.children.map (childItem it)).filter (·.dir = k) =
      if it.dir = k then page.children.map (childItem it) else [] := by
    intro k
    by_cases hk : it.dir = k
    · rw [if_pos hk]
      refine List.filter_eq_self.mpr fun x hx => ?_
      obtain ⟨ch,_,rfl⟩ := List.mem_map.mp hx
      simp [childItem, hk]
    · rw [if_neg hk]
      refine List.filter_eq_nil_iff.mpr fun x hx => ?_
      obtain ⟨ch,_,rfl⟩ := List.mem_map.mp hx
      simp [childItem, hk]
  have hqfilter : ∀ k, qs.filter (·.parent = some k) = if it.dir = k then qs else [] := by
    intro k
    by_cases hk : it.dir = k
    · rw [if_pos hk]
      exact List.filter_eq_self.mpr fun x hx => by simpa [hparent x hx] using hk
    · rw [if_neg hk]
      exact List.filter_eq_nil_iff.mpr fun x hx => by simpa [hparent x hx] using hk
  refine h.modify hst (by rw [KeepsLink, hst']; rfl) (fun k hk => ?_) (fun k hk => ?_) ?_ hlinked ?_
  · rw [holes_cons_item, if_neg hk.symm, List.nil_append]
    simp only [holes, List.filter_append, hkids, hqfilter, if_neg hk.symm, List.append_nil,
      List.filter_nil]
  · rw [List.filter_cons_of_neg (by simpa using hk.symm), List.filter_append, hkids,
      if_neg hk.symm, List.append_nil]
  · have hcover := hold.cover
    rw [holes_cons_item, if_pos rfl, List.singleton_append] at hcover
    have hnext : Covers G (page.entries.flatMap (entryNodes []) ++
        page.children.map (fun ch => .page [] (childId ch)) ++
          holes items (links states) [] it.dir) st.rootPageId ↑st'.files st'.pageIds
        st'.totalEntries := by
      refine hcover.expand (expand_page hpage []) ?_ ?_ ?_
      · rw [hst', ← Multiset.coe_add, hfs]
        simp [pageFact]
      · intro i
        rw [hst', mem_insert_id]
        simp [pageFact, entry_facts_pages, or_comm]
      · rw [hst']
        simp [pageFact, entry_facts_entries]
    refine ⟨?_,?_,?_⟩
    · have hroot : st'.rootPageId = st.rootPageId := by rw [hst']
      change Covers G _ st'.rootPageId _ _ _
      rw [hroot]
      refine hnext.perm ?_
      simp only [holes, List.filter_append, hkids, hqfilter, if_pos, List.map_append, hqs,
        List.filter_nil, List.map_nil, List.append_nil, List.map_map]
      exact perm_regroup _ _ _ _
    · have hpages : st.pendingPages = _ := hold.pages
      rw [List.filter_cons_of_pos (by simp), List.length_cons] at hpages
      rw [hst', List.filter_append, hkids, if_pos rfl, List.length_append, List.length_map]
      simp only [hpages]
      omega
    · rw [hst']
      exact hold.children
  · intro x hx
    rcases List.mem_append.mp hx with hx | hx
    · exact h.items x (List.mem_cons_of_mem _ hx)
    · obtain ⟨ch,_,rfl⟩ := List.mem_map.mp hx
      exact hopen

end Operations

end Scorpio.OpenForest
