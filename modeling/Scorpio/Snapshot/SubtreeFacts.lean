import Scorpio.Snapshot.AcceptedTree
import Scorpio.Snapshot.IncrementalInvariant

/-!
# The facts of a proved closure

`subtree_facts` summarises every directory root of a proved graph once, from
the remembered entries. The search for the radix pages of a root ends because
every call marks a new page; the recursion over directories ends because a
child has fewer entries below it than its parent. Neither runs out of its bound
and no index is missing, and each summary describes its subtree exactly.
-/

set_option autoImplicit false

namespace Scorpio.SubtreeFacts

open ByteText Fallible PageCodec ForestSum LogicalTree ClosureValidator ClosureConstructor RadixTree
open WalkProof ClosureSoundness PartialTree OpenForest IncrementalInvariant AcceptedTree

/-! ## Radix pages -/

section Search

variable {v : Validator}

/-- The children of every found page are found, except for pages still being searched. -/
def Closed (v : Validator) (ids : List Text) (open' : Finset Text) : Prop :=
  ∀ x ∈ ids, x ∉ open' → ∀ page, v.decoded x = some page → ∀ ch ∈ page.children, childId ch ∈ ids

structure Found (v : Validator) (open' : Finset Text) (ids : List Text) (id : Text)
    (ids' : List Text) : Prop where
  kept : ids ⊆ ids'
  self : id ∈ ids'
  sound : ∀ x ∈ ids', x ∈ ids ∨ Reaches (radixExpand v.decoded) id x
  closed : Closed v ids' open'

/-- A finite set of pages that has the children of its pages. -/
def Present (v : Validator) (all : Finset Text) : Prop :=
  ∀ x ∈ all, ∃ page, v.decoded x = some page ∧ ∀ ch ∈ page.children, childId ch ∈ all

theorem radix_child {id : Text} {page : Page} (hpage : v.decoded id = some page)
    {ch : BranchChild} (hch : ch ∈ page.children) :
    Child (radixExpand v.decoded) id (childId ch) := by
  unfold Child radixExpand
  rw [hpage]
  exact ⟨_,_,rfl,List.mem_map_of_mem hch⟩

theorem radix_page_ids_found {all : Finset Text} (hall : Present v all) {fuel : ℕ}
    {open' : Finset Text} {ids : List Text} {id : Text} (hid : id ∈ all)
    (hfuel : (all \ ids.toFinset).card < fuel) (hclosed : Closed v ids open') :
    ∃ ids', radixPageIds v fuel ids id = .ok ids' ∧ Found v open' ids id ids' := by
  induction fuel generalizing open' ids id with
  | zero => omega
  | succ fuel ih =>
    unfold radixPageIds
    by_cases hmem : id ∈ ids
    · rw [if_pos hmem]
      exact ⟨ids,rfl,fun _ h => h,hmem,fun x hx => .inl hx,hclosed⟩
    · rw [if_neg hmem]
      obtain ⟨page,hpage,hchildren⟩ := hall id hid
      have hroom : (all \ (id :: ids).toFinset).card < fuel := by
        have hlt : (all \ (id :: ids).toFinset).card < (all \ ids.toFinset).card := by
          refine Finset.card_lt_card (Finset.ssubset_iff_of_subset ?_ |>.mpr ⟨id,?_,?_⟩)
          · exact Finset.sdiff_subset_sdiff le_rfl (by simp)
          · simp [hid, hmem]
          · simp
        omega
      -- the page is open while its children are searched
      have hstart : Closed v (id :: ids) (insert id open') := by
        intro x hx hx' p hp ch hch
        rcases List.mem_cons.mp hx with rfl | hx
        · exact absurd (Finset.mem_insert_self ..) hx'
        · exact List.mem_cons_of_mem _
            (hclosed x hx (fun h => hx' (Finset.mem_insert_of_mem h)) p hp ch hch)
      obtain ⟨ids',hrun,⟨hkept,hfound,hsound,hclosed',_,_⟩⟩ := foldlM_total
        (fun ids (ch : BranchChild) => radixPageIds v fuel ids (childId ch))
        (fun ids' rest => id :: ids ⊆ ids' ∧ (∀ ch ∈ page.children, ch ∈ rest ∨ childId ch ∈ ids') ∧
          (∀ x ∈ ids', x ∈ id :: ids ∨ Reaches (radixExpand v.decoded) id x) ∧
          Closed v ids' (insert id open') ∧ (all \ ids'.toFinset).card < fuel ∧
          ∀ ch ∈ rest, ch ∈ page.children)
        (by
          rintro ids₁ ch rest ⟨hkept,hfound,hsound,hclosed₁,hroom₁,hrest⟩
          have hch := hrest ch List.mem_cons_self
          obtain ⟨ids₂,hrun,hnext⟩ := ih (hchildren ch hch) hroom₁ hclosed₁
          refine ⟨ids₂,hrun,fun x hx => hnext.kept (hkept hx),?_,?_,hnext.closed,?_,
            fun ch hch => hrest ch (List.mem_cons_of_mem _ hch)⟩
          · intro ch' hch'
            rcases hfound ch' hch' with h | h
            · rcases List.mem_cons.mp h with rfl | h
              · exact .inr hnext.self
              · exact .inl h
            · exact .inr (hnext.kept h)
          · intro x hx
            rcases hnext.sound x hx with h | h
            · exact hsound x h
            · exact .inr (.head (radix_child hpage hch) h)
          · refine lt_of_le_of_lt (Finset.card_le_card ?_) hroom₁
            refine Finset.sdiff_subset_sdiff le_rfl fun x hx => ?_
            exact List.mem_toFinset.mpr (hnext.kept (List.mem_toFinset.mp hx)))
        page.children
        ⟨fun _ h => h,fun _ h => .inl h,fun x hx => .inl hx,hstart,hroom,fun _ h => h⟩
      refine ⟨ids',?_,fun x hx => hkept (List.mem_cons_of_mem _ hx),hkept List.mem_cons_self,?_,?_⟩
      · rw [hpage]
        exact hrun
      · intro x hx
        rcases hsound x hx with h | h
        · rcases List.mem_cons.mp h with rfl | h
          · exact .inr .refl
          · exact .inl h
        · exact .inr h
      · intro x hx hx' p hp ch hch
        by_cases hself : x = id
        · subst hself
          rw [hpage] at hp
          cases hp
          exact (hfound ch hch).resolve_left (List.not_mem_nil)
        · refine hclosed' x hx (fun h => ?_) p hp ch hch
          exact (Finset.mem_insert.mp h).elim hself hx'

/-- From the empty set the search finds exactly the radix pages of the root. -/
theorem radix_page_ids_exact {all : Finset Text} (hall : Present v all) {root : Text}
    (hroot : root ∈ all) {es : Multiset Entry} {ids : Multiset Text}
    (hradix : RadixFacts v.decoded root es ids) {count : ℕ} (hcount : all.card ≤ count) :
    ∃ found, radixPageIds v (count+1) [] root = .ok found ∧ ∀ i, i ∈ found ↔ i ∈ ids := by
  have hroom : (all \ ([] : List Text).toFinset).card < count+1 := by
    rw [List.toFinset_nil, Finset.sdiff_empty]
    omega
  have hempty : Closed v [] ∅ := fun x hx => absurd hx List.not_mem_nil
  obtain ⟨found,hrun,h⟩ := radix_page_ids_found hall hroot hroom hempty
  refine ⟨found,hrun,fun i => ?_⟩
  have hmem : i ∈ ids ↔ Reaches (radixExpand v.decoded) root i := by
    rw [show i ∈ ids ↔ _ from mem_sums (AddMonoidHom.snd _ _) hradix i]
    constructor
    · rintro ⟨x,hx,y,hy,own,kids,hown,hin⟩
      obtain ⟨_,_,rfl,_⟩ := radix_expand_some hown
      rw [List.mem_singleton.mp hx] at hy
      rw [show i = y from Multiset.mem_singleton.mp hin]
      exact hy
    · intro hreach
      obtain ⟨_,_,hsum,_⟩ := sums_of_reaches hradix (List.mem_singleton.mpr rfl) hreach
      obtain ⟨⟨own,kids⟩,hown⟩ := sums_present hsum (List.mem_singleton.mpr rfl)
      obtain ⟨_,_,rfl,_⟩ := radix_expand_some hown
      exact ⟨root,List.mem_singleton.mpr rfl,i,hreach,_,_,hown,Multiset.mem_singleton.mpr rfl⟩
  rw [hmem]
  clear hmem
  constructor
  · intro hi
    exact (h.sound i hi).resolve_left List.not_mem_nil
  · intro hreach
    induction hreach with
    | refl => exact h.self
    | @tail x y _ hstep ih =>
      obtain ⟨own,kids,hx,hy⟩ := hstep
      obtain ⟨page,hpage,_,rfl⟩ := radix_expand_some hx
      obtain ⟨ch,hch,rfl⟩ := List.mem_map.mp hy
      exact h.closed x ih (Finset.notMem_empty x) page hpage ch hch

end Search

/-! ## Directories -/

section Directories

variable {G : Graph}

/-- Every file has a name. -/
theorem file_path_nonempty (hG : NamesValid G) {xs : List Node} {f : Facts}
    (hs : Sums (expand G) xs f) {file : SnapshotFile} (hfile : file ∈ f.files) :
    file.relPath ≠ [] := by
  obtain ⟨_,_,_,id,page,_,hpage,e,he,hpath,_⟩ := file_entry hs hfile
  rw [hpath]
  exact join_ne_nil (hG id page hpage e he).1

variable {id : Text}

theorem radix_entry_page {es : Multiset Entry} {ids : Multiset Text} (h : RadixFacts G id es ids)
    {e : Entry} (he : e ∈ es) :
    ∃ i page, Reaches (radixExpand G) id i ∧ G i = some page ∧ e ∈ page.entries := by
  obtain ⟨x,hx,y,hy,own,kids,hown,hin⟩ := (mem_sums (AddMonoidHom.fst _ _) h e).mp he
  obtain ⟨page,hpage,rfl,_⟩ := radix_expand_some hown
  rw [List.mem_singleton.mp hx] at hy
  exact ⟨y,page,hy,hpage,hin⟩

/-- The trees of the directory entries are part of a directory's tree. -/
theorem radix_dirs {es : List Entry} {ids : Multiset Text} {f : Facts}
    (hradix : RadixFacts G id ↑es ids) (hf : PageFacts G [] id f) :
    ∃ below, Sums (expand G) (es.flatMap (entryNodes [])) below ∧
      f = pagesFact ids + ((es.map (entryFacts [])).sum + below) := by
  have hkids : ∃ below, Sums (expand G) (es.flatMap (entryNodes [])) below := by
    refine sums_of_forall fun x hx => ?_
    obtain ⟨e,he,hx⟩ := List.mem_flatMap.mp hx
    obtain ⟨i,page,hreach,hpage,hin⟩ := radix_entry_page hradix he
    have hnode : Child (expand G) (.page [] i) x :=
      ⟨_,_,expand_page hpage [],List.mem_append_left _ (List.mem_flatMap.mpr ⟨e,hin,hx⟩)⟩
    obtain ⟨g,_,hg,_⟩ := sums_of_reaches hf (List.mem_singleton.mpr rfl)
      ((radix_reaches [] hreach).tail hnode)
    exact ⟨g,hg⟩
  obtain ⟨below,hbelow⟩ := hkids
  refine ⟨below,hbelow,?_⟩
  rw [← add_assoc]
  exact sums_unique hf (page_facts_of_radix [] hradix hbelow)

end Directories

/-! ## Summaries -/

/-- The summary exactly describes the subtree of its root. -/
def ValidFacts (G : Graph) (x : VerifiedSubtreeFacts) : Prop :=
  ∃ f, PageFacts G [] x.rootPageId f ∧ ↑x.files = f.files ∧ (∀ i, i ∈ x.pageIds ↔ i ∈ f.pages) ∧
    x.totalEntries = f.entries

def MemoValid (G : Graph) (memo : FactMemo) : Prop :=
  ∀ p ∈ memo, p.2.rootPageId = p.1 ∧ ValidFacts G p.2

/-- What the summaries need of the remembered entries of the pages `all`. -/
structure Summable (v : Validator) (all : Finset Text) : Prop where
  present : Present v all
  named : ∀ id page, v.decoded id = some page → ∀ e ∈ page.entries, Named e
  entries : ∀ id ∈ all, ∃ es ids, v.entries id = some es ∧ RadixFacts v.decoded id ↑es ids ∧
    ∀ e ∈ es, e.kind = .directory → digest e.childRoot ∈ all

section Summaries

variable {v : Validator} {all : Finset Text}

/-- What is still to be collected of the facts `g`, while the entries `rest` are to be met. -/
structure Collecting (v : Validator) (g : Facts) (acc : FactAccumulator) (rest : List Entry)
    (left : Facts) : Prop where
  ahead : ∃ below, Sums (expand v.decoded) (rest.flatMap (entryNodes [])) below ∧
    left = (rest.map (entryFacts [])).sum + below
  files : ↑acc.files + left.files = g.files
  pages : ∀ i, i ∈ g.pages ↔ i ∈ acc.pageIds ∨ i ∈ left.pages
  entries : acc.totalEntries + left.entries = g.entries
  memo : MemoValid v.decoded acc.memo

theorem count_entries_le {a b : ℕ} (h : a+b ≤ usizeMax) : countEntries a b = .ok (a+b) := by
  simp [countEntries, checkedAdd, h, okOr]

variable {descend : FactMemo → Text → Result (VerifiedSubtreeFacts × FactMemo)} {g left : Facts}
  {acc : FactAccumulator}

theorem fact_entry_file {e : Entry} {rest : List Entry} {kind : Text}
    (hroom : g.entries ≤ usizeMax) (hname : Named e) (hkind : fsKind e.kind = some kind)
    (h : Collecting v g acc (e :: rest) left) :
    ∃ acc', factEntry descend acc e = .ok acc' ∧ ∃ left', Collecting v g acc' rest left' := by
  obtain ⟨below,hbelow,rfl⟩ := h.ahead
  have hfact : entryFacts [] e = ⟨{⟨e.name,kind,e.size,digest e.contentId⟩},0,0,1⟩ := by
    simp [entryFacts, hkind]
  have hnodes : entryNodes [] e = [] := by simp [entryNodes, hkind]
  rw [List.flatMap_cons, hnodes, List.nil_append] at hbelow
  have hfiles := h.files
  have hpages := h.pages
  have hentries := h.entries
  rw [List.map_cons, List.sum_cons, add_assoc, hfact] at hfiles hpages hentries
  have hcount : countEntries acc.totalEntries 1 = .ok (acc.totalEntries+1) := by
    refine count_entries_le ?_
    rw [Facts.add_entries] at hentries
    dsimp only at hentries
    omega
  refine ⟨{ acc with
      files := acc.files ++ [⟨e.name,kind,e.size,digest e.contentId⟩]
      totalEntries := acc.totalEntries+1 },?_,
    (rest.map (entryFacts [])).sum + below,⟨below,hbelow,rfl⟩,?_,?_,?_,h.memo⟩
  · unfold factEntry
    rw [hcount, ok_bind, hname.1]
    simp only [hkind]
    rfl
  · rw [← hfiles, Facts.add_files, ← Multiset.coe_add, add_assoc]
    rfl
  · intro i
    rw [hpages i, Facts.add_pages, zero_add]
  · rw [← hentries, Facts.add_entries, Facts.add_entries, Facts.add_entries]
    dsimp only
    omega

/-- What the recursive call returns for the root of a smaller tree. -/
def Summarises (v : Validator) (all : Finset Text) (bound : ℕ)
    (descend : FactMemo → Text → Result (VerifiedSubtreeFacts × FactMemo)) : Prop :=
  ∀ memo root g, root ∈ all → PageFacts v.decoded [] root g → g.entries < bound →
    g.entries ≤ usizeMax → MemoValid v.decoded memo →
    ∃ x memo', descend memo root = .ok (x,memo') ∧ MemoValid v.decoded memo' ∧
      x.rootPageId = root ∧ ValidFacts v.decoded x

theorem fact_entry_directory {bound : ℕ} (hdescend : Summarises v all bound descend)
    (hG : NamesValid v.decoded) {e : Entry} {rest : List Entry} (hroom : g.entries ≤ usizeMax)
    (hbound : g.entries < bound+1) (hname : Named e) (hkind : fsKind e.kind = none)
    (hroot : digest e.childRoot ∈ all) (h : Collecting v g acc (e :: rest) left) :
    ∃ acc', factEntry descend acc e = .ok acc' ∧ ∃ left', Collecting v g acc' rest left' := by
  obtain ⟨below,hbelow,rfl⟩ := h.ahead
  have hfact : entryFacts [] e = ⟨0,0,0,1⟩ := by simp [entryFacts, hkind]
  have hnodes : entryNodes [] e = [.dir e.name (digest e.childRoot)] := by
    simp [entryNodes, hkind]
  rw [List.flatMap_cons, hnodes] at hbelow
  obtain ⟨fdir,frest,hdir,hrest,rfl⟩ := sums_append_cases hbelow
  obtain ⟨fpage,hpage,rfl⟩ := tree_facts_iff.mp hdir
  obtain ⟨child,hchild,rfl⟩ := page_facts_at_root hpage
  have hfiles := h.files
  have hpages := h.pages
  have hentries := h.entries
  simp only [List.map_cons, List.sum_cons, hfact, Facts.add_files, Facts.add_pages,
    Facts.add_entries, dirFact, Facts.relocate_pages, Facts.relocate_entries, zero_add]
    at hfiles hpages hentries
  obtain ⟨x,memo,hrun,hmemo,hx,fx,hfx,hxfiles,hxpages,hxentries⟩ :=
    hdescend acc.memo _ child hroot hchild (by omega) (by omega) h.memo
  rw [hx] at hfx
  obtain rfl := sums_unique hfx hchild
  have hcount : countEntries acc.totalEntries 1 = .ok (acc.totalEntries+1) :=
    count_entries_le (by omega)
  have htotal : countEntries (acc.totalEntries+1) x.totalEntries =
      .ok (acc.totalEntries+1+x.totalEntries) := count_entries_le (by omega)
  have hmoved : (↑(x.files.map fun file =>
      { file with relPath := e.name ++ slash :: file.relPath }) : Multiset SnapshotFile) =
        (Facts.relocate e.name fx).files := by
    rw [Facts.relocate_files, ← hxfiles, Multiset.map_coe]
    congr 1
    refine List.map_congr_left fun file hfile => ?_
    have hne : file.relPath ≠ [] := file_path_nonempty hG hchild (hxfiles ▸ hfile)
    rw [joinPath, if_neg hname.2.1, if_neg hne]
  refine ⟨⟨extendIds acc.pageIds x.pageIds,acc.files ++ x.files.map fun file =>
      { file with relPath := e.name ++ slash :: file.relPath },
      acc.totalEntries+1+x.totalEntries,memo⟩,?_,
    (rest.map (entryFacts [])).sum + frest,⟨frest,hrest,rfl⟩,?_,?_,?_,hmemo⟩
  · unfold factEntry
    rw [hcount, ok_bind, hname.1]
    simp only [okOr, Option.elim_some, ok_bind, hkind]
    rw [hrun, ok_bind]
    dsimp only
    rw [htotal, ok_bind]
    rfl
  · rw [← hfiles, ← Multiset.coe_add, hmoved, Facts.add_files]
    abel
  · intro i
    rw [hpages i, mem_extend_ids, hxpages, Facts.add_pages]
    simp only [Multiset.mem_add]
    tauto
  · rw [Facts.add_entries]
    dsimp only
    omega

theorem fact_entries_ok {bound : ℕ} (hdescend : Summarises v all bound descend)
    (hG : NamesValid v.decoded) (hroom : g.entries ≤ usizeMax) (hbound : g.entries < bound+1)
    {es : List Entry} (hnamed : ∀ e ∈ es, Named e)
    (hroots : ∀ e ∈ es, e.kind = .directory → digest e.childRoot ∈ all)
    (h : Collecting v g acc es left) :
    ∃ acc', es.foldlM (factEntry descend) acc = .ok acc' ∧ ↑acc'.files = g.files ∧
      (∀ i, i ∈ acc'.pageIds ↔ i ∈ g.pages) ∧ acc'.totalEntries = g.entries ∧
      MemoValid v.decoded acc'.memo := by
  obtain ⟨acc',hrun,⟨left',hend⟩,_⟩ := foldlM_total (factEntry descend)
    (fun acc rest => (∃ left, Collecting v g acc rest left) ∧ ∀ e ∈ rest, e ∈ es)
    (by
      rintro acc e rest ⟨⟨left,h⟩,hrest⟩
      have he := hrest e List.mem_cons_self
      have htail : ∀ x ∈ rest, x ∈ es := fun x hx => hrest x (List.mem_cons_of_mem _ hx)
      cases hkind : fsKind e.kind with
      | some kind =>
        obtain ⟨acc',hrun,h'⟩ := fact_entry_file hroom (hnamed e he) hkind h
        exact ⟨acc',hrun,h',htail⟩
      | none =>
        obtain ⟨acc',hrun,h'⟩ := fact_entry_directory hdescend hG hroom hbound (hnamed e he) hkind
          (hroots e he (fs_kind_none.mp hkind)) h
        exact ⟨acc',hrun,h',htail⟩)
    es ⟨⟨left,h⟩,fun _ h => h⟩
  obtain ⟨below,hbelow,rfl⟩ := hend.ahead
  obtain rfl := sums_nil_iff.mp hbelow
  refine ⟨acc',hrun,?_,?_,?_,hend.memo⟩
  · simpa using hend.files
  · intro i
    simpa using (hend.pages i).symm
  · simpa using hend.entries

theorem subtree_facts_ok (hs : Summable v all) {count : ℕ} (hcount : all.card ≤ count)
    (fuel : ℕ) : Summarises v all fuel (subtreeFacts v count fuel) := by
  have hG : NamesValid v.decoded := fun id page hpage e he => (hs.named id page hpage e he).2
  induction fuel with
  | zero =>
    intro memo root g _ _ hlt
    omega
  | succ fuel ih =>
    intro memo root g hroot hg hbound hroom hmemo
    unfold subtreeFacts
    cases hlook : memo.lookup root with
    | some x =>
      obtain ⟨hx,hvalid⟩ := hmemo _ (Assoc.mem_of_lookup hlook)
      exact ⟨x,memo,rfl,hmemo,hx,hvalid⟩
    | none =>
      obtain ⟨es,ids,hes,hradix,hroots⟩ := hs.entries root hroot
      obtain ⟨found,hfound,hmem⟩ := radix_page_ids_exact hs.present hroot hradix hcount
      obtain ⟨below,hbelow,hsum⟩ := radix_dirs hradix hg
      have hnamed : ∀ e ∈ es, Named e := by
        intro e he
        obtain ⟨i,page,_,hpage,hin⟩ := radix_entry_page hradix he
        exact hs.named i page hpage e hin
      have hstart : Collecting v g ⟨found,[],0,memo⟩ es ((es.map (entryFacts [])).sum + below) := by
        refine ⟨⟨below,hbelow,rfl⟩,?_,?_,?_,hmemo⟩
        · simp [hsum, pagesFact]
        · intro i
          rw [hsum, Facts.add_pages, Multiset.mem_add]
          exact or_congr_left (hmem i).symm
        · simp [hsum, pagesFact]
      obtain ⟨acc,hrun,hfiles,hpages,hentries,hmemo'⟩ :=
        fact_entries_ok ih hG hroom hbound hnamed hroots hstart
      have hvalid : ValidFacts v.decoded
          ⟨root,sortIds acc.pageIds,sortFiles acc.files,acc.totalEntries⟩ := by
        refine ⟨g,hg,?_,fun i => mem_sort_ids.trans (hpages i),hentries⟩
        rw [← hfiles]
        exact Multiset.coe_eq_coe.mpr (List.perm_insertionSort ..)
      refine ⟨_,(root,⟨root,sortIds acc.pageIds,sortFiles acc.files,acc.totalEntries⟩) :: acc.memo,
        ?_,?_,rfl,hvalid⟩
      · dsimp only
        rw [hfound, ok_bind, hes, show okOr (some es) indexPanic = .ok es from rfl, ok_bind, hrun,
          ok_bind]
        rfl
      · intro p hp
        rcases List.mem_cons.mp hp with rfl | hp
        · exact ⟨rfl,hvalid⟩
        · exact hmemo' p hp

end Summaries

/-! ## A proved root -/

section Proved

variable {c : Codec} {d : Descriptor} {pages : PageMap} {v : Validator} {f : Facts}

theorem proved_root_summable (h : ProvedRoot c d pages v f) : Summable v f.pages.toFinset := by
  have hlinked : ∀ {x y : Text}, x ∈ f.pages → PageLink v.decoded x y → y ∈ f.pages := by
    intro x y hx hlink
    rw [h.decoded] at hlink
    rw [mem_tree_pages h.tree] at hx ⊢
    exact hx.tail hlink
  refine ⟨?_,?_,?_⟩
  · intro x hx
    have hx := Multiset.mem_toFinset.mp hx
    obtain ⟨page,hpage⟩ := h.memo.supplied x ((h.reached x).mpr hx)
    refine ⟨page,hpage,fun ch hch => Multiset.mem_toFinset.mpr (hlinked hx ?_)⟩
    exact ⟨page,hpage,.inl ⟨ch,hch,rfl⟩⟩
  · intro id page hpage
    rw [h.decoded] at hpage
    obtain ⟨b,hb,_⟩ := page_graph_some hpage
    exact h.named id ((proved_root_supplied h id).mp ⟨b,hb⟩) page hpage
  · intro id hid
    have hid := Multiset.mem_toFinset.mp hid
    obtain ⟨es,hes⟩ := h.done id hid
    obtain ⟨ids,hradix,_⟩ := (h.memo.proved id es hes).radix
    refine ⟨es,ids,hes,hradix,fun e he hdir => Multiset.mem_toFinset.mpr ?_⟩
    obtain ⟨i,page,hreach,hpage,hin⟩ := radix_entry_page hradix he
    have hi : i ∈ f.pages := by
      rw [mem_tree_pages h.tree] at hid ⊢
      rw [← h.decoded] at hid ⊢
      exact hid.trans (reachable_of_reaches (radix_reaches [] hreach))
    exact hlinked hi ⟨page,hpage,.inr ⟨e,hin,hdir,rfl⟩⟩

/-- The tree of a listed directory is part of the whole tree. -/
theorem directory_facts {G : Graph} {path root : Text} (hf : TreeFacts G path root f)
    {x : SnapshotDirectory} (hx : x ∈ f.dirs) :
    ∃ g, PageFacts G [] x.directoryRoot g ∧ g.entries ≤ f.entries := by
  obtain ⟨part,rest,hpart,rfl⟩ :=
    sums_of_reaches hf (List.mem_singleton.mpr rfl) (directory_node hf hx)
  obtain ⟨below,hbelow,rfl⟩ := tree_facts_iff.mp hpart
  obtain ⟨g,hg,rfl⟩ := page_facts_at_root hbelow
  refine ⟨g,hg,?_⟩
  simp only [Facts.add_entries, dirFact, Facts.relocate_entries]
  omega

theorem all_facts_ok {all : Finset Text} (hs : Summable v all) {count fuel : ℕ}
    (hcount : all.card ≤ count) {roots : List Text} (hroots : ∀ root ∈ roots, root ∈ all ∧
      ∃ g, PageFacts v.decoded [] root g ∧ g.entries < fuel ∧ g.entries ≤ usizeMax) :
    ∃ facts, allFacts v count fuel roots = .ok facts ∧ ∀ x ∈ facts, ValidFacts v.decoded x := by
  obtain ⟨memo,hrun,hmemo,_⟩ := foldlM_total
    (fun memo root => subtreeFacts v count fuel memo root >>= fun r => pure r.2)
    (fun memo rest => MemoValid v.decoded memo ∧ ∀ root ∈ rest, root ∈ roots)
    (by
      rintro memo root rest ⟨hmemo,hrest⟩
      obtain ⟨hall,g,hg,hbound,hroom⟩ := hroots root (hrest root List.mem_cons_self)
      obtain ⟨x,memo',hx,hmemo',_⟩ :=
        subtree_facts_ok hs hcount fuel memo root g hall hg hbound hroom hmemo
      refine ⟨memo',?_,hmemo',fun r hr => hrest r (List.mem_cons_of_mem _ hr)⟩
      rw [hx, ok_bind]
      rfl)
    roots ⟨show MemoValid v.decoded [] from fun p hp => absurd hp List.not_mem_nil,fun _ h => h⟩
  refine ⟨_,bind_ok.mpr ⟨memo,hrun,rfl⟩,fun x hx => ?_⟩
  obtain ⟨p,hp,rfl⟩ := List.mem_map.mp ((List.mem_insertionSort _).mp hx)
  exact (hmemo p hp).2

/-- The facts of a proved closure are computed, and each describes its subtree. -/
theorem closure_facts_ok (h : ProvedRoot c d pages v f) (hroom : f.entries ≤ usizeMax)
    {directories : List SnapshotDirectory} {files : List SnapshotFile}
    (hdirs : directories.Perm v.directories) (hfiles : files.Perm v.files) (includeFacts : Bool) :
    ∃ facts, closureFacts v includeFacts pages.rows.length directories files = .ok facts ∧
      ∀ x ∈ facts, ValidFacts (pageGraph c pages) x := by
  unfold closureFacts
  cases includeFacts with
  | false => exact ⟨[],rfl,fun x hx => absurd hx List.not_mem_nil⟩
  | true =>
    rw [if_pos rfl]
    have hcard : f.pages.toFinset.card ≤ pages.rows.length := by
      rw [← h.complete]
      exact Finset.card_le_card fun i hi => (h.reached i).mpr (Multiset.mem_toFinset.mp hi)
    have hcount := count_entries h.tree
    have hlengths : directories.length = f.dirs.card ∧ files.length = f.files.card := by
      rw [← h.directories, ← h.files, Multiset.coe_card, Multiset.coe_card]
      exact ⟨hdirs.length_eq,hfiles.length_eq⟩
    rw [← h.decoded]
    refine all_facts_ok (proved_root_summable h) hcard fun root hroot => ?_
    obtain ⟨x,hx,rfl⟩ := List.mem_map.mp (List.mem_dedup.mp (mem_sort_ids.mp hroot))
    have hx : x ∈ f.dirs := by
      rw [← h.directories]
      exact hdirs.mem_iff.mp hx
    obtain ⟨g,hg,hle⟩ := directory_facts h.tree hx
    refine ⟨Multiset.mem_toFinset.mpr (directory_page_reached h.tree hx),g,h.decoded ▸ hg,?_,?_⟩
    · omega
    · omega

end Proved

end Scorpio.SubtreeFacts
