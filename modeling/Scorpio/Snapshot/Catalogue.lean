import Scorpio.Snapshot.AcceptedTree

/-!
# The directories of an accepted closure

The lists of an accepted closure seen directory by directory: what the entries
of a directory put into the lists, and that a listed path comes from an entry
of its parent directory.
-/

set_option autoImplicit false

namespace Scorpio.Catalogue

open ByteText PageCodec ForestSum LogicalTree ClosureValidator RadixTree WalkProof
open ClosureConstructor ClosureSoundness Relation

/-! ## Names below a path -/

theorem split_last_slash {p q n m : Text} (hn : slash ∉ n) (hm : slash ∉ m)
    (h : p ++ slash :: n = q ++ slash :: m) : p = q ∧ n = m := by
  rcases List.append_eq_append_iff.mp h with ⟨r,rfl,hr⟩ | ⟨r,rfl,hr⟩
  · cases r with
    | nil => exact ⟨(List.append_nil p).symm,(List.cons.inj hr).2⟩
    | cons a r =>
      rw [(List.cons.inj hr).2] at hn
      simp at hn
  · cases r with
    | nil => exact ⟨List.append_nil q,(List.cons.inj hr).2.symm⟩
    | cons a r =>
      rw [(List.cons.inj hr).2] at hm
      simp at hm

theorem join_of_ne_nil {p n : Text} (hp : p ≠ []) (hn : n ≠ []) :
    joinPath p n = p ++ slash :: n := by
  simp [joinPath, hp, hn]

/-- A path has one parent and one name. -/
theorem join_inj {p q n m : Text} (hn : ValidName n) (hm : ValidName m)
    (h : joinPath p n = joinPath q m) : p = q ∧ n = m := by
  by_cases hp : p = [] <;> by_cases hq : q = []
  · subst hp hq
    simpa using h
  · subst hp
    rw [join_nil_left, join_of_ne_nil hq hm.1] at h
    exact absurd (h ▸ List.mem_append_right q List.mem_cons_self) hn.2.1
  · subst hq
    rw [join_nil_left, join_of_ne_nil hp hn.1] at h
    exact absurd (h ▸ List.mem_append_right p List.mem_cons_self) hm.2.1
  · rw [join_of_ne_nil hp hn.1, join_of_ne_nil hq hm.1] at h
    exact split_last_slash hn.2.1 hm.2.1 h

/-! ## Nodes of the tree -/

section Nodes

variable {G : Graph} {start : Text}

/-- A page is a radix page of a directory of the tree, and a directory below the start is an entry
of such a page. -/
def Placed (G : Graph) (start : Text) : Node → Prop
  | .page base id => ∃ root, Reaches (expand G) (.dir [] start) (.dir base root) ∧
    Reaches (radixExpand G) root id
  | .dir path root => (path = [] ∧ root = start) ∨ ∃ base id page, ∃ e ∈ page.entries,
    Reaches (expand G) (.dir [] start) (.page base id) ∧ G id = some page ∧
      e.kind = .directory ∧ path = joinPath base e.name ∧ root = digest e.childRoot

theorem reached_placed {x : Node} (h : Reaches (expand G) (.dir [] start) x) :
    Placed G start x := by
  induction h with
  | refl => exact .inl ⟨rfl,rfl⟩
  | @tail y z hy hchild ih =>
    obtain ⟨own,kids,hx,hz⟩ := hchild
    cases y with
    | dir path root =>
      cases hx
      rw [List.mem_singleton.mp hz]
      exact ⟨root,hy,.refl⟩
    | page base id =>
      obtain ⟨page,hpage,hpair⟩ := Option.map_eq_some_iff.mp hx
      cases hpair
      rcases List.mem_append.mp hz with hz | hz
      · obtain ⟨e,he,hz⟩ := List.mem_flatMap.mp hz
        unfold entryNodes at hz
        split at hz
        · cases hz
        · rename_i hkind
          rw [List.mem_singleton.mp hz]
          exact .inr ⟨base,id,page,e,he,hy,hpage,fs_kind_none.mp hkind,rfl,rfl⟩
      · obtain ⟨ch,hch,rfl⟩ := List.mem_map.mp hz
        obtain ⟨root,hroot,hid⟩ := ih
        refine ⟨root,hroot,hid.tail ⟨(↑page.entries,{id}),page.children.map childId,?_,?_⟩⟩
        · simp [radixExpand, hpage]
        · exact List.mem_map_of_mem hch

variable {f : Facts}

theorem reached_listed (hf : TreeFacts G [] start f) {path root : Text}
    (h : Reaches (expand G) (.dir [] start) (.dir path root)) : ⟨path,root⟩ ∈ f.dirs := by
  refine (mem_sums Facts.dirsHom hf _).mpr ⟨_,List.mem_singleton.mpr rfl,_,h,_,_,rfl,?_⟩
  simp [Facts.dirsHom, dirFact]

theorem mem_entry_files {base : Text} {es : List Entry} {e : Entry} (he : e ∈ es) {kind : Text}
    (hkind : fsKind e.kind = some kind) :
    ⟨joinPath base e.name,kind,e.size,digest e.contentId⟩ ∈
      ((es.map (entryFacts base)).sum).files := by
  induction es with
  | nil => cases he
  | cons first rest ih =>
    rw [List.map_cons, List.sum_cons, Facts.add_files, Multiset.mem_add]
    rcases List.mem_cons.mp he with rfl | he
    · exact .inl (by simp [entryFacts, hkind])
    · exact .inr (ih he)

/-- An entry of a radix page of a listed directory is listed itself. -/
theorem entry_listed (hf : TreeFacts G [] start f) {d : SnapshotDirectory} (hd : d ∈ f.dirs)
    {id : Text} (hid : Reaches (radixExpand G) d.directoryRoot id) {page : Page}
    (hpage : G id = some page) {e : Entry} (he : e ∈ page.entries) :
    (∀ kind, fsKind e.kind = some kind →
      ⟨joinPath d.relPath e.name,kind,e.size,digest e.contentId⟩ ∈ f.files) ∧
    (e.kind = .directory → ⟨joinPath d.relPath e.name,digest e.childRoot⟩ ∈ f.dirs) := by
  have hnode : Reaches (expand G) (.dir [] start) (.page d.relPath id) :=
    ((directory_node hf hd).tail ⟨_,_,rfl,by simp⟩).trans (radix_reaches d.relPath hid)
  constructor
  · intro kind hkind
    refine (mem_sums Facts.filesHom hf _).mpr ⟨_,List.mem_singleton.mpr rfl,_,hnode,_,_,
      expand_page hpage d.relPath,?_⟩
    simpa [Facts.filesHom, pageFact] using mem_entry_files he hkind
  · intro hkind
    refine reached_listed hf (hnode.tail ⟨_,_,expand_page hpage d.relPath,?_⟩)
    refine List.mem_append_left _ (List.mem_flatMap.mpr ⟨e,he,?_⟩)
    simp [entryNodes, fs_kind_none.mpr hkind]

/-- A listed path below the start is the name of an entry of a listed directory. -/
theorem listed_entry (hf : TreeFacts G [] start f) {path : Text} (hne : path ≠ [])
    (h : path ∈ f.dirs.map (·.relPath) ∨ path ∈ f.files.map (·.relPath)) :
    ∃ d ∈ f.dirs, ∃ id page, ∃ e ∈ page.entries, Reaches (radixExpand G) d.directoryRoot id ∧
      G id = some page ∧ path = joinPath d.relPath e.name := by
  have howner : ∀ base id page, ∀ e ∈ page.entries,
      Reaches (expand G) (.dir [] start) (.page base id) → G id = some page →
      path = joinPath base e.name →
      ∃ d ∈ f.dirs, ∃ id page, ∃ e ∈ page.entries, Reaches (radixExpand G) d.directoryRoot id ∧
        G id = some page ∧ path = joinPath d.relPath e.name := by
    intro base id page e he hreach hpage hpath
    obtain ⟨root,hroot,hid⟩ := reached_placed hreach
    exact ⟨_,reached_listed hf hroot,id,page,e,he,hid,hpage,hpath⟩
  rcases h with h | h
  · obtain ⟨d,hd,rfl⟩ := Multiset.mem_map.mp h
    rcases reached_placed (directory_node hf hd) with ⟨hnil,_⟩ | ⟨base,id,page,e,he,hreach,hpage,_,hpath,_⟩
    · exact absurd hnil hne
    · exact howner base id page e he hreach hpage hpath
  · obtain ⟨x,hx,rfl⟩ := Multiset.mem_map.mp h
    obtain ⟨y,hy,base,id,page,hz,hpage,e,he,hpath,_⟩ := file_entry hf hx
    rw [List.mem_singleton.mp hy] at hz
    exact howner base id page e he hz hpage hpath

end Nodes

/-! ## The listing -/

def listed (closure : ValidatedSnapshotClosure) : List Text :=
  closure.directories.map (·.relPath) ++ closure.files.map (·.relPath)

/-- What the entries of a directory put into the lists. -/
structure DirectoryOf (c : Codec) (closure : ValidatedSnapshotClosure) (d : SnapshotDirectory)
    (es : List Entry) : Prop where
  encoded : Encodes c closure.pages d.directoryRoot es
  files : ∀ e ∈ es, ∀ kind, fsKind e.kind = some kind →
    ⟨joinPath d.relPath e.name,kind,e.size,digest e.contentId⟩ ∈ closure.files
  directories : ∀ e ∈ es, e.kind = .directory →
    ⟨joinPath d.relPath e.name,digest e.childRoot⟩ ∈ closure.directories
  complete : ∀ name, ValidName name → joinPath d.relPath name ∈ listed closure →
    ∃ e ∈ es, e.name = name

/-- The lists of a closure agree with its pages. -/
structure Listing (c : Codec) (closure : ValidatedSnapshotClosure) : Prop where
  root : ⟨[],closure.descriptor.metadataRoot⟩ ∈ closure.directories
  hashes : ∀ id b, closure.pages.get id = some b → digest (c.pageId b) = id
  children : ∀ id page, pageGraph c closure.pages id = some page → ∀ ch ∈ page.children,
    ∃ child, pageGraph c closure.pages (childId ch) = some child
  directory : ∀ d ∈ closure.directories, ∃ es, DirectoryOf c closure d es
  distinct : (listed closure).Nodup
  sorted : (closure.directories.map (·.relPath)).Pairwise (· < ·)
  below : ∀ p ∈ listed closure, ∀ q, q ++ [slash] <+: p →
    q ≠ [] ∧ ∃ d ∈ closure.directories, d.relPath = q
  named : ∀ p ∈ listed closure, p ≠ [] →
    ∃ d ∈ closure.directories, ∃ name, ValidName name ∧ p = joinPath d.relPath name

section Accepted

variable {c : Codec} {d : Descriptor} {pages : PageMap} {v : Validator} {f : Facts}

theorem proved_directory (R : RadixPartition c) (h : ProvedRoot c d pages v f)
    {x : SnapshotDirectory} (hx : x ∈ f.dirs) :
    ∃ es, Encodes c pages x.directoryRoot es ∧
      (∀ e, e ∈ es ↔ ∃ id page, Reaches (radixExpand (pageGraph c pages)) x.directoryRoot id ∧
        pageGraph c pages id = some page ∧ e ∈ page.entries) ∧
      ∀ e ∈ es, ValidName e.name := by
  obtain ⟨es,hes⟩ := h.done _ (directory_page_reached h.tree hx)
  obtain ⟨henc,ids,hradix,_⟩ := h.memo.proved _ es hes
  rw [h.bytes] at henc
  rw [h.decoded] at hradix
  refine ⟨es,henc,fun e => ?_,?_⟩
  · have hmem := mem_sums (AddMonoidHom.fst _ _) hradix e
    simp only [AddMonoidHom.coe_fst, Multiset.mem_coe] at hmem
    rw [hmem]
    constructor
    · rintro ⟨y,hy,id,hid,own,kids,hown,hin⟩
      obtain ⟨page,hpage,rfl,_⟩ := radix_expand_some hown
      exact ⟨id,page,List.mem_singleton.mp hy ▸ hid,hpage,hin⟩
    · rintro ⟨id,page,hid,hpage,he⟩
      refine ⟨_,List.mem_singleton.mpr rfl,id,hid,(↑page.entries,{id}),
        page.children.map childId,?_,he⟩
      simp [radixExpand, hpage]
  · obtain ⟨b,_,hbuild⟩ := henc
    exact R.names es b hbuild

theorem proved_listing (R : RadixPartition c) (h : ProvedRoot c d pages v f)
    {closure : ValidatedSnapshotClosure} (hd : closure.descriptor = d) (hpages : closure.pages = pages)
    (hdirs : closure.directories = v.directories.insertionSort fun a b => a.relPath ≤ b.relPath)
    (hfiles : closure.files = v.files.insertionSort fun a b => a.relPath ≤ b.relPath) :
    Listing c closure := by
  have hdperm : closure.directories.Perm v.directories := hdirs ▸ List.perm_insertionSort ..
  have hfperm : closure.files.Perm v.files := hfiles ▸ List.perm_insertionSort ..
  have hpaths : (listed closure).Perm (allPaths v) := (hdperm.map _).append (hfperm.map _)
  have hdir : ∀ x, x ∈ closure.directories ↔ x ∈ f.dirs := fun x => by
    rw [hdperm.mem_iff, ← h.directories, Multiset.mem_coe]
  have hfile : ∀ x, x ∈ closure.files ↔ x ∈ f.files := fun x => by
    rw [hfperm.mem_iff, ← h.files, Multiset.mem_coe]
  have hmem : ∀ p, p ∈ listed closure ↔ p ∈ v.paths := fun p =>
    (hpaths.mem_iff).trans (h.path.paths p).symm
  have hnodup : (listed closure).Nodup := hpaths.nodup_iff.mpr h.path.nodup
  obtain ⟨hdnodup,_,_⟩ := List.nodup_append.mp h.path.nodup
  subst hd hpages
  constructor
  case root =>
    rw [hdir]
    obtain ⟨g,_,rfl⟩ := tree_facts_iff.mp h.tree
    simp [dirFact]
  case hashes => exact h.hashes
  case children =>
    intro id page hpage ch hch
    obtain ⟨b,hb,_⟩ := page_graph_some hpage
    have hid := (proved_root_supplied h id).mp ⟨b,hb⟩
    rw [mem_tree_pages h.tree] at hid
    have hchild : PageReachable _ _ (childId ch) := hid.tail ⟨page,hpage,.inl ⟨ch,hch,rfl⟩⟩
    rw [← mem_tree_pages h.tree, ← h.reached] at hchild
    obtain ⟨child,hchild⟩ := h.memo.supplied _ hchild
    exact ⟨child,h.decoded ▸ hchild⟩
  case directory =>
    intro x hx
    have hx' := (hdir x).mp hx
    obtain ⟨es,henc,hes,hnames⟩ := proved_directory R h hx'
    refine ⟨es,henc,?_,?_,?_⟩
    · intro e he kind hkind
      obtain ⟨id,page,hid,hpage,hin⟩ := (hes e).mp he
      exact (hfile _).mpr ((entry_listed h.tree hx' hid hpage hin).1 kind hkind)
    · intro e he hkind
      obtain ⟨id,page,hid,hpage,hin⟩ := (hes e).mp he
      exact (hdir _).mpr ((entry_listed h.tree hx' hid hpage hin).2 hkind)
    · intro name hname hlisted
      have hsplit : joinPath x.relPath name ∈ f.dirs.map (·.relPath) ∨
          joinPath x.relPath name ∈ f.files.map (·.relPath) := by
        rcases List.mem_append.mp hlisted with hin | hin
        · obtain ⟨y,hy,heq⟩ := List.mem_map.mp hin
          exact .inl (Multiset.mem_map.mpr ⟨y,(hdir y).mp hy,heq⟩)
        · obtain ⟨y,hy,heq⟩ := List.mem_map.mp hin
          exact .inr (Multiset.mem_map.mpr ⟨y,(hfile y).mp hy,heq⟩)
      obtain ⟨y,hy,id,page,e,he,hid,hpage,heq⟩ := listed_entry h.tree (join_ne_nil hname.1) hsplit
      obtain ⟨es',_,hes',hnames'⟩ := proved_directory R h hy
      obtain ⟨hpath,hsame⟩ := join_inj hname (hnames' e ((hes' e).mpr ⟨id,page,hid,hpage,he⟩)) heq
      -- directories have distinct paths, so the entry belongs to this one
      have hxy : x = y := by
        rw [← h.directories, Multiset.mem_coe] at hx' hy
        exact List.inj_on_of_nodup_map hdnodup hx' hy hpath
      subst hxy
      exact ⟨e,(hes e).mpr ⟨id,page,hid,hpage,he⟩,hsame.symm⟩
  case distinct => exact hnodup
  case sorted =>
    rw [List.pairwise_map, hdirs]
    exact sort_by_strict (·.relPath) v.directories hdnodup
  case below =>
    intro p hp q hq
    obtain ⟨hne,x,hx,heq⟩ := slash_below_directory h.path ((hmem p).mp hp) hq
    exact ⟨hne,x,hdperm.mem_iff.mpr hx,heq⟩
  case named =>
    intro p hp hne
    obtain ⟨x,hx,name,hname,heq⟩ := h.path.parent p ((hmem p).mp hp) hne
    exact ⟨x,hdperm.mem_iff.mpr hx,name,hname,heq⟩

/-- Every accepted closure has a listing. -/
theorem accepted_listing (R : RadixPartition c) {now : ℕ → ℕ} {includeFacts : Bool}
    {maxNodes maxBytes : ℕ} {deadline : Option ℕ} {closure : ValidatedSnapshotClosure}
    {facts : List VerifiedSubtreeFacts}
    (h : validatePagesBounded c now d pages includeFacts maxNodes maxBytes deadline =
      .ok (closure,facts)) :
    closure.descriptor = d ∧ closure.pages = pages ∧ Listing c closure := by
  obtain ⟨v,f,hproved,hd,hpages,hdirs,hfiles,_,_⟩ := validate_pages_cases R h
  exact ⟨hd,hpages,proved_listing R hproved hd hpages hdirs hfiles⟩

end Accepted

end Scorpio.Catalogue
