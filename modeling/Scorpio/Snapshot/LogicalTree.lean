import Scorpio.Base.ForestSum
import Scorpio.Snapshot.PageCodec

/-!
# The logical tree of a page graph

What a metadata root means. A page graph maps page ids to decoded pages. From a
directory root one unfolds its radix pages, and from the directory entries of
those pages the child directories. The files, the directories, the pages and
the number of entries met on the way are the facts of the tree, and they are
collected as a forest sum, so sharing between pages does not matter.
-/

set_option autoImplicit false

namespace Scorpio.LogicalTree

open ByteText PageCodec ForestSum Relation

structure SnapshotFile where
  relPath : Text
  fsKind : Text
  size : ℕ
  contentDigest : Text
  deriving DecidableEq, Repr

structure SnapshotDirectory where
  relPath : Text
  directoryRoot : Text
  deriving DecidableEq, Repr

/-- The `fs_kind` text of a file entry; a directory has none. -/
def fsKind : EntryKind → Option Text
  | .regular => some "regular"
  | .executable => some "executable"
  | .symlink => some "symlink"
  | .directory => none

theorem fs_kind_none {k : EntryKind} : fsKind k = none ↔ k = .directory := by
  cases k <;> simp [fsKind]

/-! ## Relative paths -/

def joinPath (base rest : Text) : Text :=
  if base = [] then rest else if rest = [] then base else base ++ slash :: rest

@[simp] theorem join_nil_left (p : Text) : joinPath [] p = p := by simp [joinPath]

@[simp] theorem join_nil_right (p : Text) : joinPath p [] = p := by
  by_cases hp : p = [] <;> simp [joinPath, hp]

variable {p id path root : Text}

theorem join_ne_nil {q : Text} (hq : q ≠ []) : joinPath p q ≠ [] := by
  by_cases hp : p = [] <;> simp [joinPath, hp, hq]

theorem join_assoc (p q r : Text) : joinPath (joinPath p q) r = joinPath p (joinPath q r) := by
  by_cases hp : p = []
  · simp [hp]
  by_cases hq : q = []
  · simp [hq]
  by_cases hr : r = []
  · simp [hr]
  simp [joinPath, hp, hq, hr]

theorem join_length_lt {q : Text} (hq : q ≠ []) : p.length < (joinPath p q).length := by
  have hpos := List.length_pos_of_ne_nil hq
  by_cases hp : p = []
  · simpa [joinPath, hp] using hpos
  · simp only [joinPath, hp, hq, if_false, List.length_append, List.length_cons]
    omega

/-! ## Facts -/

@[ext] structure Facts where
  files : Multiset SnapshotFile
  dirs : Multiset SnapshotDirectory
  pages : Multiset Text
  entries : ℕ

namespace Facts

instance : Zero Facts := ⟨⟨0,0,0,0⟩⟩

instance : Add Facts :=
  ⟨fun a b => ⟨a.files + b.files,a.dirs + b.dirs,a.pages + b.pages,a.entries + b.entries⟩⟩

@[simp] theorem zero_files : (0 : Facts).files = 0 := rfl
@[simp] theorem zero_dirs : (0 : Facts).dirs = 0 := rfl
@[simp] theorem zero_pages : (0 : Facts).pages = 0 := rfl
@[simp] theorem zero_entries : (0 : Facts).entries = 0 := rfl
@[simp] theorem add_files (a b : Facts) : (a + b).files = a.files + b.files := rfl
@[simp] theorem add_dirs (a b : Facts) : (a + b).dirs = a.dirs + b.dirs := rfl
@[simp] theorem add_pages (a b : Facts) : (a + b).pages = a.pages + b.pages := rfl
@[simp] theorem add_entries (a b : Facts) : (a + b).entries = a.entries + b.entries := rfl

instance : AddCommMonoid Facts where
  add_assoc a b c := Facts.ext (add_assoc _ _ _) (add_assoc _ _ _) (add_assoc _ _ _)
    (add_assoc _ _ _)
  zero_add a := Facts.ext (zero_add _) (zero_add _) (zero_add _) (zero_add _)
  add_zero a := Facts.ext (add_zero _) (add_zero _) (add_zero _) (add_zero _)
  add_comm a b := Facts.ext (add_comm _ _) (add_comm _ _) (add_comm _ _) (add_comm _ _)
  nsmul := nsmulRec

def filesHom : Facts →+ Multiset SnapshotFile where
  toFun := files
  map_zero' := rfl
  map_add' _ _ := rfl

def pagesHom : Facts →+ Multiset Text where
  toFun := pages
  map_zero' := rfl
  map_add' _ _ := rfl

def dirsHom : Facts →+ Multiset SnapshotDirectory where
  toFun := dirs
  map_zero' := rfl
  map_add' _ _ := rfl

/-- The same facts with every path below `base`. -/
def relocate (base : Text) : Facts →+ Facts where
  toFun f := ⟨f.files.map fun x => { x with relPath := joinPath base x.relPath },
    f.dirs.map fun x => { x with relPath := joinPath base x.relPath },f.pages,f.entries⟩
  map_zero' := by ext <;> simp
  map_add' a b := by ext <;> simp

@[simp] theorem relocate_files (base : Text) (f : Facts) : (relocate base f).files =
    f.files.map fun x => { x with relPath := joinPath base x.relPath } := rfl
@[simp] theorem relocate_pages (base : Text) (f : Facts) : (relocate base f).pages = f.pages := rfl
@[simp] theorem relocate_entries (base : Text) (f : Facts) :
    (relocate base f).entries = f.entries := rfl

end Facts

/-! ## Unfolding -/

abbrev Graph := Text → Option Page

inductive Node where
  | page (base id : Text)
  | dir (path root : Text)

def entryFacts (base : Text) (e : Entry) : Facts :=
  match fsKind e.kind with
  | some kind => ⟨{⟨joinPath base e.name,kind,e.size,digest e.contentId⟩},0,0,1⟩
  | none => ⟨0,0,0,1⟩

def entryNodes (base : Text) (e : Entry) : List Node :=
  match fsKind e.kind with
  | some _ => []
  | none => [.dir (joinPath base e.name) (digest e.childRoot)]

def pageFact (id : Text) : Facts := ⟨0,0,{id},0⟩

def dirFact (path root : Text) : Facts := ⟨0,{⟨path,root⟩},0,0⟩

def childId (ch : BranchChild) : Text := digest ch.childPageId

def expand (G : Graph) : Node → Option (Facts × List Node)
  | .page base id => (G id).map fun page =>
    (pageFact id + (page.entries.map (entryFacts base)).sum,
      page.entries.flatMap (entryNodes base) ++ page.children.map fun ch => .page base (childId ch))
  | .dir path root => some (dirFact path root,[.page path root])

variable {G : Graph} {f : Facts}

theorem expand_page {page : Page} (hpage : G id = some page) (base : Text) :
    expand G (.page base id) =
      some (pageFact id + (page.entries.map (entryFacts base)).sum,
        page.entries.flatMap (entryNodes base) ++
          page.children.map fun ch => .page base (childId ch)) := by
  simp only [expand, hpage, Option.map_some]

/-- The unfolded tree of a directory root is finite, no page of it is missing, and `f` are its
facts with paths below `path`. -/
def TreeFacts (G : Graph) (path root : Text) (f : Facts) : Prop :=
  Sums (expand G) [.dir path root] f

/-- The same for the radix pages below one page of the directory at `base`. -/
def PageFacts (G : Graph) (base id : Text) (f : Facts) : Prop :=
  Sums (expand G) [.page base id] f

theorem tree_facts_iff :
    TreeFacts G path root f ↔ ∃ g, PageFacts G path root g ∧ f = dirFact path root + g := by
  constructor
  · intro hf
    obtain ⟨own,kids,g,hx,hg,rfl⟩ := sums_single_cases hf
    cases hx
    exact ⟨g,hg,rfl⟩
  · rintro ⟨g,hg,rfl⟩
    exact sums_single rfl hg

/-- Every page of `G` is a page of `W`. -/
def SubGraph (G W : Graph) : Prop := ∀ id page, G id = some page → W id = some page

theorem SubGraph.sums {W : Graph} (h : SubGraph G W) {xs : List Node} (hs : Sums (expand G) xs f) :
    Sums (expand W) xs f := by
  refine sums_mono (fun x v hx => ?_) hs
  cases x with
  | dir path root => exact hx
  | page base id =>
    obtain ⟨page,hpage,hpair⟩ := Option.map_eq_some_iff.mp hx
    rw [expand_page (h id page hpage)]
    exact congrArg some hpair

def Node.relocate (base : Text) : Node → Node
  | .page p id => .page (joinPath base p) id
  | .dir p root => .dir (joinPath base p) root

theorem relocate_entry_facts (base p : Text) (e : Entry) :
    Facts.relocate base (entryFacts p e) = entryFacts (joinPath base p) e := by
  cases h : fsKind e.kind <;> ext <;> simp [entryFacts, h, Facts.relocate, join_assoc]

theorem relocate_entry_nodes (base p : Text) (e : Entry) :
    (entryNodes p e).map (Node.relocate base) = entryNodes (joinPath base p) e := by
  cases h : fsKind e.kind <;> simp [entryNodes, h, Node.relocate, join_assoc]

theorem expand_relocate (G : Graph) (base : Text) (x : Node) (own : Facts) (kids : List Node)
    (hx : expand G x = some (own,kids)) :
    expand G (x.relocate base) = some (Facts.relocate base own,kids.map (Node.relocate base)) := by
  cases x with
  | dir p root =>
    cases hx
    simp [expand, Node.relocate, Facts.relocate, dirFact]
  | page p id =>
    obtain ⟨page,hpage,hown⟩ := Option.map_eq_some_iff.mp hx
    cases hown
    simp only [Node.relocate, expand_page hpage, Option.some.injEq, Prod.mk.injEq]
    constructor
    · rw [map_add, map_list_sum, List.map_map]
      congr 2
      exact List.map_congr_left fun e _ => (relocate_entry_facts base p e).symm
    · rw [List.map_append, List.map_flatMap, List.map_map]
      congr 1
      exact List.flatMap_congr fun e _ => (relocate_entry_nodes base p e).symm

/-- The tree below a directory does not depend on where the directory is mounted. -/
theorem page_facts_relocate (base : Text) (hf : PageFacts G p id f) :
    PageFacts G (joinPath base p) id (Facts.relocate base f) :=
  sums_map (Node.relocate base) (Facts.relocate base) (expand_relocate G base) hf

/-- Nodes with the same root page. -/
inductive SameRoot : Node → Node → Prop
  | page (p q id : Text) : SameRoot (.page p id) (.page q id)
  | dir (p q root : Text) : SameRoot (.dir p root) (.dir q root)

theorem same_root_entries (p q : Text) (es : List Entry) :
    List.Forall₂ SameRoot (es.flatMap (entryNodes p)) (es.flatMap (entryNodes q)) := by
  induction es with
  | nil => exact .nil
  | cons e es ih =>
    rw [List.flatMap_cons, List.flatMap_cons]
    cases h : fsKind e.kind with
    | some kind => simpa [entryNodes, h] using ih
    | none => simpa [entryNodes, h] using ⟨.dir _ _ _,ih⟩

/-- A tree that is finite at one place is finite at the root. -/
theorem page_facts_at_root (hf : PageFacts G p id f) :
    ∃ g, PageFacts G [] id g ∧ f = Facts.relocate p g := by
  have hshape : ∀ x y own kids, SameRoot x y → expand G x = some (own,kids) →
      ∃ own' kids', expand G y = some (own',kids') ∧ List.Forall₂ SameRoot kids kids' := by
    rintro x y own kids hxy hx
    cases hxy with
    | dir p q root =>
      cases hx
      exact ⟨_,_,rfl,.cons (.page _ _ _) .nil⟩
    | page p q id =>
      obtain ⟨page,hpage,hpair⟩ := Option.map_eq_some_iff.mp hx
      cases hpair
      refine ⟨_,_,expand_page hpage q,List.rel_append (same_root_entries p q _) ?_⟩
      rw [List.forall₂_map_left_iff, List.forall₂_map_right_iff, List.forall₂_same]
      exact fun ch _ => .page _ _ _
  obtain ⟨g,hg⟩ := sums_of_shape hshape hf (.cons (.page p [] id) .nil)
  refine ⟨g,hg,sums_unique hf ?_⟩
  have hmoved := page_facts_relocate p hg
  rwa [join_nil_right] at hmoved

/-! ## Reachable pages -/

/-- A page refers to its radix children and to the roots of its directory entries. -/
def PageLink (G : Graph) (a b : Text) : Prop :=
  ∃ page, G a = some page ∧ ((∃ ch ∈ page.children, b = childId ch) ∨
    ∃ e ∈ page.entries, e.kind = .directory ∧ b = digest e.childRoot)

def PageReachable (G : Graph) : Text → Text → Prop := ReflTransGen (PageLink G)

def Node.target : Node → Text
  | .page _ id => id
  | .dir _ root => root

theorem link_of_child {x y : Node} (h : Child (expand G) x y) :
    x.target = y.target ∨ PageLink G x.target y.target := by
  obtain ⟨own,kids,hx,hy⟩ := h
  cases x with
  | dir path root =>
    cases hx
    simp only [List.mem_singleton] at hy
    exact .inl (hy ▸ rfl)
  | page base id =>
    right
    obtain ⟨page,hpage,hown⟩ := Option.map_eq_some_iff.mp hx
    cases hown
    refine ⟨page,hpage,?_⟩
    rcases List.mem_append.mp hy with he | hc
    · obtain ⟨e,he,hnode⟩ := List.mem_flatMap.mp he
      unfold entryNodes at hnode
      split at hnode
      · simp at hnode
      · rename_i hk
        simp only [List.mem_singleton] at hnode
        exact .inr ⟨e,he,fs_kind_none.mp hk,hnode ▸ rfl⟩
    · obtain ⟨ch,hch,rfl⟩ := List.mem_map.mp hc
      exact .inl ⟨ch,hch,rfl⟩

theorem reachable_of_reaches {x y : Node} (h : Reaches (expand G) x y) :
    PageReachable G x.target y.target := by
  induction h with
  | refl => exact .refl
  | tail _ hstep ih =>
    rcases link_of_child hstep with heq | hlink
    · exact heq ▸ ih
    · exact ih.tail hlink

theorem reaches_of_reachable (base : Text) (h : PageReachable G root id) :
    ∃ b, Reaches (expand G) (.page base root) (.page b id) := by
  induction h with
  | refl => exact ⟨base,.refl⟩
  | @tail a b _ hlink ih =>
    obtain ⟨p,hp⟩ := ih
    obtain ⟨page,hpage,hkind⟩ := hlink
    have hexp := expand_page hpage p
    rcases hkind with ⟨ch,hch,rfl⟩ | ⟨e,he,hdir,rfl⟩
    · refine ⟨p,hp.tail ⟨_,_,hexp,List.mem_append_right _ ?_⟩⟩
      exact List.mem_map.mpr ⟨ch,hch,rfl⟩
    · have hdirNode : Child (expand G) (.page p a)
          (.dir (joinPath p e.name) (digest e.childRoot)) := by
        refine ⟨_,_,hexp,List.mem_append_left _ (List.mem_flatMap.mpr ⟨e,he,?_⟩)⟩
        simp [entryNodes, fs_kind_none.mpr hdir]
      exact ⟨joinPath p e.name,(hp.tail hdirNode).tail ⟨_,_,rfl,by simp⟩⟩

theorem entry_facts_pages (base : Text) (es : List Entry) :
    ((es.map (entryFacts base)).sum).pages = 0 := by
  induction es with
  | nil => rfl
  | cons e es ih =>
    rw [List.map_cons, List.sum_cons, Facts.add_pages, ih, add_zero]
    cases h : fsKind e.kind <;> simp [entryFacts, h]

theorem entry_facts_dirs (base : Text) (es : List Entry) :
    ((es.map (entryFacts base)).sum).dirs = 0 := by
  induction es with
  | nil => rfl
  | cons e es ih =>
    rw [List.map_cons, List.sum_cons, Facts.add_dirs, ih, add_zero]
    cases h : fsKind e.kind <;> simp [entryFacts, h]

theorem entry_facts_entries (base : Text) (es : List Entry) :
    ((es.map (entryFacts base)).sum).entries = es.length := by
  induction es with
  | nil => rfl
  | cons e es ih =>
    rw [List.map_cons, List.sum_cons, Facts.add_entries, ih, List.length_cons, add_comm]
    cases h : fsKind e.kind <;> simp [entryFacts, h]

theorem entry_files_mem {base : Text} {es : List Entry} {file : SnapshotFile}
    (h : file ∈ (pageFact id + (es.map (entryFacts base)).sum).files) :
    ∃ e ∈ es, file.relPath = joinPath base e.name ∧ fsKind e.kind = some file.fsKind ∧
      file.contentDigest = digest e.contentId := by
  rw [Facts.add_files, pageFact, zero_add] at h
  induction es with
  | nil => simp at h
  | cons e es ih =>
    rw [List.map_cons, List.sum_cons, Facts.add_files, Multiset.mem_add] at h
    rcases h with h | h
    · refine ⟨e,List.mem_cons_self,?_⟩
      cases hk : fsKind e.kind with
      | none => simp [entryFacts, hk] at h
      | some kind =>
        simp only [entryFacts, hk, Multiset.mem_singleton] at h
        subst h
        exact ⟨rfl,rfl,rfl⟩
    · obtain ⟨e',he',hfile⟩ := ih h
      exact ⟨e',List.mem_cons_of_mem _ he',hfile⟩

/-- Every listed file is an entry of a page of the tree. -/
theorem file_entry {xs : List Node} (hs : Sums (expand G) xs f) {file : SnapshotFile}
    (hfile : file ∈ f.files) :
    ∃ x ∈ xs, ∃ base id page, Reaches (expand G) x (.page base id) ∧ G id = some page ∧
      ∃ e ∈ page.entries, file.relPath = joinPath base e.name ∧
        fsKind e.kind = some file.fsKind ∧ file.contentDigest = digest e.contentId := by
  obtain ⟨x,hx,y,hy,own,kids,hown,hin⟩ := (mem_sums Facts.filesHom hs file).mp hfile
  cases y with
  | dir p r =>
    cases hown
    simp [Facts.filesHom, dirFact] at hin
  | page base id =>
    obtain ⟨page,hpage,hpair⟩ := Option.map_eq_some_iff.mp hown
    cases hpair
    exact ⟨x,hx,base,id,page,hy,hpage,entry_files_mem hin⟩

/-- Every listed directory is a node of the tree. -/
theorem directory_node (hf : TreeFacts G path root f) {x : SnapshotDirectory} (hx : x ∈ f.dirs) :
    Reaches (expand G) (.dir path root) (.dir x.relPath x.directoryRoot) := by
  obtain ⟨y,hy,z,hz,own,kids,hown,hin⟩ := (mem_sums Facts.dirsHom hf x).mp hx
  rw [List.mem_singleton.mp hy] at hz
  cases z with
  | page b i =>
    obtain ⟨page,_,hpair⟩ := Option.map_eq_some_iff.mp hown
    cases hpair
    simp [Facts.dirsHom, pageFact, entry_facts_dirs] at hin
  | dir p r =>
    cases hown
    obtain rfl : x = ⟨p,r⟩ := by simpa [Facts.dirsHom, dirFact] using hin
    exact hz

/-- The pages of a finite tree are exactly the pages its root reaches. -/
theorem mem_tree_pages (hf : TreeFacts G path root f) (id : Text) :
    id ∈ f.pages ↔ PageReachable G root id := by
  have hmem := mem_sums Facts.pagesHom hf id
  constructor
  · intro hid
    obtain ⟨x,hx,y,hy,own,kids,hown,hin⟩ := hmem.mp hid
    rw [List.mem_singleton.mp hx] at hy
    have hreach := reachable_of_reaches hy
    cases y with
    | dir p r =>
      cases hown
      simp [Facts.pagesHom, dirFact] at hin
    | page b i =>
      obtain ⟨page,_,hpair⟩ := Option.map_eq_some_iff.mp hown
      cases hpair
      simp only [Facts.pagesHom, AddMonoidHom.coe_mk, ZeroHom.coe_mk, Facts.add_pages,
        entry_facts_pages, add_zero, pageFact, Multiset.mem_singleton] at hin
      exact hin ▸ hreach
  · intro hreach
    obtain ⟨b,hb⟩ := reaches_of_reachable path hreach
    have hall : Reaches (expand G) (.dir path root) (.page b id) :=
      .head ⟨_,_,rfl,by simp⟩ hb
    obtain ⟨g,_,hg,_⟩ := sums_of_reaches hf (List.mem_singleton.mpr rfl) hall
    obtain ⟨own,kids,_,hown,_,_⟩ := sums_single_cases hg
    refine hmem.mpr ⟨_,List.mem_singleton.mpr rfl,_,hall,own,kids,hown,?_⟩
    obtain ⟨page,_,hpair⟩ := Option.map_eq_some_iff.mp hown
    cases hpair
    simp [Facts.pagesHom, pageFact]

end Scorpio.LogicalTree
