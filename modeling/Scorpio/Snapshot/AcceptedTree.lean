import Scorpio.Snapshot.ClosureSoundness
import Scorpio.Snapshot.PartialTree

/-!
# What an accepted closure promises to another walk

The acquisition makes its own checks on the pages it meets: path limits, name
encodings, the depth of a route, the size of a counter. For the tree of an
accepted closure none of them can fail. The external path check is assumed to
be a check of the components.
-/

set_option autoImplicit false

namespace Scorpio.AcceptedTree

open ByteText Fallible PageCodec ForestSum LogicalTree ClosureValidator RadixTree WalkProof
open ClosureSoundness Incremental PartialTree

/-! ## Counting entries -/

def isDir : Node → Bool
  | .page _ _ => false
  | .dir _ _ => true

theorem count_entry_nodes (base : Text) (es : List Entry) :
    es.length = ((es.map (entryFacts base)).sum).files.card +
      (es.flatMap (entryNodes base)).countP isDir := by
  induction es with
  | nil => rfl
  | cons e es ih =>
    rw [List.length_cons, ih, List.map_cons, List.sum_cons, Facts.add_files, Multiset.card_add,
      List.flatMap_cons, List.countP_append]
    cases h : fsKind e.kind <;> simp [entryFacts, entryNodes, h, isDir] <;> omega

variable {G : Graph} {path scope rel : Text}

/-- Every entry is one file or one directory node. -/
theorem count_entries {xs : List Node} {f : Facts} (hs : Sums (expand G) xs f) :
    f.entries + xs.countP isDir = f.files.card + f.dirs.card := by
  induction hs with
  | nil => rfl
  | @cons x xs kids own below rest hx _ _ ihkids ihxs =>
    simp only [Facts.add_entries, Facts.add_files, Facts.add_dirs, Multiset.card_add]
    cases x with
    | dir path root =>
      cases hx
      simp only [dirFact, isDir, List.countP_cons, List.countP_nil, Multiset.card_singleton,
        Multiset.card_zero] at ihkids ⊢
      simp only [if_true, Bool.false_eq_true, if_false] at ihkids ⊢
      omega
    | page base id =>
      obtain ⟨page,_,hpair⟩ := Option.map_eq_some_iff.mp hx
      cases hpair
      have hcount := count_entry_nodes base page.entries
      have hpages : (page.children.map fun ch => Node.page base (childId ch)).countP isDir = 0 := by
        rw [List.countP_map]
        exact List.countP_eq_zero.mpr fun _ _ h => by cases h
      simp only [Facts.add_entries, Facts.add_files, Facts.add_dirs, entry_facts_entries,
        entry_facts_dirs, pageFact, Multiset.card_add, Multiset.card_zero, List.countP_append, hpages,
        List.countP_cons, isDir] at ihkids ⊢
      simp only [Bool.false_eq_true, if_false] at ihkids ⊢
      omega

/-! ## Paths -/

/-- The external path check accepts the root, and accepts what follows a slash of an accepted
path. -/
structure ScopeLaw (c : Codec) : Prop where
  root : c.validateScope "/" = .ok ()
  below : ∀ p q, c.validateScope (p ++ slash :: q) = .ok () → c.validateScope (slash :: q) = .ok ()

theorem path_components_slash (p : Text) :
    pathComponents (slash :: p) = [] :: pathComponents p := by
  have h := List.splitOn_append_cons_self (a := slash) ([] : Text) p
  simpa [pathComponents] using h

theorem path_components_append (p q : Text) :
    pathComponents (p ++ slash :: q) = pathComponents p ++ pathComponents q :=
  List.splitOn_append_cons_self p q

theorem trim_start_slash (p : Text) : trimStart (slash :: p) = trimStart p := by
  simp [trimStart]

theorem mem_components_trim {p part : Text} (h : part ∈ pathComponents (trimStart p)) :
    part ∈ pathComponents p := by
  induction p with
  | nil => exact h
  | cons a p ih =>
    by_cases ha : a = slash
    · subst ha
      rw [trim_start_slash] at h
      rw [path_components_slash]
      exact List.mem_cons_of_mem _ (ih h)
    · have htrim : trimStart (a :: p) = a :: p := by simp [trimStart, ha]
      rwa [htrim] at h

theorem absolute_ok {c : Codec} (h : validateAbsolutePath c path = .ok ()) :
    path.length ≤ 4096 ∧ (path = txt "/" ∨ (pathComponents (trimStart path)).length ≤ 256) ∧
      (∀ part ∈ pathComponents path, part.length ≤ 255) ∧ c.validateScope path = .ok () := by
  obtain ⟨_,hlimits,hscope⟩ := bind_ok.mp h
  have hlimits := of_decide_eq_true (require_ok.mp hlimits)
  exact ⟨hlimits.1,hlimits.2.1,hlimits.2.2,map_error_ok.mp hscope⟩

theorem scope_of_parts {c : Codec} (hlen : path.length ≤ 4096)
    (hcount : path = txt "/" ∨ (pathComponents (trimStart path)).length ≤ 256)
    (hparts : ∀ part ∈ pathComponents (trimStart path), part.length ≤ 255)
    (hscope : c.validateScope path = .ok ()) : validateScope c path = .ok () := by
  refine bind_ok.mpr ⟨(),require_ok.mpr (by simpa using hlen),bind_ok.mpr ⟨(),?_,?_⟩⟩
  · exact require_ok.mpr (decide_eq_true ⟨hcount,hparts⟩)
  · exact map_error_ok.mpr hscope

theorem scope_of_absolute {c : Codec} (h : validateAbsolutePath c path = .ok ()) :
    validateScope c path = .ok () := by
  obtain ⟨hlen,hcount,hparts,hscope⟩ := absolute_ok h
  exact scope_of_parts hlen hcount (fun part hpart => hparts part (mem_components_trim hpart)) hscope

/-- What stands below a scope is itself a valid path. -/
theorem scope_of_suffix {c : Codec} (law : ScopeLaw c) (hrel : Relative rel)
    (h : validateAbsolutePath c (scope ++ slash :: rel) = .ok ()) :
    validateScope c (slash :: rel) = .ok () := by
  obtain ⟨hlen,hcount,hparts,hscope⟩ := absolute_ok h
  rw [path_components_append] at hparts
  rw [List.length_append] at hlen
  have htrim : trimStart (slash :: rel) = rel := by
    rw [trim_start_slash, trim_start_of_relative hrel]
  refine scope_of_parts (by omega) ?_ ?_ (law.below scope rel hscope)
  · rcases hcount with hroot | hcount
    · left
      have hlength := congrArg List.length hroot
      simp only [List.length_append, List.length_cons, show (txt "/").length = 1 from rfl]
        at hlength
      have hnil : rel = [] := List.length_eq_zero_iff.mp (by omega)
      rw [hnil]
      rfl
    · right
      rw [htrim]
      have hle : (pathComponents rel).length ≤
          (pathComponents (trimStart (scope ++ slash :: rel))).length := by
        clear hlen hparts hscope hcount h
        induction scope with
        | nil => rw [List.nil_append, htrim]
        | cons a scope ih =>
          by_cases ha : a = slash
          · subst ha
            rw [List.cons_append, trim_start_slash]
            exact ih
          · have hkeep : trimStart (a :: scope ++ slash :: rel) = a :: scope ++ slash :: rel := by
              simp [trimStart, ha]
            rw [hkeep, path_components_append, List.length_append]
            omega
      omega
  · rw [htrim]
    exact fun part hpart => hparts part (List.mem_append_right _ hpart)

theorem relative_form_slash (rel : Text) : relativeForm (slash :: rel) = slash :: rel := by
  simp [relativeForm]

/-- A path that the closure accepts below its scope is accepted by the acquisition. -/
theorem composed_accepted {c : Codec} (law : ScopeLaw c) (hrel : Relative rel)
    (h : validateComposedPath c scope rel = .ok ()) :
    validateRelativePath c scope (slash :: rel) = .ok () := by
  unfold validateRelativePath
  rw [relative_form_slash]
  unfold validateComposedPath composedPath at h
  have hroot : slash :: rel = txt "/" ↔ rel = [] := by
    constructor
    · intro heq
      exact (List.cons.inj heq).2
    · rintro rfl
      rfl
  have hslash : validateScope c (txt "/") = .ok () :=
    scope_of_parts (by decide) (.inl rfl) (by decide) law.root
  by_cases hnil : rel = []
  · rw [if_pos hnil] at h
    subst hnil
    refine bind_ok.mpr ⟨(),hslash,?_⟩
    by_cases hscope : scope = txt "/"
    · rw [if_pos hscope]
      exact hslash
    · rw [if_neg hscope, if_pos (hroot.mpr rfl)]
      exact scope_of_absolute h
  · rw [if_neg hnil] at h
    by_cases hscope : scope = txt "/"
    · rw [if_pos hscope] at h
      have hok := scope_of_absolute h
      rw [if_pos hscope]
      exact bind_ok.mpr ⟨(),hok,hok⟩
    · rw [if_neg hscope] at h
      rw [if_neg hscope, if_neg (fun heq => hnil (hroot.mp heq))]
      exact bind_ok.mpr ⟨(),scope_of_suffix law hrel h,scope_of_absolute h⟩

theorem file_accepted {c : Codec} (hrel : Relative rel) (hne : rel ≠ [])
    (h : validateRelativePath c scope (slash :: rel) = .ok ()) :
    validateRelativePath c scope rel = .ok () := by
  have hform : relativeForm rel = slash :: rel := by
    rw [relativeForm, if_neg hne, if_neg hrel]
  unfold validateRelativePath at h ⊢
  rwa [hform, ← relative_form_slash rel]

/-! ## Routes -/

/-- The page at the end of a route of labels. -/
def routePage (G : Graph) : Text → Bytes → Option Text
  | id, [] => some id
  | id, label :: rest => (G id).bind fun page =>
    (page.children.find? (·.label = label)).bind fun ch => routePage G (childId ch) rest

theorem route_page_snoc {root id : Text} {route : Bytes} {page : Page} {ch : BranchChild}
    (hroute : routePage G root route = some id) (hpage : G id = some page)
    (hfind : page.children.find? (·.label = ch.label) = some ch) :
    routePage G root (route ++ [ch.label]) = some (childId ch) := by
  induction route generalizing root with
  | nil =>
    cases hroute
    simp [routePage, hpage, hfind]
  | cons label rest ih =>
    obtain ⟨p,hp,hrest⟩ := Option.bind_eq_some_iff.mp hroute
    obtain ⟨ch',hch',hrest⟩ := Option.bind_eq_some_iff.mp hrest
    rw [List.cons_append, routePage, hp, Option.bind_some, hch', Option.bind_some]
    exact ih hrest

theorem find_label {children : List BranchChild} (hnd : (children.map (·.label)).Nodup)
    {ch : BranchChild} (hch : ch ∈ children) : children.find? (·.label = ch.label) = some ch := by
  induction children with
  | nil => cases hch
  | cons first rest ih =>
    obtain ⟨hnew,hnd⟩ := List.nodup_cons.mp hnd
    by_cases hlabel : first.label = ch.label
    · rcases List.mem_cons.mp hch with rfl | hmem
      · simp
      · exact absurd (List.mem_map.mpr ⟨ch,hmem,hlabel.symm⟩) hnew
    · rw [List.find?_cons_of_neg (by simpa using hlabel)]
      rcases List.mem_cons.mp hch with rfl | hmem
      · exact absurd rfl hlabel
      · exact ih hnd hmem

section Depth

variable {c : Codec} {pages : PageMap}

variable {es : List Entry} {b : Bytes}

/-- A page of the graph with the id of an encoding is that encoding. -/
theorem decode_of_build (hcf : CollisionFree c pages)
    (hhash : ∀ id b, pages.get id = some b → digest (c.pageId b) = id)
    (hbuild : c.buildPage es = .ok b) {page : Page}
    (hpage : pageGraph c pages (digest (c.pageId b)) = some page) : c.decodePage b = .ok page := by
  obtain ⟨b',hb',hdecode⟩ := page_graph_some hpage
  have hsame := digest_inj.mp (hhash _ _ hb')
  rw [hcf _ _ _ _ hb' hbuild hsame.symm]
  exact decode_page_ok hdecode

theorem exists_of_forall₂ {α β : Type*} {r : α → β → Prop} {xs : List α} {ys : List β}
    (h : List.Forall₂ r xs ys) {x : α} (hx : x ∈ xs) : ∃ y ∈ ys, r x y := by
  induction h with
  | nil => cases hx
  | @cons a b _ _ hab _ ih =>
    rcases List.mem_cons.mp hx with rfl | hx
    · exact ⟨b,List.mem_cons_self,hab⟩
    · obtain ⟨y,hy,hxy⟩ := ih hx
      exact ⟨y,List.mem_cons_of_mem _ hy,hxy⟩

/-- The child at a label stands for a nonempty part of the entries, whose names go on with it. -/
theorem build_child (R : RadixPartition c) (hbuild : c.buildPage es = .ok b) {page : Page}
    (hdecode : c.decodePage b = .ok page) {ch : BranchChild} (hch : ch ∈ page.children) :
    ∃ common part, ChildOf c common ch part ∧ part ⊆ es ∧
      ∀ start, (∀ e ∈ es, start <+: e.name) → start.length ≤ common.length := by
  rcases R.page es b hbuild with ⟨hleaf,_⟩ | ⟨common,terminal,children,hbr,hperm,hmax,_,hall⟩
  · rw [hleaf] at hdecode
    cases hdecode
    cases hch
  · rw [hbr] at hdecode
    cases hdecode
    obtain ⟨part,hmem,hpart⟩ := exists_of_forall₂ hall hch
    refine ⟨common,part,hpart,fun e he => ?_,hmax⟩
    exact hperm.mem_iff.mpr (List.mem_append_right _ (List.mem_flatten.mpr ⟨part,hmem,he⟩))

theorem route_depth (R : RadixPartition c) (hcf : CollisionFree c pages)
    (hhash : ∀ id b, pages.get id = some b → digest (c.pageId b) = id)
    (hbuild : c.buildPage es = .ok b) (hne : es ≠ []) {start : Bytes}
    (hstart : ∀ e ∈ es, start <+: e.name) {route : Bytes} {id : Text}
    (hroute : routePage (pageGraph c pages) (digest (c.pageId b)) route = some id) :
    start.length+route.length ≤ 255 := by
  induction route generalizing es b start with
  | nil =>
    obtain ⟨e,he⟩ := List.exists_mem_of_ne_nil _ hne
    have hlen := (hstart e he).length_le
    have hname := (R.names es b hbuild e he).2.2
    simpa using hlen.trans hname
  | cons label rest ih =>
    obtain ⟨page,hpage,hrest⟩ := Option.bind_eq_some_iff.mp hroute
    obtain ⟨ch,hfind,hrest⟩ := Option.bind_eq_some_iff.mp hrest
    have hdecode := decode_of_build hcf hhash hbuild hpage
    obtain ⟨common,part,hpart,_,hmax⟩ := build_child R hbuild hdecode
      (List.mem_of_find?_eq_some hfind)
    obtain ⟨b',hb',hid⟩ := hpart.page
    rw [childId, hid] at hrest
    have hlen := ih hb' hpart.nonempty hpart.label hrest
    have hle := hmax start hstart
    simp only [List.length_append, List.length_singleton] at hlen
    rw [List.length_cons]
    omega

end Depth

/-! ## The tree -/

/-- What the checks of the acquisition need to know of the tree below a root. -/
structure WalkableTree (c : Codec) (scope : Text) (G : Graph) (root : Text) (f : Facts) : Prop where
  tree : TreeFacts G [] root f
  paths : (f.dirs.map (·.relPath)).Nodup
  dirs : ∀ d ∈ f.dirs, validateRelativePath c scope (slash :: d.relPath) = .ok ()
  files : ∀ x ∈ f.files, validateRelativePath c scope x.relPath = .ok ()
  entries : f.entries ≤ usizeMax
  named : ∀ id page, G id = some page → ∀ e ∈ page.entries, Named e
  labels : ∀ id page, G id = some page → (page.children.map (·.label)).Nodup
  depth : ∀ d ∈ f.dirs, ∀ route id, routePage G d.directoryRoot route = some id →
    route.length ≤ maxDepth

theorem WalkableTree.names {c : Codec} {root : Text} {f : Facts}
    (h : WalkableTree c scope G root f) : NamesValid G :=
  fun id page hpage e he => (h.named id page hpage e he).2

section Accepted

variable {c : Codec} {d : Descriptor} {pages : PageMap} {v : Validator}
  {f : Facts}

theorem proved_root_encodes (h : ProvedRoot c d pages v f) {id : Text} (hid : id ∈ f.pages) :
    ∃ es, Encodes c pages id es := by
  obtain ⟨es,hes⟩ := h.done id hid
  have henc := (h.memo.proved id es hes).encodes
  exact ⟨es,h.bytes ▸ henc⟩

theorem listed_relative {scope : Text} (h : PathInv c scope v) {p : Text} (hp : p ∈ v.paths) :
    Relative p := by
  intro hhead
  cases p with
  | nil => cases hhead
  | cons a p =>
    cases hhead
    exact (slash_below_directory h hp (q := []) ⟨p,rfl⟩).1 rfl

/-- The root directory has the empty path, so no file has it. -/
theorem proved_file_path_ne_nil (h : ProvedRoot c d pages v f) {x : SnapshotFile}
    (hx : x ∈ v.files) : x.relPath ≠ [] := by
  intro hnil
  have hroot : (⟨[],d.metadataRoot⟩ : SnapshotDirectory) ∈ f.dirs := by
    obtain ⟨g,_,rfl⟩ := tree_facts_iff.mp h.tree
    simp [dirFact]
  rw [← h.directories] at hroot
  have hdir : ([] : Text) ∈ v.directories.map (·.relPath) := List.mem_map.mpr ⟨_,hroot,rfl⟩
  exact (List.nodup_append.mp h.path.nodup).2.2 _ hdir _ (List.mem_map_of_mem hx) hnil.symm

theorem accepted_tree (R : RadixPartition c) (law : ScopeLaw c) (hcf : CollisionFree c pages)
    (h : ProvedRoot c d pages v f) (hroom : v.maxLogicalEntries ≤ usizeMax) :
    WalkableTree c d.scope (pageGraph c pages) d.metadataRoot f := by
  have hsupplied : ∀ id page, pageGraph c pages id = some page → id ∈ f.pages := by
    intro id page hpage
    obtain ⟨b,hb,_⟩ := page_graph_some hpage
    exact (proved_root_supplied h id).mp ⟨b,hb⟩
  have hlisted : ∀ p ∈ allPaths v, Relative p ∧
      validateRelativePath c d.scope (slash :: p) = .ok () := by
    intro p hp
    have hmem := (h.path.paths p).mpr hp
    have hrel := listed_relative h.path hmem
    exact ⟨hrel,composed_accepted law hrel (h.path.valid p hmem)⟩
  obtain ⟨hdnodup,_⟩ := List.nodup_append.mp h.path.nodup
  constructor
  case tree => exact h.tree
  case paths =>
    rw [← h.directories, Multiset.map_coe]
    exact hdnodup
  case dirs =>
    intro x hx
    rw [← h.directories] at hx
    exact (hlisted _ (List.mem_append_left _ (List.mem_map_of_mem hx))).2
  case files =>
    intro x hx
    rw [← h.files] at hx
    have hmem : x.relPath ∈ v.files.map (·.relPath) := List.mem_map_of_mem hx
    obtain ⟨hrel,hok⟩ := hlisted _ (List.mem_append_right _ hmem)
    exact file_accepted hrel (proved_file_path_ne_nil h hx) hok
  case entries =>
    have hcount := count_entries h.tree
    have hcard : v.paths.card = f.files.card + f.dirs.card := by
      have heq : v.paths = (allPaths v).toFinset := by
        ext p
        rw [List.mem_toFinset, h.path.paths]
      rw [heq, List.toFinset_card_of_nodup h.path.nodup, ← h.directories, ← h.files, allPaths,
        List.length_append, List.length_map, List.length_map, Multiset.coe_card, Multiset.coe_card,
        add_comm]
    have hbound := h.path.bounded
    omega
  case named =>
    intro id page hpage
    exact h.named id (hsupplied id page hpage) page hpage
  case labels =>
    intro id page hpage
    obtain ⟨es,b,hb,hbuild⟩ := proved_root_encodes h (hsupplied id page hpage)
    obtain ⟨b',hb',hdecode⟩ := page_graph_some hpage
    rw [hb] at hb'
    cases hb'
    have hdecode := decode_page_ok hdecode
    rcases R.page es b hbuild with ⟨hleaf,_⟩ | ⟨_,_,_,hbr,_,_,hlabels,_⟩
    · rw [hleaf] at hdecode
      cases hdecode
      exact List.nodup_nil
    · rw [hbr] at hdecode
      cases hdecode
      exact hlabels
  case depth =>
    intro x hx route id hroute
    obtain ⟨es,b,hb,hbuild⟩ := proved_root_encodes h (directory_page_reached h.tree hx)
    have hid := h.hashes _ _ hb
    rw [← hid] at hroute
    cases route with
    | nil => exact Nat.zero_le _
    | cons label rest =>
      have hne : es ≠ [] := by
        rintro rfl
        obtain ⟨page,hpage,hrest⟩ := Option.bind_eq_some_iff.mp hroute
        obtain ⟨ch,hfind,_⟩ := Option.bind_eq_some_iff.mp hrest
        have hdecode := decode_of_build hcf h.hashes hbuild hpage
        have hch := List.mem_of_find?_eq_some hfind
        obtain ⟨_,part,hpart,hsub,_⟩ := build_child R hbuild hdecode hch
        exact hpart.nonempty (List.subset_nil.mp hsub)
      have hdepth := route_depth R hcf h.hashes hbuild hne
        (fun e _ => List.nil_prefix (l := e.name)) hroute
      simpa [maxDepth] using hdepth

end Accepted

end Scorpio.AcceptedTree
