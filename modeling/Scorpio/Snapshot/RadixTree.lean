import Scorpio.Snapshot.ClosureValidator

/-!
# Radix pages of one directory

The radix level of a page graph: the entries of a directory are the entries
held by its radix pages, and `RadixFacts` collects both. The section on the
canonical partition states what is assumed of the external `Page::build`, and
compares the radix pages found in a graph with the pages of that partition.
-/

set_option autoImplicit false

namespace Scorpio.RadixTree

open ByteText PageCodec ForestSum LogicalTree ClosureValidator

def radixExpand (G : Graph) (id : Text) :
    Option ((Multiset Entry × Multiset Text) × List Text) :=
  (G id).map fun page => ((page.entries,{id}),page.children.map childId)

/-- The radix tree below `id` is finite, with entries `es` and pages `ids`. -/
def RadixFacts (G : Graph) (id : Text) (es : Multiset Entry) (ids : Multiset Text) : Prop :=
  Sums (radixExpand G) [id] (es,ids)

variable {G : Graph} {id : Text} {page : Page} {ids : Multiset Text} {es : List Entry}

theorem radix_expand_some {own : Multiset Entry × Multiset Text} {kids : List Text}
    (h : radixExpand G id = some (own,kids)) :
    ∃ page, G id = some page ∧ own = (↑page.entries,{id}) ∧ kids = page.children.map childId := by
  obtain ⟨page,hpage,hpair⟩ := Option.map_eq_some_iff.mp h
  cases hpair
  exact ⟨page,hpage,rfl,rfl⟩

theorem radix_facts_of_page {es : Multiset Entry} (hpage : G id = some page)
    (hkids : Sums (radixExpand G) (page.children.map childId) (es,ids)) :
    RadixFacts G id (↑page.entries + es) ({id} + ids) := by
  have hx : radixExpand G id = some ((↑page.entries,{id}),page.children.map childId) := by
    simp only [radixExpand, hpage, Option.map_some]
  exact sums_single hx hkids

/-- The entries of every radix page are entries of the directory. -/
theorem radix_entry_mem {es : Multiset Entry} (h : RadixFacts G id es ids) {i : Text}
    (hi : i ∈ ids) (hpage : G i = some page) {e : Entry} (he : e ∈ page.entries) : e ∈ es := by
  obtain ⟨x,hx,y,hy,own,kids,hown,hin⟩ := (mem_sums (AddMonoidHom.snd _ _) h i).mp hi
  obtain ⟨_,_,rfl,_⟩ := radix_expand_some hown
  have hiy : i = y := Multiset.mem_singleton.mp hin
  subst hiy
  have hexp : radixExpand G i = some ((↑page.entries,{i}),page.children.map childId) := by
    simp only [radixExpand, hpage, Option.map_some]
  exact (mem_sums (AddMonoidHom.fst _ _) h e).mpr ⟨x,hx,i,hy,_,_,hexp,he⟩

/-! ## From radix pages to the logical tree -/

theorem radix_reaches (base : Text) {root id : Text} (h : Reaches (radixExpand G) root id) :
    Reaches (expand G) (.page base root) (.page base id) := by
  induction h with
  | refl => exact .refl
  | tail _ hchild ih =>
    obtain ⟨own,kids,hx,hy⟩ := hchild
    obtain ⟨page,hpage,_,rfl⟩ := radix_expand_some hx
    obtain ⟨ch,hch,rfl⟩ := List.mem_map.mp hy
    refine ih.tail ⟨_,_,expand_page hpage base,List.mem_append_right _ ?_⟩
    exact List.mem_map.mpr ⟨ch,hch,rfl⟩

def pagesFact (ids : Multiset Text) : Facts := ⟨0,0,ids,0⟩

@[simp] theorem pages_fact_zero : pagesFact 0 = 0 := rfl

theorem pages_fact_add (a b : Multiset Text) : pagesFact (a+b) = pagesFact a + pagesFact b := by
  ext <;> simp [pagesFact]

/-- Facts and nodes of a list of entries depend on the list only up to order. -/
theorem entry_nodes_sums_perm {base : Text} {es' : List Entry} {f : Facts} (hp : es.Perm es')
    (hs : Sums (expand G) (es.flatMap (entryNodes base)) f) :
    Sums (expand G) (es'.flatMap (entryNodes base)) f :=
  sums_perm (hp.flatMap_right _) hs

theorem entry_facts_sum_perm {base : Text} {es' : List Entry} (hp : es.Perm es') :
    (es.map (entryFacts base)).sum = (es'.map (entryFacts base)).sum :=
  (hp.map _).sum_eq

/-- The radix pages of a directory and the trees of its directory entries make up its tree. -/
theorem page_facts_of_radix (base : Text) {xs : List Text} {f : Facts}
    (hradix : Sums (radixExpand G) xs (↑es,ids))
    (hdirs : Sums (expand G) (es.flatMap (entryNodes base)) f) :
    Sums (expand G) (xs.map (Node.page base))
      (pagesFact ids + (es.map (entryFacts base)).sum + f) := by
  generalize hsum : ((↑es : Multiset Entry),ids) = total at hradix
  induction hradix generalizing es ids f with
  | nil =>
    have hes : es = [] := Multiset.coe_eq_zero _ |>.mp (congrArg Prod.fst hsum)
    have hids : ids = 0 := congrArg Prod.snd hsum
    subst hes hids
    simpa using hdirs
  | @cons x xs kids own below rest hx _ _ ihkids ihxs =>
    obtain ⟨page,hpage,rfl,rfl⟩ := radix_expand_some hx
    have hes : (↑es : Multiset Entry) = ↑page.entries + below.1 + rest.1 :=
      congrArg Prod.fst hsum
    have hids : ids = {x} + below.2 + rest.2 := congrArg Prod.snd hsum
    have hkidEs := Multiset.coe_toList below.1
    have hrestEs := Multiset.coe_toList rest.1
    generalize below.1.toList = kidEs at hkidEs
    generalize rest.1.toList = restEs at hrestEs
    have hperm : es.Perm (page.entries ++ kidEs ++ restEs) := by
      apply Multiset.coe_eq_coe.mp
      rw [hes, ← Multiset.coe_add, ← Multiset.coe_add, hkidEs, hrestEs]
    have hsplit := entry_nodes_sums_perm hperm hdirs
    rw [List.flatMap_append, List.flatMap_append] at hsplit
    obtain ⟨fk,frest,hfk,hfrest,rfl⟩ := sums_append_cases hsplit
    obtain ⟨fown,fkids,hfown,hfkids,rfl⟩ := sums_append_cases hfk
    have hbelow := ihkids hfkids (Prod.ext hkidEs rfl)
    have hrest := ihxs hfrest (Prod.ext hrestEs rfl)
    rw [List.map_map] at hbelow
    have hnode := Sums.cons (expand_page hpage base) (sums_append hfown hbelow) hrest
    rw [List.map_cons]
    convert hnode using 1
    rw [entry_facts_sum_perm hperm, hids, List.map_append, List.map_append, List.sum_append,
      List.sum_append, pages_fact_add, pages_fact_add]
    change pageFact x + _ + _ + _ + _ = _
    abel

/-! ## The canonical partition -/

/-- One child of a branch and the entries it stands for. -/
structure ChildOf (c : Codec) (common : Bytes) (ch : BranchChild) (part : List Entry) :
    Prop where
  nonempty : part ≠ []
  label : ∀ e ∈ part, common ++ [ch.label] <+: e.name
  count : ch.subtreeEntries = part.length
  page : ∃ b, c.buildPage part = .ok b ∧ ch.childPageId = c.pageId b

def ValidName (name : Bytes) : Prop := name ≠ [] ∧ slash ∉ name ∧ name.length ≤ 255

instance (name : Bytes) : Decidable (ValidName name) := inferInstanceAs (Decidable (_ ∧ _ ∧ _))

/-- `Page::build` is the canonical radix partition of a list of entries: it accepts lists in
strict name order with valid names, and encodes them as one leaf, or as a branch on the longest
common start of the names, with one child page for each following byte. -/
structure RadixPartition (c : Codec) where
  parts : List Entry → List (List Entry)
  sorted : ∀ es b, c.buildPage es = .ok b → es.Pairwise fun x y => x.name < y.name
  names : ∀ es b, c.buildPage es = .ok b → ∀ e ∈ es, ValidName e.name
  page : ∀ es b, c.buildPage es = .ok b →
    (c.decodePage b = .ok (.leaf es) ∧ parts es = []) ∨
    ∃ common terminal children, c.decodePage b = .ok (.branch common terminal children) ∧
      es.Perm (terminal.toList ++ (parts es).flatten) ∧
      (∀ start, (∀ e ∈ es, start <+: e.name) → start.length ≤ common.length) ∧
      (children.map (·.label)).Nodup ∧ List.Forall₂ (ChildOf c common) children (parts es)

/-- The pages of the canonical partition of a list of entries. -/
inductive CanonicalPage {c : Codec} (R : RadixPartition c) : List Entry → Bytes → Prop
  | root {es : List Entry} {b : Bytes} (h : c.buildPage es = .ok b) : CanonicalPage R es b
  | part {es part : List Entry} {b : Bytes} (hpart : part ∈ R.parts es)
      (h : CanonicalPage R part b) : CanonicalPage R es b

/-- No encoding of entries has the page id of a different supplied page. -/
def CollisionFree (c : Codec) (pages : PageMap) : Prop :=
  ∀ id b es b', pages.get id = some b → c.buildPage es = .ok b' → c.pageId b' = c.pageId b → b' = b

/-- The decoded pages of a page map. -/
def pageGraph (c : Codec) (pages : PageMap) : Graph := fun id =>
  (pages.get id).bind fun b => (decodePage c b).toOption

theorem page_graph_some {c : Codec} {pages : PageMap} (h : pageGraph c pages id = some page) :
    ∃ b, pages.get id = some b ∧ decodePage c b = .ok page := by
  obtain ⟨b,hb,hpage⟩ := Option.bind_eq_some_iff.mp h
  refine ⟨b,hb,?_⟩
  cases hdec : decodePage c b with
  | error e => simp [hdec, Except.toOption] at hpage
  | ok p => simpa [hdec, Except.toOption] using hpage

section Canonical

variable {c : Codec} (R : RadixPartition c) {pages : PageMap}

/-- The page found at `id` is the encoding of `es`. -/
def Encodes (c : Codec) (pages : PageMap) (id : Text) (es : List Entry) : Prop :=
  ∃ b, pages.get id = some b ∧ c.buildPage es = .ok b

theorem encodes_children (hcf : CollisionFree c pages)
    (hhash : ∀ id b, pages.get id = some b → digest (c.pageId b) = id) {common : Bytes}
    {children : List BranchChild} {parts : List (List Entry)}
    (hchildren : List.Forall₂ (ChildOf c common) children parts)
    (hfound : ∀ ch ∈ children, ∃ b, pages.get (childId ch) = some b) :
    List.Forall₂ (Encodes c pages) (children.map childId) parts := by
  induction hchildren with
  | nil => exact .nil
  | @cons ch part chs parts hch _ ih =>
    refine .cons ?_ (ih fun ch hch => hfound ch (List.mem_cons_of_mem _ hch))
    obtain ⟨b,hb⟩ := hfound ch (List.mem_cons_self)
    obtain ⟨b',hb',hid⟩ := hch.page
    have hsame : c.pageId b' = c.pageId b := by
      rw [← hid]
      exact (digest_inj.mp (hhash _ _ hb)).symm
    exact ⟨b,hb,hcf _ _ _ _ hb hb' hsame ▸ hb'⟩

theorem found_of_sums {G : Graph} {xs : List Text} {total : Multiset Entry × Multiset Text}
    (hs : Sums (radixExpand G) xs total) : ∀ x ∈ xs, ∃ page, G x = some page := by
  intro x hx
  obtain ⟨v,hv⟩ := sums_present hs hx
  obtain ⟨page,hpage,_⟩ := radix_expand_some hv
  exact ⟨page,hpage⟩

/-- A page that encodes `es` splits like the canonical partition of `es`. -/
theorem encodes_split (hcf : CollisionFree c pages)
    (hhash : ∀ id b, pages.get id = some b → digest (c.pageId b) = id) {id : Text}
    {es : List Entry} {page : Page} (henc : Encodes c pages id es)
    (hpage : pageGraph c pages id = some page)
    (hfound : ∀ x ∈ page.children.map childId, ∃ p, pageGraph c pages x = some p) :
    es.Perm (page.entries ++ (R.parts es).flatten) ∧
      List.Forall₂ (Encodes c pages) (page.children.map childId) (R.parts es) := by
  obtain ⟨b,hb,hbuild⟩ := henc
  obtain ⟨b',hb',hdec⟩ := page_graph_some hpage
  rw [hb] at hb'
  cases hb'
  have hdec' := decode_page_ok hdec
  rcases R.page es b hbuild with ⟨hleaf,hparts⟩ | ⟨common,terminal,children,hbr,hperm,_,_,hch⟩
  · rw [hleaf] at hdec'
    cases hdec'
    simp [Page.entries, Page.children, hparts]
  · rw [hbr] at hdec'
    cases hdec'
    refine ⟨hperm,encodes_children hcf hhash hch ?_⟩
    intro ch hmem
    obtain ⟨p,hp⟩ := hfound _ (List.mem_map_of_mem hmem)
    obtain ⟨b,hb,_⟩ := page_graph_some hp
    exact ⟨b,hb⟩

/-- The radix pages below a page that encodes `es` are the pages of the canonical partition. -/
theorem canonical_pages (hcf : CollisionFree c pages)
    (hhash : ∀ id b, pages.get id = some b → digest (c.pageId b) = id) {xs : List Text}
    {total : Multiset Entry × Multiset Text}
    (hs : Sums (radixExpand (pageGraph c pages)) xs total) {gs : List (List Entry)}
    (henc : List.Forall₂ (Encodes c pages) xs gs) (b : Bytes) :
    (∃ i ∈ total.2, pages.get i = some b) ↔ ∃ g ∈ gs, CanonicalPage R g b := by
  induction hs generalizing gs with
  | nil =>
    cases henc
    simp
  | @cons x xs kids own below rest hx hkids _ ihkids ihxs =>
    obtain ⟨page,hpage,rfl,rfl⟩ := radix_expand_some hx
    cases henc with
    | @cons _ g _ gs hg hgs =>
      have hsplit := encodes_split R hcf hhash hg hpage (found_of_sums hkids)
      have hb := ihkids hsplit.2
      have hr := ihxs hgs
      obtain ⟨b₀,hb₀,hbuild⟩ := hg
      simp only [Prod.snd_add, Multiset.mem_add, Multiset.mem_singleton, List.mem_cons]
      constructor
      · rintro ⟨i,(rfl | hi) | hi,hget⟩
        · rw [hb₀] at hget
          cases hget
          exact ⟨g,.inl rfl,.root hbuild⟩
        · obtain ⟨part,hpart,hcan⟩ := hb.mp ⟨i,hi,hget⟩
          exact ⟨g,.inl rfl,.part hpart hcan⟩
        · obtain ⟨g',hg',hcan⟩ := hr.mp ⟨i,hi,hget⟩
          exact ⟨g',.inr hg',hcan⟩
      · rintro ⟨g',rfl | hg',hcan⟩
        · cases hcan with
          | root h =>
            rw [hbuild] at h
            cases h
            exact ⟨x,.inl (.inl rfl),hb₀⟩
          | part hpart h =>
            obtain ⟨i,hi,hget⟩ := hb.mpr ⟨_,hpart,h⟩
            exact ⟨i,.inl (.inr hi),hget⟩
        · obtain ⟨i,hi,hget⟩ := hr.mpr ⟨g',hg',hcan⟩
          exact ⟨i,.inr hi,hget⟩

end Canonical

/-! ## A small codec

Four pages: a root branch on the first byte of the names `a` and `b`, its two leaves, and the leaf
of the directory `a` with the file `x`. -/

namespace Sample

def digestOf (b : Bytes) : Digest := ⟨(b ++ List.replicate 32 0).take 32,padded_length b⟩

def fileX : Entry := ⟨"x",.regular,3,digestOf [7],digestOf []⟩

def dirA : Entry := ⟨"a",.directory,0,digestOf [],digestOf [1]⟩

def fileB : Entry := ⟨"b",.executable,5,digestOf [8],digestOf []⟩

def rootPage : Page := .branch [] none [⟨97,1,digestOf [2]⟩,⟨98,1,digestOf [3]⟩]

def decode (b : Bytes) : Except Text Page :=
  if b = [1] then .ok (.leaf [fileX])
  else if b = [2] then .ok (.leaf [dirA])
  else if b = [3] then .ok (.leaf [fileB])
  else if b = [4] then .ok rootPage
  else .error "unknown page"

def build (es : List Entry) : Except Text Bytes :=
  if es = [fileX] then .ok [1]
  else if es = [dirA] then .ok [2]
  else if es = [fileB] then .ok [3]
  else if es = [dirA,fileB] then .ok [4]
  else .error "unknown entries"

def validate (path : Text) : Except Text Unit :=
  if path = txt "/" ∨ (path.head? = some slash ∧ ∀ part ∈ path.tail.splitOn slash, part ≠ [])
  then .ok () else .error "invalid path"

def serving : ServingDescriptor := ⟨[1],digestOf [5],"/",digestOf [4]⟩

def codec : Codec where
  pageId := digestOf
  decodePage := decode
  buildPage := build
  decodeEntry := fun _ offset => .ok offset
  pageMaxBytes := 65536
  validateScope := validate
  decodeDescriptor := fun b => if b = [9] then .ok serving else .error "unknown descriptor"
  encodeDescriptor := fun d => if d = serving then .ok [9] else .error "unknown descriptor"
  snapshotId := fun _ => .ok (digestOf [6])
  schemaVersion := 1
  metadataCodec := 2
  materializationPolicyGitRawV1 := 1
  fsSemanticsLinuxCodeV1 := 1
  accessProjectionExactFull := 1
  parseUuid := some
  uuidText := fun b => b

theorem build_cases {es : List Entry} {b : Bytes} (h : build es = .ok b) :
    (es = [fileX] ∧ b = [1]) ∨ (es = [dirA] ∧ b = [2]) ∨ (es = [fileB] ∧ b = [3]) ∨
      (es = [dirA,fileB] ∧ b = [4]) := by
  unfold build at h
  split_ifs at h with h₁ h₂ h₃ h₄ <;> cases h <;> simp [*]

def partition : RadixPartition codec where
  parts es := if es = [dirA,fileB] then [[dirA],[fileB]] else []
  sorted es b h := by
    rcases build_cases h with ⟨rfl,_⟩ | ⟨rfl,_⟩ | ⟨rfl,_⟩ | ⟨rfl,_⟩ <;> decide
  names es b h := by
    rcases build_cases h with ⟨rfl,_⟩ | ⟨rfl,_⟩ | ⟨rfl,_⟩ | ⟨rfl,_⟩ <;> decide
  page es b h := by
    rcases build_cases h with ⟨rfl,rfl⟩ | ⟨rfl,rfl⟩ | ⟨rfl,rfl⟩ | ⟨rfl,rfl⟩
    · exact .inl ⟨rfl,by decide⟩
    · exact .inl ⟨rfl,by decide⟩
    · exact .inl ⟨rfl,by decide⟩
    · refine .inr ⟨[],none,_,rfl,by decide,?_,by decide,?_⟩
      · intro start hstart
        have ha := hstart dirA (by simp)
        have hb := hstart fileB (by simp)
        match start with
        | [] => exact le_rfl
        | x :: rest =>
          have ha' : x = 97 := (List.cons_prefix_cons.mp ha).1
          have hb' : x = 98 := (List.cons_prefix_cons.mp hb).1
          rw [ha'] at hb'
          exact absurd hb' (by decide)
      · rw [if_pos rfl]
        refine .cons ⟨by simp,by decide,rfl,[2],rfl,rfl⟩ (.cons ⟨by simp,by decide,rfl,[3],rfl,rfl⟩ .nil)

def pages : PageMap where
  rows := [(digest (digestOf [1]),[1]),(digest (digestOf [2]),[2]),(digest (digestOf [3]),[3]),
    (digest (digestOf [4]),[4])]
  sorted := by decide

theorem collision_free : CollisionFree codec pages := by
  intro id b es b' hget hbuild hsame
  have hb : b = [1] ∨ b = [2] ∨ b = [3] ∨ b = [4] := by
    unfold PageMap.get pages at hget
    simp only [List.lookup] at hget
    repeat' split at hget
    all_goals simp_all
  rcases build_cases hbuild with ⟨_,rfl⟩ | ⟨_,rfl⟩ | ⟨_,rfl⟩ | ⟨_,rfl⟩ <;>
    rcases hb with rfl | rfl | rfl | rfl <;> first | rfl | exact absurd hsame (by decide)

end Sample

end Scorpio.RadixTree
