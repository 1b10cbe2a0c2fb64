import Scorpio.Snapshot.ProvenFile
import Scorpio.Snapshot.RadixTree
import Scorpio.Transport.ResponseFrames

/-!
# Members of a metadata answer

`check_metadata_members` compares the pages of one answer with the items that
were asked. It climbs from the expected page of each item along the labels of
its route, read backwards, through every returned branch that has the page
below as its child, and every page it meets this way is expected.

A chain of an item is a list of returned pages from the start of its route down
to its expected page. The check is characterised exactly: every item has a
chain, and every page leads to the expected page of some item along the rest of
its route. Nothing asks whether the pages above lead to that page.
-/

set_option autoImplicit false

namespace Scorpio.MetadataMembers

open ByteText Fallible PageCodec ProvenFile
open ResponseFrames (frameErr)

/-! ## The check -/

def missingTerminal : SnapshotError :=
  ⟨.digestMismatch,"metadata/pages response is missing a requested terminal page"⟩

def missingWitness : SnapshotError :=
  ⟨.digestMismatch,"metadata/pages response is missing a requested route witness"⟩

def unrequestedPage : SnapshotError :=
  ⟨.digestMismatch,"metadata/pages response contains an unrequested page"⟩

/-- An entry of `parents`: a label, the child below it, and the branch that has it. -/
abbrev Parent := UInt8 × Digest × Digest

section Check

variable (c : Codec) (pages : List (Digest × Bytes))

def pageIds : Finset Digest := (pages.map (·.1)).toFinset

def checkTerminal (item : MetadataPageItem) : Result Unit :=
  match item.expectedDigest with
  | some expected => do
    let id ← parseDigest expected
    require (id ∈ pageIds pages) missingTerminal
  | none => .ok ()

def addParents (parents : List Parent) (page : Digest × Bytes) : Result (List Parent) := do
  let decoded ← (c.decodePage page.2).mapError (frameErr "metadata witness page")
  pure (parents ++ decoded.children.map fun child => (child.label,child.childPageId,page.1))

def ancestors (parents : List Parent) (label : UInt8) (frontier : Finset Digest) : Finset Digest :=
  ((parents.filter fun p => p.1 = label ∧ p.2.1 ∈ frontier).map (·.2.2)).toFinset

/-- One label of a route: what is expected so far, and the frontier. -/
def climb (parents : List Parent) (s : Finset Digest × Finset Digest) (label : UInt8) :
    Result (Finset Digest × Finset Digest) := do
  let above := ancestors parents label s.2
  require (above ≠ ∅) missingWitness
  pure (s.1 ∪ above,above)

/-- The item has an expected digest where this is called. -/
def addItem (parents : List Parent) (expected : Finset Digest) (item : MetadataPageItem) :
    Result (Finset Digest) := do
  let terminal ← parseDigest (item.expectedDigest.getD [])
  let s ← item.route.reverse.foldlM (climb parents) (insert terminal expected,{terminal})
  pure s.1

def checkMetadataMembers (items : List MetadataPageItem) : Result Unit := do
  items.forM (checkTerminal pages)
  if items.all (·.expectedDigest.isSome) then do
    let parents ← pages.foldlM (addParents c) []
    let expected ← items.foldlM (addItem parents) ∅
    require (expected = pageIds pages) unrequestedPage

end Check

/-! ## Chains -/

section Chains

variable (c : Codec) (pages : List (Digest × Bytes))

/-- A returned branch with a child. -/
def Links (id : Digest) (label : UInt8) (child : Digest) : Prop :=
  ∃ bytes common terminal children, (id,bytes) ∈ pages ∧
    c.decodePage bytes = .ok (.branch common terminal children) ∧
    ∃ ch ∈ children, ch.label = label ∧ ch.childPageId = child

/-- The returned pages from the start of a route to the page `terminal`. -/
inductive Chain (terminal : Digest) : List UInt8 → List Digest → Prop
  | here (h : terminal ∈ pageIds pages) : Chain terminal [] [terminal]
  | link {id child : Digest} {label : UInt8} {route : List UInt8} {rest : List Digest}
      (h : Links c pages id label child) (below : Chain terminal route (child :: rest)) :
      Chain terminal (label :: route) (id :: child :: rest)

/-- A chain of an item. -/
def ItemChain (item : MetadataPageItem) (ids : List Digest) : Prop :=
  ∃ terminal, item.expectedDigest = some (digest terminal) ∧ Chain c pages terminal item.route ids

/-- From position `i` of its route the item leads from the page to its expected page. -/
def Toward (item : MetadataPageItem) (i : ℕ) (id : Digest) : Prop :=
  i ≤ item.route.length ∧ ∃ terminal rest, item.expectedDigest = some (digest terminal) ∧
    Chain c pages terminal (item.route.drop i) (id :: rest)

/-- Returned branches lead down to the page along the labels. -/
inductive Reached : List UInt8 → Digest → Prop
  | start (id : Digest) : Reached [] id
  | down {labels : List UInt8} {parent id : Digest} {label : UInt8} (h : Reached labels parent)
      (hlink : Links c pages parent label id) : Reached (labels ++ [label]) id

/-- A page that leads to an expected page, with nothing above it up to the start of the route. -/
def DeadEnd (items : List MetadataPageItem) (id : Digest) : Prop :=
  (∃ item ∈ items, ∃ i, Toward c pages item i id) ∧
    ∀ item ∈ items, ∀ i, Toward c pages item i id → ¬Reached c pages (item.route.take i) id

end Chains

section Facts

variable {c : Codec} {pages : List (Digest × Bytes)} {terminal id : Digest} {route : List UInt8}
  {ids rest : List Digest}

theorem mem_page_ids : id ∈ pageIds pages ↔ ∃ bytes, (id,bytes) ∈ pages := by
  simp [pageIds]

theorem Chain.terminal_mem (h : Chain c pages terminal route ids) : terminal ∈ pageIds pages := by
  induction h with
  | here h => exact h
  | link _ _ ih => exact ih

theorem Chain.mem (h : Chain c pages terminal route ids) : ∀ id ∈ ids, id ∈ pageIds pages := by
  induction h with
  | here h => simpa using h
  | link hlink _ ih =>
    obtain ⟨bytes,_,_,_,hmem,_⟩ := hlink
    intro id hid
    rcases List.mem_cons.mp hid with rfl | hid
    · exact mem_page_ids.mpr ⟨bytes,hmem⟩
    · exact ih id hid

variable {labels : List UInt8} {label : UInt8}

/-- The pages below a page of a chain are a chain for the rest of the route, and those above lead
down to it. -/
theorem Chain.split (h : Chain c pages terminal route ids)
    (hstart : ∀ first ∈ ids.head?, Reached c pages labels first) (hid : id ∈ ids) :
    ∃ i ≤ route.length, (∃ rest, Chain c pages terminal (route.drop i) (id :: rest)) ∧
      Reached c pages (labels ++ route.take i) id := by
  induction h generalizing labels with
  | here h =>
    obtain rfl := List.mem_singleton.mp hid
    exact ⟨0,le_rfl,⟨[],.here h⟩,by simpa using hstart⟩
  | @link top child label route rest hlink below ih =>
    have htop : Reached c pages labels top := hstart top rfl
    rcases List.mem_cons.mp hid with rfl | hid
    · exact ⟨0,Nat.zero_le _,⟨_,.link hlink below⟩,by simpa using htop⟩
    · have hchild : Reached c pages (labels ++ [label]) child := htop.down hlink
      obtain ⟨i,hi,hdown,hreached⟩ := ih (fun first hf => by cases hf; exact hchild) hid
      exact ⟨i+1,Nat.succ_le_succ hi,hdown,by simpa using hreached⟩

/-- Branches above a page continue a chain that starts with it. -/
theorem Reached.join (h : Reached c pages labels id)
    (hchain : Chain c pages terminal route (id :: rest)) :
    ∃ front, Chain c pages terminal (labels ++ route) (front ++ id :: rest) := by
  induction h generalizing route rest with
  | start id => exact ⟨[],hchain⟩
  | @down labels parent id label _ hlink ih =>
    obtain ⟨front,hfront⟩ := ih (.link hlink hchain)
    exact ⟨front ++ [parent],by simpa using hfront⟩

theorem Reached.parent {front : List UInt8} (h : Reached c pages labels id)
    (hlabels : labels = front ++ [label]) : ∃ parent, Links c pages parent label id := by
  cases h with
  | start => simp at hlabels
  | down _ hlink =>
    obtain ⟨-,hlast⟩ := List.append_inj' hlabels rfl
    cases hlast
    exact ⟨_,hlink⟩

/-- A page is on a chain of an item iff the item leads on from it and branches lead down to it. -/
theorem on_item_chain {item : MetadataPageItem} :
    (∃ ids, ItemChain c pages item ids ∧ id ∈ ids) ↔
      ∃ i, Toward c pages item i id ∧ Reached c pages (item.route.take i) id := by
  constructor
  · rintro ⟨ids,⟨terminal,hexpected,hchain⟩,hid⟩
    obtain ⟨i,hi,⟨rest,hdown⟩,hreached⟩ := hchain.split (fun first _ => .start first) hid
    exact ⟨i,⟨hi,terminal,rest,hexpected,hdown⟩,by simpa using hreached⟩
  · rintro ⟨i,⟨_,terminal,rest,hexpected,hdown⟩,hreached⟩
    obtain ⟨front,hchain⟩ := hreached.join hdown
    rw [List.take_append_drop] at hchain
    exact ⟨_,⟨terminal,hexpected,hchain⟩,by simp⟩

/-! ## What the check computes -/

theorem add_parents_ok {parents parents' : List Parent} {page : Digest × Bytes}
    (h : addParents c parents page = .ok parents') :
    ∃ decoded, c.decodePage page.2 = .ok decoded ∧ parents' = parents ++
      decoded.children.map fun child => (child.label,child.childPageId,page.1) := by
  obtain ⟨decoded,hdecode,h⟩ := bind_ok.mp h
  exact ⟨decoded,map_error_ok.mp hdecode,(pure_ok.mp h).symm⟩

/-- The decoded children of the pages. -/
def LinksOf (c : Codec) (pages : List (Digest × Bytes)) (p : Parent) : Prop :=
  ∃ page ∈ pages, ∃ decoded, c.decodePage page.2 = .ok decoded ∧
    ∃ ch ∈ decoded.children, p = (ch.label,ch.childPageId,page.1)

theorem links_iff {child : Digest} :
    Links c pages id label child ↔ LinksOf c pages (label,child,id) := by
  constructor
  · rintro ⟨bytes,common,own,children,hmem,hdecode,ch,hch,rfl,rfl⟩
    exact ⟨_,hmem,_,hdecode,ch,hch,rfl⟩
  · rintro ⟨⟨id',bytes⟩,hmem,decoded,hdecode,ch,hch,heq⟩
    cases heq
    cases decoded with
    | leaf entries => cases hch
    | branch common own children =>
      exact ⟨bytes,common,own,children,hmem,hdecode,ch,hch,rfl,rfl⟩

theorem parents_run {parents parents' : List Parent}
    (h : pages.foldlM (addParents c) parents = .ok parents') :
    (∀ page ∈ pages, ∃ decoded, c.decodePage page.2 = .ok decoded) ∧
      ∀ p, p ∈ parents' ↔ p ∈ parents ∨ LinksOf c pages p := by
  induction pages generalizing parents with
  | nil =>
    rw [List.foldlM_nil, pure_ok] at h
    subst h
    exact ⟨by simp,fun p => by simp [LinksOf]⟩
  | cons page pages ih =>
    rw [List.foldlM_cons] at h
    obtain ⟨parents₁,hpage,h⟩ := bind_ok.mp h
    obtain ⟨decoded,hdecode,rfl⟩ := add_parents_ok hpage
    obtain ⟨hall,hmem⟩ := ih h
    refine ⟨List.forall_mem_cons.mpr ⟨⟨decoded,hdecode⟩,hall⟩,fun p => ?_⟩
    have hhead : p ∈ decoded.children.map (fun child => (child.label,child.childPageId,page.1)) ↔
        ∃ d, c.decodePage page.2 = .ok d ∧ ∃ ch ∈ d.children,
          p = (ch.label,ch.childPageId,page.1) := by
      simp only [hdecode, Except.ok.injEq, exists_eq_left', List.mem_map, eq_comm]
    rw [hmem, List.mem_append, hhead, or_assoc]
    simp only [LinksOf, List.mem_cons, exists_eq_or_imp]

theorem parents_total (h : ∀ page ∈ pages, ∃ decoded, c.decodePage page.2 = .ok decoded) :
    ∃ parents, pages.foldlM (addParents c) [] = .ok parents := by
  obtain ⟨parents,hrun,_⟩ := foldlM_total (addParents c)
    (fun _ rest => ∀ page ∈ rest, ∃ decoded, c.decodePage page.2 = .ok decoded)
    (fun parents page rest hall => by
      obtain ⟨decoded,hdecode⟩ := hall page (by simp)
      rw [addParents, hdecode]
      exact ⟨_,rfl,fun p hp => hall p (by simp [hp])⟩) pages h
  exact ⟨parents,hrun⟩

theorem chain_nil : Chain c pages terminal [] (id :: rest) ↔
    terminal ∈ pageIds pages ∧ id = terminal ∧ rest = [] := by
  constructor
  · rintro (h | _)
    exact ⟨h,rfl,rfl⟩
  · rintro ⟨h,rfl,rfl⟩
    exact .here h

theorem chain_cons : (∃ rest, Chain c pages terminal (label :: route) (id :: rest)) ↔
    ∃ child, Links c pages id label child ∧ ∃ rest, Chain c pages terminal route (child :: rest) := by
  constructor
  · rintro ⟨_,_ | ⟨hlink,below⟩⟩
    exact ⟨_,hlink,_,below⟩
  · rintro ⟨child,hlink,rest,below⟩
    exact ⟨_,.link hlink below⟩

section Climbing

variable {parents : List Parent} (hparents : ∀ p, p ∈ parents ↔ LinksOf c pages p)

include hparents

theorem mem_ancestors {label : UInt8} {frontier : Finset Digest} :
    id ∈ ancestors parents label frontier ↔
      ∃ child, Links c pages id label child ∧ child ∈ frontier := by
  simp only [ancestors, List.mem_toFinset, List.mem_map, List.mem_filter, hparents, links_iff]
  constructor
  · rintro ⟨⟨label',child,id'⟩,⟨hlink,hkept⟩,rfl⟩
    obtain ⟨rfl,hchild⟩ := of_decide_eq_true hkept
    exact ⟨child,hlink,hchild⟩
  · rintro ⟨child,hlink,hchild⟩
    exact ⟨_,⟨hlink,decide_eq_true ⟨rfl,hchild⟩⟩,rfl⟩

variable {expected : Finset Digest}

/-- The frontier is the set of first pages of the chains of the labels read so far. -/
theorem climb_run {s : Finset Digest × Finset Digest} (hterminal : terminal ∈ pageIds pages)
    (h : route.reverse.foldlM (climb parents) (insert terminal expected,{terminal}) = .ok s) :
    (∃ ids, Chain c pages terminal route ids) ∧
    (∀ id, id ∈ s.2 ↔ ∃ rest, Chain c pages terminal route (id :: rest)) ∧
    ∀ id, id ∈ s.1 ↔ id ∈ expected ∨
      ∃ i ≤ route.length, ∃ rest, Chain c pages terminal (route.drop i) (id :: rest) := by
  induction route generalizing s with
  | nil =>
    rw [List.reverse_nil, List.foldlM_nil, pure_ok] at h
    subst h
    refine ⟨⟨_,.here hterminal⟩,fun id => ?_,fun id => ?_⟩
    · simp [chain_nil, hterminal]
    · simp [chain_nil, hterminal, or_comm]
  | cons label route ih =>
    rw [List.reverse_cons, List.foldlM_append] at h
    obtain ⟨s₁,hrun,h⟩ := bind_ok.mp h
    obtain ⟨-,hfrontier,hexpected⟩ := ih hrun
    rw [List.foldlM_cons] at h
    obtain ⟨s₂,hclimb,h⟩ := bind_ok.mp h
    rw [List.foldlM_nil, pure_ok] at h
    subst h
    obtain ⟨_,hsome,hclimb⟩ := bind_ok.mp hclimb
    rw [pure_ok] at hclimb
    subst hclimb
    have habove : ∀ id, id ∈ ancestors parents label s₁.2 ↔
        ∃ rest, Chain c pages terminal (label :: route) (id :: rest) := by
      intro id
      rw [mem_ancestors hparents, chain_cons]
      simp only [hfrontier]
    obtain ⟨id,hid⟩ := Finset.nonempty_iff_ne_empty.mpr (of_decide_eq_true (require_ok.mp hsome))
    obtain ⟨rest,hchain⟩ := (habove id).mp hid
    refine ⟨⟨_,hchain⟩,habove,fun id => ?_⟩
    rw [Finset.mem_union, hexpected, habove, or_assoc]
    refine or_congr_right ⟨?_,?_⟩
    · rintro (⟨i,hi,hchain⟩ | hchain)
      · exact ⟨i+1,Nat.succ_le_succ hi,hchain⟩
      · exact ⟨0,Nat.zero_le _,hchain⟩
    · rintro ⟨i,hi,hchain⟩
      cases i with
      | zero => exact .inr hchain
      | succ i => exact .inl ⟨i,Nat.le_of_succ_le_succ hi,hchain⟩

theorem climb_total (h : Chain c pages terminal route ids) :
    ∃ s, route.reverse.foldlM (climb parents) (insert terminal expected,{terminal}) = .ok s := by
  induction h with
  | here h => exact ⟨_,rfl⟩
  | @link id child label route rest hlink below ih =>
    obtain ⟨s,hrun⟩ := ih
    have hchild : child ∈ s.2 :=
      ((climb_run hparents below.terminal_mem hrun).2.1 child).mpr ⟨_,below⟩
    have hid : id ∈ ancestors parents label s.2 :=
      (mem_ancestors hparents).mpr ⟨child,hlink,hchild⟩
    refine ⟨(s.1 ∪ ancestors parents label s.2,ancestors parents label s.2),?_⟩
    rw [List.reverse_cons, List.foldlM_append, hrun, ok_bind, List.foldlM_cons, climb, require,
      if_pos (decide_eq_true (Finset.ne_empty_of_mem hid))]
    rfl

/-- What one item makes expected. -/
theorem add_item_ok {expected' : Finset Digest} {item : MetadataPageItem}
    (hitem : item.expectedDigest = some (digest terminal)) (hterminal : terminal ∈ pageIds pages)
    (h : addItem parents expected item = .ok expected') :
    (∃ ids, ItemChain c pages item ids) ∧
      ∀ id, id ∈ expected' ↔ id ∈ expected ∨ ∃ i, Toward c pages item i id := by
  rw [addItem, hitem, Option.getD_some, parse_digest_digest, ok_bind] at h
  obtain ⟨s,hrun,h⟩ := bind_ok.mp h
  obtain ⟨⟨ids,hchain⟩,-,hexpected⟩ := climb_run hparents hterminal hrun
  rw [pure_ok] at h
  subst h
  refine ⟨⟨ids,terminal,hitem,hchain⟩,fun id => (hexpected id).trans (or_congr_right ?_)⟩
  refine exists_congr fun i => and_congr_right fun _ => ⟨fun ⟨rest,h⟩ => ⟨terminal,rest,hitem,h⟩,?_⟩
  rintro ⟨terminal',rest,hitem',hchain'⟩
  obtain rfl := digest_injective (Option.some.inj (hitem.symm.trans hitem'))
  exact ⟨rest,hchain'⟩

theorem add_item_total {item : MetadataPageItem} (h : ItemChain c pages item ids) :
    ∃ expected', addItem parents expected item = .ok expected' := by
  obtain ⟨terminal,hitem,hchain⟩ := h
  obtain ⟨s,hrun⟩ := climb_total hparents hchain
  rw [addItem, hitem, Option.getD_some, parse_digest_digest, ok_bind, hrun]
  exact ⟨_,rfl⟩

theorem items_run {items : List MetadataPageItem} {expected' : Finset Digest}
    (hitems : ∀ item ∈ items, ∃ terminal ∈ pageIds pages,
      item.expectedDigest = some (digest terminal))
    (h : items.foldlM (addItem parents) expected = .ok expected') :
    (∀ item ∈ items, ∃ ids, ItemChain c pages item ids) ∧
      ∀ id, id ∈ expected' ↔ id ∈ expected ∨ ∃ item ∈ items, ∃ i, Toward c pages item i id := by
  induction items generalizing expected with
  | nil =>
    rw [List.foldlM_nil, pure_ok] at h
    subst h
    exact ⟨by simp,by simp⟩
  | cons item items ih =>
    rw [List.foldlM_cons] at h
    obtain ⟨expected₁,hstep,h⟩ := bind_ok.mp h
    obtain ⟨terminal,hterminal,hitem⟩ := hitems item (by simp)
    obtain ⟨hchain,hfirst⟩ := add_item_ok hparents hitem hterminal hstep
    obtain ⟨hchains,hmem⟩ := ih (fun item hi => hitems item (by simp [hi])) h
    refine ⟨List.forall_mem_cons.mpr ⟨hchain,hchains⟩,fun id => ?_⟩
    rw [hmem, hfirst, or_assoc]
    simp only [List.mem_cons, exists_eq_or_imp]

end Climbing

/-! ## The check, exactly -/

theorem check_terminal_ok {item : MetadataPageItem} (hsome : item.expectedDigest.isSome) :
    checkTerminal pages item = .ok () ↔
      ∃ terminal ∈ pageIds pages, item.expectedDigest = some (digest terminal) := by
  obtain ⟨expected,hexpected⟩ := Option.isSome_iff_exists.mp hsome
  simp only [checkTerminal, hexpected, Option.some.injEq]
  constructor
  · intro h
    obtain ⟨id,hid,h⟩ := bind_ok.mp h
    exact ⟨id,of_decide_eq_true (require_ok.mp h),parse_digest_ok hid⟩
  · rintro ⟨terminal,hterminal,rfl⟩
    rw [parse_digest_digest, ok_bind, require_ok]
    exact decide_eq_true hterminal

/-- An answer is accepted iff its pages decode, every item has a chain, and every page leads to
the expected page of an item. -/
theorem check_members_iff {items : List MetadataPageItem}
    (hsome : ∀ item ∈ items, item.expectedDigest.isSome) :
    checkMetadataMembers c pages items = .ok () ↔
      (∀ page ∈ pages, ∃ decoded, c.decodePage page.2 = .ok decoded) ∧
      (∀ item ∈ items, ∃ ids, ItemChain c pages item ids) ∧
      ∀ page ∈ pages, ∃ item ∈ items, ∃ i, Toward c pages item i page.1 := by
  have hall : items.all (·.expectedDigest.isSome) = true := List.all_eq_true.mpr hsome
  rw [checkMetadataMembers, if_pos hall]
  constructor
  · intro h
    obtain ⟨_,hterminals,h⟩ := bind_ok.mp h
    obtain ⟨parents,hparents,h⟩ := bind_ok.mp h
    obtain ⟨expected,hitems,h⟩ := bind_ok.mp h
    obtain ⟨hdecode,hlinks⟩ := parents_run hparents
    have hmembers := fun item hi => (check_terminal_ok (hsome item hi)).mp
      (forM_ok.mp hterminals item hi)
    obtain ⟨hchains,hexpected⟩ := items_run (fun p => by simpa using hlinks p) hmembers hitems
    refine ⟨hdecode,hchains,fun page hpage => ?_⟩
    have hid : page.1 ∈ expected := by
      rw [of_decide_eq_true (require_ok.mp h)]
      exact mem_page_ids.mpr ⟨page.2,hpage⟩
    simpa using (hexpected page.1).mp hid
  · rintro ⟨hdecode,hchains,hpages⟩
    have hmembers : ∀ item ∈ items, ∃ terminal ∈ pageIds pages,
        item.expectedDigest = some (digest terminal) := fun item hi => by
      obtain ⟨ids,terminal,hitem,hchain⟩ := hchains item hi
      exact ⟨terminal,hchain.terminal_mem,hitem⟩
    have hterminals : items.forM (checkTerminal pages) = .ok () :=
      forM_ok.mpr fun item hi => (check_terminal_ok (hsome item hi)).mpr (hmembers item hi)
    obtain ⟨parents,hparents⟩ := parents_total hdecode
    have hlinks : ∀ p, p ∈ parents ↔ LinksOf c pages p := fun p => by
      simpa using (parents_run hparents).2 p
    obtain ⟨expected,hrun,_⟩ := foldlM_total (addItem parents)
      (fun _ rest => ∀ item ∈ rest, ∃ ids, ItemChain c pages item ids)
      (fun expected item rest hall => by
        obtain ⟨ids,hchain⟩ := hall item (by simp)
        obtain ⟨expected',hstep⟩ := add_item_total hlinks hchain
        exact ⟨expected',hstep,fun item hi => hall item (by simp [hi])⟩) items hchains
    have hexpected := (items_run hlinks hmembers hrun).2
    rw [hterminals, ok_bind, hparents, ok_bind, hrun, ok_bind, require_ok, decide_eq_true_eq]
    ext id
    rw [hexpected]
    constructor
    · rintro (hid | ⟨item,_,i,_,terminal,rest,_,hchain⟩)
      · cases hid
      · exact hchain.mem id (by simp)
    · intro hid
      obtain ⟨bytes,hmem⟩ := mem_page_ids.mp hid
      exact .inr (hpages _ hmem)

end Facts

theorem member_check_chains (c : Codec) (pages : List (Digest × Bytes))
    (items : List MetadataPageItem) (hsome : ∀ item ∈ items, item.expectedDigest.isSome)
    (haccept : checkMetadataMembers c pages items = .ok ()) :
    (∀ item ∈ items, ∃ ids, ItemChain c pages item ids) ∧
    ((∀ page ∈ pages, ∃ item ∈ items, ∃ ids, ItemChain c pages item ids ∧ page.1 ∈ ids) ↔
      ∀ page ∈ pages, ¬DeadEnd c pages items page.1) := by
  obtain ⟨_,hchains,htoward⟩ := (check_members_iff hsome).mp haccept
  refine ⟨hchains,forall₂_congr fun page hpage => ?_⟩
  simp only [on_item_chain]
  constructor
  · rintro ⟨item,hitem,i,hdown,hreached⟩ hdead
    exact hdead.2 item hitem i hdown hreached
  · intro halive
    by_contra hnone
    push Not at hnone
    exact halive ⟨htoward page hpage,hnone⟩

namespace Sample

open RadixTree.Sample

/-- `[1]` is a leaf; `[2]` and `[4]` have it below the label 2, and `[3]` has `[2]` below the
label 1. -/
def decode (b : Bytes) : Except Text Page :=
  if b = [1] then .ok (.leaf [fileX])
  else if b = [2] then .ok (.branch [] none [⟨2,1,digestOf [1]⟩,⟨3,1,digestOf [9]⟩])
  else if b = [3] then .ok (.branch [] none [⟨1,2,digestOf [2]⟩,⟨2,1,digestOf [9]⟩])
  else if b = [4] then .ok (.branch [] none [⟨2,1,digestOf [1]⟩,⟨4,1,digestOf [9]⟩])
  else .error "unknown page"

def branches : Codec := { codec with decodePage := decode }

def page (n : UInt8) : Digest × Bytes := (digestOf [n],[n])

def items : List MetadataPageItem := [⟨"/",[1,2],some (digest (digestOf [1]))⟩]

theorem links {pages : List (Digest × Bytes)} {parents : List Parent}
    (h : pages.foldlM (addParents branches) [] = .ok parents) {id child : Digest} {label : UInt8} :
    Links branches pages id label child ↔ (label,child,id) ∈ parents := by
  rw [links_iff, (parents_run h).2]
  simp

end Sample

open Sample RadixTree.Sample in
theorem member_check_chains_sample :
    checkMetadataMembers branches [page 3,page 2,page 1] items = .ok () ∧
      ∀ item ∈ items, ∃ ids, ItemChain branches [page 3,page 2,page 1] item ids :=
  ⟨by decide +kernel,(member_check_chains branches [page 3,page 2,page 1] items (by decide)
    (by decide +kernel)).1⟩

open Sample RadixTree.Sample in
/-- The page `[4]` has the expected page below it and no branch above it. -/
theorem dead_end_accepted :
    checkMetadataMembers branches [page 3,page 2,page 4,page 1] items = .ok () ∧
      ¬∃ item ∈ items, ∃ ids, ItemChain branches [page 3,page 2,page 4,page 1] item ids ∧
        (page 4).1 ∈ ids := by
  refine ⟨by decide +kernel,?_⟩
  have hparents : [page 3,page 2,page 4,page 1].foldlM (addParents branches) [] =
      .ok [(1,digestOf [2],digestOf [3]),(2,digestOf [9],digestOf [3]),
        (2,digestOf [1],digestOf [2]),(3,digestOf [9],digestOf [2]),
        (2,digestOf [1],digestOf [4]),(4,digestOf [9],digestOf [4])] := rfl
  rintro ⟨item,hitem,hchain⟩
  obtain rfl := List.mem_singleton.mp hitem
  obtain ⟨i,⟨hi,terminal,rest,hexpected,hdown⟩,hreached⟩ := on_item_chain.mp hchain
  obtain rfl : digestOf [1] = terminal := digest_injective (Option.some.inj hexpected)
  match i, hi with
  | 0, _ =>
    obtain ⟨child,hlink,_⟩ := chain_cons.mp ⟨rest,hdown⟩
    have hmem := (links hparents).mp hlink
    simp +decide [page] at hmem
  | 1, _ =>
    obtain ⟨parent,hlink⟩ := hreached.parent (show _ = [] ++ [1] from rfl)
    have hmem := (links hparents).mp hlink
    simp +decide [page] at hmem
  | 2, _ =>
    have heq := (chain_nil.mp hdown).2.1
    exact absurd heq (by decide)

end Scorpio.MetadataMembers
