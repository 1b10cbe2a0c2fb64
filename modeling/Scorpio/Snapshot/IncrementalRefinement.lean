import Scorpio.Snapshot.AcquisitionLive
import Scorpio.Snapshot.SubtreeFacts

/-!
# Incremental reuse never changes the result

The stored index of closure records lives through any number of sessions. In
each of them the index is used and extended by an incremental synchronisation,
extended from the proof of a complete snapshot, or loses records. Every page
that occurs is one of a set of byte strings on which page ids do not collide;
a record is valid if it describes its subtree in the graph of these pages.
Validity is kept by every session, so every synchronisation of an accepted root
returns the files of the closure, however old the records are that it reuses.
-/

set_option autoImplicit false

namespace Scorpio.IncrementalRefinement

open ByteText Fallible PageCodec ForestSum LogicalTree ClosureValidator ClosureConstructor RadixTree
open ClosureSoundness Incremental IncrementalInvariant AcquisitionExact AcceptedTree RouteWitness
open AcquisitionLive SubtreeFacts

/-! ## The pages of all sessions -/

/-- The pages that occur. No two of them have one id, and no encoding of entries has the id of a
different page. -/
structure World (c : Codec) where
  pages : Set Bytes
  injective : Set.InjOn c.pageId pages
  separate : ∀ b ∈ pages, ∀ es b', c.buildPage es = .ok b' → c.pageId b' = c.pageId b → b' = b

variable {c : Codec}

open Classical in
noncomputable def World.graph (world : World c) : Graph := fun id =>
  if h : ∃ b ∈ world.pages, digest (c.pageId b) = id then (decodePage c h.choose).toOption else none

theorem World.graph_page (world : World c) {b : Bytes} (hb : b ∈ world.pages) :
    world.graph (digest (c.pageId b)) = (decodePage c b).toOption := by
  have h : ∃ b' ∈ world.pages, digest (c.pageId b') = digest (c.pageId b) := ⟨b,hb,rfl⟩
  have hsame : h.choose = b :=
    world.injective h.choose_spec.1 hb (digest_injective h.choose_spec.2)
  rw [World.graph, dif_pos h, hsame]

/-- Everything that the cache and the server present is a page of the world. -/
def Within (world : World c) (out : Outside) : Prop := ∀ b, Seen out b → b ∈ world.pages

def Supplied (world : World c) (pages : PageMap) : Prop :=
  ∀ id b, pages.get id = some b → b ∈ world.pages

section Runs

variable {pages : PageMap} {closure : ValidatedSnapshotClosure} {G : Graph} {tx : Transaction}
  {reader : Reader} {store : Result Unit}

theorem supplied_collision_free {world : World c} (h : Supplied world pages) :
    CollisionFree c pages :=
  fun id b es b' hget hbuild hsame => world.separate b (h id b hget) es b' hbuild hsame

/-- A closure that a constructor accepts; the budgets fit a machine word. -/
def Accepted (world : World c) (closure : ValidatedSnapshotClosure) : Prop :=
  ∃ now d pages includeFacts maxNodes maxBytes deadline facts, maxNodes ≤ usizeMax ∧
    Supplied world pages ∧
    validatePagesBounded c now d pages includeFacts maxNodes maxBytes deadline = .ok (closure,facts)

/-- What an accepted closure says about its tree. -/
structure AcceptedClosure (world : World c) (closure : ValidatedSnapshotClosure) (f : Facts) :
    Prop where
  tree : WalkableTree c closure.descriptor.scope (pageGraph c closure.pages)
    closure.descriptor.metadataRoot f
  within : SubGraph (pageGraph c closure.pages) world.graph
  agrees : ∀ out, Within world out → Agrees c out (pageGraph c closure.pages)
  files : ↑closure.files = f.files

theorem page_graph_within {world : World c} (hsup : Supplied world pages)
    (hhash : ∀ id b, pages.get id = some b → digest (c.pageId b) = id) :
    SubGraph (pageGraph c pages) world.graph := by
  intro id page hpage
  obtain ⟨b,hb,hdecode⟩ := page_graph_some hpage
  rw [← hhash id b hb, world.graph_page (hsup id b hb), hdecode]
  rfl

theorem page_graph_agrees {world : World c} (hsup : Supplied world pages)
    (hhash : ∀ id b, pages.get id = some b → digest (c.pageId b) = id) {out : Outside}
    (hout : Within world out) : Agrees c out (pageGraph c pages) := by
  intro b page hseen hpage
  obtain ⟨b',hb',hdecode⟩ := page_graph_some hpage
  have hid := digest_injective (hhash _ b' hb')
  rw [← world.injective (hsup _ b' hb') (hout b hseen) hid]
  exact hdecode

theorem accepted_closure (R : RadixPartition c) (law : ScopeLaw c) {world : World c}
    (h : Accepted world closure) :
    ∃ f, AcceptedClosure world closure f := by
  obtain ⟨now,d,pages,includeFacts,maxNodes,maxBytes,deadline,facts,hroom,hsup,hrun⟩ := h
  obtain ⟨v,f,hproved,rfl,rfl,_,hfiles,_,hmax⟩ := validate_pages_cases R hrun
  refine ⟨f,?_,page_graph_within hsup hproved.hashes,
    fun out hout => page_graph_agrees hsup hproved.hashes hout,?_⟩
  · exact accepted_tree R law (supplied_collision_free hsup) hproved (hmax ▸ hroom)
  · rw [hfiles, ← hproved.files]
    exact Multiset.coe_eq_coe.mpr (List.perm_insertionSort ..)

/-! ## Records from a complete proof -/

abbrev Records := Text → Option ClosureRecord

theorem valid_fact_record {W : Graph} (hle : SubGraph G W) (reader : Reader)
    {x : VerifiedSubtreeFacts} (h : ValidFacts G x) : ValidRecord W (factRecord reader x) := by
  obtain ⟨f,hf,hfiles,hpages,hentries⟩ := h
  exact ⟨f,hle.sums hf,hfiles,hpages,hentries⟩

theorem put_facts_valid {W : Graph} (hle : SubGraph G W) (reader : Reader)
    {facts : List VerifiedSubtreeFacts} (hfacts : ∀ x ∈ facts, ValidFacts G x)
    (h : RecordsValid W tx.records) : RecordsValid W
      (facts.foldl (fun tx fact => tx.putRecord (factRecord reader fact)) tx).records := by
  induction facts generalizing tx with
  | nil => exact h
  | cons x facts ih =>
    have hx := valid_fact_record hle reader (hfacts x List.mem_cons_self)
    exact ih (fun y hy => hfacts y (List.mem_cons_of_mem _ hy)) (put_record_valid h hx)

variable {records : Records}

theorem sync_snapshot_ok {now : ℕ → ℕ} {checks : ValidatedSnapshotClosure → Result Unit}
    {d : Descriptor}
    (hrun : syncSnapshot c reader now checks store d pages tx = .ok (closure,records)) :
    ∃ facts, withSubtreeFacts c now d pages = .ok (closure,facts) ∧
      (records = tx.records ∨ records =
        (facts.foldl (fun tx fact => tx.putRecord (factRecord reader fact)) tx).records) := by
  obtain ⟨⟨closure',facts⟩,hproof,hrun⟩ := bind_ok.mp hrun
  obtain ⟨_,_,hrun⟩ := bind_ok.mp hrun
  obtain ⟨records',hcommit,hrun⟩ := bind_ok.mp hrun
  cases hrun
  refine ⟨facts,hproof,?_⟩
  unfold commit at hcommit
  split at hcommit
  · obtain ⟨_,_,rfl⟩ := map_ok.mp hcommit
    exact .inr rfl
  · cases hcommit
    exact .inl rfl

/-- The records that a complete proof publishes are valid. -/
theorem sync_snapshot_kept (R : RadixPartition c) (law : ScopeLaw c) {world : World c}
    {now : ℕ → ℕ} {checks : ValidatedSnapshotClosure → Result Unit} {d : Descriptor}
    (hsup : Supplied world pages) (hrecords : RecordsValid world.graph tx.records)
    (hrun : syncSnapshot c reader now checks store d pages tx = .ok (closure,records)) :
    RecordsValid world.graph records := by
  obtain ⟨facts,hproof,hstored⟩ := sync_snapshot_ok hrun
  obtain ⟨v,f,hproved,rfl,rfl,hdirs,hfiles,hfacts,hmax⟩ := validate_pages_cases R hproof
  have tree := accepted_tree R law (supplied_collision_free hsup) hproved hmax.le
  obtain ⟨facts',hfacts',hvalid⟩ := closure_facts_ok hproved tree.entries
    (hdirs ▸ List.perm_insertionSort ..) (hfiles ▸ List.perm_insertionSort ..) true
  cases hfacts.symm.trans hfacts'
  rcases hstored with rfl | rfl
  · exact hrecords
  · exact put_facts_valid (page_graph_within hsup hproved.hashes) reader hvalid hrecords

/-! ## Sessions -/

/-- A reader of the committed root of a closure. -/
structure Reads (reader : Reader) (closure : ValidatedSnapshotClosure) : Prop where
  scope : reader.scope = closure.descriptor.scope
  root : reader.metadataRoot = closure.descriptor.metadataRoot

/-- One change of the stored index: a synchronisation of an accepted root that returned, whatever
was served to it; a complete proof that was published; records dropped with a pin, or a torn index
that is read as an empty one. -/
inductive Session (world : World c) : Records → Records → Prop
  | sync {tx : Transaction} {reader : Reader} {closure : ValidatedSnapshotClosure} {out : Outside}
      {store : Result Unit} {fuel : ℕ} {files : List SnapshotFile} {records : Records}
      (haccepted : Accepted world closure) (hreads : Reads reader closure)
      (hout : Within world out)
      (hrun : sync c reader out store fuel tx = some (.ok (files,records))) :
      Session world tx.records records
  | snapshot {tx : Transaction} {reader : Reader} {now : ℕ → ℕ}
      {checks : ValidatedSnapshotClosure → Result Unit} {store : Result Unit} {d : Descriptor}
      {pages : PageMap} {closure : ValidatedSnapshotClosure} {records : Records}
      (hsup : Supplied world pages)
      (hrun : syncSnapshot c reader now checks store d pages tx = .ok (closure,records)) :
      Session world tx.records records
  | drop {stored records : Records} (hsub : ∀ k r, records k = some r → stored k = some r) :
      Session world stored records

theorem sync_accepted (R : RadixPartition c) (law : ScopeLaw c) {world : World c}
    (haccepted : Accepted world closure) (hreads : Reads reader closure) {out : Outside}
    (hout : Within world out) (hrecords : RecordsValid world.graph tx.records) {fuel : ℕ}
    {files : List SnapshotFile}
    (hrun : sync c reader out store fuel tx = some (.ok (files,records))) :
    files.Perm closure.files ∧ RecordsValid world.graph records := by
  obtain ⟨f,hf⟩ := accepted_closure R law haccepted
  have tree := hf.tree
  rw [← hreads.scope, ← hreads.root] at tree
  obtain ⟨hfiles,hvalid⟩ := sync_kept tree hf.within (hf.agrees out hout) hrecords hrun
  exact ⟨Multiset.coe_eq_coe.mp (hfiles.trans hf.files.symm),hvalid⟩

theorem session_valid (R : RadixPartition c) (law : ScopeLaw c) {world : World c}
    {stored : Records} (hstored : RecordsValid world.graph stored)
    (h : Session world stored records) : RecordsValid world.graph records := by
  cases h with
  | sync haccepted hreads hout hrun =>
    exact (sync_accepted R law haccepted hreads hout hstored hrun).2
  | snapshot hsup hrun => exact sync_snapshot_kept R law hsup hstored hrun
  | drop hsub => exact fun k r hr => hstored k r (hsub k r hr)

/-- Every page that the reader of the closure may need is served. -/
def Served (c : Codec) (closure : ValidatedSnapshotClosure) (out : Outside) : Prop :=
  ∀ f, TreeFacts (pageGraph c closure.pages) [] closure.descriptor.metadataRoot f →
    Serves c (pageGraph c closure.pages) f out

/-- After any sequence of sessions the index is valid. A synchronisation of an accepted root from
it can only return the files of the closure and a valid index, and it returns if every page is
served. -/
theorem incremental_reuse_exact (R : RadixPartition c) (law : ScopeLaw c) (world : World c)
    {stored records : Records} (hstored : RecordsValid world.graph stored)
    (hsessions : Relation.ReflTransGen (Session world) stored records) :
    RecordsValid world.graph records ∧
    ∀ closure reader out tx, Accepted world closure → Reads reader closure → Within world out →
      tx.records = records →
      (∀ store fuel files records',
        sync c reader out store fuel tx = some (.ok (files,records')) →
          files.Perm closure.files ∧ RecordsValid world.graph records') ∧
      (Served c closure out → ∃ bound, ∀ fuel, bound < fuel → ∃ files records',
        sync c reader out (.ok ()) fuel tx = some (.ok (files,records')) ∧
          files.Perm closure.files ∧ RecordsValid world.graph records') := by
  have hvalid : RecordsValid world.graph records := by
    induction hsessions with
    | refl => exact hstored
    | tail _ hsession ih => exact session_valid R law ih hsession
  refine ⟨hvalid,?_⟩
  rintro closure reader out tx haccepted hreads hout rfl
  have hexact : ∀ store fuel files records',
      sync c reader out store fuel tx = some (.ok (files,records')) →
        files.Perm closure.files ∧ RecordsValid world.graph records' :=
    fun _ _ _ _ hrun => sync_accepted R law haccepted hreads hout hvalid hrun
  refine ⟨hexact,fun hserved => ?_⟩
  obtain ⟨f,hf⟩ := accepted_closure R law haccepted
  have tree := hf.tree
  have hserves := hserved f tree.tree
  rw [← hreads.scope, ← hreads.root] at tree
  obtain ⟨bound,files,records',_,_,hrun⟩ :=
    sync_live tree hserves hf.within (hf.agrees out hout) hvalid
  refine ⟨bound,fun fuel hfuel => ⟨files,records',hrun fuel hfuel,?_⟩⟩
  exact hexact _ _ _ _ (hrun fuel hfuel)

/-! ## A served world -/

theorem route_reachable {root id : Text} {route : Bytes} (h : routePage G root route = some id) :
    PageReachable G root id := by
  induction route generalizing root with
  | nil =>
    cases h
    exact .refl
  | cons label rest ih =>
    obtain ⟨page,hpage,h⟩ := Option.bind_eq_some_iff.mp h
    obtain ⟨ch,hch,h⟩ := Option.bind_eq_some_iff.mp h
    exact .head ⟨page,hpage,.inl ⟨ch,List.mem_of_find?_eq_some hch,rfl⟩⟩ (ih h)

/-- What may be requested of a finite tree is a page of its graph. -/
theorem page_at_present {root : Text} {f : Facts} (hf : TreeFacts G [] root f) {dir : Text}
    {route : Bytes} {id : Text} (h : PageAt G f dir route id) :
    ∃ page, G id = some page := by
  obtain ⟨d,hd,_,hroute⟩ := h
  have hreach := (mem_tree_pages hf _).mp (directory_page_reached hf hd)
  obtain ⟨b,hb⟩ := reaches_of_reachable [] (hreach.trans (route_reachable hroute))
  have hall : Reaches (expand G) (.dir [] root) (.page b id) := .head ⟨_,_,rfl,by simp⟩ hb
  obtain ⟨_,_,hsum,_⟩ := sums_of_reaches hf (List.mem_singleton.mpr rfl) hall
  obtain ⟨v,hv⟩ := sums_present hsum (List.mem_singleton.mpr rfl)
  obtain ⟨page,hpage,_⟩ := Option.map_eq_some_iff.mp hv
  exact ⟨page,hpage⟩

end Runs

namespace Sample

open RadixTree.Sample AcquisitionExact.Sample

theorem law : ScopeLaw codec where
  root := rfl
  below p q h := by
    have hok : p ++ slash :: q = txt "/" ∨ ((p ++ slash :: q).head? = some slash ∧
        ∀ part ∈ (p ++ slash :: q).tail.splitOn slash, part ≠ []) := by
      by_contra hno
      rw [show codec.validateScope (p ++ slash :: q) = .error "invalid path" from if_neg hno] at h
      cases h
    cases p with
    | nil => exact h
    | cons a p =>
      refine if_pos (.inr ⟨rfl,fun part hpart => ?_⟩)
      rcases hok with hroot | ⟨_,hparts⟩
      · have hlength := congrArg List.length hroot
        simp [show (txt "/").length = 1 from rfl] at hlength
      · refine hparts part ?_
        rw [List.cons_append, List.tail_cons, List.splitOn_append_cons_self]
        exact List.mem_append_right _ hpart

def world : World codec where
  pages := {b | b ∈ [[1],[2],[3],[4]]}
  injective := by
    have h : ∀ b ∈ [[1],[2],[3],[4]], ∀ b' ∈ [[1],[2],[3],[4]], digestOf b = digestOf b' →
        b = b' := by decide +kernel
    exact fun b hb b' hb' hid => h b hb b' hb' hid
  separate b hb es b' hbuild hid := by
    have hb' : b' ∈ [[1],[2],[3],[4]] := by
      rcases build_cases hbuild with ⟨_,rfl⟩ | ⟨_,rfl⟩ | ⟨_,rfl⟩ | ⟨_,rfl⟩ <;> simp
    have h : ∀ b ∈ [[1],[2],[3],[4]], ∀ b' ∈ [[1],[2],[3],[4]], digestOf b' = digestOf b →
        b' = b := by decide +kernel
    exact h b hb b' hb' hid

def descriptor : Descriptor :=
  ⟨1,2,[1],digest (digestOf [5]),"/",1,1,1,digest (digestOf [4]),digest (digestOf [6])⟩

/-- A server that sends the requested pages only. -/
def direct : Outside := { outside table with
  serve := fun _ items => .ok (table.filter fun page =>
    items.any fun it => digest page.1 = it.expected) }

theorem table_pages {p : Digest × Bytes} (h : p ∈ table) : p.1 = digestOf p.2 ∧ p.2 ∈ world.pages := by
  obtain ⟨b,hb,rfl⟩ := List.mem_map.mp h
  exact ⟨rfl,hb⟩

theorem direct_within : Within world direct := by
  rintro b (⟨_,_,h⟩ | ⟨_,_,_,d,h,hb⟩)
  · cases h
  · cases h
    exact (table_pages (List.mem_filter.mp hb).1).2

theorem pages_supplied : Supplied world pages := by
  have h : ∀ row ∈ pages.rows, row.2 ∈ [[1],[2],[3],[4]] := by decide +kernel
  exact fun id b hget => h (id,b) (Assoc.mem_of_lookup hget)

theorem direct_served {closure : ValidatedSnapshotClosure} (hpages : closure.pages = pages) :
    Served codec closure direct := by
  intro f hf
  rw [hpages] at hf ⊢
  refine ⟨fun _ _ => ⟨none,rfl⟩,fun _ _ _ => rfl,fun _ => rfl,fun n items _ hplaced =>
    ⟨_,rfl,fun it hit => ?_,fun p hp => ?_⟩⟩
  · obtain ⟨page,hpage⟩ := page_at_present hf (hplaced it hit)
    obtain ⟨b,hb,_⟩ := page_graph_some hpage
    have hrows : ∀ row ∈ pages.rows, (digestOf row.2,row.2) ∈ table ∧
        digest (digestOf row.2) = row.1 := by decide +kernel
    obtain ⟨hrow,hid⟩ := hrows _ (Assoc.mem_of_lookup hb)
    exact ⟨_,List.mem_filter.mpr ⟨hrow,List.any_eq_true.mpr ⟨it,hit,by simpa using hid⟩⟩,hid⟩
  · obtain ⟨htable,hany⟩ := List.mem_filter.mp hp
    obtain ⟨it,hit,heq⟩ := List.any_eq_true.mp hany
    refine ⟨(table_pages htable).1.symm,it,hit,it.route.length,le_rfl,?_⟩
    rw [List.take_length, of_decide_eq_true heq]
    exact hplaced it hit

end Sample

open Sample RadixTree.Sample AcquisitionExact.Sample

/-- A complete proof publishes its records; the next synchronisation starts from them. -/
theorem incremental_reuse_exact_sample :
    ∃ (closure : ValidatedSnapshotClosure) (records : Records) (bound : ℕ),
    closure.files = [⟨"a/x","regular",3,digest (digestOf [7])⟩,
      ⟨"b","executable",5,digest (digestOf [8])⟩] ∧
    Session world noRecords.records records ∧ (records (digest (digestOf [4]))).isSome ∧
    ∀ fuel, bound < fuel → ∃ files records', sync codec reader direct (.ok ()) fuel
        ⟨records,["snapshot"],false⟩ = some (.ok (files,records')) ∧
      files.Perm closure.files ∧ RecordsValid world.graph records' := by
  have hrun : (syncSnapshot codec reader (fun _ => 0) (fun _ => .ok ()) (.ok ()) descriptor pages
      noRecords).map (fun x => (x.1.files,(x.2 (digest (digestOf [4]))).isSome)) =
        .ok ([⟨"a/x","regular",3,digest (digestOf [7])⟩,
          ⟨"b","executable",5,digest (digestOf [8])⟩],true) := by decide +kernel
  obtain ⟨⟨closure,records⟩,hsync,hview⟩ := map_ok.mp hrun
  obtain ⟨hfiles,hsome⟩ := Prod.mk.inj hview
  obtain ⟨facts,hproof,_⟩ := sync_snapshot_ok hsync
  obtain ⟨_,_,_,hd,hpages,_⟩ := validate_pages_cases partition hproof
  have haccepted : Accepted world closure :=
    ⟨_,_,_,_,_,_,_,_,le_rfl,pages_supplied,hproof⟩
  have hreads : Reads reader closure := ⟨by rw [hd]; rfl,by rw [hd]; rfl⟩
  have hsession : Session world noRecords.records records := .snapshot pages_supplied hsync
  have hempty : RecordsValid world.graph noRecords.records := fun _ _ h => by cases h
  obtain ⟨_,hnext⟩ := incremental_reuse_exact partition law world hempty (.single hsession)
  obtain ⟨bound,hbound⟩ := (hnext closure reader direct ⟨records,["snapshot"],false⟩ haccepted
    hreads direct_within rfl).2 (direct_served hpages)
  exact ⟨closure,records,bound,hfiles,hsession,hsome,hbound⟩

end Scorpio.IncrementalRefinement
