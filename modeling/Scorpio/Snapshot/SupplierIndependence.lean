import Scorpio.Snapshot.AbreastWalk
import Scorpio.Snapshot.ClosureConstructor

/-!
# Independence from the page supplier

Two proofs of one descriptor run side by side, on page maps of two suppliers
and under two sets of limits. Collision freedom makes the maps agree on the
pages they share, so two proofs that succeed take the same steps, reach the
same pages, and each map holds the reached pages only. On one map the limits
matter only to the tests they occur in, so a proof that succeeded is repeated
step by step under larger limits.
-/

set_option autoImplicit false

namespace Scorpio.SupplierIndependence

open ByteText Fallible TwoRuns PageCodec LogicalTree ClosureValidator ClosureConstructor RadixTree
open RadixProof AbreastWalk

/-! ## The facts of a proved graph -/

section Facts

variable {v v' : Validator}

theorem radix_page_ids_congr (hdecoded : v'.decoded = v.decoded) (fuel : ℕ) (ids : List Text)
    (id : Text) : radixPageIds v' fuel ids id = radixPageIds v fuel ids id := by
  induction fuel generalizing ids id with
  | zero => rfl
  | succ fuel ih =>
    have hkids : (fun ids (ch : BranchChild) => radixPageIds v' fuel ids (childId ch)) =
        fun ids ch => radixPageIds v fuel ids (childId ch) :=
      funext fun ids => funext fun ch => ih ids (childId ch)
    simp only [radixPageIds, hdecoded, hkids]

theorem subtree_facts_congr (hdecoded : v'.decoded = v.decoded) (hentries : v'.entries = v.entries)
    (pageCount fuel : ℕ) : subtreeFacts v' pageCount fuel = subtreeFacts v pageCount fuel := by
  induction fuel with
  | zero => rfl
  | succ fuel ih =>
    funext memo root
    simp only [subtreeFacts, radix_page_ids_congr hdecoded, hentries, ih]

theorem closure_facts_congr (hdecoded : v'.decoded = v.decoded) (hentries : v'.entries = v.entries)
    (includeFacts : Bool) (pageCount : ℕ) (directories : List SnapshotDirectory)
    (files : List SnapshotFile) :
    closureFacts v' includeFacts pageCount directories files =
      closureFacts v includeFacts pageCount directories files := by
  simp only [closureFacts, allFacts, subtree_facts_congr hdecoded hentries]

end Facts

/-! ## Page maps of two suppliers -/

section Maps

variable {c : Codec} {pages pages' : PageMap}

/-- No page of one map has the hash of another page of the other map. -/
def Uncolliding (c : Codec) (pages pages' : PageMap) : Prop :=
  ∀ x ∈ pages.rows, ∀ y ∈ pages'.rows, c.pageId x.2 = c.pageId y.2 → x.2 = y.2

/-- Every page hashes to its key. -/
def Hashed (c : Codec) (pages : PageMap) : Prop :=
  ∀ id b, pages.get id = some b → digest (c.pageId b) = id

theorem shared_page_eq (hcf : Uncolliding c pages pages') (h : Hashed c pages)
    (h' : Hashed c pages') {id : Text} {b b' : Bytes} (hb : pages.get id = some b)
    (hb' : pages'.get id = some b') : b = b' := by
  have hid : c.pageId b = c.pageId b' := digest_injective ((h id b hb).trans (h' id b' hb').symm)
  exact hcf (id,b) ((get_eq_some pages id b).mp hb) (id,b') ((get_eq_some pages' id b').mp hb') hid

theorem page_graphs_compatible (hcf : Uncolliding c pages pages') (h : Hashed c pages)
    (h' : Hashed c pages') : Compatible (pageGraph c pages) (pageGraph c pages') := by
  intro id page page' hpage hpage'
  obtain ⟨b,hb,hdec⟩ := page_graph_some hpage
  obtain ⟨b',hb',hdec'⟩ := page_graph_some hpage'
  rw [← shared_page_eq hcf h h' hb hb', hdec] at hdec'
  exact Except.ok.inj hdec'

theorem page_map_ext (h : ∀ id b, pages.get id = some b ↔ pages'.get id = some b) :
    pages = pages' := by
  have hmem : ∀ x, x ∈ pages.rows ↔ x ∈ pages'.rows := fun x => by
    rw [← get_eq_some, ← get_eq_some]
    exact h x.1 x.2
  have hrows : pages.rows = pages'.rows :=
    List.Pairwise.eq_of_mem_iff (r := Order.Preimage Prod.fst (· < ·)) pages.sorted pages'.sorted hmem
  cases pages
  cases pages'
  cases hrows
  rfl

theorem page_maps_eq (hcf : Uncolliding c pages pages') (h : Hashed c pages)
    (h' : Hashed c pages') (hkeys : ∀ id, id ∈ pages.keys ↔ id ∈ pages'.keys) : pages = pages' := by
  refine page_map_ext fun id b => ⟨fun hb => ?_,fun hb => ?_⟩
  · obtain ⟨b',hb'⟩ := (mem_keys pages' id).mp ((hkeys id).mp ((mem_keys pages id).mpr ⟨b,hb⟩))
    rw [hb', shared_page_eq hcf h h' hb hb']
  · obtain ⟨b',hb'⟩ := (mem_keys pages id).mp ((hkeys id).mpr ((mem_keys pages' id).mpr ⟨b,hb⟩))
    rw [hb', shared_page_eq hcf h h' hb' hb]

/-- A key of the graph is a key of the map. -/
theorem key_of_page {id : Text} (h : ∃ page, pageGraph c pages id = some page) :
    id ∈ pages.keys := by
  obtain ⟨page,hpage⟩ := h
  obtain ⟨b,hb,_⟩ := page_graph_some hpage
  exact (mem_keys pages id).mpr ⟨b,hb⟩

end Maps

/-! ## The constructors -/

section Constructors

variable {c : Codec} {now now' : ℕ → ℕ} {pages pages' : PageMap}

/-- A proof that begins: pages are decoded and nothing is walked. -/
def started (c : Codec) (pages : PageMap) (maxNodes maxBytes : ℕ) (deadline : Option ℕ)
    (clock spent : ℕ) : Validator :=
  { Validator.empty pages maxNodes maxBytes deadline with
    decoded := pageGraph c pages
    maxLogicalEntries := maxNodes
    clock := clock
    logicalBytes := spent }

/-- What an accepted proof went through. -/
theorem validate_pages_ok {d : Descriptor} {includeFacts : Bool} {maxNodes maxBytes : ℕ}
    {deadline : Option ℕ} {closure : ValidatedSnapshotClosure} {facts : List VerifiedSubtreeFacts}
    (h : validatePagesBounded c now d pages includeFacts maxNodes maxBytes deadline =
      .ok (closure,facts)) :
    ∃ bytes clock spent v, canonicalDescriptor c d = .ok bytes ∧ Hashed c pages ∧
      walkDirectory c now d.scope walkFuel ∅
        (started c pages maxNodes maxBytes deadline clock spent) [] d.metadataRoot = .ok v ∧
      v.reached.card = pages.rows.length ∧
      closure = ⟨d,bytes,pages,v.directories.insertionSort fun a b => a.relPath ≤ b.relPath,
        sortFiles v.files⟩ ∧
      closureFacts v includeFacts pages.rows.length closure.directories closure.files =
        .ok facts := by
  obtain ⟨bytes,hbytes,h⟩ := bind_ok.mp h
  obtain ⟨v₀,hv₀,h⟩ := bind_ok.mp h
  obtain ⟨v,hv,h⟩ := bind_ok.mp h
  obtain ⟨_,hcard,h⟩ := bind_ok.mp h
  obtain ⟨fs,hfacts,h⟩ := bind_ok.mp h
  cases h
  obtain ⟨hhash,_,clock,spent,rfl⟩ := new_bounded_ok hv₀
  exact ⟨bytes,clock,spent,v,hbytes,hhash,hv,by simpa using hcard,rfl,hfacts⟩

theorem validated_eq (hcf : Uncolliding c pages pages') {d : Descriptor} {includeFacts : Bool}
    {maxNodes maxBytes maxNodes' maxBytes' : ℕ} {deadline deadline' : Option ℕ}
    {closure closure' : ValidatedSnapshotClosure} {facts facts' : List VerifiedSubtreeFacts}
    (h : validatePagesBounded c now d pages includeFacts maxNodes maxBytes deadline =
      .ok (closure,facts))
    (h' : validatePagesBounded c now' d pages' includeFacts maxNodes' maxBytes' deadline' =
      .ok (closure',facts')) :
    closure = closure' ∧ facts = facts' := by
  obtain ⟨bytes,clock,spent,v,hbytes,hhash,hv,hcard,rfl,hfacts⟩ := validate_pages_ok h
  obtain ⟨bytes',clock',spent',v',hbytes',hhash',hv',hcard',rfl,hfacts'⟩ := validate_pages_ok h'
  rw [hbytes] at hbytes'
  cases hbytes'
  -- the two walks, each of which succeeds, stay abreast from the root
  have hstart : Abreast True now' (pageGraph c pages) (pageGraph c pages')
      (started c pages maxNodes maxBytes deadline clock spent)
      (started c pages' maxNodes' maxBytes' deadline' clock' spent') :=
    ⟨rfl,rfl,rfl,rfl,rfl,rfl,rfl,rfl,by simp [started, Validator.empty],.inl trivial⟩
  have hend := (walk_directory_abreast (page_graphs_compatible hcf hhash hhash') d.scope walkFuel ∅
    [] d.metadataRoot hstart).both hv hv'
  have hkeys := mem_keys_iff_reached pages (fun id hid => key_of_page (hend.supplied id hid).1) hcard
  have hkeys' := mem_keys_iff_reached pages'
    (fun id hid => key_of_page (hend.supplied id (hend.reached ▸ hid)).2) hcard'
  have hpages : pages = pages' := page_maps_eq hcf hhash hhash' fun id => by
    rw [hkeys, hkeys', hend.reached]
  subst hpages
  rw [hend.directories, hend.files] at hfacts'
  rw [hend.directories, hend.files]
  refine ⟨rfl,?_⟩
  rw [closure_facts_congr (hend.decoded'.trans hend.decoded.symm) hend.entries, hfacts] at hfacts'
  exact Except.ok.inj hfacts'

theorem admit_page_abreast {v v' : Validator} (row : Text × Bytes)
    (h : ∃ G, Abreast False now' G G v v') :
    Coupled False (fun v v' => ∃ G, Abreast False now' G G v v') (admitPage c now v row)
      (admitPage c now' v' row) := by
  obtain ⟨G,h⟩ := h
  refine (admit_allocation_abreast h (.inr rfl)).bind fun w w' hw => ?_
  refine (coupled_same _).bind ?_
  rintro want _ rfl
  refine (coupled_require .inr).bind fun _ _ _ => ?_
  refine (coupled_same _).bind ?_
  rintro page _ rfl
  have ha := hw.ample.resolve_left id
  refine coupled_ok ⟨Function.update G row.1 (some page),?_⟩
  refine ⟨by rw [hw.decoded],by rw [hw.decoded'],hw.entries,hw.reached,hw.paths,hw.contentSizes,
    hw.directories,hw.files,fun id hid => ?_,.inr ⟨ha.bytes,by rw [ha.decoded],ha.spent,
    ha.radixEntries,ha.logicalEntries,ha.logicalBytes,ha.unexpired⟩⟩
  have hknown : ∃ page', Function.update G row.1 (some page) id = some page' := by
    obtain ⟨page',hpage'⟩ := (hw.supplied id hid).1
    by_cases hrow : id = row.1
    · exact ⟨page,by rw [hrow, Function.update_self]⟩
    · exact ⟨page',by rw [Function.update_of_ne hrow, hpage']⟩
  exact ⟨hknown,hknown⟩

section Larger

variable {maxNodes maxBytes maxNodes' maxBytes' : ℕ} {deadline' : Option ℕ}

/-- What is accepted under some limits is accepted under larger ones. -/
theorem validate_pages_follows (hnodes : maxNodes ≤ maxNodes') (hbytes : maxBytes ≤ maxBytes')
    (hdeadline : Unexpired now' deadline') (d : Descriptor) (includeFacts : Bool)
    (deadline : Option ℕ) :
    Coupled False Eq (validatePagesBounded c now d pages includeFacts maxNodes maxBytes deadline)
      (validatePagesBounded c now' d pages includeFacts maxNodes' maxBytes' deadline') := by
  refine (coupled_same _).bind ?_
  rintro bytes _ rfl
  have hempty : ∃ G, Abreast False now' G G (.empty pages maxNodes maxBytes deadline)
      (.empty pages maxNodes' maxBytes' deadline') :=
    ⟨_,rfl,rfl,rfl,rfl,rfl,rfl,rfl,rfl,by simp [Validator.empty],
      .inr ⟨rfl,rfl,rfl,hnodes,le_rfl,hbytes,hdeadline⟩⟩
  refine (coupled_foldlM pages.rows (fun v v' row _ hv => admit_page_abreast row hv) hempty).bind ?_
  rintro v v' ⟨G,hv⟩
  have ha := hv.ample.resolve_left id
  have hlimited : Abreast False now' G G
      { v with maxLogicalEntries := maxNodes, maxLogicalBytes := maxBytes, deadline := deadline }
      { v' with
        maxLogicalEntries := maxNodes', maxLogicalBytes := maxBytes', deadline := deadline' } :=
    ⟨hv.decoded,hv.decoded',hv.entries,hv.reached,hv.paths,hv.contentSizes,hv.directories,
      hv.files,hv.supplied,.inr ⟨ha.bytes,ha.decoded,ha.spent,ha.radixEntries,hnodes,hbytes,
      hdeadline⟩⟩
  have hsame : Compatible G G := fun id page page' hp hp' => Option.some.inj (hp.symm.trans hp')
  refine (walk_directory_abreast hsame d.scope walkFuel ∅ [] d.metadataRoot hlimited).bind ?_
  intro w w' hw
  simp only [hw.reached, hw.directories, hw.files,
    closure_facts_congr (hw.decoded'.trans hw.decoded.symm) hw.entries]
  exact coupled_same _

theorem from_canonical_pages_follows (hnodes : maxNodes ≤ maxNodes') (hbytes : maxBytes ≤ maxBytes')
    (hdeadline : Unexpired now' deadline') (descriptorBytes : Bytes) (deadline : Option ℕ) :
    Coupled False Eq
      (fromCanonicalPagesBounded c now descriptorBytes pages maxNodes maxBytes deadline)
      (fromCanonicalPagesBounded c now' descriptorBytes pages maxNodes' maxBytes' deadline') := by
  refine (coupled_same _).bind ?_
  rintro serving _ rfl
  refine (coupled_same _).bind ?_
  rintro snapshotId _ rfl
  refine (validate_pages_follows hnodes hbytes hdeadline _ false deadline).bind ?_
  rintro found _ rfl
  exact coupled_same _

end Larger

theorem from_canonical_eq (hcf : Uncolliding c pages pages') {descriptorBytes : Bytes}
    {maxNodes maxBytes maxNodes' maxBytes' : ℕ} {deadline deadline' : Option ℕ}
    {closure closure' : ValidatedSnapshotClosure}
    (h : fromCanonicalPagesBounded c now descriptorBytes pages maxNodes maxBytes deadline =
      .ok closure)
    (h' : fromCanonicalPagesBounded c now' descriptorBytes pages' maxNodes' maxBytes' deadline' =
      .ok closure') :
    closure = closure' := by
  obtain ⟨serving,hserving,h⟩ := bind_ok.mp h
  obtain ⟨serving',hserving',h'⟩ := bind_ok.mp h'
  rw [hserving] at hserving'
  cases hserving'
  obtain ⟨snapshotId,hsnapshot,h⟩ := bind_ok.mp h
  obtain ⟨snapshotId',hsnapshot',h'⟩ := bind_ok.mp h'
  rw [hsnapshot] at hsnapshot'
  cases hsnapshot'
  obtain ⟨⟨found,facts⟩,hfound,h⟩ := bind_ok.mp h
  obtain ⟨⟨found',facts'⟩,hfound',h'⟩ := bind_ok.mp h'
  obtain ⟨_,_,h⟩ := bind_ok.mp h
  obtain ⟨_,_,h'⟩ := bind_ok.mp h'
  cases h
  cases h'
  exact (validated_eq hcf hfound hfound').1

/-- The pages, directories, files and subtree facts that a descriptor stands for do not depend on
who supplied the pages, nor on the limits of the proof; and what is accepted under some limits is
accepted under all larger ones while no deadline expires. -/
theorem accepted_independent_of_supplier (c : Codec) :
    (∀ (pages pages' : PageMap) (now now' : ℕ → ℕ) (maxNodes maxBytes maxNodes' maxBytes' : ℕ)
      (deadline deadline' : Option ℕ), Uncolliding c pages pages' →
      (∀ d includeFacts closure facts closure' facts',
        validatePagesBounded c now d pages includeFacts maxNodes maxBytes deadline =
          .ok (closure,facts) →
        validatePagesBounded c now' d pages' includeFacts maxNodes' maxBytes' deadline' =
          .ok (closure',facts') →
        closure = closure' ∧ facts = facts') ∧
      ∀ descriptorBytes closure closure',
        fromCanonicalPagesBounded c now descriptorBytes pages maxNodes maxBytes deadline =
          .ok closure →
        fromCanonicalPagesBounded c now' descriptorBytes pages' maxNodes' maxBytes' deadline' =
          .ok closure' →
        closure = closure') ∧
    ∀ (pages : PageMap) (now now' : ℕ → ℕ) (maxNodes maxBytes maxNodes' maxBytes' : ℕ)
      (deadline deadline' : Option ℕ), maxNodes ≤ maxNodes' → maxBytes ≤ maxBytes' →
      Unexpired now' deadline' →
      (∀ d includeFacts result,
        validatePagesBounded c now d pages includeFacts maxNodes maxBytes deadline = .ok result →
        validatePagesBounded c now' d pages includeFacts maxNodes' maxBytes' deadline' =
          .ok result) ∧
      ∀ descriptorBytes closure,
        fromCanonicalPagesBounded c now descriptorBytes pages maxNodes maxBytes deadline =
          .ok closure →
        fromCanonicalPagesBounded c now' descriptorBytes pages maxNodes' maxBytes' deadline' =
          .ok closure := by
  refine ⟨fun pages pages' now now' _ _ _ _ _ _ hcf => ⟨?_,?_⟩,
    fun pages now now' _ _ _ _ deadline deadline' hnodes hbytes hdeadline => ⟨?_,?_⟩⟩
  · intro d includeFacts closure facts closure' facts' h h'
    exact validated_eq hcf h h'
  · intro descriptorBytes closure closure' h h'
    exact from_canonical_eq hcf h h'
  · intro d includeFacts result h
    obtain ⟨_,hresult,rfl⟩ :=
      (validate_pages_follows hnodes hbytes hdeadline d includeFacts deadline).follow h
    exact hresult
  · intro descriptorBytes closure h
    obtain ⟨_,hresult,rfl⟩ :=
      (from_canonical_pages_follows hnodes hbytes hdeadline descriptorBytes deadline).follow h
    exact hresult

theorem accepted_independent_of_supplier_sample : ∃ closure,
    fromCanonicalPagesBounded Sample.codec (fun _ => 0) [9] Sample.pages 4 100000 (some 1) =
      .ok closure ∧
    fromCanonicalPagesBounded Sample.codec id [9] Sample.pages usizeMax usizeMax none =
      .ok closure ∧
    ∀ closure', fromCanonicalPagesBounded Sample.codec id [9] Sample.pages 5 200000 none =
      .ok closure' → closure = closure' := by
  have hrun : (fromCanonicalPagesBounded Sample.codec (fun _ => 0) [9] Sample.pages 4 100000
      (some 1)).map (·.files.length) = .ok 2 := by decide +kernel
  obtain ⟨closure,hclosure,_⟩ := map_ok.mp hrun
  have hcf : Uncolliding Sample.codec Sample.pages Sample.pages := by
    unfold Uncolliding
    decide +kernel
  obtain ⟨hsame,hlarger⟩ := accepted_independent_of_supplier Sample.codec
  refine ⟨closure,hclosure,?_,fun closure' h => ?_⟩
  · exact (hlarger Sample.pages (fun _ => 0) id 4 100000 usizeMax usizeMax (some 1) none
      (by decide) (by decide) nofun).2 [9] closure hclosure
  · exact (hsame Sample.pages Sample.pages (fun _ => 0) id 4 100000 5 200000 (some 1) none hcf).2
      [9] closure closure' hclosure h

end Constructors

end Scorpio.SupplierIndependence
