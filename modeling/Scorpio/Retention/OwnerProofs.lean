import Scorpio.Retention.Collector
import Scorpio.Retention.Survey
import Scorpio.Snapshot.SupplierIndependence

/-!
# What the proof of an owner establishes

The retained root of an owner is what its descriptor and its pages on the disk
stand for; limits and clocks do not matter to it. A collection that gets past the
owners has read the use record of every owner directory of the scope, and has
named every blob and every page of the retained root of each owner that is not
retired. A committed pin has no blob and no page beyond that root.
-/

set_option autoImplicit false

namespace Scorpio.Retention

open ByteText Fallible PageCodec Queries LogicalTree ClosureValidator ClosureConstructor
open SupplierIndependence

/-! ## Retained roots and committed pins -/

section Roots

variable (h : Host) (d : Disk)

/-- A page file of a directory, by the text of its digest. -/
def PageFile (dir : Path) (row : Text × Bytes) : Prop :=
  ∃ id, row.1 = digest id ∧ d.get (hexName id :: dir) = some (.regular row.2)

/-- The pages that a use record names, as they are on the disk. -/
structure KeptPages (root : Path) (record : WorkspaceUse) (rows : List (Text × Bytes)) : Prop where
  names : rows.map Prod.fst = record.pages.map fun page => page.pageId
  stored : ∀ row ∈ rows, PageFile d (pagesName :: retentionDir :: root) row

/-- The closure that the descriptor and the pages of an owner stand for. -/
def RetainedRoot (root : Path) (record : WorkspaceUse) (closure : ValidatedSnapshotClosure) : Prop :=
  ∃ descriptor rows pages,
    d.get (retainedDescriptor :: retentionDir :: root) = some (.regular descriptor) ∧
      KeptPages d root record rows ∧ pageMapOf rows = some pages ∧
      ∃ now maxNodes maxBytes deadline,
        fromCanonicalPagesBounded h.codec now descriptor pages maxNodes maxBytes deadline =
          .ok closure

/-- What a committed pin refers to. -/
inductive Committed (root : Path) : List BlobDependency → List PageDependency → Prop
  | files {bytes : Bytes} {pin : PinRecord}
      (hget : d.get (pinFile :: root) = some (.regular bytes))
      (hrevision : h.formats.header bytes = .ok verificationRevision)
      (hpin : h.formats.pin.decode bytes = .ok pin) : Committed root pin.blobs []
  | snapshot {bytes : Bytes} {pin : SnapshotPinRecord}
      (hget : d.get (pinFile :: root) = some (.regular bytes))
      (hrevision : h.formats.header bytes = .ok snapshotVerificationRevision)
      (hpin : h.formats.snapshotPin.decode bytes = .ok pin) : Committed root pin.blobs pin.pages

/-- Every dependency of a committed pin belongs to the closure. -/
def PinWithin (root : Path) (closure : ValidatedSnapshotClosure) : Prop :=
  ∀ blobs pages, Committed h d root blobs pages →
    (∀ blob ∈ blobs, ∃ file ∈ closure.files, file.contentDigest = blob.digest) ∧
      ∀ page ∈ pages, page.pageId ∈ closure.pages.keys

end Roots

section Unique

variable {h : Host} {d : Disk} {root : Path} {record : WorkspaceUse}

theorem kept_pages_unique {rows rows' : List (Text × Bytes)} (hk : KeptPages d root record rows)
    (hk' : KeptPages d root record rows') : rows = rows' := by
  have hnames := hk.names.trans hk'.names.symm
  have hpages := hk.stored
  have hpages' := hk'.stored
  clear hk hk'
  induction rows generalizing rows' with
  | nil =>
    cases rows' with
    | nil => rfl
    | cons row' rows' => cases hnames
  | cons row rows ih =>
    cases rows' with
    | nil => cases hnames
    | cons row' rows' =>
      obtain ⟨hname,hrest⟩ := List.cons.inj hnames
      obtain ⟨id,hid,hget⟩ := hpages row List.mem_cons_self
      obtain ⟨id',hid',hget'⟩ := hpages' row' List.mem_cons_self
      obtain rfl : id = id' := digest_injective (hid.symm.trans (hname.trans hid'))
      rw [hget] at hget'
      have hbytes : row.2 = row'.2 := Node.regular.inj (Option.some.inj hget')
      rw [ih hrest (fun r hr => hpages r (List.mem_cons_of_mem _ hr))
        (fun r hr => hpages' r (List.mem_cons_of_mem _ hr)), Prod.ext hname hbytes]

theorem retained_root_unique {closure closure' : ValidatedSnapshotClosure}
    (hr : RetainedRoot h d root record closure) (hr' : RetainedRoot h d root record closure') :
    closure = closure' := by
  obtain ⟨descriptor,rows,pages,hget,hkept,hpages,now,nodes,bytes,deadline,hok⟩ := hr
  obtain ⟨_,_,_,hget',hkept',hpages',now',nodes',bytes',deadline',hok'⟩ := hr'
  rw [hget] at hget'
  obtain rfl := Node.regular.inj (Option.some.inj hget')
  obtain rfl := kept_pages_unique hkept hkept'
  rw [hpages] at hpages'
  obtain rfl := Option.some.inj hpages'
  -- Both proofs are repeated under limits that are large enough for either.
  have hfollow := @from_canonical_pages_follows h.codec now now pages nodes bytes (max nodes nodes')
    (max bytes bytes') none (le_max_left _ _) (le_max_left _ _) nofun descriptor deadline closure hok
  have hfollow' := @from_canonical_pages_follows h.codec now' now pages nodes' bytes'
    (max nodes nodes') (max bytes bytes') none (le_max_right _ _) (le_max_right _ _) nofun descriptor
    deadline' closure' hok'
  obtain ⟨c,hc,rfl⟩ := hfollow.resolve_right fun hno => hno.1
  obtain ⟨c',hc',rfl⟩ := hfollow'.resolve_right fun hno => hno.1
  exact Except.ok.inj (hc.symm.trans hc')

end Unique

/-! ## Reading through the inventory -/

section Entries

variable (h : Host) {limits : CacheLimits} {d : Disk} {scope p : Path} {i : Inventory}
  {b : CollectionBudget}

variable {maximum : ℕ}

theorem answers_read_entry {r : Option Bytes × CollectionBudget}
    (ha : Answers (readEntry h b i p maximum) d r) :
    (∀ bytes, r.1 = some bytes → d.get p = some (.regular bytes)) ∧
      (r.1 = none → i.files.lookup p = none) := by
  unfold readEntry at ha
  cases hfile : i.files.lookup p with
  | none =>
    rw [hfile] at ha
    obtain rfl := answers_pure.mp ha
    exact ⟨nofun,fun _ => rfl⟩
  | some size =>
    rw [hfile] at ha
    obtain ⟨_,-,ha⟩ := answers_bind ha
    obtain ⟨_,-,ha⟩ := answers_bind ha
    obtain ⟨bytes,hbytes,ha⟩ := answers_bind ha
    obtain ⟨_,-,ha⟩ := answers_bind ha
    obtain rfl := answers_pure.mp ha
    refine ⟨?_,nofun⟩
    rintro bytes' ⟨⟩
    exact answers_read_file_ok h (answers_or_fail hbytes)

theorem answers_required_entry {r : Bytes × CollectionBudget}
    (ha : Answers (requiredEntry h b i p maximum) d r) : d.get p = some (.regular r.1) := by
  obtain ⟨found,hfound,ha⟩ := answers_bind ha
  obtain ⟨bytes,hbytes,ha⟩ := answers_bind ha
  obtain rfl := answers_pure.mp ha
  exact (answers_read_entry h hfound).1 bytes (ok_or_ok.mp (answers_lift.mp hbytes))

/-- What is read fits the read budget. -/
theorem answers_required_size {r : Bytes × CollectionBudget}
    (ha : Answers (requiredEntry h b i p maximum) d r) : r.1.length ≤ maximum := by
  obtain ⟨found,hfound,ha⟩ := answers_bind ha
  obtain ⟨bytes,hbytes,ha⟩ := answers_bind ha
  obtain rfl := answers_pure.mp ha
  unfold readEntry at hfound
  have hbytes := ok_or_ok.mp (answers_lift.mp hbytes)
  split at hfound
  · obtain rfl := answers_pure.mp hfound
    cases hbytes
  · obtain ⟨_,hsize,hfound⟩ := answers_bind hfound
    obtain ⟨_,-,hfound⟩ := answers_bind hfound
    obtain ⟨found',-,hfound⟩ := answers_bind hfound
    obtain ⟨_,hsame,hfound⟩ := answers_bind hfound
    obtain rfl := answers_pure.mp hfound
    obtain rfl := Option.some.inj hbytes
    have hsize := answers_demand hsize
    have hsame := answers_demand hsame
    simp only [decide_eq_true_eq] at hsize hsame
    show found'.length ≤ maximum
    omega

end Entries

/-! ## The proof of a root -/

section Proofs

variable (h : Host) {d : Disk} {i : Inventory}

theorem answers_retained_pages {dir : Path} {b : CollectionBudget}
    {dependencies : List PageDependency} {pages : Records} {r : Records × CollectionBudget}
    (ha : Answers (retainedPages h i dir b dependencies pages) d r) :
    ∃ rows, r.1 = pages ++ rows ∧ rows.map Prod.fst = dependencies.map (fun page => page.pageId) ∧
      ∀ row ∈ rows, PageFile d (pagesName :: dir) row := by
  induction dependencies generalizing b pages with
  | nil =>
    obtain rfl := answers_pure.mp ha
    exact ⟨[],(List.append_nil _).symm,rfl,nofun⟩
  | cons dependency rest ih =>
    obtain ⟨id,hid,ha⟩ := answers_bind ha
    obtain ⟨page,hpage,ha⟩ := answers_bind ha
    obtain ⟨metadata,-,ha⟩ := answers_bind ha
    obtain ⟨_,-,ha⟩ := answers_bind ha
    obtain ⟨_,-,ha⟩ := answers_bind ha
    obtain ⟨rows,hrows,hnames,hstored⟩ := ih ha
    refine ⟨(dependency.pageId,page.1) :: rows,?_,?_,?_⟩
    · rw [hrows, List.append_assoc]
      rfl
    · rw [List.map_cons, List.map_cons, hnames]
    · intro row hrow
      rcases List.mem_cons.mp hrow with rfl | hrow
      · exact ⟨id,parse_digest_ok (answers_lift.mp hid),answers_required_entry h hpage⟩
      · exact hstored row hrow

theorem answers_retained_root {b : CollectionBudget} {root : Path} {record : WorkspaceUse}
    {descriptorDigest : Text} {r : ValidatedSnapshotClosure × CollectionBudget}
    (ha : Answers (retainedRoot h b i root descriptorDigest record.pages) d r) :
    RetainedRoot h d root record r.1 := by
  obtain ⟨_,-,ha⟩ := answers_bind ha
  obtain ⟨_,-,ha⟩ := answers_bind ha
  obtain ⟨descriptor,hdescriptor,ha⟩ := answers_bind ha
  obtain ⟨_,-,ha⟩ := answers_bind ha
  obtain ⟨p,hp,ha⟩ := answers_bind ha
  obtain ⟨pages,hpages,ha⟩ := answers_bind ha
  obtain ⟨closure,⟨n,hclosure⟩,ha⟩ := answers_bind ha
  obtain rfl := answers_pure.mp ha
  obtain ⟨rows,hrows,hnames,hstored⟩ := answers_retained_pages h hp
  rw [List.nil_append] at hrows
  refine ⟨descriptor.1,rows,pages,answers_required_entry h hdescriptor,⟨hnames,hstored⟩,?_,?_⟩
  · rw [← hrows]
    exact ok_or_ok.mp (answers_lift.mp hpages)
  · exact ⟨_,_,_,_,hclosure⟩

theorem answers_protect_name {s s' : List Text × CollectionBudget} {name : Text}
    (ha : Answers (protectName h s name) d s') :
    ∃ id, name = digest id ∧ ∀ x, x ∈ s'.1 ↔ x = hexName id ∨ x ∈ s.1 := by
  obtain ⟨id,hid,ha⟩ := answers_bind ha
  refine ⟨id,parse_digest_ok (answers_lift.mp hid),fun x => ?_⟩
  split_ifs at ha with hmem
  · obtain rfl := answers_pure.mp ha
    exact ⟨.inr,fun hx => hx.elim (fun heq => heq ▸ hmem) fun hx => hx⟩
  · obtain ⟨b,-,ha⟩ := answers_bind ha
    obtain rfl := answers_pure.mp ha
    exact List.mem_cons

/-- The names of digests. -/
def Named (digests : List Text) (x : Text) : Prop := ∃ id, digest id ∈ digests ∧ x = hexName id

theorem answers_protect_names {digests : List Text} {s s' : List Text × CollectionBudget}
    (ha : Answers (digests.foldlM (protectName h) s) d s') :
    (∀ text ∈ digests, ∃ id, text = digest id) ∧ ∀ x, x ∈ s'.1 ↔ Named digests x ∨ x ∈ s.1 := by
  induction digests generalizing s with
  | nil =>
    rw [List.foldlM_nil, answers_pure] at ha
    subst ha
    refine ⟨nofun,fun x => ⟨.inr,?_⟩⟩
    rintro (⟨id,hid,-⟩ | hx)
    · cases hid
    · exact hx
  | cons text rest ih =>
    rw [List.foldlM_cons] at ha
    obtain ⟨t,ht,hrun⟩ := answers_bind ha
    obtain ⟨id,rfl,hnames⟩ := answers_protect_name h ht
    obtain ⟨htexts,hrest⟩ := ih hrun
    refine ⟨?_,fun x => ?_⟩
    · intro text htext
      rcases List.mem_cons.mp htext with rfl | htext
      · exact ⟨id,rfl⟩
      · exact htexts text htext
    · rw [hrest, hnames]
      constructor
      · rintro (⟨id',hid',rfl⟩ | rfl | hx)
        · exact .inl ⟨id',List.mem_cons_of_mem _ hid',rfl⟩
        · exact .inl ⟨id,List.mem_cons_self,rfl⟩
        · exact .inr hx
      · rintro (⟨id',hid',rfl⟩ | hx)
        · rcases List.mem_cons.mp hid' with heq | hid'
          · rw [digest_injective heq]
            exact .inr (.inl rfl)
          · exact .inl ⟨id',hid',rfl⟩
        · exact .inr (.inr hx)

end Proofs

/-! ## The pin of a root -/

section Pins

variable (h : Host) {d : Disk} {i : Inventory} {closure : ValidatedSnapshotClosure}

variable {file : SnapshotFile} {records : Records}

theorem file_at_mem {files : List SnapshotFile} {path : Text} (hf : fileAt files path = some file) :
    file ∈ files := by
  unfold fileAt at hf
  dsimp only at hf
  split at hf
  · rename_i found hfound
    split_ifs at hf
    cases hf
    exact List.mem_of_getElem? hfound
  · cases hf

theorem check_member_ok {u : Unit} (hok : checkMember closure file = .ok u) :
    file ∈ closure.files := by
  obtain ⟨expected,hexpected,hok⟩ := bind_ok.mp hok
  have hsame : expected = file := by simpa using require_ok.mp hok
  exact hsame ▸ file_at_mem (ok_or_ok.mp hexpected)

theorem scan_file_blobs {full : Bool} {s s' : ManifestScan} (hok : scanFile full s file = .ok s') :
    s'.blobs = Assoc.insert s.blobs file.contentDigest file.size := by
  obtain ⟨_,-,hok⟩ := bind_ok.mp hok
  obtain ⟨_,-,hok⟩ := bind_ok.mp hok
  obtain ⟨_,-,hok⟩ := bind_ok.mp hok
  obtain ⟨_,-,hok⟩ := bind_ok.mp hok
  obtain ⟨_,-,hok⟩ := bind_ok.mp hok
  cases pure_ok.mp hok
  rfl

/-- The dependencies of a manifest are digests of its files. -/
theorem manifest_blobs {manifest : List SnapshotFile} {full : Bool}
    {deps : List BlobDependency × ℕ} (hok : validateManifestPolicy manifest full = .ok deps)
    {blob : BlobDependency} (hblob : blob ∈ deps.1) :
    ∃ file ∈ manifest, file.contentDigest = blob.digest := by
  obtain ⟨s,hs,hok⟩ := bind_ok.mp hok
  obtain ⟨_,-,hok⟩ := bind_ok.mp hok
  cases pure_ok.mp hok
  let Found (s : ManifestScan) (rest : List SnapshotFile) : Prop :=
    (∀ row ∈ s.blobs, ∃ file ∈ manifest, file.contentDigest = row.1) ∧ rest ⊆ manifest
  have hstep : ∀ s file rest s', Found s (file :: rest) → scanFile full s file = .ok s' →
      Found s' rest := by
    rintro s file rest s' ⟨hrows,hrest⟩ hstep
    refine ⟨?_,fun f hf => hrest (List.mem_cons_of_mem _ hf)⟩
    rw [scan_file_blobs hstep]
    intro row hrow
    rcases Assoc.mem_insert.mp hrow with ⟨hrow,-⟩ | rfl
    · exact hrows row hrow
    · exact ⟨file,hrest List.mem_cons_self,rfl⟩
  have hstart : Found ⟨[],[],0⟩ manifest :=
    ⟨fun _ hrow => absurd hrow List.not_mem_nil,fun _ hf => hf⟩
  have hfrom := Fallible.foldlM_invariant (scanFile full) Found hstep manifest hstart hs
  obtain ⟨row,hrow,rfl⟩ := List.mem_map.mp hblob
  exact hfrom.1 row ((List.perm_insertionSort _ _).mem_iff.mp hrow)

theorem audit_pin_view_ok {r : ℕ × AuditedView} (hok : auditPinView h closure records = .ok r) :
    records.lookup pinFile = some r.2.pinBytes ∧ h.formats.header r.2.pinBytes = .ok r.1 ∧
      ∀ blob ∈ r.2.blobs, ∃ file ∈ closure.files, file.contentDigest = blob.digest := by
  obtain ⟨viewBytes,-,hok⟩ := bind_ok.mp hok
  obtain ⟨manifestBytes,-,hok⟩ := bind_ok.mp hok
  obtain ⟨pinBytes,hpin,hok⟩ := bind_ok.mp hok
  obtain ⟨view,-,hok⟩ := bind_ok.mp hok
  obtain ⟨_,-,hok⟩ := bind_ok.mp hok
  obtain ⟨_,-,hok⟩ := bind_ok.mp hok
  obtain ⟨manifest,-,hok⟩ := bind_ok.mp hok
  obtain ⟨_,hmembers,hok⟩ := bind_ok.mp hok
  obtain ⟨revision,hrevision,hok⟩ := bind_ok.mp hok
  obtain ⟨deps,hdeps,hok⟩ := bind_ok.mp hok
  cases pure_ok.mp hok
  refine ⟨ok_or_ok.mp hpin,map_error_ok.mp hrevision,fun blob hblob => ?_⟩
  obtain ⟨file,hfile,hdigest⟩ := manifest_blobs hdeps hblob
  exact ⟨file,check_member_ok (forM_ok.mp hmembers file hfile),hdigest⟩

theorem audit_snapshot_pin_ok {a : AuditedView} {grant : Text}
    (hok : auditSnapshotPin h closure records a = .ok grant) :
    ∃ pin, h.formats.snapshotPin.decode a.pinBytes = .ok pin ∧ pin.blobs = a.blobs ∧
      pin.pages = pageDependencies closure.pages := by
  obtain ⟨_,-,hok⟩ := bind_ok.mp hok
  obtain ⟨_,-,hok⟩ := bind_ok.mp hok
  obtain ⟨pin,hpin,hok⟩ := bind_ok.mp hok
  obtain ⟨_,-,hok⟩ := bind_ok.mp hok
  obtain ⟨_,hall,-⟩ := bind_ok.mp hok
  have hall := require_ok.mp hall
  simp only [decide_eq_true_eq] at hall
  obtain ⟨-,-,-,-,-,-,-,-,-,-,-,-,-,-,hpages,hblobs⟩ := hall
  exact ⟨pin,map_error_ok.mp hpin,hblobs,hpages⟩

theorem audit_file_pin_ok {a : AuditedView} {grant : Text}
    (hok : auditFilePin h records a = .ok grant) :
    ∃ pin, h.formats.pin.decode a.pinBytes = .ok pin ∧ pin.blobs = a.blobs := by
  obtain ⟨pin,hpin,hok⟩ := bind_ok.mp hok
  obtain ⟨_,hall,-⟩ := bind_ok.mp hok
  have hall := require_ok.mp hall
  simp only [decide_eq_true_eq] at hall
  exact ⟨pin,map_error_ok.mp hpin,hall.2.2.2.2.2.2.2⟩

/-- An audited pin refers to nothing beyond the closure. -/
theorem audit_within {u : Unit} {root : Path} {bytes : Bytes}
    (hok : auditRetentionMetadata h closure records = .ok u)
    (hrecord : records.lookup pinFile = some bytes)
    (hget : d.get (pinFile :: root) = some (.regular bytes)) : PinWithin h d root closure := by
  obtain ⟨r,hr,hok⟩ := bind_ok.mp hok
  obtain ⟨hpin,hrevision,hblobs⟩ := audit_pin_view_ok h hr
  rw [hrecord] at hpin
  obtain rfl := Option.some.inj hpin
  obtain ⟨grant,hgrant,-⟩ := bind_ok.mp hok
  unfold auditCommitment at hgrant
  rintro blobs pages hcommitted
  cases hcommitted with
  | @files bytes' pin hget' hrevision' hdecode =>
    rw [hget] at hget'
    obtain rfl := Node.regular.inj (Option.some.inj hget')
    rw [hrevision] at hrevision'
    rw [if_neg (by rw [Except.ok.inj hrevision']; decide), if_pos (Except.ok.inj hrevision')] at hgrant
    obtain ⟨pin',hdecode',hsame⟩ := audit_file_pin_ok h hgrant
    rw [hdecode] at hdecode'
    cases hdecode'
    rw [hsame]
    exact ⟨hblobs,nofun⟩
  | @snapshot bytes' pin hget' hrevision' hdecode =>
    rw [hget] at hget'
    obtain rfl := Node.regular.inj (Option.some.inj hget')
    rw [hrevision] at hrevision'
    rw [if_pos (Except.ok.inj hrevision')] at hgrant
    obtain ⟨pin',hdecode',hsame,hpages⟩ := audit_snapshot_pin_ok h hgrant
    rw [hdecode] at hdecode'
    cases hdecode'
    rw [hsame, hpages]
    refine ⟨hblobs,fun page hpage => ?_⟩
    obtain ⟨row,hrow,rfl⟩ := List.mem_map.mp hpage
    exact List.mem_map.mpr ⟨row,hrow,rfl⟩

theorem answers_required_records {b : CollectionBudget} {root : Path} {names : List Text}
    {r : Records × CollectionBudget} (ha : Answers (requiredRecords h b i root names records) d r) :
    ∃ rows, r.1 = records ++ rows ∧ rows.map Prod.fst = names ∧
      ∀ row ∈ rows, d.get (row.1 :: root) = some (.regular row.2) := by
  induction names generalizing b records with
  | nil =>
    obtain rfl := answers_pure.mp ha
    exact ⟨[],(List.append_nil _).symm,rfl,nofun⟩
  | cons name rest ih =>
    obtain ⟨entry,hentry,ha⟩ := answers_bind ha
    obtain ⟨rows,hrows,hnames,hstored⟩ := ih ha
    refine ⟨(name,entry.1) :: rows,?_,?_,?_⟩
    · rw [hrows, List.append_assoc]
      rfl
    · rw [List.map_cons, hnames]
    · intro row hrow
      rcases List.mem_cons.mp hrow with rfl | hrow
      · exact answers_required_entry h hentry
      · exact hstored row hrow

theorem answers_optional_records {b : CollectionBudget} {root : Path} {names : List Text}
    {r : Records × CollectionBudget} (ha : Answers (optionalRecords h b i root names records) d r) :
    ∃ rows, r.1 = records ++ rows := by
  induction names generalizing b records with
  | nil =>
    obtain rfl := answers_pure.mp ha
    exact ⟨[],(List.append_nil _).symm⟩
  | cons name rest ih =>
    obtain ⟨entry,-,ha⟩ := answers_bind ha
    obtain ⟨rows,hrows⟩ := ih ha
    exact ⟨_,hrows.trans (List.append_assoc _ _ _)⟩

theorem answers_validate_pin {b b' : CollectionBudget} {root : Path} {hasComplete : Bool}
    (ha : Answers (validatePinMetadata h b i root closure true hasComplete) d b') :
    PinWithin h d root closure := by
  obtain ⟨_,-,ha⟩ := answers_bind ha
  rw [if_pos rfl] at ha
  obtain ⟨r,hr,ha⟩ := answers_bind ha
  obtain ⟨r',hr',ha⟩ := answers_bind ha
  obtain ⟨pinBytes,hpin,ha⟩ := answers_bind ha
  obtain ⟨revision,-,ha⟩ := answers_bind ha
  obtain ⟨b'',-,ha⟩ := answers_bind ha
  obtain ⟨u,haudit,-⟩ := answers_bind ha
  have hpin := ok_or_ok.mp (answers_lift.mp hpin)
  refine audit_within h (answers_lift.mp haudit) hpin ?_
  obtain ⟨rows,hrows,hnames,hstored⟩ := answers_required_records h hr
  obtain ⟨more,hmore⟩ := answers_optional_records h hr'
  -- The pin is one of the required records, so the look-up stops there.
  have hmem : pinFile ∈ rows.map Prod.fst := by
    rw [hnames]
    exact List.mem_append_left _ (by simp)
  rw [hmore, hrows, List.nil_append, List.lookup_append] at hpin
  cases hfound : rows.lookup pinFile with
  | none => exact absurd hmem (Assoc.not_mem_keys_of_lookup hfound)
  | some bytes =>
    rw [hfound] at hpin
    obtain rfl := Option.some.inj hpin
    exact hstored _ (Assoc.mem_of_lookup hfound)

end Pins

end Scorpio.Retention
