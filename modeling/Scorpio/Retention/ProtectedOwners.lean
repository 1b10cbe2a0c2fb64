import Scorpio.Retention.OwnerProofs

/-!
# The owners of a scope

Discovery finds every owner directory of the scope, and it fails when one of them
is not in the registry. What the owners protect together is exactly the blobs and
the pages of the retained roots of those that are not retired.
-/

set_option autoImplicit false

namespace Scorpio.Retention

open ByteText Fallible PageCodec DirectoryTree Queries LogicalTree ClosureValidator

/-! ## Discovery -/

/-- Where a discovered owner lives. -/
structure Placed (scope : Path) (owner : RetentionOwner) : Prop where
  uuid : canonicalUuid owner.binding.workspaceId = true
  root : ∃ sid, owner.binding.snapshotId = digest sid ∧
    owner.root = ownerRoot scope (hexName sid) owner.binding.workspaceId

/-- Every registered name has its owner. -/
structure Listed (scope : Path) (acc : Discovery) : Prop where
  placed : ∀ owner ∈ acc.out, Placed scope owner
  found : ∀ sid id, (sid,id) ∈ acc.registered →
    ∃ owner ∈ acc.out, owner.root = ownerRoot scope sid id

section Discovering

variable (h : Host) (limits : CacheLimits) (deadline : ℕ) {d : Disk} {scope : Path}

variable {entries : List (Text × Node)} {acc acc' : Discovery} {entry : Text × Node}

theorem answers_listing {p : Path} (ha : Answers (readDir h p) d (.ok entries)) :
    entries = d.children p := by
  rcases answers_sense h ha with heq | ⟨e,heq,-⟩
  · unfold listing at heq
    split at heq
    · exact Except.ok.inj heq
    · cases heq
    · cases heq
  · cases heq

theorem answers_listing_absent {p : Path} {e : IoError}
    (ha : Answers (readDir h p) d (.error e)) (he : e.kind = .notFound) : d.get p = none := by
  rcases answers_sense h ha with heq | ⟨e',heq,hother⟩
  · unfold listing at heq
    split at heq
    · cases heq
    · cases heq
      cases he
    · assumption
  · cases heq
    rw [hother] at he
    cases he

theorem answers_registered_owner {id : Text} (hid : canonicalUuid id = true)
    (hl : Listed scope acc) (ha : Answers (registeredOwner h limits scope acc id) d acc') :
    Listed scope acc' := by
  obtain ⟨_,-,ha⟩ := answers_bind ha
  obtain ⟨found,-,ha⟩ := answers_bind ha
  obtain ⟨registration,-,ha⟩ := answers_bind ha
  obtain ⟨_,howner,ha⟩ := answers_bind ha
  obtain ⟨sid,hsid,ha⟩ := answers_bind ha
  obtain ⟨binding,-,ha⟩ := answers_bind ha
  obtain ⟨_,hbinding,ha⟩ := answers_bind ha
  obtain ⟨release,-,ha⟩ := answers_bind ha
  have howner : registration.binding.workspaceId = id := by simpa using answers_demand howner
  have hbinding : binding = registration.binding := by simpa using answers_demand hbinding
  have hsid := parse_digest_ok (answers_lift.mp hsid)
  subst hbinding howner
  obtain rfl := answers_pure.mp ha
  constructor
  · intro owner hmem
    rcases List.mem_append.mp hmem with hmem | hmem
    · exact hl.placed owner hmem
    · rw [List.mem_singleton.mp hmem]
      exact ⟨hid,sid,hsid,rfl⟩
  · intro sid' id' hmem
    rcases List.mem_cons.mp hmem with heq | hmem
    · cases heq
      exact ⟨_,List.mem_append_right _ (List.mem_singleton.mpr rfl),rfl⟩
    · obtain ⟨owner,hmem,hroot⟩ := hl.found sid' id' hmem
      exact ⟨owner,List.mem_append_left _ hmem,hroot⟩

theorem answers_registry_entry (hl : Listed scope acc)
    (ha : Answers (registryEntry h limits deadline scope acc entry) d acc') :
    Listed scope acc' := by
  obtain ⟨steps,-,ha⟩ := answers_bind ha
  obtain ⟨name,-,ha⟩ := answers_bind ha
  obtain ⟨n,-,ha⟩ := answers_bind ha
  obtain ⟨_,-,ha⟩ := answers_bind ha
  split at ha
  · obtain ⟨_,-,ha⟩ := answers_bind ha
    obtain rfl := answers_pure.mp ha
    exact ⟨hl.placed,hl.found⟩
  · split_ifs at ha
    · obtain rfl := answers_pure.mp ha
      exact ⟨hl.placed,hl.found⟩
    · obtain ⟨id,-,ha⟩ := answers_bind ha
      obtain ⟨_,hid,ha⟩ := answers_bind ha
      have hcounted : Listed scope {acc with steps := steps} := ⟨hl.placed,hl.found⟩
      exact answers_registered_owner h limits (pin_uuid_ok h (answers_lift.mp hid)) hcounted ha

theorem answers_discover_registry (ha : Answers (discoverRegistry h limits deadline scope) d acc) :
    Listed scope acc := by
  have hempty : Listed scope ⟨0,[],[]⟩ := ⟨nofun,fun _ _ hmem => by cases hmem⟩
  obtain ⟨r,-,ha⟩ := answers_bind ha
  cases r with
  | ok entries =>
    obtain ⟨_,-,ha⟩ := answers_bind ha
    exact Queries.foldlM_invariant (fun acc _ => Listed scope acc)
      (fun _ _ _ _ hl hstep => answers_registry_entry h limits deadline hl hstep) entries hempty ha
  | error e =>
    dsimp only at ha
    split_ifs at ha
    · obtain rfl := answers_pure.mp ha
      exact hempty
    · exact absurd ha not_answers_fail

/-- The second half of discovery only counts and checks. -/
structure Checked (acc acc' : Discovery) : Prop where
  out : acc'.out = acc.out
  registered : acc'.registered = acc.registered

theorem answers_owner_entry {sid : Text}
    (ha : Answers (ownerEntry h limits deadline scope sid acc entry) d acc') :
    Checked acc acc' ∧ (sid,entry.1) ∈ acc.registered := by
  obtain ⟨steps,-,ha⟩ := answers_bind ha
  obtain ⟨id,hid,ha⟩ := answers_bind ha
  obtain ⟨_,-,ha⟩ := answers_bind ha
  obtain ⟨_,-,ha⟩ := answers_bind ha
  obtain ⟨_,hmem,ha⟩ := answers_bind ha
  obtain rfl := answers_pure.mp ha
  obtain ⟨rfl,-⟩ := fromUtf8_some (ok_or_ok.mp (answers_lift.mp hid))
  exact ⟨⟨rfl,rfl⟩,by simpa using answers_demand hmem⟩

theorem answers_owner_entries {sid : Text}
    (ha : Answers (entries.foldlM (ownerEntry h limits deadline scope sid) acc) d acc') :
    Checked acc acc' ∧ ∀ entry ∈ entries, (sid,entry.1) ∈ acc.registered := by
  induction entries generalizing acc with
  | nil =>
    rw [List.foldlM_nil, answers_pure] at ha
    subst ha
    exact ⟨⟨rfl,rfl⟩,nofun⟩
  | cons entry entries ih =>
    rw [List.foldlM_cons] at ha
    obtain ⟨mid,hmid,ha⟩ := answers_bind ha
    obtain ⟨hfirst,hmem⟩ := answers_owner_entry h limits deadline hmid
    obtain ⟨hrest,hall⟩ := ih ha
    rw [hfirst.registered] at hall
    refine ⟨⟨hrest.out.trans hfirst.out,hrest.registered.trans hfirst.registered⟩,?_⟩
    intro e he
    rcases List.mem_cons.mp he with rfl | he
    · exact hmem
    · exact hall e he

theorem answers_view_entry (ha : Answers (viewEntry h limits deadline scope acc entry) d acc') :
    Checked acc acc' ∧ (canonicalHex entry.1 = true → ∀ id n,
      d.get (ownerRoot scope entry.1 id) = some n → (entry.1,id) ∈ acc.registered) := by
  obtain ⟨steps,-,ha⟩ := answers_bind ha
  dsimp only at ha
  split_ifs at ha with hhex
  · obtain ⟨_,-,ha⟩ := answers_bind ha
    obtain ⟨r,hr,ha⟩ := answers_bind ha
    cases r with
    | error e =>
      dsimp only at ha
      split_ifs at ha with he
      · obtain rfl := answers_pure.mp ha
        refine ⟨⟨rfl,rfl⟩,fun _ id n hget => ?_⟩
        obtain ⟨b,hb,-⟩ := Tree.parent_dir hget
        rw [answers_listing_absent h hr he] at hb
        cases hb
      · exact absurd ha not_answers_fail
    | ok entries =>
      obtain ⟨_,-,ha⟩ := answers_bind ha
      obtain rfl := answers_listing h hr
      obtain ⟨hchecked,hall⟩ := answers_owner_entries h limits deadline ha
      exact ⟨⟨hchecked.out,hchecked.registered⟩,fun _ id n hget =>
        hall (id,n) (Tree.mem_children.mpr hget)⟩
  · obtain rfl := answers_pure.mp ha
    exact ⟨⟨rfl,rfl⟩,fun hyes => absurd hyes hhex⟩

theorem answers_view_entries
    (ha : Answers (entries.foldlM (viewEntry h limits deadline scope) acc) d acc') :
    Checked acc acc' ∧ ∀ entry ∈ entries, canonicalHex entry.1 = true → ∀ id n,
      d.get (ownerRoot scope entry.1 id) = some n → (entry.1,id) ∈ acc.registered := by
  induction entries generalizing acc with
  | nil =>
    rw [List.foldlM_nil, answers_pure] at ha
    subst ha
    exact ⟨⟨rfl,rfl⟩,nofun⟩
  | cons entry entries ih =>
    rw [List.foldlM_cons] at ha
    obtain ⟨mid,hmid,ha⟩ := answers_bind ha
    obtain ⟨hfirst,hmem⟩ := answers_view_entry h limits deadline hmid
    obtain ⟨hrest,hall⟩ := ih ha
    rw [hfirst.registered] at hall
    refine ⟨⟨hrest.out.trans hfirst.out,hrest.registered.trans hfirst.registered⟩,?_⟩
    intro e he
    rcases List.mem_cons.mp he with rfl | he
    · exact hmem
    · exact hall e he

/-- Discovery finds every owner directory. -/
theorem answers_discover {owners : List RetentionOwner}
    (ha : Answers (discoverRetentionOwners h limits deadline scope) d owners) :
    (∀ owner ∈ owners, Placed scope owner) ∧ ∀ sid id n, canonicalHex sid = true →
      d.get (ownerRoot scope sid id) = some n →
      ∃ owner ∈ owners, owner.root = ownerRoot scope sid id := by
  obtain ⟨acc,hacc,ha⟩ := answers_bind ha
  obtain ⟨views,hviews,ha⟩ := answers_bind ha
  obtain ⟨acc',hacc',ha⟩ := answers_bind ha
  obtain rfl := answers_pure.mp ha
  obtain rfl := answers_listing h (answers_or_fail hviews)
  have hl := answers_discover_registry h limits deadline hacc
  obtain ⟨hchecked,hall⟩ := answers_view_entries h limits deadline hacc'
  rw [hchecked.out]
  refine ⟨hl.placed,fun sid id n hhex hget => ?_⟩
  have hview : ∃ b, d.get (sid :: scope) = some b ∧ b.isDir = true :=
    Tree.ancestor_dir [id] hget
  obtain ⟨b,hb,-⟩ := hview
  exact hl.found sid id (hall (sid,b) (Tree.mem_children.mpr hb) hhex id n hget)

end Discovering

/-! ## Protection -/

/-- The use record of an owner is on the disk. -/
def Uses (h : Host) (d : Disk) (root : Path) (record : WorkspaceUse) : Prop :=
  Stored h.formats.workspaceUse d (useRecordName :: root) (some record)

theorem uses_unique {h : Host} {d : Disk} {root : Path} {record record' : WorkspaceUse}
    (hu : Uses h d root record) (hu' : Uses h d root record') : record = record' := by
  obtain ⟨bytes,hget,hdecode⟩ := hu
  obtain ⟨bytes',hget',hdecode'⟩ := hu'
  rw [hget] at hget'
  obtain rfl := Node.regular.inj (Option.some.inj hget')
  exact Except.ok.inj (hdecode.symm.trans hdecode')

def contentDigests (closure : ValidatedSnapshotClosure) : List Text :=
  closure.files.map fun file => file.contentDigest

/-- An owner that is not retired, with its retained root. -/
structure Live (h : Host) (d : Disk) (root : Path) (record : WorkspaceUse)
    (closure : ValidatedSnapshotClosure) : Prop where
  uses : Uses h d root record
  unretired : record.retired = false
  retained : RetainedRoot h d root record closure
  pin : PinWithin h d root closure
  blobs : ∀ text ∈ contentDigests closure, ∃ id, text = digest id
  pages : ∀ text ∈ closure.pages.keys, ∃ id, text = digest id

section Contributions

variable (h : Host) (d : Disk) (owner : RetentionOwner)

def RetiredAt (root : Path) : Prop :=
  owner.root = root ∧ ∃ record, Uses h d root record ∧ record.retired = true

def BlobOf (x : Text) : Prop :=
  ∃ record closure, Live h d owner.root record closure ∧ Named (contentDigests closure) x

def PageOf (x : Text) : Prop :=
  ∃ record closure, Live h d owner.root record closure ∧ Named closure.pages.keys x

/-- The use record of an owner was read, and its root was proved unless it is retired. -/
def Accounted : Prop := ∃ record, Uses h d owner.root record ∧
  (record.retired = false → ∃ closure, Live h d owner.root record closure)

end Contributions

/-- What the owners protect so far. -/
structure Shields (h : Host) (d : Disk) (owners : List RetentionOwner) (p : Protection) : Prop where
  accounted : ∀ owner ∈ owners, Accounted h d owner
  retired : ∀ root, root ∈ p.retired ↔ ∃ owner ∈ owners, RetiredAt h d owner root
  blobs : ∀ x, x ∈ p.blobs ↔ ∃ owner ∈ owners, BlobOf h d owner x
  pages : ∀ x, x ∈ p.pages ↔ ∃ owner ∈ owners, PageOf h d owner x

section Protecting

variable (h : Host) {limits : CacheLimits} {d : Disk} {scope : Path} {i : Inventory}

theorem Placed.below {owner : RetentionOwner} (hp : Placed scope owner) (name : Text) :
    Tree.Below scope (name :: owner.root) := by
  obtain ⟨sid,-,hroot⟩ := hp.root
  rw [hroot]
  exact ⟨hexName sid,[name,owner.binding.workspaceId,ownersName],rfl⟩

variable {p p' : Protection} {record : WorkspaceUse}

theorem answers_protect_root {owner : RetentionOwner} {descriptorDigest : Text}
    {hasPin hasComplete : Bool}
    (hpin : hasPin = false → ∀ bytes, d.get (pinFile :: owner.root) ≠ some (.regular bytes))
    (ha : Answers (protectRoot h p i owner descriptorDigest record.pages hasPin hasComplete) d p') :
    ∃ closure, RetainedRoot h d owner.root record closure ∧ PinWithin h d owner.root closure ∧
      (∀ text ∈ contentDigests closure, ∃ id, text = digest id) ∧
      (∀ text ∈ closure.pages.keys, ∃ id, text = digest id) ∧ p'.retired = p.retired ∧
      (∀ x, x ∈ p'.blobs ↔ Named (contentDigests closure) x ∨ x ∈ p.blobs) ∧
      ∀ x, x ∈ p'.pages ↔ Named closure.pages.keys x ∨ x ∈ p.pages := by
  obtain ⟨r,hr,ha⟩ := answers_bind ha
  obtain ⟨_,-,ha⟩ := answers_bind ha
  obtain ⟨b,-,ha⟩ := answers_bind ha
  obtain ⟨b',hb',ha⟩ := answers_bind ha
  obtain ⟨blobs,hblobs,ha⟩ := answers_bind ha
  obtain ⟨pages,hpages,ha⟩ := answers_bind ha
  obtain rfl := answers_pure.mp ha
  obtain ⟨hblobTexts,hblobNames⟩ := answers_protect_names h hblobs
  obtain ⟨hpageTexts,hpageNames⟩ := answers_protect_names h hpages
  refine ⟨r.1,answers_retained_root h hr,?_,hblobTexts,hpageTexts,rfl,hblobNames,hpageNames⟩
  cases hasPin with
  | true => exact answers_validate_pin h hb'
  | false =>
    rintro _ _ (⟨hget,-,-⟩ | ⟨hget,-,-⟩)
    · exact absurd hget (hpin rfl _)
    · exact absurd hget (hpin rfl _)

theorem Live.closure_unique {root : Path} {record' : WorkspaceUse}
    {closure closure' : ValidatedSnapshotClosure} (hl : Live h d root record closure)
    (hl' : Live h d root record' closure') : closure' = closure := by
  have hretained := hl'.retained
  rw [uses_unique hl'.uses hl.uses] at hretained
  exact retained_root_unique hretained hl.retained

theorem Live.not_retired {root : Path} {record' : WorkspaceUse}
    {closure : ValidatedSnapshotClosure} (hl : Live h d root record closure)
    (hu : Uses h d root record') : record'.retired = false := by
  rw [uses_unique hu hl.uses]
  exact hl.unretired

/-- One owner adds its own contribution to what is protected. -/
theorem answers_protect_owner {owner : RetentionOwner} (hs : Surveyed limits d scope i)
    (hp : Placed scope owner) (ha : Answers (protectOwner h i p owner) d p') :
    Accounted h d owner ∧ (∀ root, root ∈ p'.retired ↔ RetiredAt h d owner root ∨ root ∈ p.retired) ∧
      (∀ x, x ∈ p'.blobs ↔ BlobOf h d owner x ∨ x ∈ p.blobs) ∧
      ∀ x, x ∈ p'.pages ↔ PageOf h d owner x ∨ x ∈ p.pages := by
  obtain ⟨b,-,ha⟩ := answers_bind ha
  obtain ⟨_,-,ha⟩ := answers_bind ha
  obtain ⟨r,hr,ha⟩ := answers_bind ha
  obtain ⟨record,hrecord,ha⟩ := answers_bind ha
  obtain ⟨_,-,ha⟩ := answers_bind ha
  have huses : Uses h d owner.root record :=
    ⟨r.1,answers_required_entry h hr,map_error_ok.mp (answers_lift.mp hrecord)⟩
  dsimp only at ha
  split_ifs at ha with hretired
  · obtain ⟨_,-,ha⟩ := answers_bind ha
    obtain rfl := answers_pure.mp ha
    have hnever : ∀ record' closure, ¬ Live h d owner.root record' closure := by
      intro record' closure hlive
      have hun := hlive.not_retired h huses
      rw [hretired] at hun
      cases hun
    refine ⟨⟨record,huses,fun hun => ?_⟩,fun root => ?_,fun x => ?_,fun x => ?_⟩
    · rw [hretired] at hun
      cases hun
    · rw [List.mem_cons]
      refine or_congr_left ⟨?_,fun hat => hat.1.symm⟩
      rintro rfl
      exact ⟨rfl,record,huses,hretired⟩
    · refine ⟨.inr,fun hx => hx.resolve_left ?_⟩
      rintro ⟨record',closure,hlive,-⟩
      exact hnever record' closure hlive
    · refine ⟨.inr,fun hx => hx.resolve_left ?_⟩
      rintro ⟨record',closure,hlive,-⟩
      exact hnever record' closure hlive
  · obtain ⟨descriptorDigest,-,ha⟩ := answers_bind ha
    have hpin : (i.files.lookup (pinFile :: owner.root)).isSome = false →
        ∀ bytes, d.get (pinFile :: owner.root) ≠ some (.regular bytes) :=
      fun hnone => hs.lookup_none (hp.below pinFile) (by simpa using hnone)
    obtain ⟨closure,hroot,hwithin,hfiles,hkeys,hsame,hblobs,hpages⟩ :=
      answers_protect_root h hpin ha
    have hlive : Live h d owner.root record closure :=
      ⟨huses,by simpa using hretired,hroot,hwithin,hfiles,hkeys⟩
    refine ⟨⟨record,huses,fun _ => ⟨closure,hlive⟩⟩,fun root => ?_,fun x => ?_,fun x => ?_⟩
    · rw [hsame]
      refine ⟨.inr,fun hx => hx.resolve_left ?_⟩
      rintro ⟨rfl,record',huses',hretired'⟩
      have hun := hlive.not_retired h huses'
      rw [hretired'] at hun
      cases hun
    · rw [hblobs]
      refine or_congr_left ⟨fun hname => ⟨record,closure,hlive,hname⟩,?_⟩
      rintro ⟨record',closure',hlive',hname⟩
      exact hlive.closure_unique h hlive' ▸ hname
    · rw [hpages]
      refine or_congr_left ⟨fun hname => ⟨record,closure,hlive,hname⟩,?_⟩
      rintro ⟨record',closure',hlive',hname⟩
      exact hlive.closure_unique h hlive' ▸ hname

theorem gathered_append {done : List RetentionOwner} {owner : RetentionOwner}
    {Q : RetentionOwner → Prop} {A A' : Prop} (hA : A ↔ ∃ o ∈ done, Q o) (hA' : A' ↔ Q owner ∨ A) :
    A' ↔ ∃ o ∈ done ++ [owner], Q o := by
  rw [hA', hA, or_comm]
  simp only [List.mem_append, List.mem_singleton, or_and_right, exists_or, exists_eq_left]

theorem answers_protect_owners {owners done : List RetentionOwner}
    (hs : Surveyed limits d scope i) (hplaced : ∀ owner ∈ owners, Placed scope owner)
    (hd : Shields h d done p) (ha : Answers (owners.foldlM (protectOwner h i) p) d p') :
    Shields h d (done ++ owners) p' := by
  induction owners generalizing done p with
  | nil =>
    rw [List.foldlM_nil, answers_pure] at ha
    subst ha
    rwa [List.append_nil]
  | cons owner owners ih =>
    rw [List.foldlM_cons] at ha
    obtain ⟨q,hq,ha⟩ := answers_bind ha
    obtain ⟨haccount,hretired,hblobs,hpages⟩ :=
      answers_protect_owner h hs (hplaced owner List.mem_cons_self) hq
    have hnext : Shields h d (done ++ [owner]) q := by
      refine ⟨?_,fun root => gathered_append (hd.retired root) (hretired root),
        fun x => gathered_append (hd.blobs x) (hblobs x),
        fun x => gathered_append (hd.pages x) (hpages x)⟩
      intro o ho
      rcases List.mem_append.mp ho with ho | ho
      · exact hd.accounted o ho
      · rw [List.mem_singleton.mp ho]
        exact haccount
    have hrest := ih (fun o ho => hplaced o (List.mem_cons_of_mem _ ho)) hnext ha
    rwa [List.append_assoc] at hrest

theorem shields_nil (b : CollectionBudget) : Shields h d [] ⟨b,[],[],[]⟩ := by
  constructor <;> simp

end Protecting

end Scorpio.Retention
