import Scorpio.Retention.Layout

/-!
# What the readers and an inventory know

A look that answers has found something on the disk. An absent record is really
absent, since a failure from outside is never reported as a missing file; a record
that is read back was decoded from the bytes at its path.

An inventory that was taken without an error is complete: it lists every regular
file and every directory below the scope, there is nothing else, and its sums are
those of all nodes and within the limits.
-/

set_option autoImplicit false

namespace Scorpio.Retention

open ByteText Fallible PageCodec DirectoryTree CrashLogic Queries

/-! ## Calls -/

section Calls

variable (h : Host) {α : Type} {d : Disk} {p : Path}

theorem returns_look {q : Look α} {s t : Machine} {a : α} (hr : Returns (look q) s a t) :
    Answers q s.disk a := ⟨s.tick,hr.1⟩

theorem answers_sense {f : Disk → Except IoError α} {r : Except IoError α}
    (ha : Answers (sense h f) d r) : r = f d ∨ ∃ e, r = .error e ∧ e.kind = .other := by
  obtain ⟨n,hn⟩ := ha
  obtain rfl : (h.fault n).elim (f d) .error = r := Except.ok.inj hn
  cases hf : h.fault n with
  | none => exact .inl rfl
  | some e => exact .inr ⟨e,rfl,h.fault_kind n e hf⟩

theorem answers_metadata_ok {n : Node} (ha : Answers (symlinkMetadata h p) d (.ok n)) :
    d.get p = some n := by
  rcases answers_sense h ha with heq | ⟨e,heq,-⟩
  · unfold node at heq
    split at heq
    · rename_i hget
      rw [hget, Except.ok.inj heq]
    · cases heq
  · cases heq

theorem answers_read_file_ok {bytes : Bytes} (ha : Answers (readFile h p) d (.ok bytes)) :
    d.get p = some (.regular bytes) := by
  rcases answers_sense h ha with heq | ⟨e,heq,-⟩
  · unfold contents at heq
    split at heq
    · rename_i hget
      rw [hget, Except.ok.inj heq]
    · cases heq
    · cases heq
  · cases heq

theorem answers_or_fail {wrap : IoError → SnapshotError} {m : Look (Except IoError α)} {a : α}
    (ha : Answers (orFail wrap m) d a) : Answers m d (.ok a) := by
  obtain ⟨r,hr,ha⟩ := answers_bind ha
  rwa [map_error_ok.mp (answers_lift.mp ha)] at hr

theorem answers_demand {b : Bool} {e : SnapshotError} {u : Unit} (ha : Answers (demand b e) d u) :
    b = true := require_ok.mp (answers_lift.mp ha)

theorem not_answers_fail {e : SnapshotError} {a : α} : ¬ Answers (fail e : Look α) d a := by
  intro ha
  cases answers_lift.mp ha

/-! ## Records -/

/-- What a reader of one record may find. -/
def Stored (f : Format α) (d : Disk) (p : Path) : Option α → Prop
  | some a => ∃ bytes, d.get p = some (.regular bytes) ∧ f.decode bytes = .ok a
  | none => d.get p = none

end Calls

/-! ## Owners -/

section Owners

variable (h : Host) {d : Disk} {store : DurableStore} {b : WorkspaceBinding}

theorem pin_uuid_ok {id : Text} (hid : pinUuid h id = .ok ()) : canonicalUuid id = true := by
  unfold pinUuid at hid
  split_ifs at hid with hc
  exact hc

end Owners

/-! ## Inventories -/

/-- What a node costs in the inventory. -/
def nodeAllocation (p : Path) : ℕ := saturatingMul (displayPath p).length 2+entryAllocation

namespace Inventory

/-- The inventory with a further node. -/
def add (i : Inventory) (row : Path × Node) : Inventory where
  bytes := i.bytes+(entryCharge+row.2.len)
  entries := i.entries+1
  allocation := i.allocation+nodeAllocation row.1
  files := if row.2.isDir then i.files else (row.1,row.2.len) :: i.files
  directories := if row.2.isDir then row.1 :: i.directories else i.directories

structure Fits (limits : CacheLimits) (i : Inventory) : Prop where
  bytes : i.bytes ≤ limits.maxBytes
  entries : i.entries ≤ limits.maxEntries
  allocation : i.allocation ≤ limits.maxInventoryBytes
  counted : i.bytes ≤ usizeMax

section Sums

variable (rows : List (Path × Node)) (i : Inventory)

theorem foldl_add_bytes :
    (rows.foldl add i).bytes = i.bytes+(rows.map fun row => entryCharge+row.2.len).sum := by
  induction rows generalizing i with
  | nil => rfl
  | cons row rows ih =>
    rw [List.foldl_cons, ih, List.map_cons, List.sum_cons]
    exact Nat.add_assoc _ _ _

theorem foldl_add_entries : (rows.foldl add i).entries = i.entries+rows.length := by
  induction rows generalizing i with
  | nil => rfl
  | cons row rows ih =>
    rw [List.foldl_cons, ih, List.length_cons]
    show i.entries+1+rows.length = _
    omega

theorem foldl_add_allocation :
    (rows.foldl add i).allocation = i.allocation+(rows.map fun row => nodeAllocation row.1).sum := by
  induction rows generalizing i with
  | nil => rfl
  | cons row rows ih =>
    rw [List.foldl_cons, ih, List.map_cons, List.sum_cons]
    exact Nat.add_assoc _ _ _

theorem foldl_add_files : (rows.foldl add i).files.Perm
    ((rows.filter fun row => !row.2.isDir).map (fun row => (row.1,row.2.len)) ++ i.files) := by
  induction rows generalizing i with
  | nil => exact List.Perm.refl _
  | cons row rows ih =>
    refine (ih _).trans ?_
    cases hdir : row.2.isDir with
    | true => simp [add, hdir]
    | false =>
      simp only [add, hdir, Bool.false_eq_true, if_false, Bool.not_false, List.filter_cons_of_pos,
        List.map_cons]
      exact List.perm_middle

theorem foldl_add_directories : (rows.foldl add i).directories.Perm
    ((rows.filter fun row => row.2.isDir).map Prod.fst ++ i.directories) := by
  induction rows generalizing i with
  | nil => exact List.Perm.refl _
  | cons row rows ih =>
    refine (ih _).trans ?_
    cases hdir : row.2.isDir with
    | false => simp [add, hdir]
    | true =>
      simp only [add, hdir, if_true, List.filter_cons_of_pos, List.map_cons]
      exact List.perm_middle

end Sums

end Inventory

/-! ## One walk -/

section Walk

variable (h : Host) (limits : CacheLimits) (deadline : ℕ) {d : Disk} {dir : Path}

theorem count_entry_ok {i i' : Inventory} {p : Path} {n : Node}
    (hok : countEntry limits i p n = .ok i') :
    i' = {i with bytes := i.bytes+(entryCharge+n.len), allocation := i.allocation+nodeAllocation p} ∧
      i'.bytes ≤ limits.maxBytes ∧ i'.allocation ≤ limits.maxInventoryBytes ∧
      i'.bytes ≤ usizeMax := by
  obtain ⟨bytes,hbytes,hok⟩ := bind_ok.mp hok
  obtain ⟨_,hcapacity,hok⟩ := bind_ok.mp hok
  obtain ⟨allocation,hallocation,hok⟩ := bind_ok.mp hok
  obtain ⟨_,hbudget,hok⟩ := bind_ok.mp hok
  obtain ⟨hcounted,rfl⟩ := checked_add_some.mp (ok_or_ok.mp hbytes)
  obtain ⟨-,rfl⟩ := checked_add_some.mp (ok_or_ok.mp hallocation)
  cases pure_ok.mp hok
  exact ⟨rfl,by simpa using require_ok.mp hcapacity,by simpa using require_ok.mp hbudget,hcounted⟩

/-- The nodes met by a part of a walk, in the order in which they were counted. -/
structure Met (d : Disk) (i i' : Inventory) (rows : List (Path × Node)) : Prop where
  sums : i' = rows.foldl Inventory.add i
  plain : ∀ row ∈ rows, row.2.isFile ∨ row.2.isDir
  fits : i.Fits limits → i'.Fits limits

theorem Met.nil (i : Inventory) : Met limits d i i [] := ⟨rfl,nofun,id⟩

theorem Met.append {i i' i'' : Inventory} {rows rows' : List (Path × Node)}
    (hm : Met limits d i i' rows) (hm' : Met limits d i' i'' rows') :
    Met limits d i i'' (rows ++ rows') := by
  refine ⟨?_,?_,fun hfits => hm'.fits (hm.fits hfits)⟩
  · rw [List.foldl_append, ← hm.sums]
    exact hm'.sums
  · intro row hrow
    exact (List.mem_append.mp hrow).elim (hm.plain row) (hm'.plain row)

theorem answers_scan_entry {descend : Path → Inventory → Look Inventory} {i i' : Inventory}
    {name : Text} {n : Node} (hget : d.get (name :: dir) = some n)
    (ha : Answers (scanEntry h limits deadline descend dir i (name,n)) d i') :
    Met limits d i (i.add (name :: dir,n)) [(name :: dir,n)] ∧
      if n.isDir then Answers (descend (name :: dir) (i.add (name :: dir,n))) d i'
      else i' = i.add (name :: dir,n) := by
  obtain ⟨_,-,ha⟩ := answers_bind ha
  obtain ⟨_,hentries,ha⟩ := answers_bind ha
  obtain ⟨found,hfound,ha⟩ := answers_bind ha
  obtain ⟨_,hplain,ha⟩ := answers_bind ha
  obtain ⟨counted,hcounted,ha⟩ := answers_bind ha
  have hnode := answers_metadata_ok h (answers_or_fail hfound)
  rw [hget] at hnode
  obtain rfl := Option.some.inj hnode
  obtain ⟨rfl,hbytes,hallocation,hcounted⟩ := count_entry_ok limits (answers_lift.mp hcounted)
  have hentries : i.entries+1 ≤ limits.maxEntries := by simpa using answers_demand hentries
  have hplain : n.isFile ∨ n.isDir := by simpa using answers_demand hplain
  refine ⟨⟨rfl,?_,fun _ => ⟨hbytes,hentries,hallocation,hcounted⟩⟩,?_⟩
  · intro row hrow
    rw [List.mem_singleton.mp hrow]
    exact hplain
  · cases hdir : n.isDir with
    | true =>
      simp only [hdir, if_true] at ha
      simpa [Inventory.add, hdir] using ha
    | false =>
      simp only [hdir, Bool.false_eq_true, if_false, answers_pure] at ha
      simp [Inventory.add, hdir, ← ha, nodeAllocation]

theorem answers_scan_directory {depth : ℕ} {i i' : Inventory}
    (ha : Answers (scanDirectory h limits deadline depth dir i) d i') :
    ∃ rows, rows.Perm (d.below dir) ∧ Met limits d i i' rows := by
  induction depth generalizing dir i i' with
  | zero =>
    obtain ⟨_,-,ha⟩ := answers_bind ha
    exact absurd ha not_answers_fail
  | succ depth ih =>
    obtain ⟨_,-,ha⟩ := answers_bind ha
    obtain ⟨entries,hentries,ha⟩ := answers_bind ha
    have hchildren : entries = d.children dir := by
      rcases answers_sense h (answers_or_fail hentries) with heq | ⟨e,heq,-⟩
      · unfold listing at heq
        split at heq
        · exact Except.ok.inj heq
        · cases heq
        · cases heq
      · cases heq
    subst hchildren
    -- Each entry of the directory is met with everything below it.
    have hloop : ∀ (entries : List (Text × Node)) (i : Inventory),
        (∀ entry ∈ entries, d.get (entry.1 :: dir) = some entry.2) →
        Answers (entries.foldlM
          (scanEntry h limits deadline (scanDirectory h limits deadline depth) dir) i) d i' →
        ∃ rows, rows.Perm (entries.flatMap (d.branch dir)) ∧ Met limits d i i' rows := by
      intro entries
      induction entries with
      | nil =>
        intro i _ hrun
        rw [List.foldlM_nil, answers_pure] at hrun
        subst hrun
        exact ⟨[],List.Perm.refl _,Met.nil limits i⟩
      | cons entry entries ihentries =>
        intro i hgets hrun
        obtain ⟨name,n⟩ := entry
        rw [List.foldlM_cons] at hrun
        obtain ⟨j,hj,hrun⟩ := answers_bind hrun
        have hget := hgets _ List.mem_cons_self
        obtain ⟨hfirst,hnext⟩ := answers_scan_entry h limits deadline hget hj
        obtain ⟨rest,hrest,hmet⟩ :=
          ihentries j (fun e he => hgets e (List.mem_cons_of_mem _ he)) hrun
        cases hdir : n.isDir with
        | true =>
          rw [hdir, if_pos rfl] at hnext
          obtain ⟨deep,hdeep,hbelow⟩ := ih hnext
          refine ⟨[(name :: dir,n)] ++ deep ++ rest,?_,(hfirst.append limits hbelow).append limits hmet⟩
          exact ((hdeep.cons _).append hrest)
        | false =>
          rw [hdir, if_neg (by simp)] at hnext
          subst hnext
          refine ⟨[(name :: dir,n)] ++ rest,?_,hfirst.append limits hmet⟩
          rw [List.flatMap_cons, Tree.branch, Tree.below_of_leaf hget hdir]
          exact hrest.append_left _
    obtain ⟨rows,hrows,hmet⟩ := hloop (d.children dir) i (fun _ => Tree.mem_children.mp) ha
    exact ⟨rows,hrows.trans Tree.walk_perm,hmet⟩

end Walk

/-! ## The inventory of a scope -/

/-- A complete inventory. -/
structure Surveyed (limits : CacheLimits) (d : Disk) (scope : Path) (i : Inventory) : Prop where
  fits : i.Fits limits
  nodup : (Assoc.keys i.files).Nodup
  file : ∀ p n, (p,n) ∈ i.files ↔
    (∃ bytes, d.get p = some (.regular bytes) ∧ bytes.length = n) ∧ Tree.Below scope p
  directory : ∀ p, p ∈ i.directories ↔ d.get p = some .directory ∧ Tree.Below scope p
  plain : ∀ p, Tree.Below scope p → d.get p ≠ some .special
  bytes : i.bytes = ((d.below scope).map fun row => entryCharge+row.2.len).sum
  entries : i.entries = (d.below scope).length
  allocation : i.allocation = ((d.below scope).map fun row => nodeAllocation row.1).sum

section Scopes

variable (h : Host) {limits : CacheLimits} {deadline : ℕ} {d : Disk} {scope p : Path}
  {i : Inventory}

theorem answers_scan (ha : Answers (scan h limits deadline scope) d i) :
    Surveyed limits d scope i := by
  obtain ⟨j,hj,ha⟩ := answers_bind ha
  obtain rfl := answers_pure.mp ha
  obtain ⟨rows,hrows,hmet⟩ := answers_scan_directory h limits deadline hj
  have hfits := hmet.fits ⟨Nat.zero_le _,Nat.zero_le _,Nat.zero_le _,Nat.zero_le _⟩
  have hplain : ∀ row ∈ d.below scope, row.2.isFile ∨ row.2.isDir :=
    fun row hrow => hmet.plain row (hrows.mem_iff.mpr hrow)
  have hsums := hmet.sums
  subst hsums
  have hfiles := (Inventory.foldl_add_files rows ⟨0,0,0,[],[]⟩).trans
    (((hrows.filter _).map _).append_right [])
  have hdirs := (Inventory.foldl_add_directories rows ⟨0,0,0,[],[]⟩).trans
    (((hrows.filter _).map _).append_right [])
  rw [List.append_nil] at hfiles hdirs
  have hsorted := (List.perm_insertionSort (fun a b => pathLe a.1 b.1) _).trans hfiles
  refine ⟨⟨hfits.bytes,hfits.entries,hfits.allocation,hfits.counted⟩,?_,?_,?_,?_,?_,?_,?_⟩
  · refine (hsorted.map Prod.fst).nodup_iff.mpr ?_
    rw [List.map_map]
    have hkeys : ((d.below scope).map Prod.fst).Nodup :=
      List.Nodup.sublist (List.filter_sublist.map Prod.fst) d.nodup
    exact hkeys.sublist (List.filter_sublist.map Prod.fst)
  · intro p n
    rw [hsorted.mem_iff, List.mem_map]
    constructor
    · rintro ⟨⟨q,node⟩,hmem,heq⟩
      obtain ⟨hmem,hleaf⟩ := List.mem_filter.mp hmem
      obtain ⟨hget,hbelow⟩ := Tree.mem_below.mp hmem
      cases heq
      cases node with
      | regular bytes => exact ⟨⟨bytes,hget,rfl⟩,hbelow⟩
      | directory => cases hleaf
      | special => exact absurd (hplain _ hmem) (by simp [Node.isFile, Node.isDir])
    · rintro ⟨⟨bytes,hget,rfl⟩,hbelow⟩
      refine ⟨(p,.regular bytes),List.mem_filter.mpr ⟨Tree.mem_below.mpr ⟨hget,hbelow⟩,?_⟩,rfl⟩
      rfl
  · intro p
    rw [((List.perm_insertionSort _ _).trans hdirs).mem_iff, List.mem_map]
    constructor
    · rintro ⟨⟨q,node⟩,hmem,rfl⟩
      obtain ⟨hmem,hdir⟩ := List.mem_filter.mp hmem
      obtain ⟨hget,hbelow⟩ := Tree.mem_below.mp hmem
      cases node with
      | directory => exact ⟨hget,hbelow⟩
      | regular bytes => cases hdir
      | special => cases hdir
    · rintro ⟨hget,hbelow⟩
      exact ⟨(p,.directory),List.mem_filter.mpr ⟨Tree.mem_below.mpr ⟨hget,hbelow⟩,rfl⟩,rfl⟩
  · intro p hbelow hget
    exact absurd (hplain _ (Tree.mem_below.mpr ⟨hget,hbelow⟩)) (by simp [Node.isFile, Node.isDir])
  · rw [Inventory.foldl_add_bytes, (hrows.map _).sum_eq]
    exact Nat.zero_add _
  · rw [Inventory.foldl_add_entries, hrows.length_eq]
    exact Nat.zero_add _
  · rw [Inventory.foldl_add_allocation, (hrows.map _).sum_eq]
    exact Nat.zero_add _

variable (hs : Surveyed limits d scope i)

include hs

theorem Surveyed.lookup_some {n : ℕ} : i.files.lookup p = some n ↔
    (∃ bytes, d.get p = some (.regular bytes) ∧ bytes.length = n) ∧ Tree.Below scope p :=
  (Assoc.lookup_iff hs.nodup).trans (hs.file p n)

theorem Surveyed.lookup_none (hbelow : Tree.Below scope p) (hnone : i.files.lookup p = none) :
    ∀ bytes, d.get p ≠ some (.regular bytes) := by
  intro bytes hget
  have hsome := hs.lookup_some.mpr ⟨⟨bytes,hget,rfl⟩,hbelow⟩
  rw [hnone] at hsome
  cases hsome

/-- An inventory has far fewer files than a machine word can count. -/
theorem Surveyed.few_files : i.files.length < usizeMax := by
  have hfiles : (Assoc.keys i.files).length ≤ (d.below scope).length := by
    have hsub : Assoc.keys i.files ⊆ (d.below scope).map Prod.fst := by
      intro p hp
      obtain ⟨n,hn⟩ := Assoc.exists_of_mem_keys hp
      obtain ⟨⟨bytes,hget,-⟩,hbelow⟩ := (hs.file p n).mp hn
      exact List.mem_map.mpr ⟨(p,.regular bytes),Tree.mem_below.mpr ⟨hget,hbelow⟩,rfl⟩
    have hlen := (List.subperm_of_subset hs.nodup hsub).length_le
    rwa [List.length_map] at hlen
  have hcharge : (d.below scope).length*entryCharge ≤ i.bytes := by
    rw [hs.bytes]
    have hsum := List.card_nsmul_le_sum ((d.below scope).map fun row => entryCharge+row.2.len)
      entryCharge (by
        intro n hn
        obtain ⟨row,-,rfl⟩ := List.mem_map.mp hn
        exact Nat.le_add_right _ _)
    rwa [List.length_map, smul_eq_mul] at hsum
  have hcounted := hs.fits.counted
  have hkeys : (Assoc.keys i.files).length = i.files.length := List.length_map _
  unfold entryCharge at hcharge
  unfold usizeMax at *
  omega

end Scopes

end Scorpio.Retention
