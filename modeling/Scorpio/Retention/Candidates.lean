import Scorpio.Retention.ProtectedOwners

/-!
# What a collection may remove

Every file that a pass selects is one that nobody needs: a blob or a page outside
every retained root, metadata of a retired owner, an accepted intent or the
temporary file that it declares, or the temporary file of a control record. The
pass has found a class for every file of the scope before it selects anything.
-/

set_option autoImplicit false

namespace Scorpio.Retention

open ByteText Fallible PageCodec Queries

/-! ## Classes of files -/

section Classes

variable (h : Host) (limits : CacheLimits) (scope : Path) (owners : List RetentionOwner) (d : Disk)

/-- An intent that the collector accepts, with the temporary file that it declares. -/
inductive Intent : Path → Option (Path × ℕ) → Prop
  | hydration {name id : Text} {bytes : Bytes}
      (hget : d.get (name :: intentsName :: scope) = some (.regular bytes))
      (hsize : bytes.length ≤ controlBytes) (hname : stripSuffix name hydrateSuffix = some id)
      (hok : acceptHydrationIntent h limits owners id bytes = .ok ()) :
      Intent (name :: intentsName :: scope) none
  | writer {name id : Text} {bytes : Bytes} {temporary : Path} {maximum : ℕ}
      (hget : d.get (name :: intentsName :: scope) = some (.regular bytes))
      (hsize : bytes.length ≤ controlBytes) (hhydrate : stripSuffix name hydrateSuffix = none)
      (hname : stripSuffix name jsonSuffix = some id)
      (hok : acceptWriterIntent h scope limits owners id bytes = .ok (temporary,maximum)) :
      Intent (name :: intentsName :: scope) (some (temporary,maximum))

/-- A file of at most so many bytes. -/
def SmallFile (p : Path) (maximum : ℕ) : Prop :=
  ∃ bytes, d.get p = some (.regular bytes) ∧ bytes.length ≤ maximum

inductive Disposable : Path → Prop
  | blob {name : Text} (hname : canonicalHex name = true)
      (hfree : ∀ owner ∈ owners, ¬ BlobOf h d owner name) : Disposable (name :: blobDir :: scope)
  | page {name : Text} (hname : canonicalHex name = true)
      (hfree : ∀ owner ∈ owners, ¬ PageOf h d owner name) : Disposable (name :: pagesName :: scope)
  | metadata {owner : RetentionOwner} {path : Path} (howner : owner ∈ owners)
      (hretired : RetiredAt h d owner owner.root)
      (hplace : (metadataDir :: owner.root) <:+ path ∨ (retentionDir :: owner.root) <:+ path ∨
        ∃ name ∈ retiredNames, path = name :: owner.root) : Disposable path
  | intent {path : Path} {declares : Option (Path × ℕ)}
      (hintent : Intent h limits scope owners d path declares) : Disposable path
  | temporary {path temporary : Path} {maximum : ℕ}
      (hintent : Intent h limits scope owners d path (some (temporary,maximum)))
      (hsize : SmallFile d temporary maximum) : Disposable temporary
  | control {path : Path} (hcontrol : rawControlTemporary scope path = .ok true)
      (hsize : SmallFile d path controlBytes) : Disposable path

end Classes

/-! ## Names below the scope -/

section Names

variable {scope path : Path} {relative : List Text} {roots : List Path}

theorem relative_to_some : relativeTo scope path = some relative ↔ path = relative ++ scope := by
  unfold relativeTo
  constructor
  · intro hsome
    split_ifs at hsome with hsuffix
    obtain ⟨above,rfl⟩ := hsuffix
    simp only [List.length_append, Nat.add_sub_cancel, List.take_left, Option.some.injEq] at hsome
    rw [hsome]
  · rintro rfl
    rw [if_pos (List.suffix_append _ _)]
    simp

theorem parts_ok : parts scope path = .ok relative ↔
    path = relative ++ scope ∧ relative.all validUtf8 = true := by
  unfold parts
  rw [bind_ok]
  constructor
  · rintro ⟨found,hfound,hok⟩
    obtain ⟨_,hutf,hok⟩ := bind_ok.mp hok
    cases pure_ok.mp hok
    exact ⟨relative_to_some.mp (ok_or_ok.mp hfound),require_ok.mp hutf⟩
  · rintro ⟨hpath,hutf⟩
    refine ⟨relative,ok_or_ok.mpr (relative_to_some.mpr hpath),?_⟩
    rw [hutf]
    rfl

theorem valid_final_ok : validFinalFile scope path roots = .ok true ↔
    ∃ name above, path = name :: above ++ scope ∧ (name :: above).all validUtf8 = true ∧
      finalName scope roots name above = true := by
  unfold validFinalFile
  rw [bind_ok]
  constructor
  · rintro ⟨found,hfound,hok⟩
    obtain ⟨hpath,hutf⟩ := parts_ok.mp hfound
    cases found with
    | nil => cases hok
    | cons name above => exact ⟨name,above,hpath,hutf,pure_ok.mp hok⟩
  · rintro ⟨name,above,hpath,hutf,hfinal⟩
    refine ⟨name :: above,parts_ok.mpr ⟨hpath,hutf⟩,?_⟩
    exact pure_ok.mpr hfinal

theorem not_valid_in_intents {name : Text} :
    validFinalFile scope (name :: intentsName :: scope) roots ≠ .ok true := by
  intro hvalid
  obtain ⟨name',above,heq,-,hfinal⟩ := valid_final_ok.mp hvalid
  obtain ⟨rfl,habove⟩ := List.cons.inj heq
  obtain rfl : above = [intentsName] :=
    (List.append_cancel_right (show [intentsName] ++ scope = above ++ scope from habove)).symm
  rw [finalName] at hfinal
  revert hfinal
  have hblob : intentsName ≠ blobDir := by decide
  have hpages : intentsName ≠ pagesName := by decide
  have hregistry : intentsName ≠ registryDir := by decide
  simp [hblob, hpages, hregistry]

end Names

/-! ## Control records and intents -/

section Loops

variable (h : Host) {limits : CacheLimits} {scope : Path} {owners : List RetentionOwner} {d : Disk}
  {i : Inventory}

theorem answers_control_temporary {s s' : List Path × CollectionBudget} {file : Path × ℕ}
    (ha : Answers (controlTemporary h scope s file) d s') :
    (rawControlTemporary scope file.1 = .ok true ∧ file.2 ≤ controlBytes ∧ s'.1 = s.1 ++ [file.1]) ∨
      (rawControlTemporary scope file.1 = .ok false ∧ s'.1 = s.1) := by
  obtain ⟨b,-,ha⟩ := answers_bind ha
  obtain ⟨control,hcontrol,ha⟩ := answers_bind ha
  have hcontrol := answers_lift.mp hcontrol
  cases control with
  | true =>
    rw [if_pos rfl] at ha
    obtain ⟨_,hsize,ha⟩ := answers_bind ha
    obtain ⟨b',-,ha⟩ := answers_bind ha
    obtain rfl := answers_pure.mp ha
    exact .inl ⟨hcontrol,by simpa using answers_demand hsize,rfl⟩
  | false =>
    rw [if_neg Bool.false_ne_true] at ha
    obtain rfl := answers_pure.mp ha
    exact .inr ⟨hcontrol,rfl⟩

/-- The temporaries of control records among the files, in their order. -/
structure Controls (scope : Path) (files : List (Path × ℕ)) (control : List Path) : Prop where
  sublist : control.Sublist (Assoc.keys files)
  small : ∀ q ∈ control, rawControlTemporary scope q = .ok true ∧ ∃ n ≤ controlBytes, (q,n) ∈ files
  rest : ∀ q ∈ Assoc.keys files, q ∉ control → rawControlTemporary scope q = .ok false

theorem answers_control_temporaries {files : List (Path × ℕ)} {s s' : List Path × CollectionBudget}
    (ha : Answers (files.foldlM (controlTemporary h scope) s) d s') :
    ∃ control, s'.1 = s.1 ++ control ∧ Controls scope files control := by
  induction files generalizing s with
  | nil =>
    rw [List.foldlM_nil, answers_pure] at ha
    subst ha
    exact ⟨[],(List.append_nil _).symm,List.Sublist.refl _,nofun,nofun⟩
  | cons file files ih =>
    rw [List.foldlM_cons] at ha
    obtain ⟨t,ht,ha⟩ := answers_bind ha
    obtain ⟨control,hlist,hrest⟩ := ih ha
    obtain ⟨p,n⟩ := file
    have hsmall : ∀ q ∈ control, rawControlTemporary scope q = .ok true ∧
        ∃ k ≤ controlBytes, (q,k) ∈ (p,n) :: files := by
      intro q hq
      obtain ⟨hyes,k,hk,hmem⟩ := hrest.small q hq
      exact ⟨hyes,k,hk,List.mem_cons_of_mem _ hmem⟩
    rcases answers_control_temporary h ht with ⟨hyes,hsize,hstep⟩ | ⟨hno,hstep⟩
    · refine ⟨p :: control,?_,hrest.sublist.cons_cons _,?_,?_⟩
      · rw [hlist, hstep, List.append_assoc]
        rfl
      · intro q hq
        rcases List.mem_cons.mp hq with rfl | hq
        · exact ⟨hyes,n,hsize,List.mem_cons_self⟩
        · exact hsmall q hq
      · intro q hq hnot
        rcases List.mem_cons.mp hq with rfl | hq
        · exact absurd List.mem_cons_self hnot
        · exact hrest.rest q hq fun hin => hnot (List.mem_cons_of_mem _ hin)
    · refine ⟨control,by rw [hlist, hstep],hrest.sublist.cons _,hsmall,?_⟩
      intro q hq hnot
      rcases List.mem_cons.mp hq with rfl | hq
      · exact hno
      · exact hrest.rest q hq hnot

/-- The orphans that belong to the intents seen so far. -/
structure OrphansOf (h : Host) (limits : CacheLimits) (scope : Path) (owners : List RetentionOwner)
    (d : Disk) (i : Inventory) (seen : List Path) (o : Orphans) : Prop where
  intents : ∀ path ∈ seen, ∃ declares, Intent h limits scope owners d path declares
  temporaries : ∀ q ∈ o.temporaries, ∃ path maximum,
    Intent h limits scope owners d path (some (q,maximum)) ∧ SmallFile d q maximum
  listed : o.temporaries ⊆ Assoc.keys i.files
  nodup : o.temporaries.Nodup
  groups : o.groups.flatten.Perm (o.temporaries ++ seen)

theorem orphan_group_ok (hs : Surveyed limits d scope i) {seen : List Path} {o o' : Orphans}
    {path temporary : Path} {maximum : ℕ}
    (hi : Intent h limits scope owners d path (some (temporary,maximum)))
    (ho : OrphansOf h limits scope owners d i seen o)
    (hok : orphanGroup i o path temporary maximum = .ok o') :
    OrphansOf h limits scope owners d i (seen ++ [path]) o' := by
  have hintents : ∀ q ∈ seen ++ [path], ∃ declares, Intent h limits scope owners d q declares := by
    intro q hq
    rcases List.mem_append.mp hq with hq | hq
    · exact ho.intents q hq
    · rw [List.mem_singleton.mp hq]
      exact ⟨_,hi⟩
  unfold orphanGroup at hok
  split at hok
  · cases hok
    refine ⟨hintents,ho.temporaries,ho.listed,ho.nodup,?_⟩
    rw [List.flatten_append, List.flatten_singleton, ← List.append_assoc]
    exact ho.groups.append_right _
  · rename_i size hsize
    obtain ⟨_,hbound,hok⟩ := bind_ok.mp hok
    cases pure_ok.mp hok
    have hbound := require_ok.mp hbound
    simp only [decide_eq_true_eq] at hbound
    obtain ⟨⟨bytes,hget,rfl⟩,-⟩ := hs.lookup_some.mp hsize
    refine ⟨hintents,?_,?_,List.nodup_cons.mpr ⟨hbound.2,ho.nodup⟩,?_⟩
    · intro q hq
      rcases List.mem_cons.mp hq with rfl | hq
      · exact ⟨path,maximum,hi,bytes,hget,hbound.1⟩
      · exact ho.temporaries q hq
    · intro q hq
      rcases List.mem_cons.mp hq with rfl | hq
      · exact Assoc.mem_keys_of_mem (Assoc.mem_of_lookup hsize)
      · exact ho.listed hq
    · rw [List.flatten_append, List.flatten_singleton]
      calc o.groups.flatten ++ [temporary,path]
          = (o.groups.flatten ++ [temporary]) ++ [path] := by simp
        _ |>.Perm ((o.temporaries ++ seen ++ [temporary]) ++ [path]) :=
          (ho.groups.append_right _).append_right _
        _ |>.Perm ((temporary :: (o.temporaries ++ seen)) ++ [path]) :=
          (List.perm_append_singleton _ _).append_right _
        _ = temporary :: o.temporaries ++ (seen ++ [path]) := by simp

theorem answers_collect_intent (hs : Surveyed limits d scope i) {seen : List Path} {name : Text}
    {s s' : Orphans × CollectionBudget} (ho : OrphansOf h limits scope owners d i seen s.1)
    (ha : Answers (collectIntent h scope limits owners i s (name :: intentsName :: scope)) d s') :
    OrphansOf h limits scope owners d i (seen ++ [name :: intentsName :: scope]) s'.1 := by
  obtain ⟨text,htext,ha⟩ := answers_bind ha
  obtain ⟨r,hr,ha⟩ := answers_bind ha
  obtain ⟨o,hgroup,ha⟩ := answers_bind ha
  obtain ⟨b,-,ha⟩ := answers_bind ha
  obtain rfl := answers_pure.mp ha
  obtain ⟨rfl,-⟩ := fromUtf8_some (ok_or_ok.mp (answers_lift.mp htext))
  have hget := answers_required_entry h hr
  have hsize := answers_required_size h hr
  have hgroup := answers_lift.mp hgroup
  unfold intentGroup at hgroup
  split at hgroup
  · rename_i id hid
    obtain ⟨_,hok,hgroup⟩ := bind_ok.mp hgroup
    cases pure_ok.mp hgroup
    refine ⟨?_,ho.temporaries,ho.listed,ho.nodup,?_⟩
    · intro q hq
      rcases List.mem_append.mp hq with hq | hq
      · exact ho.intents q hq
      · rw [List.mem_singleton.mp hq]
        exact ⟨_,.hydration hget hsize hid hok⟩
    · rw [List.flatten_append, List.flatten_singleton, ← List.append_assoc]
      exact ho.groups.append_right _
  · rename_i hnone
    obtain ⟨id,hid,hgroup⟩ := bind_ok.mp hgroup
    obtain ⟨⟨temporary,maximum⟩,hok,hgroup⟩ := bind_ok.mp hgroup
    exact orphan_group_ok h hs (.writer hget hsize hnone (ok_or_ok.mp hid) hok) ho hgroup

theorem is_intent_iff {path : Path} :
    isIntent scope path = true ↔ ∃ name, path = name :: intentsName :: scope := by
  simp only [isIntent, decide_eq_true_eq]
  constructor
  · intro htail
    cases path with
    | nil => cases htail
    | cons name above =>
      obtain rfl : above = intentsName :: scope := htail
      exact ⟨name,rfl⟩
  · rintro ⟨name,rfl⟩
    rfl

theorem answers_collect_intents (hs : Surveyed limits d scope i) {paths seen : List Path}
    (hpaths : ∀ path ∈ paths, isIntent scope path = true) {s s' : Orphans × CollectionBudget}
    (ho : OrphansOf h limits scope owners d i seen s.1)
    (ha : Answers (paths.foldlM (collectIntent h scope limits owners i) s) d s') :
    OrphansOf h limits scope owners d i (seen ++ paths) s'.1 := by
  induction paths generalizing seen s with
  | nil =>
    rw [List.foldlM_nil, answers_pure] at ha
    subst ha
    rwa [List.append_nil]
  | cons path paths ih =>
    rw [List.foldlM_cons] at ha
    obtain ⟨t,ht,hrest⟩ := answers_bind ha
    obtain ⟨name,rfl⟩ := is_intent_iff.mp (hpaths path List.mem_cons_self)
    have hnext := answers_collect_intent h hs ho ht
    have hlast := ih (fun q hq => hpaths q (List.mem_cons_of_mem _ hq)) hnext hrest
    rwa [List.append_assoc] at hlast

/-- A declared temporary file lies where final files lie, never among the intents. -/
theorem Intent.temporary_place {path temporary : Path} {maximum : ℕ}
    (hi : Intent h limits scope owners d path (some (temporary,maximum))) :
    isIntent scope temporary = false := by
  cases hi with
  | writer hget hsize hhydrate hname hok =>
    obtain ⟨_,-,hok⟩ := bind_ok.mp hok
    obtain ⟨intent,-,hok⟩ := bind_ok.mp hok
    obtain ⟨_,-,hok⟩ := bind_ok.mp hok
    obtain ⟨_,-,hok⟩ := bind_ok.mp hok
    obtain ⟨_,-,hok⟩ := bind_ok.mp hok
    obtain ⟨known,hknown,hok⟩ := bind_ok.mp hok
    obtain ⟨_,hvalid,hok⟩ := bind_ok.mp hok
    cases pure_ok.mp hok
    have hvalid := require_ok.mp hvalid
    subst hvalid
    by_contra hin
    obtain ⟨name,heq⟩ := is_intent_iff.mp (by simpa using hin)
    obtain ⟨-,habove⟩ := List.cons.inj heq
    rw [habove] at hknown
    exact not_valid_in_intents hknown

end Loops

/-! ## Final files -/

section Finals

variable (h : Host) {limits : CacheLimits} {scope : Path} {owners : List RetentionOwner} {d : Disk}
  {p : Protection}

theorem retired_root_mem {retired : List Path} {path root : Path}
    (hr : retiredRoot retired path = some root) : root ∈ retired := by
  simpa using List.find?_some hr

theorem stale_name_iff {directory : Text} {kept : List Text} {path : Path} :
    staleName scope directory kept path = true ↔
      ∃ name, path = name :: directory :: scope ∧ canonicalHex name = true ∧ name ∉ kept := by
  unfold staleName
  rw [decide_eq_true_eq]
  constructor
  · rintro ⟨htail,hhex,hkept⟩
    cases path with
    | nil => cases htail
    | cons name above =>
      obtain rfl : above = directory :: scope := htail
      exact ⟨name,rfl,hhex,hkept⟩
  · rintro ⟨name,rfl,hhex,hkept⟩
    exact ⟨rfl,hhex,hkept⟩

/-- What nothing protects may go. -/
theorem unprotected_disposable (hd : Shields h d owners p) {path : Path}
    (hu : unprotected scope p path = true) : Disposable h limits scope owners d path := by
  simp only [unprotected, decide_eq_true_eq] at hu
  rcases hu with hu | hu | hu
  · obtain ⟨name,rfl,hhex,hkept⟩ := stale_name_iff.mp hu
    exact .blob hhex fun owner howner hof => hkept ((hd.blobs name).mpr ⟨owner,howner,hof⟩)
  · obtain ⟨name,rfl,hhex,hkept⟩ := stale_name_iff.mp hu
    exact .page hhex fun owner howner hof => hkept ((hd.pages name).mpr ⟨owner,howner,hof⟩)
  · simp only [retiredMetadata, Option.any_eq_true] at hu
    obtain ⟨root,hroot,hplace⟩ := hu
    obtain ⟨owner,howner,rfl,hrecord⟩ := (hd.retired root).mp (retired_root_mem hroot)
    refine .metadata howner ⟨rfl,hrecord⟩ ?_
    simp only [decide_eq_true_eq] at hplace
    rcases hplace with hplace | hplace | ⟨htail,hname⟩
    · exact .inl hplace
    · exact .inr (.inl hplace)
    · cases path with
      | nil => exact absurd hname (by decide)
      | cons name above =>
        obtain rfl : above = owner.root := htail
        exact .inr (.inr ⟨name,hname,rfl⟩)

/-- The files that earlier loops have dealt with. -/
def Handled (scope : Path) (control : List Path) (o : Orphans) (path : Path) : Prop :=
  path ∈ control ∨ path ∈ o.temporaries ∨ isIntent scope path = true

/-- A final file that the pass may remove. -/
structure Stale (scope : Path) (p : Protection) (control : List Path) (o : Orphans) (path : Path) :
    Prop where
  alone : control = []
  unhandled : ¬ Handled scope control o path
  unprotected : unprotected scope p path = true

theorem answers_final_candidate {control : List Path} {o : Orphans}
    {s s' : List (List Path) × CollectionBudget} {file : Path × ℕ}
    (ha : Answers (finalCandidate h scope owners p control o s file) d s') :
    (Handled scope control o file.1 ∨ validFinalFile scope file.1 (ownerRoots owners) = .ok true) ∧
      (s'.1 = s.1 ∧ ¬ Stale scope p control o file.1 ∨
        s'.1 = s.1 ++ [[file.1]] ∧ Stale scope p control o file.1) := by
  obtain ⟨b,-,ha⟩ := answers_bind ha
  split at ha
  · rename_i hother
    obtain rfl := answers_pure.mp ha
    exact ⟨.inl hother,.inl ⟨rfl,fun hstale => hstale.unhandled hother⟩⟩
  · rename_i hother
    obtain ⟨known,hknown,ha⟩ := answers_bind ha
    obtain ⟨_,hvalid,hrest⟩ := answers_bind ha
    have hvalid := answers_demand hvalid
    subst hvalid
    refine ⟨.inr (answers_lift.mp hknown),?_⟩
    split at hrest
    · rename_i hstale
      obtain ⟨b',-,hlast⟩ := answers_bind hrest
      obtain rfl := answers_pure.mp hlast
      exact .inr ⟨rfl,hstale.1,hother,hstale.2⟩
    · rename_i hkeep
      obtain rfl := answers_pure.mp hrest
      exact .inl ⟨rfl,fun hstale => hkeep ⟨hstale.alone,hstale.unprotected⟩⟩

/-- The final files to remove, one group each, in the order of the inventory. -/
structure Finals (scope : Path) (owners : List RetentionOwner) (p : Protection)
    (control : List Path) (o : Orphans) (files : List (Path × ℕ)) (stale : List Path) : Prop where
  classed : ∀ q ∈ Assoc.keys files,
    Handled scope control o q ∨ validFinalFile scope q (ownerRoots owners) = .ok true
  sublist : stale.Sublist (Assoc.keys files)
  stale_iff : ∀ q ∈ Assoc.keys files, q ∈ stale ↔ Stale scope p control o q

theorem answers_final_candidates {control : List Path} {o : Orphans} {files : List (Path × ℕ)}
    {s s' : List (List Path) × CollectionBudget} (hnodup : (Assoc.keys files).Nodup)
    (ha : Answers (files.foldlM (finalCandidate h scope owners p control o) s) d s') :
    ∃ stale, s'.1 = s.1 ++ stale.map (fun q => [q]) ∧ Finals scope owners p control o files stale := by
  induction files generalizing s with
  | nil =>
    rw [List.foldlM_nil, answers_pure] at ha
    subst ha
    exact ⟨[],(List.append_nil _).symm,nofun,List.Sublist.refl _,nofun⟩
  | cons file files ih =>
    rw [List.foldlM_cons] at ha
    obtain ⟨t,ht,ha⟩ := answers_bind ha
    obtain ⟨hfresh,hnodup⟩ := List.nodup_cons.mp hnodup
    obtain ⟨hclass,hstep⟩ := answers_final_candidate h ht
    obtain ⟨stale,hlist,hrest⟩ := ih hnodup ha
    have hclassed : ∀ q ∈ Assoc.keys (file :: files), Handled scope control o q ∨
        validFinalFile scope q (ownerRoots owners) = .ok true := by
      intro q hq
      rcases List.mem_cons.mp hq with rfl | hq
      · exact hclass
      · exact hrest.classed q hq
    rcases hstep with ⟨hsame,hkeep⟩ | ⟨hmore,hstale⟩
    · refine ⟨stale,by rw [hlist, hsame],hclassed,hrest.sublist.cons _,fun q hq => ?_⟩
      rcases List.mem_cons.mp hq with rfl | hq
      · exact ⟨fun hin => absurd (hrest.sublist.subset hin) hfresh,fun hst => absurd hst hkeep⟩
      · exact hrest.stale_iff q hq
    · refine ⟨file.1 :: stale,?_,hclassed,hrest.sublist.cons_cons _,fun q hq => ?_⟩
      · rw [hlist, hmore, List.append_assoc]
        rfl
      · rw [List.mem_cons]
        rcases List.mem_cons.mp hq with rfl | hq
        · exact ⟨fun _ => hstale,fun _ => .inl rfl⟩
        · rw [hrest.stale_iff q hq]
          refine ⟨fun hin => hin.elim (fun heq => heq ▸ hstale) fun hst => hst,.inr⟩

end Finals

/-! ## Selection -/

section Selecting

variable (h : Host) {limits : CacheLimits} {i : Inventory} {d : Disk}

def sizeOf (i : Inventory) (path : Path) : ℕ := (i.files.lookup path).getD 0

theorem group_bytes_ok {group : List Path} {start bytes : ℕ}
    (hok : group.foldlM (fun sum path => checkedBytes "collection delete size overflow" sum
      ((i.files.lookup path).getD 0)) start = .ok bytes) :
    bytes = start+(group.map (sizeOf i)).sum := by
  induction group generalizing start with
  | nil =>
    cases pure_ok.mp hok
    rfl
  | cons path group ih =>
    rw [List.foldlM_cons] at hok
    obtain ⟨sum,hsum,hok⟩ := bind_ok.mp hok
    obtain ⟨-,rfl⟩ := checked_add_some.mp (ok_or_ok.mp hsum)
    rw [ih hok, List.map_cons, List.sum_cons]
    exact Nat.add_assoc _ _ _

/-- Whole groups, within the limits of one pass. -/
structure Chosen (limits : CacheLimits) (i : Inventory) (groups : List (List Path))
    (s : Selection) : Prop where
  paths : s.paths = groups.flatten
  bytes : s.bytes = (s.paths.map (sizeOf i)).sum
  entries : min s.paths.length usizeMax ≤ limits.maxDeleteEntries
  total : s.bytes ≤ limits.maxDeleteBytes

theorem select_group_ok {groups : List (List Path)} {s s' : Selection} {group : List Path}
    (hc : Chosen limits i groups s) (hok : selectGroup limits i s group = .ok s') :
    Chosen limits i groups s' ∨ Chosen limits i (groups ++ [group]) s' := by
  obtain ⟨bytes,hbytes,hok⟩ := bind_ok.mp hok
  have hbytes := group_bytes_ok hbytes
  rw [Nat.zero_add] at hbytes
  split_ifs at hok with hfit
  · cases pure_ok.mp hok
    obtain ⟨hentries,htotal⟩ := hfit
    have hsum : s.bytes+bytes ≤ limits.maxDeleteBytes := by
      simp only [Option.any_eq_true, checked_add_some] at htotal
      obtain ⟨n,⟨-,rfl⟩,hn⟩ := htotal
      simpa using hn
    refine .inr ⟨?_,?_,?_,hsum⟩
    · rw [hc.paths, List.flatten_append, List.flatten_singleton]
    · rw [List.map_append, List.sum_append, ← hc.bytes, ← hbytes]
    · rwa [List.length_append]
  · cases pure_ok.mp hok
    exact .inl hc

theorem answers_admit_each {α β : Type} {charge : α → ℕ} {f : β → α → Result β}
    {b : CollectionBudget} {init : β} {xs : List α} {r : β × CollectionBudget}
    (ha : Answers (admitEach h charge f b init xs) d r) : xs.foldlM f init = .ok r.1 := by
  unfold admitEach at ha
  induction xs generalizing b init with
  | nil =>
    rw [List.foldlM_nil, answers_pure] at ha
    subst ha
    rfl
  | cons x xs ih =>
    rw [List.foldlM_cons] at ha
    obtain ⟨⟨r',b'⟩,hstep,ha⟩ := answers_bind ha
    obtain ⟨b'',-,hstep⟩ := answers_bind hstep
    obtain ⟨found,hfound,hstep⟩ := answers_bind hstep
    cases answers_pure.mp hstep
    rw [List.foldlM_cons, answers_lift.mp hfound]
    exact ih ha

/-- A selection takes some of the candidate groups, each of them whole. -/
theorem selection_chosen {candidates groups : List (List Path)} {s s' : Selection}
    (hc : Chosen limits i groups s)
    (hok : candidates.foldlM (selectGroup limits i) s = .ok s') :
    ∃ taken, taken.Sublist candidates ∧ Chosen limits i (groups ++ taken) s' := by
  induction candidates generalizing groups s with
  | nil =>
    cases pure_ok.mp hok
    exact ⟨[],List.Sublist.refl _,by rwa [List.append_nil]⟩
  | cons group candidates ih =>
    rw [List.foldlM_cons] at hok
    obtain ⟨t,ht,hok⟩ := bind_ok.mp hok
    rcases select_group_ok hc ht with hnext | hnext
    · obtain ⟨taken,hsub,hlast⟩ := ih hnext hok
      exact ⟨taken,hsub.cons _,hlast⟩
    · obtain ⟨taken,hsub,hlast⟩ := ih hnext hok
      refine ⟨group :: taken,hsub.cons_cons _,?_⟩
      rwa [List.append_assoc] at hlast

end Selecting

end Scorpio.Retention
