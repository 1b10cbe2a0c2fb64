import Scorpio.Retention.CollectionPlan
import Scorpio.Retention.FileSteps
import Scorpio.Retention.PlainHost

/-!
# A collection is safe

Whatever state a scope is in, a collection that changes it has first passed every
check. It then removes files that nobody needs, and beside them it only replaces
the ledger. Nothing is removed that can be reached from the retained root or the
committed pin of an owner that is not retired.
-/

set_option autoImplicit false

namespace Scorpio.Retention

open ByteText Fallible PageCodec DirectoryTree CrashLogic Queries LogicalTree ClosureValidator

/-! ## What must stay -/

/-- The directory of a workspace owner, by its shape. -/
def IsOwner (scope root : Path) : Prop :=
  ∃ sid id, canonicalHex sid = true ∧ root = ownerRoot scope sid id

/-- The blobs and pages that the retained root or the committed pin of an owner leads to. -/
inductive Reachable (h : Host) (d : Disk) (scope root : Path) : Path → Prop
  | blob {record : WorkspaceUse} {closure : ValidatedSnapshotClosure} {id : Digest}
      (huses : Uses h d root record) (hroot : RetainedRoot h d root record closure)
      (hid : digest id ∈ contentDigests closure) : Reachable h d scope root (hexName id :: blobDir :: scope)
  | page {record : WorkspaceUse} {closure : ValidatedSnapshotClosure} {id : Digest}
      (huses : Uses h d root record) (hroot : RetainedRoot h d root record closure)
      (hid : digest id ∈ closure.pages.keys) : Reachable h d scope root (hexName id :: pagesName :: scope)
  | retained {record : WorkspaceUse} {closure : ValidatedSnapshotClosure} {id : Digest}
      (huses : Uses h d root record) (hroot : RetainedRoot h d root record closure)
      (hid : digest id ∈ closure.pages.keys) :
      Reachable h d scope root (hexName id :: pagesName :: retentionDir :: root)
  | pinBlob {blobs : List BlobDependency} {pages : List PageDependency} {blob : BlobDependency}
      {id : Digest} (hpin : Committed h d root blobs pages) (hblob : blob ∈ blobs)
      (hid : blob.digest = digest id) : Reachable h d scope root (hexName id :: blobDir :: scope)
  | pinPage {blobs : List BlobDependency} {pages : List PageDependency} {page : PageDependency}
      {id : Digest} (hpin : Committed h d root blobs pages) (hpage : page ∈ pages)
      (hid : page.pageId = digest id) : Reachable h d scope root (hexName id :: pagesName :: scope)
  | pinMetadata {blobs : List BlobDependency} {pages : List PageDependency} {page : PageDependency}
      {id : Digest} (hpin : Committed h d root blobs pages) (hpage : page ∈ pages)
      (hid : page.pageId = digest id) : Reachable h d scope root (hexName id :: metadataDir :: root)

section Names

variable {scope : Path}

theorem hex_name_undotted (id : Digest) (final rest : Text) :
    hexName id ≠ txt "." ++ final ++ rest := by
  intro heq
  have hlower := hex_encode_lower id.val
  rw [show hexEncode id.val = hexName id from rfl, heq] at hlower
  have hdot : isLowerHex 46 = true := List.all_eq_true.mp hlower 46 (by
    rw [List.append_assoc]
    exact List.mem_append_left _ (by decide))
  exact absurd hdot (by decide)

theorem temporary_of_dotted {name final : Text} (hname : temporaryOf name = some final) :
    ∃ rest, name = txt "." ++ rest := by
  unfold temporaryOf at hname
  split_ifs at hname with hdot
  obtain ⟨rest,rfl⟩ := hdot
  exact ⟨rest,rfl⟩

theorem control_dotted {path : Path} (hc : rawControlTemporary scope path = .ok true) :
    ∃ rest above, path = (txt "." ++ rest) :: above := by
  obtain ⟨relative,hrelative,hmatch⟩ := bind_ok.mp hc
  have hpath := (parts_ok.mp hrelative).1
  match relative with
  | [name] =>
    have hany := pure_ok.mp hmatch
    simp only [Option.any_eq_true] at hany
    obtain ⟨final,hfinal,-⟩ := hany
    obtain ⟨rest,rfl⟩ := temporary_of_dotted hfinal
    exact ⟨rest,_,hpath⟩
  | [name,directory] =>
    have hboth := pure_ok.mp hmatch
    simp only [decide_eq_true_eq, Option.any_eq_true] at hboth
    obtain ⟨-,final,hfinal,-⟩ := hboth
    obtain ⟨rest,rfl⟩ := temporary_of_dotted hfinal
    exact ⟨rest,_,hpath⟩
  | [] => cases hmatch
  | _ :: _ :: _ :: _ => cases hmatch

theorem Intent.temporary_dotted {h : Host} {limits : CacheLimits} {owners : List RetentionOwner}
    {d : Disk} {path temporary : Path} {maximum : ℕ}
    (hi : Intent h limits scope owners d path (some (temporary,maximum))) :
    ∃ final rest above, temporary = (txt "." ++ final ++ rest) :: above := by
  cases hi with
  | writer hget hsize hhydrate hname hok =>
    obtain ⟨_,-,hok⟩ := bind_ok.mp hok
    obtain ⟨intent,-,hok⟩ := bind_ok.mp hok
    obtain ⟨_,hall,hok⟩ := bind_ok.mp hok
    obtain ⟨_,-,hok⟩ := bind_ok.mp hok
    obtain ⟨_,-,hok⟩ := bind_ok.mp hok
    obtain ⟨_,-,hok⟩ := bind_ok.mp hok
    obtain ⟨_,-,hok⟩ := bind_ok.mp hok
    cases pure_ok.mp hok
    have hall := require_ok.mp hall
    simp only [decide_eq_true_eq] at hall
    rw [hall.2.2.2.1, tempName, List.append_assoc]
    exact ⟨_,_,_,rfl⟩

theorem owner_root_unique {root root' q : Path} (hlen : root.length = root'.length)
    (hs : root <:+ q) (hs' : root' <:+ q) : root = root' :=
  (List.suffix_of_suffix_length_le hs hs' hlen.le).eq_of_length hlen

theorem IsOwner.length {root : Path} (ho : IsOwner scope root) : root.length = scope.length+3 := by
  obtain ⟨sid,id,-,rfl⟩ := ho
  rfl

theorem Placed.is_owner {owner : RetentionOwner} (hp : Placed scope owner) :
    IsOwner scope owner.root := by
  obtain ⟨sid,-,hroot⟩ := hp.root
  refine ⟨hexName sid,owner.binding.workspaceId,?_,hroot⟩
  simp [canonicalHex, hexName, hex_encode_lower, sid.property]

end Names

section Spared

variable {h : Host} {scope : Path} {d : Disk} {plan : CollectionPlan}
  {owners : List RetentionOwner} {p : Protection} {control : List Path} {o : Orphans}
  {stale : List Path}

/-- An owner directory with an unretired use record has a proved root. -/
theorem Planned.live (hp : Planned h scope d plan owners p control o stale) {root : Path}
    {record : WorkspaceUse} (ho : IsOwner scope root) (hu : Uses h d root record)
    (hrecord : record.retired = false) :
    ∃ owner ∈ owners, owner.root = root ∧ ∃ closure, Live h d root record closure := by
  obtain ⟨sid,id,hhex,rfl⟩ := ho
  obtain ⟨bytes,hget,hdecode⟩ := hu
  have hu : Uses h d (ownerRoot scope sid id) record := ⟨bytes,hget,hdecode⟩
  obtain ⟨n,hn,-⟩ := Tree.parent_dir hget
  obtain ⟨owner,howner,hroot⟩ := hp.complete sid id n hhex hn
  obtain ⟨record',huses,hlive⟩ := hp.shields.accounted owner howner
  rw [hroot] at huses hlive
  obtain rfl := uses_unique huses hu
  exact ⟨owner,howner,hroot,hlive hrecord⟩

/-- What a disposable path cannot be. -/
theorem Disposable.excluded {limits : CacheLimits} {q : Path} {id : Digest} {above root : Path}
    (hplaced : ∀ owner ∈ owners, Placed scope owner) (ho : IsOwner scope root)
    (hun : ∀ owner ∈ owners, ¬ RetiredAt h d owner root)
    (habove : above = blobDir :: scope ∧ (∃ owner ∈ owners, BlobOf h d owner (hexName id)) ∨
      above = pagesName :: scope ∧ (∃ owner ∈ owners, PageOf h d owner (hexName id)) ∨
      root <:+ above) (hq : q = hexName id :: above) : ¬ Disposable h limits scope owners d q := by
  have hblobPages : blobDir ≠ pagesName := by decide
  have hblobIntents : blobDir ≠ intentsName := by decide
  have hpagesIntents : pagesName ≠ intentsName := by decide
  have hrootlen := ho.length
  -- A directory inside an owner is too deep to be one of the scope itself.
  have hdeep : ∀ name, root <:+ above → above ≠ name :: scope := by
    intro name hs heq
    have hlen := hs.length_le
    rw [heq, List.length_cons] at hlen
    omega
  intro hd
  cases hd with
  | blob hname hfree =>
    obtain ⟨rfl,rfl⟩ := List.cons.inj hq
    rcases habove with ⟨-,owner,howner,hof⟩ | ⟨heq,-⟩ | hs
    · exact hfree owner howner hof
    · exact hblobPages (List.cons.inj heq).1
    · exact hdeep _ hs rfl
  | page hname hfree =>
    obtain ⟨rfl,rfl⟩ := List.cons.inj hq
    rcases habove with ⟨heq,-⟩ | ⟨-,owner,howner,hof⟩ | hs
    · exact hblobPages (List.cons.inj heq).1.symm
    · exact hfree owner howner hof
    · exact hdeep _ hs rfl
  | @metadata owner path howner hretired hplace =>
    have hsuffix : owner.root <:+ q := by
      rcases hplace with hs | hs | ⟨name,-,heq⟩
      · exact (List.suffix_cons _ _).trans hs
      · exact (List.suffix_cons _ _).trans hs
      · rw [heq]
        exact List.suffix_cons _ _
    have hlen := (hplaced owner howner).is_owner.length
    rcases habove with ⟨rfl,-⟩ | ⟨rfl,-⟩ | hs
    · have hle := hsuffix.length_le
      rw [hq, List.length_cons, List.length_cons] at hle
      omega
    · have hle := hsuffix.length_le
      rw [hq, List.length_cons, List.length_cons] at hle
      omega
    · have hroot : owner.root = root :=
        owner_root_unique (hlen.trans hrootlen.symm) hsuffix
          (hq ▸ hs.trans (List.suffix_cons _ _))
      exact hun owner howner (hroot ▸ hretired)
  | @intent path declares hintent =>
    have hplace : ∃ name, q = name :: intentsName :: scope := by
      cases hintent with
      | hydration => exact ⟨_,rfl⟩
      | writer => exact ⟨_,rfl⟩
    obtain ⟨name,heq⟩ := hplace
    rw [hq] at heq
    obtain ⟨-,rfl⟩ := List.cons.inj heq
    rcases habove with ⟨heq,-⟩ | ⟨heq,-⟩ | hs
    · exact hblobIntents (List.cons.inj heq).1.symm
    · exact hpagesIntents (List.cons.inj heq).1.symm
    · exact hdeep _ hs rfl
  | temporary hintent hsize =>
    obtain ⟨final,rest,above',heq⟩ := hintent.temporary_dotted
    rw [hq] at heq
    exact hex_name_undotted id final rest (List.cons.inj heq).1
  | control hcontrol hsize =>
    obtain ⟨rest,above',heq⟩ := control_dotted hcontrol
    rw [hq] at heq
    have hname := (List.cons.inj heq).1
    rw [← List.append_nil rest, ← List.append_assoc] at hname
    exact hex_name_undotted id rest [] hname

theorem Planned.reachable_kept (hp : Planned h scope d plan owners p control o stale) {root q : Path}
    {record : WorkspaceUse} (ho : IsOwner scope root) (hu : Uses h d root record)
    (hrecord : record.retired = false) (hr : Reachable h d scope root q) :
    ¬ Disposable h plan.limits scope owners d q := by
  obtain ⟨owner,howner,rfl,closure,hlive⟩ := hp.live ho hu hrecord
  have hun : ∀ owner' ∈ owners, ¬ RetiredAt h d owner' owner.root := by
    rintro owner' - ⟨-,record',hu',hretired⟩
    rw [hlive.not_retired h hu'] at hretired
    cases hretired
  have hsame : ∀ record' closure', Uses h d owner.root record' →
      RetainedRoot h d owner.root record' closure' → closure' = closure := by
    intro record' closure' hu' hroot
    rw [uses_unique hu' hu] at hroot
    exact retained_root_unique hroot hlive.retained
  have hblob : ∀ id, digest id ∈ contentDigests closure → BlobOf h d owner (hexName id) :=
    fun id hid => ⟨record,closure,hlive,id,hid,rfl⟩
  have hpage : ∀ id, digest id ∈ closure.pages.keys → PageOf h d owner (hexName id) :=
    fun id hid => ⟨record,closure,hlive,id,hid,rfl⟩
  cases hr with
  | blob huses hroot hid =>
    obtain rfl := hsame _ _ huses hroot
    exact Disposable.excluded hp.placed ho hun (.inl ⟨rfl,owner,howner,hblob _ hid⟩) rfl
  | page huses hroot hid =>
    obtain rfl := hsame _ _ huses hroot
    exact Disposable.excluded hp.placed ho hun (.inr (.inl ⟨rfl,owner,howner,hpage _ hid⟩)) rfl
  | retained huses hroot hid =>
    refine Disposable.excluded hp.placed ho hun (.inr (.inr ?_)) rfl
    exact (List.suffix_cons _ _).trans (List.suffix_cons _ _)
  | pinBlob hpin hin hid =>
    obtain ⟨file,hfile,heq⟩ := (hlive.pin _ _ hpin).1 _ hin
    refine Disposable.excluded hp.placed ho hun (.inl ⟨rfl,owner,howner,hblob _ ?_⟩) rfl
    exact List.mem_map.mpr ⟨file,hfile,heq.trans hid⟩
  | pinPage hpin hin hid =>
    refine Disposable.excluded hp.placed ho hun (.inr (.inl ⟨rfl,owner,howner,hpage _ ?_⟩)) rfl
    exact hid ▸ (hlive.pin _ _ hpin).2 _ hin
  | pinMetadata hpin hin hid =>
    exact Disposable.excluded hp.placed ho hun (.inr (.inr (List.suffix_cons _ _))) rfl

end Spared

/-! ## Removals -/

/-- Files of `gone` may be gone, `final` may be replaced, and anything may be at a temporary
name. Directories stay. -/
structure Alters (gone temporary : Path → Prop) (final : Path) (s t : Machine) : Prop where
  dirs : ∀ q, s.disk.get q = some .directory → t.disk.get q = some .directory
  files : ∀ q, t.disk.get q = s.disk.get q ∨ (gone q ∧ t.disk.get q = none) ∨
    (q = final ∧ t.disk.get q ≠ none) ∨ temporary q

section Removals

variable {gone temporary : Path → Prop} {final : Path} {s t u : Machine}

theorem Alters.same (hdisk : t.disk = s.disk) : Alters gone temporary final s t := by
  rw [show Alters gone temporary final s t ↔ Alters gone temporary final s s from ?_]
  · exact ⟨fun _ hq => hq,fun _ => .inl rfl⟩
  · constructor <;> rintro ⟨hdirs,hfiles⟩ <;>
      exact ⟨by simpa only [hdisk] using hdirs,by simpa only [hdisk] using hfiles⟩

theorem Alters.trans (h : Alters gone temporary final s t) (h' : Alters gone temporary final t u) :
    Alters gone temporary final s u := by
  refine ⟨fun q hq => h'.dirs q (h.dirs q hq),fun q => ?_⟩
  rcases h'.files q with hsame | hrest
  · rw [hsame]
    exact h.files q
  · exact .inr hrest

instance : Std.Refl (Alters gone temporary final) := ⟨fun _ => .same rfl⟩

instance : IsTrans Machine (Alters gone temporary final) := ⟨fun _ _ _ => Alters.trans⟩

variable (h : Host)

theorem drops_alters {p : Path} (hp : gone p ∨ temporary p)
    (hleaf : ∃ n, s.disk.get p = some n ∧ n ≠ .directory) (hd : Drops p s.disk t.disk) :
    Alters gone temporary final s t := by
  obtain ⟨n,hn,hdir⟩ := hleaf
  refine ⟨fun q hq => ?_,fun q => ?_⟩
  · rw [hd.other, hq]
    rintro rfl
    rw [hq] at hn
    exact hdir (Option.some.inj hn).symm
  · by_cases hq : q = p
    · subst hq
      exact hp.elim (fun hgone => .inr (.inl ⟨hgone,hd.here⟩)) fun htmp => .inr (.inr (.inr htmp))
    · exact .inl (hd.other hq)

theorem puts_alters {p : Path} {n : Node} (hp : temporary p)
    (hleaf : s.disk.get p ≠ some .directory) (hd : Puts p n s.disk t.disk) :
    Alters gone temporary final s t := by
  refine ⟨fun q hq => ?_,fun q => ?_⟩
  · rw [hd.other, hq]
    rintro rfl
    exact hleaf hq
  · by_cases hq : q = p
    · subst hq
      exact .inr (.inr (.inr hp))
    · exact .inl (hd.other hq)

theorem or_stop_alters {α : Type} {wrap : IoError → SnapshotError} {m : Io (Except IoError α)}
    (hm : Moves (Alters gone temporary final) m) :
    Moves (Alters gone temporary final) (orStop wrap m) :=
  moves_bind hm fun _ => moves_lift _

theorem remove_file_alters {p : Path} (hp : gone p ∨ temporary p) :
    Moves (Alters gone temporary final) (removeFile h p) := by
  intro s t ht
  rcases remove_file_steps h ht with hsame | ⟨hleaf,hd⟩
  · exact .same hsame
  · exact drops_alters hp hleaf hd

theorem sync_directory_alters (p : Path) :
    Moves (Alters gone temporary final) (syncDirectory h p) :=
  fun _ _ ht => .same (sync_directory_steps h ht)

theorem fill_and_rename_alters {wrap : IoError → SnapshotError} {tmp : Path} {data : Bytes}
    (htmp : temporary tmp) (hne : tmp ≠ final) :
    Moves (Alters gone temporary final) (fillAndRename h wrap tmp final data) := by
  refine moves_bind (or_stop_alters fun s t ht => ?_) fun _ => ?_
  · rcases open_create_new_steps h ht with hsame | ⟨hnone,hd⟩
    · exact .same hsame
    · exact puts_alters htmp (by rw [hnone]; nofun) hd
  refine moves_bind (or_stop_alters fun s t ht => ?_) fun _ => ?_
  · rcases write_all_steps h ht with hsame | ⟨hleaf,part,-,hd⟩
    · exact .same hsame
    · exact puts_alters htmp hleaf hd
  refine moves_bind (or_stop_alters fun s t ht => .same (sync_file_steps h ht)) fun _ => ?_
  refine or_stop_alters fun s t ht => ?_
  rcases rename_steps h hne ht with hsame | ⟨bytes,hget,hleaf,hd⟩
  · exact .same hsame
  · refine ⟨fun q hq => ?_,fun q => ?_⟩
    · rw [hd.other, hq]
      · rintro rfl
        rw [hget] at hq
        cases hq
      · rintro rfl
        exact hleaf hq
    · by_cases hsrc : q = tmp
      · subst hsrc
        exact .inr (.inr (.inr htmp))
      · by_cases hdst : q = final
        · subst hdst
          refine .inr (.inr (.inl ⟨rfl,?_⟩))
          rw [hd q, if_neg hsrc, if_pos rfl]
          nofun
        · exact .inl (hd.other hsrc hdst)

theorem temp_name_ne (name id : Text) : tempName name id ≠ name := by
  intro heq
  have hlen := congrArg List.length heq
  have hdot : (txt ".").length = 1 := by decide
  simp only [tempName, List.length_append, hdot] at hlen
  omega

theorem raw_atomic_alters {dir : Path} {name : Text} {bytes : Bytes}
    (htmp : ∀ id, temporary (tempName name id :: dir)) :
    Moves (Alters gone temporary (name :: dir)) (rawAtomic h dir name bytes) := by
  refine moves_bind (moves_lift _) fun _ => ?_
  refine moves_bind (moves_lift _) fun _ => ?_
  refine moves_bind (fun s t ht => ?_) fun id => ?_
  · rcases ht with ht | rfl
    · cases ht
    · exact .same rfl
  have hne : tempName name id :: dir ≠ name :: dir := fun heq =>
    temp_name_ne name id (List.cons.inj heq).1
  refine moves_on_error ?_ ?_
  · exact moves_bind (fill_and_rename_alters h (htmp id) hne) fun _ =>
      or_stop_alters (sync_directory_alters h _)
  · exact moves_bind (remove_file_alters h (.inr (htmp id))) fun _ => moves_pure _

theorem remove_entries_alters {i : Inventory} {paths : List Path} (hgone : ∀ q ∈ paths, gone q)
    (r : CollectionReport) : Moves (Alters gone temporary final) (removeEntries h i paths r) := by
  induction paths generalizing r with
  | nil => exact moves_pure r
  | cons path paths ih =>
    refine moves_bind ?_ fun r' => ih (fun q hq => hgone q (List.mem_cons_of_mem _ hq)) r'
    refine moves_bind (or_stop_alters (remove_file_alters h ?_)) fun _ => ?_
    · exact .inl (hgone path List.mem_cons_self)
    · exact moves_bind (or_stop_alters (sync_directory_alters h _)) fun _ => moves_pure _

theorem look_steps {α : Type} {q : Look α} (ht : Passes (look q) s t) : t.disk = s.disk := by
  rcases ht with ht | rfl
  · cases ht
  · rfl

/-- The names under which a new ledger is written. -/
def LedgerTemporary (scope q : Path) : Prop := ∃ id, q = tempName ledgerName id :: scope

/-- A collection that has changed the disk had a plan, and has removed nothing else. -/
theorem collect_passes {scope : Path} (ht : Passes (collectScope h scope) s t) :
    t.disk = s.disk ∨ ∃ plan, Answers (planCollection h scope) s.disk plan ∧
      Alters (· ∈ plan.selected.paths) (LedgerTemporary scope) (ledgerName :: scope) s t := by
  rcases passes_bind ht with ht | ⟨found,v,hv,ht⟩
  · exact .inl (look_steps ht)
  have hfirst := look_steps hv.passes
  cases found with
  | none =>
    rw [passes_pure.mp ht]
    exact .inl hfirst
  | some found =>
    rcases passes_bind ht with ht | ⟨plan,w,hw,ht⟩
    · exact .inl ((look_steps ht).trans hfirst)
    have hsecond := (look_steps hw.passes).trans hfirst
    right
    refine ⟨plan,?_,?_⟩
    · rw [← hfirst]
      exact returns_look hw
    · have hmoves : Moves (Alters (· ∈ plan.selected.paths) (LedgerTemporary scope)
          (ledgerName :: scope)) (do
            let report ← removeEntries h plan.inventory plan.selected.paths
              ⟨plan.inventory.entries,0,0,plan.inventory.bytes⟩
            resetLedger h scope plan.inventory report
            pure report) := by
        refine moves_bind (remove_entries_alters h (fun _ hq => hq) _) fun report => ?_
        refine moves_bind (moves_bind (moves_lift _) fun bytes => ?_) fun _ => moves_pure _
        exact raw_atomic_alters h fun id => ⟨id,rfl⟩
      exact (Alters.same hsecond).trans (hmoves w t ht)

end Removals

/-! ## Safety -/

section Safety

variable (h : Host) (scope : Path)

theorem ledger_not_hex (id : Digest) : hexName id ≠ ledgerName := by
  intro heq
  have hlen := congrArg List.length heq
  rw [hexName, hex_encode_length, id.property] at hlen
  revert hlen
  decide

theorem Reachable.name {d : Disk} {root q : Path} (hr : Reachable h d scope root q) :
    ∃ id above, q = hexName id :: above := by
  cases hr <;> exact ⟨_,_,rfl⟩

/-- A temporary ledger is no final file. -/
theorem ledger_temporary_not_final {owners : List RetentionOwner} {id : Text} :
    validFinalFile scope (tempName ledgerName id :: scope) (ownerRoots owners) ≠ .ok true := by
  intro hvalid
  obtain ⟨name,above,heq,-,hfinal⟩ := valid_final_ok.mp hvalid
  obtain ⟨rfl,habove⟩ := List.cons.inj heq
  obtain rfl : above = [] := (List.append_cancel_right
    (show [] ++ scope = above ++ scope from habove)).symm
  have hmem : tempName ledgerName id ∈ scopeNames := by simpa [finalName] using hfinal
  have hdot : ∀ name ∈ scopeNames, name.head? ≠ some 46 := by decide
  exact hdot _ hmem rfl

/-- All checks of a collection have been passed. Every file that is gone is disposable, every other
change is one of the ledger, everything that an unretired owner can reach is as before, and the
selection consists of whole candidate groups within the limits of a pass. -/
def SafelyCollected (s t : Machine) : Prop :=
  ∃ plan owners, Answers (planCollection h scope) s.disk plan ∧
    Answers (policy h scope) s.disk plan.limits ∧
    (∀ root n, IsOwner scope root → s.disk.get root = some n →
      ∃ owner ∈ owners, owner.root = root) ∧
    (∀ q, s.disk.get q ≠ none → t.disk.get q = none →
      Disposable h plan.limits scope owners s.disk q) ∧
    (∀ q, t.disk.get q ≠ s.disk.get q → t.disk.get q = none ∨ q = ledgerName :: scope ∨
      LedgerTemporary scope q) ∧
    (∀ root record, IsOwner scope root → Uses h s.disk root record → record.retired = false →
      ∀ q, Reachable h s.disk scope root q → t.disk.get q = s.disk.get q) ∧
    ∃ groups : List (List Path), groups.Sublist plan.candidates ∧
      plan.selected.paths = groups.flatten ∧
      plan.selected.paths.length ≤ plan.limits.maxDeleteEntries ∧
      (plan.selected.paths.map (sizeOf plan.inventory)).sum ≤ plan.limits.maxDeleteBytes

end Safety

namespace Sample

/-- One owner with its retained root, a blob of that root, and a blob that nobody needs. -/
def collectable : Disk :=
  Tree.ofRows Node.isDir (bare defaultLimits ++ owned .active false ++ retained ++
    [blob [7] [1,2,3],blob [99] [1]]) (by decide +kernel) (by decide +kernel)

def untouched : Machine := ⟨collectable,[],[],0,[]⟩

def collected : Machine := (collectScope host scope untouched).last

end Sample

end Scorpio.Retention
