import Scorpio.Snapshot.Membership
import Scorpio.Snapshot.SelectedPage

/-!
# A selective proof says what the closure says

The server answers every request as it likes. As long as no answered byte
string has the id of a different page of the closure, a page with the expected
id is the closure's own page, so the walk follows the closure's radix tree. An
error that the client or the lease reported is passed on as it is.
-/

set_option autoImplicit false

namespace Scorpio.ProvenFile

open ByteText Fallible PageCodec LogicalTree ClosureValidator RadixTree Catalogue Membership
open Dialogues SortedSearch

/-! ## What is assumed -/

/-- The closure belongs to the reader's descriptor, and neither an encoding nor a byte string of
`known` has the id of a different page of the closure. -/
structure Setting (r : SnapshotReader) (closure : ValidatedSnapshotClosure) (known : Set Bytes) :
    Prop where
  listing : Listing r.codec closure
  descriptor : closure.descriptor = r.descriptor
  encodings : CollisionFree r.codec closure.pages
  known : ∀ id b, closure.pages.get id = some b → ∀ b' ∈ known,
    r.codec.pageId b' = r.codec.pageId b → b' = b

/-- A token of the path's own file. -/
def Genuine (r : SnapshotReader) (closure : ValidatedSnapshotClosure) (path : Text)
    (token : ProvenSnapshotFile) : Prop :=
  token.file ∈ closure.files ∧ token.file.relPath = path ∧ token.identity = r.identity

/-- The questions of a call. The client answers with any byte strings of `known`, the client and
the lease fail with any error of `passed`. -/
def terms (r : SnapshotReader) (closure : ValidatedSnapshotClosure) (known : Set Bytes)
    (passed : Set StatusError) : Contract Answer where
  asks
    | .publish cell token => Genuine r closure cell.path token
    | _ => True
  answers
    | .admission, _ => True
    | .ensureLease, x => ∀ e, x = .error e → e ∈ passed
    | .metadataPages _, x =>
      (∀ e, x = .error e → e ∈ passed) ∧ ∀ pages, x = .ok pages → ∀ page ∈ pages, page.2 ∈ known
    | .seeded, x => ∀ seed, x = some seed →
      seed = (closure.files,some (closure.directories.map (·.relPath)))
    | .cell path, x => ∀ cell, x = some cell → cell.path = path
    | .token cell, x => ∀ token, x = some token → Genuine r closure cell.path token
    | .publish cell _, token => Genuine r closure cell.path token

/-! ## What an error may be -/

/-- The outcome a code stands for. -/
def codeOutcome : SnapshotErrorCode → Option Outcome
  | .pathNotFound => some .pathNotFound
  | .notDirectory => some .notDirectory
  | .symlinkTraversal => some .symlinkTraversal
  | _ => none

/-- Errors that a walk may always end with. -/
structure Lenient (passed : Set StatusError) (E : FileMembershipError → Prop) : Prop where
  ordinary : ∀ e, Ordinary e → E (made e)
  passed : ∀ e ∈ passed, E (.snapshot e)

/-- An error of a proof: it was passed on, it says nothing about the path, or it is true. -/
def Judged (closure : ValidatedSnapshotClosure) (passed : Set StatusError) (path : Text) :
    FileMembershipError → Prop
  | .notFile _ => Truth closure path .notFile
  | .snapshot e => e ∈ passed ∨ (e.httpStatus = 0 ∧
      (Ordinary e.error ∨ ∃ o, codeOutcome e.error.code = some o ∧ Truth closure path o))

theorem judged_lenient (closure : ValidatedSnapshotClosure) (passed : Set StatusError)
    (path : Text) : Lenient passed (Judged closure passed path) :=
  ⟨fun _ h => .inr ⟨rfl,.inl h⟩,fun _ h => .inl h⟩

theorem judged_truth {closure : ValidatedSnapshotClosure} {passed : Set StatusError} {path : Text}
    {e : SnapshotError} {o : Outcome} (hcode : codeOutcome e.code = some o)
    (h : Truth closure path o) : Judged closure passed path (made e) :=
  .inr ⟨rfl,.inr ⟨o,hcode,h⟩⟩

/-! ## Small steps -/

section Steps

variable {r : SnapshotReader} {closure : ValidatedSnapshotClosure} {known : Set Bytes}
  {passed : Set StatusError} {E : FileMembershipError → Prop} {w : ProofWork}

theorem work_limit_lenient (hE : Lenient passed E) : E workLimit :=
  hE.ordinary _ (.inr (.inl rfl))

theorem settles_check {b : Bool} {e : SnapshotError} (h : b = false → E (made e)) :
    Settles (terms r closure known passed) (check b e) w (fun _ w' => w' = w ∧ b = true) E := by
  refine settles_lift (fun _ hb => ⟨rfl,require_ok.mp hb⟩) fun e' he => ?_
  cases b with
  | true => cases he
  | false =>
    cases he
    exact h rfl

theorem settles_lease (hE : Lenient passed E) :
    Settles (terms r closure known passed) ensureLease w (fun _ w' => w' = w) E := by
  refine settles_call_bind trivial fun x hx => settles_lift (fun _ _ => rfl) fun e he => ?_
  cases x with
  | ok _ => cases he
  | error e' =>
    cases he
    exact hE.passed e' (hx e' rfl)

theorem settles_admission (hE : Lenient passed E) :
    Settles (terms r closure known passed) admission w (fun _ w' => w' = w) E := by
  refine settles_call_bind trivial fun granted _ => ?_
  cases granted with
  | true => exact settles_pure rfl
  | false => exact settles_fail (work_limit_lenient hE)

theorem settles_made {α : Type} {x : Result α} (hE : Lenient passed E) (h : ErrorsIn Ordinary x) :
    Settles (terms r closure known passed) (lift (x.mapError made)) w
      (fun a w' => w' = w ∧ x = .ok a) E := by
  refine settles_lift (fun a ha => ⟨rfl,map_error_ok.mp ha⟩) fun e he => ?_
  cases x with
  | ok _ => cases he
  | error e' =>
    cases he
    exact hE.ordinary e' (h e' rfl)

theorem admit_route_errors (l : WorkLimits) (w : ProofWork) (n route : ℕ) :
    ErrorsIn (Eq workLimit) (w.admitRoute l n route) :=
  (errors_ok_or rfl).bind fun _ _ => (errors_ok_or rfl).bind fun _ _ =>
    (errors_require rfl).bind fun _ _ => errors_ok _

theorem received_errors (l : WorkLimits) (w : ProofWork) (pages : List (Digest × Bytes)) :
    ErrorsIn (Eq workLimit) (w.received l pages) :=
  (errors_ok_or rfl).bind fun _ _ => (errors_foldlM (fun _ _ => errors_ok_or rfl) _ _).bind
    fun _ _ => (errors_require rfl).bind fun _ _ => errors_ok _

theorem settles_work {x : Except FileMembershipError ProofWork} (hE : Lenient passed E)
    (h : ErrorsIn (Eq workLimit) x) :
    Settles (terms r closure known passed) (lift x) w (fun _ _ => True) E :=
  settles_lift (fun _ _ => trivial) fun e he => h e he ▸ work_limit_lenient hE

theorem settles_keep {x : ProofWork} :
    Settles (terms r closure known passed) (update fun _ => (.ok (),x)) w (fun _ _ => True) E :=
  settles_update (fun _ => trivial) nofun

end Steps

/-! ## One component -/

section Component

variable {r : SnapshotReader} {closure : ValidatedSnapshotClosure} {known : Set Bytes}
  (S : Setting r closure known)

include S in
/-- A page answered under the id of an encoding is that encoding. -/
theorem answered_page {expected : Digest} {part : List Entry}
    (henc : Encodes r.codec closure.pages (digest expected) part) {bytes : Bytes}
    (hbytes : bytes ∈ known) (hid : r.codec.pageId bytes = expected) :
    closure.pages.get (digest expected) = some bytes ∧ r.codec.buildPage part = .ok bytes := by
  obtain ⟨b,hb,hbuild⟩ := henc
  have hb' := digest_inj.mp (S.listing.hashes _ _ hb)
  rw [S.known _ b hb bytes hbytes (hid.trans hb'.symm)]
  exact ⟨hb,hbuild⟩

include S in
/-- The page of a selected child is in the closure. -/
theorem selected_child {expected : Digest} {bytes : Bytes} {page : Page}
    (hget : closure.pages.get (digest expected) = some bytes)
    (hpage : decodePage r.codec bytes = .ok page) {ch : BranchChild} (hch : ch ∈ page.children)
    {sub : List Entry} (hsub : ∃ b, r.codec.buildPage sub = .ok b ∧
      ch.childPageId = r.codec.pageId b) :
    Encodes r.codec closure.pages (digest ch.childPageId) sub := by
  have hgraph : pageGraph r.codec closure.pages (digest expected) = some page := by
    simp [pageGraph, hget, hpage, Except.toOption]
  obtain ⟨child,hchild⟩ := S.listing.children _ page hgraph ch hch
  obtain ⟨b',hb',_⟩ := page_graph_some hchild
  obtain ⟨b,hbuild,hid⟩ := hsub
  have hsame := digest_inj.mp (S.listing.hashes _ _ hb')
  rw [S.encodings _ b' sub b hb' hbuild (by rw [hsame, hid])] at hbuild
  exact ⟨b',hb',hbuild⟩

variable (R : RadixPartition r.codec) (hterminal : TerminalNamed r.codec)
  {passed : Set StatusError} {E : FileMembershipError → Prop} {es : List Entry} {name : Bytes}

include S R hterminal in
theorem component_loop_settles (hE : Lenient passed E)
    (hmissing : (∀ e ∈ es, e.name ≠ name) → ∀ e, e.code = .pathNotFound → E (made e))
    (l : WorkLimits) (directory : Text) {turns : ℕ} {expected : Digest} {part : List Entry}
    (henc : Encodes r.codec closure.pages (digest expected) part) (hpart : part ⊆ es)
    (hall : ∀ e ∈ es, e.name = name → e ∈ part) (route : Bytes) (chain : List (Digest × Bytes))
    (selected : Option (Bytes × UInt8)) (w : ProofWork) :
    Settles (terms r closure known passed)
      (componentLoop r l directory name turns expected route chain selected) w
      (fun e _ => e ∈ es ∧ e.name = name) E := by
  induction turns generalizing expected part route chain selected w with
  | zero => exact settles_fail (hE.ordinary _ (ordinary_integrity _))
  | succ turns ih =>
    rw [componentLoop]
    refine (settles_check fun _ => hE.ordinary _ (ordinary_integrity _)).bind fun _ w _ => ?_
    refine settles_state_bind ?_
    refine (settles_work hE (admit_route_errors l w _ _)).bind fun w' w _ => ?_
    refine settles_keep.bind fun _ w _ => (settles_lease hE).bind fun _ w _ => ?_
    refine settles_call_bind trivial fun x hx => ?_
    refine Settles.bind (P := fun pages _ => ∀ page ∈ pages, page.2 ∈ known) ?_ fun pages w hpages => ?_
    · refine settles_lift (fun pages h => hx.2 pages (map_error_ok.mp h)) fun e he => ?_
      cases x with
      | ok _ => cases he
      | error e' =>
        cases he
        exact hE.passed e' (hx.1 e' rfl)
    refine (settles_work hE (received_errors l _ _)).bind fun w' w _ => ?_
    refine settles_keep.bind fun _ w _ => ?_
    refine (settles_made hE (select_page_errors _ _ _ _)).bind ?_
    rintro ⟨bytes,page⟩ w ⟨_,hselect⟩
    obtain ⟨⟨id,hmem⟩,hid,hpage⟩ := select_page_ok hselect
    obtain ⟨hget,hbuild⟩ := answered_page S henc (hpages _ hmem) hid
    have htold : Says r.codec name _ page (inspect r name bytes page) :=
      inspect_says R hterminal hbuild (decode_page_ok hpage)
    dsimp only
    cases hinspect : inspect r name bytes page with
    | error e =>
      rw [hinspect] at htold
      refine settles_fail ?_
      rcases htold with hordinary | ⟨hcode,habsent⟩
      · exact hE.ordinary e hordinary
      · exact hmissing (fun e he heq => habsent e (hall e he heq) heq) e hcode
    | ok found =>
      rw [hinspect] at htold
      cases found with
      | inl e => exact settles_pure ⟨hpart htold.1,htold.2⟩
      | inr ch =>
        obtain ⟨hch,sub,hsub,hsubset,hin⟩ := htold
        exact ih (selected_child S hget hpage hch hsub) (List.Subset.trans hsubset hpart)
          (fun e he heq => hin e (hall e he heq) heq) _ _ _ _

end Component

/-! ## The path -/

section Paths

variable {r : SnapshotReader} {closure : ValidatedSnapshotClosure} {known : Set Bytes}
  (S : Setting r closure known) (R : RadixPartition r.codec) (hterminal : TerminalNamed r.codec)
  {passed : Set StatusError} {path : Text}

theorem fs_kind_symlink {k : EntryKind} {kind : Text} (h : fsKind k = some kind) :
    kind = txt "symlink" ↔ k = .symlink := by
  cases k with
  | directory => cases h
  | regular | executable | symlink =>
    cases h
    decide

/-- The last entry is the file or the directory of the path. -/
theorem final_entry_settles {d : SnapshotDirectory} {done : List Text} {es : List Entry} {e : Entry}
    (hat : At closure d done) (hdir : DirectoryOf r.codec closure d es) (he : e ∈ es)
    (hname : ValidName e.name) (hpath : pathComponents path = done ++ [e.name]) (w : ProofWork) :
    Settles (terms r closure known passed) (finalEntry r path e) w
      (fun token _ => Genuine r closure path token) (Judged closure passed path) := by
  have htext : pathText (done ++ [e.name]) = path := by rw [← hpath, path_text_components]
  have hE := judged_lenient closure passed path
  unfold finalEntry
  split
  · rename_i hkind
    have hnext := hat.descend hdir he hname (fs_kind_none.mp hkind)
    exact settles_fail (Truth.directory _ hnext.listed htext)
  · rename_i kind hkind
    have hfile := hat.file hdir he hname hkind
    rw [htext] at hfile
    refine Settles.bind (P := fun _ _ => True) ?_ fun _ w _ => ?_
    · exact settles_lift (fun _ _ => trivial) fun e' he' =>
        errors_require (P := Eq workLimit) rfl e' he' ▸ work_limit_lenient hE
    · exact (settles_lease hE).bind fun _ _ _ => settles_pure ⟨hfile,rfl,rfl⟩

include S R hterminal in
theorem path_loop_settles (l : WorkLimits) (hne : path ≠ []) {parts done : List Text} {root : Digest}
    {d : SnapshotDirectory} (hat : At closure d done) (hroot : d.directoryRoot = digest root)
    (hpath : pathComponents path = done ++ parts) (directory : Text) (active : List Digest)
    (w : ProofWork) :
    Settles (terms r closure known passed) (pathLoop r l path parts root directory active) w
      (fun token _ => Genuine r closure path token) (Judged closure passed path) := by
  have hE := judged_lenient closure passed path
  induction parts generalizing done root d directory active w with
  | nil => exact settles_fail (hE.ordinary _ (ordinary_integrity _))
  | cons name rest ih =>
    obtain ⟨es,hdir⟩ := S.listing.directory d hat.listed
    have henc := hdir.encoded
    rw [hroot] at henc
    have hnames : ∀ e ∈ es, ValidName e.name := by
      obtain ⟨b,_,hbuild⟩ := hdir.encoded
      exact R.names es b hbuild
    rw [pathLoop]
    refine (settles_check fun _ => hE.ordinary _ (ordinary_integrity _)).bind fun _ w _ => ?_
    refine Settles.bind (component_loop_settles S R hterminal hE ?_ l directory henc
      (List.Subset.refl es) (fun e he _ => he) _ _ _ _) ?_
    · intro habsent e hcode
      exact judged_truth (by rw [hcode, codeOutcome])
        (truth_absent S.listing hat hdir habsent hpath hne)
    rintro e w ⟨he,rfl⟩
    have hname := hnames e he
    split
    · rename_i hlast
      subst hlast
      exact final_entry_settles hat hdir he hname hpath w
    · rename_i hrest
      have hbelow := below_entry hpath hrest
      refine (settles_check fun hkind => ?_).bind fun _ w hkind => ?_
      · have hsymlink : e.kind = .symlink := by simpa using hkind
        have hfs : fsKind e.kind = some (txt "symlink") := by
          rw [hsymlink]
          rfl
        have hfile := hat.file hdir he hname hfs
        exact judged_truth rfl (Truth.symlink _ hfile rfl hbelow)
      have hnot : e.kind ≠ .symlink := of_decide_eq_true hkind.2
      refine (settles_check fun hkind => ?_).bind fun _ w hkind => ?_
      · have hfileKind : e.kind ≠ .directory := of_decide_eq_false hkind
        obtain ⟨kind,hfs⟩ : ∃ kind, fsKind e.kind = some kind :=
          Option.ne_none_iff_exists'.mp fun h => hfileKind (fs_kind_none.mp h)
        have hfile := hat.file hdir he hname hfs
        exact judged_truth rfl
          (Truth.blocked _ hfile (fun h => hnot ((fs_kind_symlink hfs).mp h)) hbelow)
      have hnext := hat.descend hdir he hname (of_decide_eq_true hkind.2)
      exact ih hnext rfl (by rw [hpath]; simp) _ _ _

theorem parse_digest_errors (s : Text) : ErrorsIn Ordinary (parseDigest s) := by
  unfold parseDigest
  split
  · split
    · exact errors_ok _
    · exact errors_error (.inr (.inr (.inl rfl)))
  · exact errors_error (.inr (.inr (.inl rfl)))

include S R hterminal in
theorem prove_path_settles (l : WorkLimits) (hne : path ≠ []) (w : ProofWork) :
    Settles (terms r closure known passed) (provePath r l path) w
      (fun token _ => Genuine r closure path token) (Judged closure passed path) := by
  have hE := judged_lenient closure passed path
  refine (settles_made hE (parse_digest_errors _)).bind ?_
  rintro root w ⟨_,hroot⟩
  refine settles_keep.bind fun _ w _ => ?_
  have hat := at_root S.listing.root
  exact path_loop_settles S R hterminal l hne hat
    (by rw [S.descriptor]; exact parse_digest_ok hroot) rfl _ _ _

/-! ## The seeded answer -/

theorem mem_ancestors {a : Text} : a ∈ ancestors path ↔ a ++ [slash] <+: path := by
  simp only [ancestors, List.mem_map, List.mem_filter, List.mem_range, decide_eq_true_eq]
  constructor
  · rintro ⟨i,⟨hi,hslash⟩,rfl⟩
    rw [List.prefix_iff_eq_take, List.length_append, List.length_take_of_le hi.le,
      List.length_singleton, List.take_add_one, hslash]
    rfl
  · rintro ⟨rest,rfl⟩
    exact ⟨a.length,by simp,by simp⟩

theorem seeded_ancestor_some {files : List SnapshotFile} {f : SnapshotFile}
    (h : seededAncestor files path = some f) : f ∈ files ∧ f.relPath ++ [slash] <+: path := by
  obtain ⟨a,ha,hfind⟩ := List.exists_of_findSome?_eq_some h
  have hpath : f.relPath = a := by simpa using List.find?_some hfind
  exact ⟨List.mem_of_find?_eq_some hfind,hpath ▸ mem_ancestors.mp ha⟩

theorem seeded_ancestor_none {files : List SnapshotFile} (h : seededAncestor files path = none)
    {f : SnapshotFile} (hf : f ∈ files) : ¬f.relPath ++ [slash] <+: path := by
  intro hbelow
  have hnone := List.findSome?_eq_none_iff.mp h _ (mem_ancestors.mpr hbelow)
  exact absurd (decide_eq_true rfl) (List.find?_eq_none.mp hnone f hf)

/-- The answer from the closure's own lists is its outcome. -/
theorem seeded_answer_settles (L : Listing r.codec closure) (w : ProofWork) :
    Settles (terms r closure known passed)
      (lift (seededAnswer r closure.files (some (closure.directories.map (·.relPath))) path)) w
      (fun token _ => Genuine r closure path token) (Judged closure passed path) := by
  unfold seededAnswer
  split
  · rename_i f hancestor
    obtain ⟨hf,hbelow⟩ := seeded_ancestor_some hancestor
    refine settles_fail ?_
    by_cases hkind : f.fsKind = txt "symlink"
    · rw [if_pos hkind]
      exact judged_truth rfl (Truth.symlink f hf hkind hbelow)
    · rw [if_neg hkind]
      exact judged_truth rfl (Truth.blocked f hf hkind hbelow)
  · rename_i hancestor
    split
    · rename_i f hfind
      have hpath : f.relPath = path := by simpa using List.find?_some hfind
      exact settles_pure ⟨List.mem_of_find?_eq_some hfind,hpath,rfl⟩
    · rename_i hfind
      rw [Option.any_some]
      split
      · rename_i hsearch
        obtain ⟨d,hd,hpath⟩ := List.mem_map.mp ((binary_search_iff L.sorted).mp hsearch)
        exact settles_fail (Truth.directory d hd hpath)
      · rename_i hsearch
        refine settles_fail (judged_truth rfl (Truth.absent (fun f hf => ⟨?_,?_⟩) fun d hd hpath => ?_))
        · exact fun hpath => List.find?_eq_none.mp hfind f hf (decide_eq_true hpath)
        · exact seeded_ancestor_none hancestor hf
        · exact hsearch ((binary_search_iff L.sorted).mpr (List.mem_map.mpr ⟨d,hd,hpath⟩))

/-! ## The call -/

theorem validate_scope_errors (c : Codec) (scope : Text) :
    ErrorsIn Ordinary (Incremental.validateScope c scope) :=
  (errors_require (.inr (.inl rfl))).bind fun _ _ => (errors_require (.inr (.inl rfl))).bind
    fun _ _ => errors_map_error fun _ => .inr (.inr (.inr (.inl rfl)))

theorem validate_relative_path_errors (c : Codec) (scope path : Text) :
    ErrorsIn Ordinary (Incremental.validateRelativePath c scope path) :=
  (validate_scope_errors c _).bind fun _ _ => validate_scope_errors c _

include S R hterminal in
theorem cell_token_settles (l : WorkLimits) {cell : PathCell} (hne : cell.path ≠ []) (w : ProofWork) :
    Settles (terms r closure known passed) (cellToken r l cell) w
      (fun token _ => Genuine r closure cell.path token) (Judged closure passed cell.path) := by
  refine settles_call_bind trivial fun kept hkept => ?_
  cases kept with
  | some token => exact settles_pure (hkept token rfl)
  | none =>
    refine (settles_admission (judged_lenient _ _ _)).bind fun _ w _ => ?_
    refine (prove_path_settles S R hterminal l hne w).bind fun token w htoken => ?_
    exact settles_call htoken fun _ hkept => hkept

include S R hterminal in
theorem prove_file_admitted_settles (l : WorkLimits) (path : Text) (w : ProofWork) :
    Settles (terms r closure known passed) (proveFileAdmitted r l path) w
      (fun token _ => Genuine r closure (stripSlash path) token)
      (Judged closure passed (stripSlash path)) := by
  have hE := judged_lenient closure passed (stripSlash path)
  refine (settles_lease hE).bind fun _ w _ => ?_
  split
  · rename_i hroot
    rw [hroot]
    exact settles_fail (Truth.directory _ S.listing.root rfl)
  rename_i hne
  refine settles_call_bind trivial fun seed hseed => ?_
  cases seed with
  | some seed =>
    obtain rfl := hseed seed rfl
    exact seeded_answer_settles S.listing w
  | none =>
    refine (settles_check fun _ => hE.ordinary _ (.inr (.inr (.inr (.inr rfl))))).bind fun _ w _ => ?_
    refine settles_call_bind trivial fun cell hcell => ?_
    cases cell with
    | none => exact settles_fail (work_limit_lenient hE)
    | some cell =>
      obtain hsame := hcell cell rfl
      rw [← hsame] at hne hE ⊢
      refine (cell_token_settles S R hterminal l hne w).bind fun token w htoken => ?_
      refine Settles.bind (P := fun _ _ => True) ?_ fun _ w _ => settles_pure htoken
      refine (settles_check fun _ => hE.ordinary _ (ordinary_integrity _)).bind fun _ w _ => ?_
      refine (settles_made hE (validate_relative_path_errors _ _ _)).bind fun _ w _ => ?_
      exact (settles_lease hE).mono (fun _ _ _ => trivial) fun _ h => h

include S R hterminal in
/-- A call gives the path's own file, or an error that is passed on, ordinary or true. -/
theorem prove_file_settles (l : WorkLimits) (path : Text) (w : ProofWork) :
    Settles (terms r closure known passed) (proveFile r l path) w
      (fun token _ => Genuine r closure (stripSlash path) token)
      (Judged closure passed (stripSlash path)) := by
  have hE := judged_lenient closure passed (stripSlash path)
  refine (settles_made hE (validate_relative_path_errors _ _ _)).bind fun _ w _ => ?_
  refine (settles_admission hE).bind fun _ w _ => ?_
  exact prove_file_admitted_settles S R hterminal l path w

end Paths

end Scorpio.ProvenFile
