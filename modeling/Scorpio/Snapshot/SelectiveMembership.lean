import Scorpio.Base.RelyGuarantee
import Scorpio.Snapshot.ProvenSound
import Scorpio.Snapshot.SupplierIndependence

/-!
# Outcomes of selective membership

All clones of a reader share one table of cells and may be seeded at any time.
Any number of calls run interleaved and may be dropped anywhere; the server
answers each request as it likes. A kept token is always a token of its cell's
own path, so in every run a call returns what the closure says of its path, or
an error that says nothing about it or was passed on with the code it came with.
-/

set_option autoImplicit false

namespace Scorpio.ProvenFile

open ByteText Fallible PageCodec ClosureValidator ClosureConstructor RadixTree RadixProof Catalogue
open Membership SupplierIndependence Dialogues RelyGuarantee

/-! ## The table -/

def cells : ℕ := 64

/-- The table, the content of every cell that was ever made, and the id of the next cell. -/
structure CellTable where
  entries : List (Option PathCell)
  next : ℕ
  tokens : PathCell → Option ProvenSnapshotFile
  fresh : ℕ

def CellTable.new : CellTable := ⟨List.replicate cells none,0,fun _ => none,0⟩

namespace CellTable

variable (t : CellTable)

/-- The first slot from `next` that is empty or whose cell nobody holds. -/
def slot (idle : PathCell → Bool) : Option ℕ :=
  ((List.range cells).map fun distance => (t.next+distance) % cells).find? fun index =>
    (t.entries.getD index none).all idle

/-- `idle` tells which cells only the table holds. -/
def get (idle : PathCell → Bool) (path : Text) : Option PathCell × CellTable :=
  match t.entries.reduceOption.find? (·.path = path) with
  | some cell => (some cell,t)
  | none =>
    match t.slot idle with
    | none => (none,t)
    | some index =>
      (some ⟨t.fresh,path⟩,{ t with
        entries := t.entries.set index (some ⟨t.fresh,path⟩)
        next := (index+1) % cells
        fresh := t.fresh+1 })

/-- A cell keeps the first token. -/
def publish (cell : PathCell) (token : ProvenSnapshotFile) : ProvenSnapshotFile × CellTable :=
  match t.tokens cell with
  | some kept => (kept,t)
  | none => (token,{ t with tokens := Function.update t.tokens cell (some token) })

end CellTable

/-! ## The system -/

/-- A complete proof for a descriptor. -/
def Accepted (c : Codec) (d : Descriptor) (closure : ValidatedSnapshotClosure) : Prop :=
  ∃ now pages includeFacts maxNodes maxBytes deadline facts,
    validatePagesBounded c now d pages includeFacts maxNodes maxBytes deadline = .ok (closure,facts)

/-- What the questions of a call do. The answers of the server are byte strings of `known`, the
pages of a closure that seeds the reader are among them too. -/
def effect (r : SnapshotReader) (known : Set Bytes) (passed : Set StatusError) :
    Effect Answer CellTable
  | .admission, t, _, t' => t' = t
  | .ensureLease, t, x, t' => t' = t ∧ ∀ e, x = .error e → e ∈ passed
  | .metadataPages _, t, x, t' => t' = t ∧ (∀ e, x = .error e → e ∈ passed) ∧
      ∀ pages, x = .ok pages → ∀ page ∈ pages, page.2 ∈ known
  | .seeded, t, x, t' => t' = t ∧ ∀ seed, x = some seed →
      ∃ closure, Accepted r.codec r.descriptor closure ∧
        (∀ id b, closure.pages.get id = some b → b ∈ known) ∧
        seed = (closure.files,some (closure.directories.map (·.relPath)))
  | .cell path, t, x, t' => ∃ idle, (x,t') = t.get idle path
  | .token cell, t, x, t' => t' = t ∧ x = t.tokens cell
  | .publish cell token, t, x, t' => (x,t') = t.publish cell token

abbrev Ended := Except FileMembershipError ProvenSnapshotFile × ProofWork

/-- Calls of `prove_file` on the clones of one reader, each with its own path. -/
def provers (r : SnapshotReader) (l : WorkLimits) (known : Set Bytes) (passed : Set StatusError)
    (κ : Type) : System Answer CellTable κ Text Ended where
  program path := proveFile r l path ProofWork.new
  effect _ := effect r known passed
  crash _ t := t

section Runs

variable {r : SnapshotReader} {closure : ValidatedSnapshotClosure} {known : Set Bytes}
  {passed : Set StatusError}

/-- Every kept token belongs to its cell. -/
def TokensGenuine (r : SnapshotReader) (closure : ValidatedSnapshotClosure) (t : CellTable) : Prop :=
  ∀ cell token, t.tokens cell = some token → Genuine r closure cell.path token

theorem get_cell {t t' : CellTable} {idle : PathCell → Bool} {path : Text} {x : Option PathCell}
    (h : (x,t') = t.get idle path) : (∀ cell, x = some cell → cell.path = path) ∧
      t'.tokens = t.tokens := by
  unfold CellTable.get at h
  split at h
  · rename_i cell hfind
    cases h
    refine ⟨fun cell hcell => ?_,rfl⟩
    cases hcell
    simpa using List.find?_some hfind
  · split at h
    · cases h
      exact ⟨nofun,rfl⟩
    · cases h
      refine ⟨fun cell hcell => ?_,rfl⟩
      cases hcell
      rfl

theorem publish_genuine {t t' : CellTable} {cell : PathCell} {token x : ProvenSnapshotFile}
    (h : (x,t') = t.publish cell token) (ht : TokensGenuine r closure t)
    (htoken : Genuine r closure cell.path token) :
    Genuine r closure cell.path x ∧ TokensGenuine r closure t' := by
  unfold CellTable.publish at h
  split at h
  · rename_i kept hkept
    cases h
    exact ⟨ht cell x hkept,ht⟩
  · cases h
    refine ⟨htoken,fun other token' hother => ?_⟩
    by_cases hsame : other = cell
    · subst hsame
      simp only [Function.update_self, Option.some.injEq] at hother
      exact hother ▸ htoken
    · simp only [Function.update_of_ne hsame] at hother
      exact ht other token' hother

theorem accepted_plain {c : Codec} {d : Descriptor} (h : Accepted c d closure) :
    ∃ now maxNodes maxBytes deadline,
      validatePagesBounded c now d closure.pages false maxNodes maxBytes deadline =
        .ok (closure,[]) := by
  obtain ⟨now,pages,includeFacts,maxNodes,maxBytes,deadline,facts,h⟩ := h
  refine ⟨now,maxNodes,maxBytes,deadline,?_⟩
  obtain ⟨bytes,hbytes,h⟩ := bind_ok.mp h
  obtain ⟨v₀,hv₀,h⟩ := bind_ok.mp h
  obtain ⟨v,hv,h⟩ := bind_ok.mp h
  obtain ⟨u,hcard,h⟩ := bind_ok.mp h
  obtain ⟨fs,_,h⟩ := bind_ok.mp h
  cases h
  exact bind_ok.mpr ⟨bytes,hbytes,bind_ok.mpr ⟨v₀,hv₀,bind_ok.mpr ⟨v,hv,bind_ok.mpr ⟨u,hcard,rfl⟩⟩⟩⟩

/-- Any two closures of one descriptor whose pages do not collide are the same. -/
theorem accepted_unique {c : Codec} {d : Descriptor} {closure' : ValidatedSnapshotClosure}
    (h : Accepted c d closure) (h' : Accepted c d closure')
    (hknown : ∀ id b, closure.pages.get id = some b → ∀ id' b', closure'.pages.get id' = some b' →
      c.pageId b' = c.pageId b → b' = b) : closure' = closure := by
  obtain ⟨now,maxNodes,maxBytes,deadline,h⟩ := accepted_plain h
  obtain ⟨now',maxNodes',maxBytes',deadline',h'⟩ := accepted_plain h'
  have hcf : Uncolliding c closure.pages closure'.pages := by
    rintro ⟨id,b⟩ hx ⟨id',b'⟩ hy hid
    exact (hknown id b ((get_eq_some _ _ _).mpr hx) id' b' ((get_eq_some _ _ _).mpr hy) hid.symm).symm
  exact (validated_eq hcf h h').1.symm

theorem effect_keeps (haccepted : Accepted r.codec r.descriptor closure)
    (S : Setting r closure known) {i : Op} {t t' : CellTable} {x : Answer i}
    (hasks : (terms r closure known passed).asks i) (ht : TokensGenuine r closure t)
    (h : effect r known passed i t x t') :
    (terms r closure known passed).answers i x ∧ TokensGenuine r closure t' := by
  cases i with
  | admission =>
    obtain rfl : t' = t := h
    exact ⟨trivial,ht⟩
  | ensureLease =>
    obtain ⟨rfl,hx⟩ := h
    exact ⟨hx,ht⟩
  | metadataPages item =>
    obtain ⟨rfl,hx⟩ := h
    exact ⟨hx,ht⟩
  | seeded =>
    obtain ⟨rfl,hx⟩ := h
    refine ⟨fun seed hseed => ?_,ht⟩
    obtain ⟨closure',haccepted',hpages,rfl⟩ := hx seed hseed
    rw [accepted_unique haccepted haccepted' fun id b hb id' b' hb' =>
      S.known id b hb b' (hpages id' b' hb')]
  | cell path =>
    obtain ⟨idle,hx⟩ := h
    obtain ⟨hcell,htokens⟩ := get_cell hx
    exact ⟨hcell,fun cell token hc => ht cell token (htokens ▸ hc)⟩
  | token cell =>
    obtain ⟨rfl,rfl⟩ := h
    exact ⟨ht cell,ht⟩
  | publish cell token => exact publish_genuine h ht hasks

/-- In every run of any number of calls each result is right. -/
theorem run_right (haccepted : Accepted r.codec r.descriptor closure)
    (S : Setting r closure known) (R : RadixPartition r.codec) (hterminal : TerminalNamed r.codec)
    (l : WorkLimits) {κ : Type} [DecidableEq κ] {p : Pool Answer CellTable κ Text Ended}
    (h : Relation.ReflTransGen (Step (provers r l known passed κ)) ⟨.new,fun _ => none⟩ p)
    {k : κ} {path : Text} {ended : Ended} (hk : p.calls k = some (path,some (.done ended))) :
    (∀ token, ended.1 = .ok token → Genuine r closure (stripSlash path) token) ∧
      ∀ e, ended.1 = .error e → Judged closure passed (stripSlash path) e := by
  have habiding := run_abiding (Y := provers r l known passed κ)
    (C := terms r closure known passed) (I := TokensGenuine r closure)
    (fun path => prove_file_settles S R hterminal l path ProofWork.new)
    (fun _ _ _ _ _ hasks ht he => effect_keeps haccepted S hasks ht he) (fun _ _ ht => ht)
    ⟨fun _ _ ht => (by cases ht),fun _ _ _ hc => (by cases hc)⟩ h
  exact habiding.calls k path _ hk

end Runs

/-! ## Reported outcomes -/

/-- The outcome a result reports; a code is read without its status. -/
def reported : Except FileMembershipError ProvenSnapshotFile → Option Outcome
  | .ok token => some (.file token.file)
  | .error (.notFile _) => some .notFile
  | .error (.snapshot e) => codeOutcome e.error.code

/-- An error that the client or the lease reported. -/
def PassedOn (passed : Set StatusError) (x : Except FileMembershipError ProvenSnapshotFile) : Prop :=
  ∃ e ∈ passed, x = .error (.snapshot e)

/-- An error made here that says nothing about a path. -/
def Silent (x : Except FileMembershipError ProvenSnapshotFile) : Prop :=
  ∃ e, x = .error (made e) ∧ Ordinary e

/-- A result is the outcome of the path, silent, or passed on. -/
def Right (closure : ValidatedSnapshotClosure) (passed : Set StatusError) (path : Text)
    (x : Except FileMembershipError ProvenSnapshotFile) : Prop :=
  (∃ o, reported x = some o ∧ Truth closure path o) ∨ Silent x ∨ PassedOn passed x

section Outcomes

variable {r : SnapshotReader} {closure : ValidatedSnapshotClosure} {passed : Set StatusError}
  {path : Text}

theorem right_of_judged {x : Except FileMembershipError ProvenSnapshotFile}
    (hok : ∀ token, x = .ok token → Genuine r closure path token)
    (herr : ∀ e, x = .error e → Judged closure passed path e) : Right closure passed path x := by
  cases x with
  | ok token =>
    obtain ⟨hmem,hpath,_⟩ := hok token rfl
    exact .inl ⟨_,rfl,Truth.file _ hmem hpath⟩
  | error e =>
    have h := herr e rfl
    cases e with
    | notFile message => exact .inl ⟨_,rfl,h⟩
    | snapshot e =>
      rcases h with hpassed | ⟨hstatus,hordinary | ⟨o,hcode,ho⟩⟩
      · exact .inr (.inr ⟨e,hpassed,rfl⟩)
      · obtain ⟨error,status⟩ := e
        cases hstatus
        exact .inr (.inl ⟨error,rfl,hordinary⟩)
      · exact .inl ⟨o,hcode,ho⟩

/-- The seeded branch reports the outcome of every path. -/
theorem seeded_reports (L : Listing r.codec closure) (path : Text) (o : Outcome) :
    reported (seededAnswer r closure.files (some (closure.directories.map (·.relPath))) path) =
      some o ↔ Truth closure path o := by
  have hanswer : Settles (terms r closure ∅ ∅)
      (lift (seededAnswer r closure.files (some (closure.directories.map (·.relPath))) path))
      ProofWork.new (fun token _ => Genuine r closure path token) (Judged closure ∅ path) :=
    seeded_answer_settles L _
  have hright := right_of_judged hanswer.1 hanswer.2
  have htrue : ∃ o, reported (seededAnswer r closure.files
      (some (closure.directories.map (·.relPath))) path) = some o ∧ Truth closure path o := by
    rcases hright with h | ⟨e,he,hordinary⟩ | ⟨e,he,_⟩
    · exact h
    · -- an error of the seeded branch always has the code of an outcome
      exfalso
      unfold seededAnswer at he
      split at he
      · cases he
        split at hordinary <;> simp [Ordinary] at hordinary
      · split at he
        · cases he
        · split at he
          · cases he
          · cases he
            simp [Ordinary, notFound] at hordinary
    · cases he
  obtain ⟨o',hreported,htruth⟩ := htrue
  rw [hreported, Option.some.injEq]
  exact ⟨fun h => h ▸ htruth,fun h => truth_unique L htruth h⟩

/-- A result that is neither silent nor passed on is the seeded answer. -/
theorem right_agrees (L : Listing r.codec closure)
    {x : Except FileMembershipError ProvenSnapshotFile} (h : Right closure passed path x) :
    reported x = reported (seededAnswer r closure.files
      (some (closure.directories.map (·.relPath))) path) ∨ Silent x ∨ PassedOn passed x := by
  rcases h with ⟨o,hreported,htruth⟩ | h
  · exact .inl (hreported.trans ((seeded_reports L path o).mpr htruth).symm)
  · exact .inr h

/-- An error of one component: passed on, ordinary, or the name is absent. -/
def ComponentError (passed : Set StatusError) (es : List Entry) (name : Bytes) :
    FileMembershipError → Prop
  | .notFile _ => False
  | .snapshot e => e ∈ passed ∨ (e.httpStatus = 0 ∧
      (Ordinary e.error ∨ (e.error.code = .pathNotFound ∧ ∀ entry ∈ es, entry.name ≠ name)))

theorem component_error_lenient (passed : Set StatusError) (es : List Entry) (name : Bytes) :
    Lenient passed (ComponentError passed es name) :=
  ⟨fun _ h => .inr ⟨rfl,.inl h⟩,fun _ h => .inl h⟩

end Outcomes

theorem selective_proofs_right (r : SnapshotReader) (closure : ValidatedSnapshotClosure)
    (known : Set Bytes) (passed : Set StatusError) (R : RadixPartition r.codec)
    (hterminal : TerminalNamed r.codec) (haccepted : Accepted r.codec r.descriptor closure)
    (hencodings : CollisionFree r.codec closure.pages)
    (hknown : ∀ id b, closure.pages.get id = some b → ∀ b' ∈ known,
      r.codec.pageId b' = r.codec.pageId b → b' = b) :
    (∀ d ∈ closure.directories, ∃ es, DirectoryOf r.codec closure d es ∧
      ∀ l directory root name w, d.directoryRoot = digest root →
        Settles (terms r closure known passed) (proveComponent r l directory root name) w
          (fun e _ => e ∈ es ∧ e.name = name) (ComponentError passed es name)) ∧
    (∀ l path w, path ≠ [] → Meets (terms r closure known passed) (provePath r l path w)
      fun ended => Right closure passed path ended.1) ∧
    (∀ (κ : Type) [DecidableEq κ] (l : WorkLimits) (p : Pool Answer CellTable κ Text Ended),
      Relation.ReflTransGen (Step (provers r l known passed κ)) ⟨.new,fun _ => none⟩ p →
      ∀ k path ended, p.calls k = some (path,some (.done ended)) →
        Right closure passed (stripSlash path) ended.1) ∧
    (∀ path o, reported (seededAnswer r closure.files
      (some (closure.directories.map (·.relPath))) path) = some o ↔ Truth closure path o) ∧
    ∀ path x, Right closure passed path x → reported x = reported (seededAnswer r closure.files
      (some (closure.directories.map (·.relPath))) path) ∨ Silent x ∨ PassedOn passed x := by
  have hlisting : closure.descriptor = r.descriptor ∧ Listing r.codec closure := by
    obtain ⟨now,pages,includeFacts,maxNodes,maxBytes,deadline,facts,h⟩ := haccepted
    obtain ⟨hd,_,hlisting⟩ := accepted_listing R h
    exact ⟨hd,hlisting⟩
  obtain ⟨hdescriptor,L⟩ := hlisting
  have S : Setting r closure known := ⟨L,hdescriptor,hencodings,hknown⟩
  refine ⟨fun d hd => ?_,fun l path w hne => ?_,?_,seeded_reports L,fun path x => right_agrees L⟩
  · obtain ⟨es,hdir⟩ := L.directory d hd
    refine ⟨es,hdir,fun l directory root name w hroot => ?_⟩
    have henc := hdir.encoded
    rw [hroot] at henc
    refine component_loop_settles S R hterminal (component_error_lenient passed es name) ?_ l
      directory henc (List.Subset.refl es) (fun e he _ => he) _ _ _ _
    exact fun habsent e hcode => .inr ⟨rfl,.inr ⟨hcode,habsent⟩⟩
  · exact Meets.mono (prove_path_settles S R hterminal l hne w) fun _ h => right_of_judged h.1 h.2
  · intro κ _ l p hrun k path ended hk
    obtain ⟨hok,herr⟩ := run_right haccepted S R hterminal l hrun hk
    exact right_of_judged hok herr

namespace Sample

open RadixTree.Sample

def descriptor : Descriptor :=
  ⟨1,2,[1],digest (digestOf [5]),"/",1,1,1,digest (digestOf [4]),digest (digestOf [6])⟩

def reader : SnapshotReader := ⟨codec,fun _ _ _ => .ok (),descriptor,"domain",1,true⟩

def known : Set Bytes := {[1],[2],[3],[4]}

/-- A server that answers a request from `pages`, with a fresh table. -/
def reply (pages : MetadataPageItem → Except StatusError (List (Digest × Bytes))) :
    (op : Op) → Answer op
  | .admission => true
  | .ensureLease => .ok ()
  | .metadataPages item => pages item
  | .seeded => none
  | .cell path => some ⟨0,path⟩
  | .token _ => none
  | .publish _ token => token

/-- The root page, and below its label `b` the leaf of the file `b`. -/
def honest (item : MetadataPageItem) : Except StatusError (List (Digest × Bytes)) :=
  if item.route = [] then .ok [(digestOf [4],[4])]
  else .ok [(digestOf [4],[4]),(digestOf [3],[3])]

/-- A typed HTTP error in place of the pages. -/
def lying (_ : MetadataPageItem) : Except StatusError (List (Digest × Bytes)) :=
  .error ⟨⟨.pathNotFound,"missing"⟩,404⟩

theorem honest_known (item : MetadataPageItem) :
    (∀ e, honest item = .error e → e ∈ (∅ : Set StatusError)) ∧
      ∀ pages, honest item = .ok pages → ∀ page ∈ pages, page.2 ∈ Sample.known := by
  unfold honest
  split <;> refine ⟨nofun,?_⟩ <;> rintro _ ⟨⟩ page hpage <;> simp at hpage
  · rw [hpage]
    exact .inr (.inr (.inr rfl))
  · rcases hpage with rfl | rfl
    · exact .inr (.inr (.inr rfl))
    · exact .inr (.inr (.inl rfl))

theorem terminal_named : TerminalNamed codec := by
  intro es b common e children hbuild hdecode
  rcases build_cases hbuild with ⟨_,rfl⟩ | ⟨_,rfl⟩ | ⟨_,rfl⟩ | ⟨_,rfl⟩ <;>
    simp [codec, decode, rootPage] at hdecode

theorem accepted_sample : ∃ closure, Accepted codec descriptor closure ∧ closure.pages = pages ∧
    ⟨"b","executable",5,digest (digestOf [8])⟩ ∈ closure.files := by
  have hrun : (validatePagesBounded codec (fun _ => 0) descriptor pages false usizeMax usizeMax
      none).map (fun x => (x.1.files,x.1.pages.rows)) = .ok
        ([⟨"a/x","regular",3,digest (digestOf [7])⟩,⟨"b","executable",5,digest (digestOf [8])⟩],
          pages.rows) := by decide +kernel
  obtain ⟨⟨closure,facts⟩,hclosure,hsame⟩ := map_ok.mp hrun
  obtain ⟨hfiles,_⟩ := Prod.mk.inj hsame
  refine ⟨closure,⟨_,_,_,_,_,_,_,hclosure⟩,(accepted_listing partition hclosure).2.1,?_⟩
  rw [hfiles]
  simp

end Sample

open Sample RadixTree.Sample in
theorem selective_proofs_right_sample : ∃ closure token w,
    Accepted codec descriptor closure ∧
    (provePath reader workLimits "b" .new).answered (reply honest) = (.ok token,w) ∧
    token.file = ⟨"b","executable",5,digest (digestOf [8])⟩ ∧
    Truth closure "b" (.file token.file) := by
  obtain ⟨closure,haccepted,hpages,hfile⟩ := accepted_sample
  have hknown : ∀ id b, closure.pages.get id = some b → ∀ b' ∈ Sample.known,
      reader.codec.pageId b' = reader.codec.pageId b → b' = b := by
    intro id b hb b' hb' hid
    rw [hpages] at hb
    have hrow := RadixProof.get_eq_some _ _ _ |>.mp hb
    simp only [pages, List.mem_cons, Prod.mk.injEq, List.not_mem_nil, or_false] at hrow
    rcases hrow with ⟨_,rfl⟩ | ⟨_,rfl⟩ | ⟨_,rfl⟩ | ⟨_,rfl⟩ <;>
      rcases hb' with rfl | rfl | rfl | rfl <;> first | rfl | exact absurd hid (by decide)
  have hall := (selective_proofs_right reader closure Sample.known ∅ partition terminal_named
    haccepted (by rw [hpages]; exact collision_free) hknown).2.1 workLimits "b" .new (by decide)
  have hright : Right closure ∅ "b"
      ((provePath reader workLimits "b" .new).answered (reply honest)).1 := by
    refine Meets.answered hall fun op hasks => ?_
    cases op with
    | admission => trivial
    | ensureLease => exact nofun
    | metadataPages item => exact honest_known item
    | seeded => exact nofun
    | cell path => rintro _ ⟨⟩; rfl
    | token cell => exact nofun
    | publish cell token => exact hasks
  have hrun : (provePath reader workLimits "b" .new).answered (reply honest) =
      (.ok (mint reader ⟨"b","executable",5,digest (digestOf [8])⟩),⟨2,3,3⟩) := by decide +kernel
  refine ⟨closure,_,_,haccepted,hrun,rfl,?_⟩
  rw [hrun] at hright
  rcases hright with ⟨o,ho,htruth⟩ | ⟨e,he,_⟩ | ⟨e,he,_⟩
  · cases ho
    exact htruth
  · cases he
  · cases he

open Sample RadixTree.Sample in
/-- A file of the closure that the server reports as absent. -/
theorem absent_by_server : ∃ closure f, Accepted codec descriptor closure ∧ f ∈ closure.files ∧
    reported ((proveFile reader workLimits f.relPath .new).answered (reply lying)).1 =
      some .pathNotFound := by
  obtain ⟨closure,haccepted,_,hfile⟩ := accepted_sample
  exact ⟨closure,_,haccepted,hfile,by decide +kernel⟩

end Scorpio.ProvenFile
