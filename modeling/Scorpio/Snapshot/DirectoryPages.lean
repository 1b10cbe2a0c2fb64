import Scorpio.Snapshot.ClosureValidator

/-!
# Directory pagination

`snapshot::directory` checks one page of a directory listing against its request
and against the pages before it; `directory_page` of the reader follows the
cursor to the end. The server answers each request with any page or error, so
the listing is decided by the checks alone: names go up across pages, their
number is the declared one, and every page with a cursor adds a name, which
bounds the number of requests.
-/

set_option autoImplicit false

namespace Scorpio.DirectoryPages

open ByteText Fallible PageCodec ClosureValidator

/-! ## Checks of one page -/

def directoryIntegrity : SnapshotError :=
  integrity "directory response is inconsistent with its fixed request or pagination"

def isDigit (b : UInt8) : Bool := 48 ≤ b && b ≤ 57

def decimalValue (s : Text) : ℕ := s.foldl (fun n b => 10*n+(b.toNat-48)) 0

/-- `parse_count`; a number past `u64` and one past `i64` give the same error. -/
def parseCount (s field : Text) : Result ℕ := do
  require (¬(s = [] ∨ ¬s.all isDigit ∨ (1 < s.length ∧ s.head? = some 48)))
    ⟨.scopeInvalid,field ++ " must be a decimal string"⟩
  require (decimalValue s ≤ i64Max) (limit (field ++ " exceeds the protocol counter limit"))
  pure (decimalValue s)

def nameValid (name : Text) : Bool :=
  name ≠ [] && name.length ≤ 255 && !(name = txt "." || name = txt "..") &&
    !(name.contains slash || name.contains 0)

def digestValid (digest : Text) : Bool :=
  txt "sha256:" <+: digest && (digest.drop 7).length = 64 && (digest.drop 7).all isLowerHex

def directoryDigestValid (digest : Text) : Bool :=
  digestValid digest && (digest.drop 7).any (· ≠ 48)

structure DirEntry where
  name : Text
  fsKind : Text
  size : Option Text
  contentDigest : Option Text
  directoryRoot : Option Text
  deriving DecidableEq, Repr

/-- `proof_pages` is not read by these checks. -/
structure DirectoryResponse where
  snapshotId : Text
  path : Text
  metadataRoot : Text
  directoryRoot : Text
  nodeClass : Text
  lifecycle : Text
  rangeStartExclusive : Option Text
  entries : List DirEntry
  entryCount : Text
  nextCursor : Option Text
  deriving DecidableEq, Repr

def nodeClasses : List Text :=
  [txt "native_tree",txt "native_checkout_root",txt "import_root",txt "import_tree",
    txt "aggregate"]

def lifecycles : List Text := [txt "mutable",txt "immutable_release"]

def checkKind (entry : DirEntry) : Result Unit :=
  if entry.fsKind = txt "directory" then
    require (¬(entry.size.isSome ∨ entry.contentDigest.isSome ∨
      ¬entry.directoryRoot.any directoryDigestValid)) directoryIntegrity
  else if entry.fsKind = txt "regular" ∨ entry.fsKind = txt "executable" ∨
      entry.fsKind = txt "symlink" then do
    require (¬(entry.directoryRoot.isSome ∨ ¬entry.contentDigest.any digestValid))
      directoryIntegrity
    let text ← okOr entry.size directoryIntegrity
    let size ← parseCount text "file size"
    require (size ≤ if entry.fsKind = txt "symlink" then 4095 else maxFileSize)
      (limit "directory file size exceeds the filesystem profile")
    require (¬(entry.fsKind = txt "symlink" ∧ size = 0)) directoryIntegrity
  else .error directoryIntegrity

/-- One turn of the loop over the entries, with the name before. -/
def checkEntry (previous : Option Text) (entry : DirEntry) : Result (Option Text) := do
  require (¬(¬nameValid entry.name ∨ previous.any (entry.name ≤ ·))) directoryIntegrity
  checkKind entry
  pure (some entry.name)

def validatePage (page : DirectoryResponse) (sid path : Text) (pageLimit : ℕ)
    (cursor : Option Text) : Result Unit := do
  let count ← parseCount page.entryCount "directory entry_count"
  require (¬(page.snapshotId ≠ sid ∨ page.path ≠ path ∨ pageLimit < page.entries.length ∨
    count < page.entries.length ∨ ¬directoryDigestValid page.metadataRoot ∨
    ¬directoryDigestValid page.directoryRoot ∨ page.nodeClass ∉ nodeClasses ∨
    page.lifecycle ∉ lifecycles ∨ (cursor = none ∧ page.rangeStartExclusive.isSome) ∨
    page.rangeStartExclusive.any (¬nameValid ·) ∨
    page.nextCursor.any fun next => next = [] ∨ some next = cursor ∨ page.entries = []))
    directoryIntegrity
  let _ ← page.entries.foldlM checkEntry page.rangeStartExclusive
  pure ()

/-! ## Progress over the pages -/

structure Progress where
  root : Option Text
  count : Option ℕ
  nodeClass : Option Text
  lifecycle : Option Text
  seen : ℕ
  last : Option Text

def Progress.default : Progress := ⟨none,none,none,none,0,none⟩

def Progress.forRoot (root : Text) : Progress := { Progress.default with root := some root }

def lastName (entries : List DirEntry) : Option Text := entries.getLast?.map (·.name)

def Progress.accept (p : Progress) (page : DirectoryResponse) (metadataRoot : Text) :
    Result Progress := do
  let count ← parseCount page.entryCount "directory entry_count"
  let seen ← okOr (checkedAdd p.seen page.entries.length) directoryIntegrity
  require (¬(page.metadataRoot ≠ metadataRoot ∨
    (page.path = txt "/" ∧ page.directoryRoot ≠ metadataRoot) ∨
    p.root.any (· ≠ page.directoryRoot) ∨ p.count.any (· ≠ count) ∨
    p.nodeClass.any (· ≠ page.nodeClass) ∨ p.lifecycle.any (· ≠ page.lifecycle) ∨
    page.rangeStartExclusive ≠ p.last ∨ count < seen ∨ (page.nextCursor = none ∧ seen ≠ count)))
    directoryIntegrity
  pure ⟨some page.directoryRoot,some count,some page.nodeClass,some page.lifecycle,seen,
    lastName page.entries⟩

/-! ## The loop of the reader -/

/-- What `directory_page` uses: the lease and the answers to its requests by their number, and the
limits of the client. -/
structure DirectoryReader where
  validateRelativePath : Text → Result Unit
  ensureLease : ℕ → Result Unit
  requireFeature : Text → Result Unit
  validatePath : Text → Result Unit
  answer : ℕ → Option Text → Result DirectoryResponse
  directoryLimit : ℕ
  validateFileSize : ℕ → Result Unit
  snapshotId : Text
  metadataRoot : Text

section Reader

variable (r : DirectoryReader) (dir : Text) (pageLimit : ℕ)

/-- `Mst2Client::directory`. -/
def directory (cursor : Option Text) (n : ℕ) : Result DirectoryResponse := do
  r.requireFeature "directory"
  r.validatePath dir
  require (1 ≤ pageLimit ∧ pageLimit ≤ 256) ⟨.scopeInvalid,"directory limit must be 1..256"⟩
  let page ← r.answer n cursor
  validatePage page r.snapshotId dir (min pageLimit r.directoryLimit) cursor
  page.entries.forM fun entry =>
    match entry.size with
    | some size => do r.validateFileSize (← parseCount size "directory size")
    | none => .ok ()
  pure page

/-- The page of one turn, and the progress after it. -/
def nextPage (cursor : Option Text) (p : Progress) (n : ℕ) :
    Result (DirectoryResponse × Progress) := do
  r.ensureLease n
  let page ← directory r dir pageLimit cursor n
  let p ← p.accept page r.metadataRoot
  pure (page,p)

def mergePage (merged : Option DirectoryResponse) (page : DirectoryResponse) :
    Result DirectoryResponse :=
  match merged with
  | none => .ok page
  | some acc => do
    require (acc.directoryRoot = page.directoryRoot)
      ⟨.cursorStale,"directory_root changed mid-enumeration"⟩
    pure { acc with entries := acc.entries ++ page.entries, nextCursor := page.nextCursor }

/-- The loop of `directory_page` with the turns it may take; `none` when they do not suffice. -/
def directoryLoop : ℕ → ℕ → Option Text → Progress → Option DirectoryResponse →
    Option (Result DirectoryResponse)
  | 0, _, _, _, _ => none
  | turns+1, n, cursor, p, merged =>
    match nextPage r dir pageLimit cursor p n with
    | .error e => some (.error e)
    | .ok (page,p) =>
      match mergePage merged page with
      | .error e => some (.error e)
      | .ok merged =>
        match page.nextCursor with
        | none => some (.ok merged)
        | some next => directoryLoop turns (n+1) (some next) p (some merged)

def directoryPage (turns : ℕ) : Option (Result DirectoryResponse) :=
  match r.validateRelativePath dir with
  | .error e => some (.error e)
  | .ok _ => directoryLoop r dir pageLimit turns 0 none .default none

end Reader

/-! ## What the checks establish -/

theorem check_entry_ok {previous previous' : Option Text} {entry : DirEntry}
    (h : checkEntry previous entry = .ok previous') :
    (∀ name, previous = some name → name < entry.name) ∧ previous' = some entry.name := by
  obtain ⟨_,hnames,h⟩ := bind_ok.mp h
  obtain ⟨_,_,h⟩ := bind_ok.mp h
  have hafter := (not_or.mp (of_decide_eq_true (require_ok.mp hnames))).2
  constructor
  · intro name hname
    subst hname
    simpa using hafter
  · exact (pure_ok.mp h).symm

/-- The names of the entries go up from the start of the range. -/
theorem entries_run (entries : List DirEntry) (previous last : Option Text)
    (h : entries.foldlM checkEntry previous = .ok last) :
    (previous.toList ++ entries.map (·.name)).Pairwise (· < ·) := by
  induction entries generalizing previous with
  | nil => cases previous <;> simp
  | cons entry entries ih =>
    rw [List.foldlM_cons] at h
    obtain ⟨next,hentry,h⟩ := bind_ok.mp h
    obtain ⟨hafter,rfl⟩ := check_entry_ok hentry
    have hrest := ih (some entry.name) h
    cases previous with
    | none => exact hrest
    | some name =>
      apply List.pairwise_cons.mpr
      refine ⟨fun other hother => ?_,hrest⟩
      have hfirst := hafter name rfl
      rcases List.mem_cons.mp hother with rfl | hother
      · exact hfirst
      · exact hfirst.trans ((List.pairwise_cons.mp hrest).1 other hother)

/-- What an accepted page satisfies, seen from the progress before it. -/
structure Accepted (cursor : Option Text) (p : Progress) (page : DirectoryResponse)
    (p' : Progress) : Prop where
  count : ∃ count, parseCount page.entryCount "directory entry_count" = .ok count ∧
    p'.count = some count ∧ p'.seen ≤ count ∧ (page.nextCursor = none → p'.seen = count) ∧
    ∀ fixed, p.count = some fixed → fixed = count
  seen : p'.seen = p.seen+page.entries.length
  names : (p.last.toList ++ page.entries.map (·.name)).Pairwise (· < ·)
  last : p'.last = lastName page.entries
  fixed : p'.root = some page.directoryRoot ∧ p'.nodeClass = some page.nodeClass ∧
    p'.lifecycle = some page.lifecycle
  same : (∀ x, p.root = some x → x = page.directoryRoot) ∧
    (∀ x, p.nodeClass = some x → x = page.nodeClass) ∧
    ∀ x, p.lifecycle = some x → x = page.lifecycle
  cursor : ∀ next, page.nextCursor = some next → some next ≠ cursor ∧ page.entries ≠ []

theorem any_ne_false {α : Type} [DecidableEq α] {o : Option α} {a : α}
    (h : ¬o.any (· ≠ a) = true) (x : α) (hx : o = some x) : x = a := by
  subst hx
  simpa using h

theorem accepted_of_checks {page : DirectoryResponse} {sid path metadataRoot : Text}
    {pageLimit : ℕ} {cursor : Option Text} {p p' : Progress}
    (hpage : validatePage page sid path pageLimit cursor = .ok ())
    (haccept : p.accept page metadataRoot = .ok p') : Accepted cursor p page p' := by
  obtain ⟨_,_,hpage⟩ := bind_ok.mp hpage
  obtain ⟨_,hshape,hpage⟩ := bind_ok.mp hpage
  obtain ⟨_,hentries,_⟩ := bind_ok.mp hpage
  obtain ⟨count,hcount,haccept⟩ := bind_ok.mp haccept
  obtain ⟨seen,hseen,haccept⟩ := bind_ok.mp haccept
  obtain ⟨_,hfits,haccept⟩ := bind_ok.mp haccept
  have hshape := of_decide_eq_true (require_ok.mp hshape)
  have hfits := of_decide_eq_true (require_ok.mp hfits)
  simp only [not_or] at hshape hfits
  obtain ⟨_,_,_,_,_,_,_,_,_,_,hnext⟩ := hshape
  obtain ⟨_,_,hroot,hfixed,hclass,hlifecycle,hstart,hbound,hend⟩ := hfits
  obtain ⟨_,rfl⟩ := checked_add_some.mp (ok_or_ok.mp hseen)
  rw [pure_ok] at haccept
  subst haccept
  refine ⟨⟨count,hcount,rfl,not_lt.mp hbound,?_,any_ne_false hfixed⟩,rfl,?_,rfl,⟨rfl,rfl,rfl⟩,
    ⟨any_ne_false hroot,any_ne_false hclass,any_ne_false hlifecycle⟩,?_⟩
  · intro hlast
    by_contra hne
    exact hend ⟨hlast,hne⟩
  · rw [← not_not.mp hstart]
    exact entries_run page.entries page.rangeStartExclusive _ hentries
  · intro next hcursor
    rw [hcursor] at hnext
    have hnext : ¬(next = [] ∨ some next = cursor ∨ page.entries = []) := by
      simpa using hnext
    exact (not_or.mp (not_or.mp hnext).2)

/-! ## The whole listing -/

/-- The pages of one listing: every page is accepted with the cursor of the page before, and the
last one has none. -/
inductive Enumerated (sid path metadataRoot : Text) (pageLimit : ℕ) :
    Option Text → Progress → List DirectoryResponse → Prop
  | last {cursor : Option Text} {p p' : Progress} {page : DirectoryResponse}
      (hpage : validatePage page sid path pageLimit cursor = .ok ())
      (haccept : p.accept page metadataRoot = .ok p') (hend : page.nextCursor = none) :
      Enumerated sid path metadataRoot pageLimit cursor p [page]
  | more {cursor : Option Text} {p p' : Progress} {page : DirectoryResponse} {next : Text}
      {rest : List DirectoryResponse}
      (hpage : validatePage page sid path pageLimit cursor = .ok ())
      (haccept : p.accept page metadataRoot = .ok p') (hnext : page.nextCursor = some next)
      (hrest : Enumerated sid path metadataRoot pageLimit (some next) p' rest) :
      Enumerated sid path metadataRoot pageLimit cursor p (page :: rest)

def names (pages : List DirectoryResponse) : List Text :=
  pages.flatMap fun page => page.entries.map (·.name)

theorem names_cons (page : DirectoryResponse) (pages : List DirectoryResponse) :
    names (page :: pages) = page.entries.map (·.name) ++ names pages := List.flatMap_cons

section Listing

variable {sid path metadataRoot : Text} {pageLimit : ℕ} {cursor : Option Text} {p : Progress}
  {pages : List DirectoryResponse}

/-- Names that go up to the last one of a page and on from it go up together. -/
theorem pairwise_join {before entries rest : List Text} {last : Text}
    (hfirst : (before ++ entries).Pairwise (· < ·)) (hlast : entries.getLast? = some last)
    (hrest : (last :: rest).Pairwise (· < ·)) : (before ++ (entries ++ rest)).Pairwise (· < ·) := by
  obtain ⟨front,rfl⟩ := List.getLast?_eq_some_iff.mp hlast
  rw [← List.append_assoc]
  apply List.pairwise_append.mpr
  refine ⟨hfirst,(List.pairwise_cons.mp hrest).2,fun a ha b hb => ?_⟩
  have hlt : last < b := (List.pairwise_cons.mp hrest).1 b hb
  rw [← List.append_assoc] at hfirst ha
  rcases List.mem_append.mp ha with ha | ha
  · exact ((List.pairwise_append.mp hfirst).2.2 a ha last (by simp)).trans hlt
  · rwa [List.mem_singleton.mp ha]

theorem enumerated_names (h : Enumerated sid path metadataRoot pageLimit cursor p pages) :
    (p.last.toList ++ names pages).Pairwise (· < ·) := by
  induction h with
  | last hpage haccept hend =>
    rw [names_cons]
    simpa [names] using (accepted_of_checks hpage haccept).names
  | @more cursor p p' page next rest hpage haccept hnext hrest ih =>
    have haccepted := accepted_of_checks hpage haccept
    obtain ⟨entry,hentry⟩ : ∃ entry, page.entries.getLast? = some entry :=
      Option.isSome_iff_exists.mp (by simpa using (haccepted.cursor next hnext).2)
    have hlast : p'.last = some entry.name := by
      rw [haccepted.last, lastName, hentry, Option.map_some]
    rw [names_cons]
    apply pairwise_join haccepted.names
    · rw [List.getLast?_map, hentry, Option.map_some]
    · rw [hlast] at ih
      exact ih

/-- The names that were seen and those of the pages are as many as declared. -/
theorem enumerated_count (h : Enumerated sid path metadataRoot pageLimit cursor p pages) :
    ∃ count, (∀ page ∈ pages, parseCount page.entryCount "directory entry_count" = .ok count) ∧
      (∀ fixed, p.count = some fixed → fixed = count) ∧ p.seen+(names pages).length = count := by
  induction h with
  | last hpage haccept hend =>
    have haccepted := accepted_of_checks hpage haccept
    obtain ⟨count,hcount,_,_,hall,hfixed⟩ := haccepted.count
    have hseen := haccepted.seen
    refine ⟨count,by simpa using hcount,hfixed,?_⟩
    rw [← hall hend, hseen]
    simp [names]
  | more hpage haccept hnext hrest ih =>
    have haccepted := accepted_of_checks hpage haccept
    obtain ⟨count,hcount,hcount',_,_,hfixed⟩ := haccepted.count
    obtain ⟨count',hpages,hsame,htotal⟩ := ih
    obtain rfl := hsame count hcount'
    refine ⟨count,List.forall_mem_cons.mpr ⟨hcount,hpages⟩,hfixed,?_⟩
    rw [names_cons, List.length_append, List.length_map, ← htotal, haccepted.seen]
    omega

/-- Every page but the last adds a name. -/
theorem enumerated_length (h : Enumerated sid path metadataRoot pageLimit cursor p pages) :
    pages.length ≤ (names pages).length+1 := by
  induction h with
  | last hpage haccept hend => simp
  | more hpage haccept hnext hrest ih =>
    have hsome := ((accepted_of_checks hpage haccept).cursor _ hnext).2
    have hpos := List.length_pos_iff.mpr hsome
    rw [names_cons, List.length_append, List.length_map, List.length_cons]
    omega

/-- Root, class and lifecycle of a page. -/
def fixedOf (page : DirectoryResponse) : Text × Text × Text :=
  (page.directoryRoot,page.nodeClass,page.lifecycle)

theorem enumerated_fixed (h : Enumerated sid path metadataRoot pageLimit cursor p pages) :
    ∃ root nodeClass lifecycle, (∀ page ∈ pages, fixedOf page = (root,nodeClass,lifecycle)) ∧
      (∀ x, p.root = some x → x = root) ∧ (∀ x, p.nodeClass = some x → x = nodeClass) ∧
      ∀ x, p.lifecycle = some x → x = lifecycle := by
  induction h with
  | last hpage haccept hend =>
    have hsame := (accepted_of_checks hpage haccept).same
    exact ⟨_,_,_,by simp [fixedOf],hsame⟩
  | more hpage haccept hnext hrest ih =>
    have haccepted := accepted_of_checks hpage haccept
    obtain ⟨hroot,hclass,hlifecycle⟩ := haccepted.fixed
    obtain ⟨root,nodeClass,lifecycle,hpages,hroot',hclass',hlifecycle'⟩ := ih
    obtain rfl := hroot' _ hroot
    obtain rfl := hclass' _ hclass
    obtain rfl := hlifecycle' _ hlifecycle
    exact ⟨_,_,_,List.forall_mem_cons.mpr ⟨rfl,hpages⟩,haccepted.same⟩

/-- The cursor the page at a position was asked with. -/
def askedWith (cursor : Option Text) (pages : List DirectoryResponse) : ℕ → Option Text
  | 0 => cursor
  | i+1 => pages[i]?.bind (·.nextCursor)

/-- A page with a cursor has names, and the cursor is not the one it was asked with. -/
theorem enumerated_cursor (h : Enumerated sid path metadataRoot pageLimit cursor p pages)
    (i : ℕ) (page : DirectoryResponse) (hi : pages[i]? = some page) (next : Text)
    (hnext : page.nextCursor = some next) :
    page.entries ≠ [] ∧ some next ≠ askedWith cursor pages i := by
  induction h generalizing i with
  | last hpage haccept hend =>
    obtain ⟨hlt,rfl⟩ := List.getElem?_eq_some_iff.mp hi
    simp [hend] at hnext
  | more hpage haccept hfirst hrest ih =>
    cases i with
    | zero =>
      cases hi
      have hcursor := (accepted_of_checks hpage haccept).cursor next hnext
      exact ⟨hcursor.2,hcursor.1⟩
    | succ i =>
      obtain ⟨hsome,hother⟩ := ih i hi
      refine ⟨hsome,?_⟩
      cases i with
      | zero => simpa [askedWith, hfirst] using hother
      | succ i => exact hother

theorem names_take_succ {i : ℕ} {page : DirectoryResponse} (hi : pages[i]? = some page) :
    (names (pages.take (i+1))).length = (names (pages.take i)).length+page.entries.length := by
  rw [List.take_add_one, hi, names, names, List.flatMap_append, List.length_append]
  simp

/-- Between two pages with a cursor names were added. -/
theorem enumerated_progress (h : Enumerated sid path metadataRoot pageLimit cursor p pages)
    (i j : ℕ) (hij : i < j) (page : DirectoryResponse) (hj : pages[j]? = some page) (next : Text)
    (hnext : page.nextCursor = some next) :
    (names (pages.take (i+1))).length < (names (pages.take (j+1))).length := by
  have hpos := List.length_pos_iff.mpr (enumerated_cursor h j page hj next hnext).1
  have hbefore : (names (pages.take (i+1))).length ≤ (names (pages.take j)).length :=
    ((List.take_prefix_take_left hij).sublist.flatMap _).length_le
  rw [names_take_succ hj]
  omega

end Listing

/-! ## The loop -/

section Loop

variable {r : DirectoryReader} {dir : Text} {pageLimit : ℕ}

theorem next_page_ok {cursor : Option Text} {p p' : Progress} {n : ℕ} {page : DirectoryResponse}
    (h : nextPage r dir pageLimit cursor p n = .ok (page,p')) :
    r.answer n cursor = .ok page ∧
      validatePage page r.snapshotId dir (min pageLimit r.directoryLimit) cursor = .ok () ∧
      p.accept page r.metadataRoot = .ok p' := by
  obtain ⟨_,_,h⟩ := bind_ok.mp h
  obtain ⟨page',hdirectory,h⟩ := bind_ok.mp h
  obtain ⟨p'',haccept,h⟩ := bind_ok.mp h
  obtain ⟨rfl,rfl⟩ := Prod.mk.inj (pure_ok.mp h)
  obtain ⟨_,_,hdirectory⟩ := bind_ok.mp hdirectory
  obtain ⟨_,_,hdirectory⟩ := bind_ok.mp hdirectory
  obtain ⟨_,_,hdirectory⟩ := bind_ok.mp hdirectory
  obtain ⟨page'',hanswer,hdirectory⟩ := bind_ok.mp hdirectory
  obtain ⟨_,hpage,hdirectory⟩ := bind_ok.mp hdirectory
  obtain ⟨_,_,hdirectory⟩ := bind_ok.mp hdirectory
  obtain rfl := pure_ok.mp hdirectory
  exact ⟨hanswer,hpage,haccept⟩

/-- A loop that returns a listing has enumerated its pages. -/
theorem loop_enumerates (turns n : ℕ) (cursor : Option Text) (p : Progress)
    (merged : Option DirectoryResponse) (result : DirectoryResponse)
    (h : directoryLoop r dir pageLimit turns n cursor p merged = some (.ok result)) :
    ∃ pages, Enumerated r.snapshotId dir r.metadataRoot (min pageLimit r.directoryLimit) cursor p
        pages ∧
      result.entries = (merged.elim [] (·.entries)) ++ pages.flatMap (·.entries) := by
  induction turns generalizing n cursor p merged with
  | zero => cases h
  | succ turns ih =>
    rw [directoryLoop] at h
    split at h
    · cases h
    · rename_i page p' hnextPage
      obtain ⟨_,hpage,haccept⟩ := next_page_ok hnextPage
      split at h
      · cases h
      · rename_i merged' hmerge
        have hentries : merged'.entries = merged.elim [] (·.entries) ++ page.entries := by
          cases merged with
          | none =>
            cases hmerge
            rfl
          | some acc =>
            obtain ⟨_,_,hmerge⟩ := bind_ok.mp hmerge
            obtain rfl := pure_ok.mp hmerge
            rfl
        split at h
        · rename_i hend
          cases h
          exact ⟨[page],.last hpage haccept hend,by simp [hentries]⟩
        · rename_i next hnext
          obtain ⟨pages,henum,hresult⟩ := ih _ _ _ _ h
          refine ⟨page :: pages,.more hpage haccept hnext henum,?_⟩
          rw [hresult, Option.elim_some, hentries, List.flatMap_cons, List.append_assoc]

/-- After the first page the count bounds the turns. -/
theorem loop_stops_from (turns n count : ℕ) (cursor : Option Text) (p : Progress)
    (merged : Option DirectoryResponse) (hcount : p.count = some count) (hseen : p.seen ≤ count)
    (hturns : count < p.seen+turns) :
    ∃ result, directoryLoop r dir pageLimit turns n cursor p merged = some result := by
  induction turns generalizing n cursor p merged with
  | zero => omega
  | succ turns ih =>
    rw [directoryLoop]
    split
    · exact ⟨_,rfl⟩
    · rename_i page p' hnextPage
      obtain ⟨_,hpage,haccept⟩ := next_page_ok hnextPage
      have haccepted := accepted_of_checks hpage haccept
      obtain ⟨count',_,hcount',hseen',_,hfixed⟩ := haccepted.count
      obtain rfl := hfixed count hcount
      split
      · exact ⟨_,rfl⟩
      · split
        · exact ⟨_,rfl⟩
        · rename_i next hnext
          have hpos := List.length_pos_iff.mpr (haccepted.cursor next hnext).2
          have hgrown := haccepted.seen
          apply ih
          · exact hcount'
          · exact hseen'
          · omega

/-- The count that the first answer declares. -/
def declaredCount (r : DirectoryReader) : ℕ :=
  match r.answer 0 none with
  | .ok page => ((parseCount page.entryCount "directory entry_count").toOption).getD 0
  | .error _ => 0

theorem directory_page_stops (r : DirectoryReader) (dir : Text) (pageLimit : ℕ) :
    ∃ result, directoryPage r dir pageLimit (declaredCount r+1) = some result := by
  rw [directoryPage]
  split
  · exact ⟨_,rfl⟩
  rw [directoryLoop]
  split
  · exact ⟨_,rfl⟩
  · rename_i page p' hnextPage
    obtain ⟨hanswer,hpage,haccept⟩ := next_page_ok hnextPage
    have haccepted := accepted_of_checks hpage haccept
    obtain ⟨count,hparse,hcount,hseen,_⟩ := haccepted.count
    have hdeclared : declaredCount r = count := by
      rw [declaredCount, hanswer]
      simp only [hparse, Except.toOption, Option.getD_some]
    split
    · exact ⟨_,rfl⟩
    · split
      · exact ⟨_,rfl⟩
      · rename_i next hnext
        have hpos := List.length_pos_iff.mpr (haccepted.cursor next hnext).2
        have hgrown := haccepted.seen
        apply loop_stops_from _ _ count _ _ _ hcount hseen
        omega

end Loop

theorem directory_listing_exact :
    (∀ sid path metadataRoot pageLimit start pages,
      (start = Progress.default ∨ ∃ root, start = Progress.forRoot root) →
      Enumerated sid path metadataRoot pageLimit none start pages →
      ∃ count root nodeClass lifecycle,
        (∀ page ∈ pages, parseCount page.entryCount "directory entry_count" = .ok count ∧
          page.directoryRoot = root ∧ page.nodeClass = nodeClass ∧ page.lifecycle = lifecycle) ∧
        (names pages).Pairwise (· < ·) ∧ (names pages).Nodup ∧ (names pages).length = count ∧
        pages.length ≤ count+1 ∧
        (∀ i page next, pages[i]? = some page → page.nextCursor = some next →
          some next ≠ askedWith none pages i) ∧
        ∀ i j first later next, i < j → pages[i]? = some first → first.nextCursor = some next →
          pages[j]? = some later → later.nextCursor = some next →
          (names (pages.take (i+1))).length < (names (pages.take (j+1))).length) ∧
    ∀ r dir pageLimit, ∃ result, directoryPage r dir pageLimit (declaredCount r+1) = some result ∧
      ∀ listing, result = .ok listing → ∃ pages,
        Enumerated r.snapshotId dir r.metadataRoot (min pageLimit r.directoryLimit) none
          Progress.default pages ∧ listing.entries = pages.flatMap (·.entries) := by
  constructor
  · intro sid path metadataRoot pageLimit start pages hstart h
    have hfresh : start.last = none ∧ start.seen = 0 := by
      rcases hstart with rfl | ⟨root,rfl⟩ <;> exact ⟨rfl,rfl⟩
    have hnames := enumerated_names h
    rw [hfresh.1] at hnames
    obtain ⟨count,hcount,_,htotal⟩ := enumerated_count h
    obtain ⟨root,nodeClass,lifecycle,hfixed,_⟩ := enumerated_fixed h
    have hlength := enumerated_length h
    rw [hfresh.2, Nat.zero_add] at htotal
    refine ⟨count,root,nodeClass,lifecycle,fun page hpage => ?_,hnames,?_,htotal,by omega,?_,?_⟩
    · obtain ⟨hroot,hclass,hlifecycle⟩ :=
        (Prod.mk.injEq ..).mp (hfixed page hpage) |>.imp_right Prod.mk.inj
      exact ⟨hcount page hpage,hroot,hclass,hlifecycle⟩
    · apply hnames.imp
      intro a b hab
      exact ne_of_lt hab
    · intro i page next hi hnext
      exact (enumerated_cursor h i page hi next hnext).2
    · intro i j first later next hij _ _ hj hnext
      exact enumerated_progress h i j hij later hj next hnext
  · intro r dir pageLimit
    obtain ⟨result,hresult⟩ := directory_page_stops r dir pageLimit
    refine ⟨result,hresult,fun listing hlisting => ?_⟩
    subst hlisting
    rw [directoryPage] at hresult
    split at hresult
    · cases hresult
    · obtain ⟨pages,henum,hentries⟩ := loop_enumerates _ _ _ _ _ _ hresult
      exact ⟨pages,henum,hentries⟩

namespace Sample

def root : Text := txt "sha256:" ++ List.replicate 64 49

def file (name : Text) : DirEntry := ⟨name,"regular",some (txt "3"),some root,none⟩

def page (start : Option Text) (name : Text) (next : Option Text) : DirectoryResponse :=
  ⟨"sid","/",root,root,"native_tree","mutable",start,[file name],"2",next⟩

def first : DirectoryResponse := page none "a" (some (txt "more"))

def second : DirectoryResponse := page (some (txt "a")) "b" none

def between : Progress := ⟨some root,some 2,some (txt "native_tree"),some (txt "mutable"),1,
  some (txt "a")⟩

theorem enumerated : Enumerated "sid" "/" root 256 none Progress.default [first,second] := by
  have hfirst : Progress.default.accept first root = .ok between := rfl
  have hsecond : ∃ p, between.accept second root = .ok p := ⟨_,rfl⟩
  obtain ⟨p,hsecond⟩ := hsecond
  exact .more rfl hfirst rfl (.last rfl hsecond rfl)

end Sample

theorem directory_listing_exact_sample :
    Enumerated "sid" "/" Sample.root 256 none Progress.default [Sample.first,Sample.second] ∧
      (names [Sample.first,Sample.second]).Pairwise (· < ·) := by
  obtain ⟨count,_,_,_,_,hnames,_⟩ := directory_listing_exact.1 _ _ _ _ _ _ (.inl rfl)
    Sample.enumerated
  exact ⟨Sample.enumerated,hnames⟩

end Scorpio.DirectoryPages
