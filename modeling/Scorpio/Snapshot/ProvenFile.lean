import Scorpio.Base.Dialogue
import Scorpio.Base.SortedSearch
import Scorpio.Snapshot.Incremental

/-!
# Selective membership of a file

`snapshot::proven_file`: `prove_file` walks from the committed root to one file
through the radix pages its path selects. Every page is asked from the server
by route and expected id. A reader that was seeded with a complete closure
answers from it instead, and proved files are kept in a table of cells that all
clones of the reader share.

Whatever is outside the call is a question: the lease, the client's
`metadata_pages`, admission, the seed and the cells. A deadline that expires
drops the call at one of these points with the same error as a refused
admission, so it is one of their answers. An error carries its `http_status`,
which is 0 for an error made here.
-/

set_option autoImplicit false

namespace Scorpio.ProvenFile

open ByteText Fallible PageCodec LogicalTree ClosureValidator Incremental Dialogues SortedSearch

/-! ## Errors and tokens -/

/-- `SnapshotError` with its `http_status`. -/
structure StatusError where
  error : SnapshotError
  httpStatus : ℕ
  deriving DecidableEq, Repr

inductive FileMembershipError where
  | notFile (message : Text)
  | snapshot (error : StatusError)
  deriving DecidableEq, Repr

def made (e : SnapshotError) : FileMembershipError := .snapshot ⟨e,0⟩

def workLimit : FileMembershipError := made (limit "selective membership work admission limit reached")

structure MembershipIdentity where
  domain : Text
  epoch : ℕ
  scope : Text
  root : Text
  snapshot : Text
  deriving DecidableEq, Repr

structure ProvenSnapshotFile where
  file : SnapshotFile
  identity : MembershipIdentity
  deriving DecidableEq, Repr

structure MetadataPageItem where
  directoryPath : Text
  route : Bytes
  expectedDigest : Option Text
  deriving DecidableEq, Repr

/-- What the functions read of a `SnapshotReader`. -/
structure SnapshotReader where
  codec : Codec
  verifyReceivedChild : Bytes → UInt8 → Bytes → Except Text Unit
  descriptor : Descriptor
  domain : Text
  authorizationEpoch : ℕ
  metadataPages : Bool

def SnapshotReader.identity (r : SnapshotReader) : MembershipIdentity :=
  ⟨r.domain,r.authorizationEpoch,r.descriptor.scope,r.descriptor.metadataRoot,
    r.descriptor.snapshotId⟩

def mint (r : SnapshotReader) (file : SnapshotFile) : ProvenSnapshotFile := ⟨file,r.identity⟩

/-! ## Work -/

structure WorkLimits where
  maxSteps : ℕ
  maxVisits : ℕ
  maxProofBytes : ℕ

/-- The constants of the source. -/
def workLimits : WorkLimits := ⟨4096,4096,64*1024*1024⟩

structure ProofWork where
  steps : ℕ
  visits : ℕ
  bytes : ℕ
  deriving DecidableEq, Repr

def ProofWork.new : ProofWork := ⟨0,0,0⟩

def checkedMul (a b : ℕ) : Option ℕ := if a*b ≤ usizeMax then some (a*b) else none

namespace ProofWork

variable (l : WorkLimits) (w : ProofWork)

def admitRoute (pageMaxBytes route : ℕ) : Except FileMembershipError ProofWork := do
  let units ← okOr (checkedAdd route 1) workLimit
  let bytes ← okOr (checkedMul units pageMaxBytes) workLimit
  require (¬(l.maxSteps ≤ w.steps ∨ (checkedAdd w.visits units).all (l.maxVisits < ·) ∨
    (checkedAdd w.bytes bytes).all (l.maxProofBytes < ·))) workLimit
  pure { w with steps := w.steps+1 }

def received (pages : List (Digest × Bytes)) : Except FileMembershipError ProofWork := do
  let visits ← okOr (checkedAdd w.visits pages.length) workLimit
  let bytes ← pages.foldlM (fun sum page => okOr (checkedAdd sum page.2.length) workLimit) w.bytes
  require (¬(l.maxVisits < visits ∨ l.maxProofBytes < bytes)) workLimit
  pure { w with visits := visits, bytes := bytes }

end ProofWork

/-! ## Questions -/

/-- A shared cell of the table; `id` tells cells of one path apart. -/
structure PathCell where
  id : ℕ
  path : Text
  deriving DecidableEq, Repr

inductive Op where
  | admission
  | ensureLease
  | metadataPages (item : MetadataPageItem)
  | seeded
  | cell (path : Text)
  | token (cell : PathCell)
  | publish (cell : PathCell) (token : ProvenSnapshotFile)

abbrev Answer : Op → Type
  | .admission => Bool
  | .ensureLease => Except StatusError Unit
  | .metadataPages _ => Except StatusError (List (Digest × Bytes))
  | .seeded => Option (List SnapshotFile × Option (List Text))
  | .cell _ => Option PathCell
  | .token _ => Option ProvenSnapshotFile
  | .publish .. => ProvenSnapshotFile

abbrev Proof := Task Answer FileMembershipError ProofWork

def ask (op : Op) : Proof (Answer op) := call op

def orStatus {α : Type} (x : Except StatusError α) : Proof α := lift (x.mapError .snapshot)

def admission : Proof Unit := do
  if ← ask .admission then pure () else fail workLimit

def ensureLease : Proof Unit := do
  orStatus (← ask .ensureLease)

/-- A check made here. -/
def check (b : Bool) (e : SnapshotError) : Proof Unit := lift (require b (made e))

/-! ## One component -/

def notFound (message : Text) : SnapshotError := ⟨.pathNotFound,message⟩

section Component

variable (r : SnapshotReader)

/-- The loop over the pages of one answer; `target` is the page asked for. -/
def receivePage (expected : Digest) (chain : List (Digest × Bytes)) (target : Option Bytes)
    (page : Digest × Bytes) : Result (Option Bytes) := do
  require (r.codec.pageId page.2 = page.1)
    (integrity "selective witness bytes differ from advertised page id")
  if page.1 = expected then
    match target with
    | some _ => .error (integrity "duplicate selective target page")
    | none => pure (some page.2)
  else
    match chain.find? (·.1 = page.1) with
    | some prior =>
      require (prior.2 = page.2) (integrity "repeated witness changed committed ancestor bytes")
      let _ ← decodePage r.codec page.2
      pure target
    | none => .error (integrity "selective witness returned an unrelated page")

/-- What a page says about a name: its entry, or the child that is selected. -/
def inspect (name : Bytes) (bytes : Bytes) : Page → Result (Entry ⊕ BranchChild)
  | .leaf entries => do
    let rebuilt ← (r.codec.buildPage entries).mapError fun _ =>
      integrity "invalid selected leaf partition"
    require (rebuilt = bytes) (integrity "selected leaf is not its canonical entry partition")
    let entry ← okOr (entries.find? (·.name = name)) (notFound "file name absent from selected leaf")
    pure (.inl entry)
  | .branch common terminal children =>
    if name = common then do
      let entry ← okOr terminal (notFound "file name absent from selected branch terminal")
      pure (.inl entry)
    else if ¬common <+: name ∨ name.length ≤ common.length then
      .error (notFound "file name outside selected branch prefix")
    else do
      let child ← okOr (children.find? fun ch => name[common.length]? = some ch.label)
        (notFound "file name has no selected child")
      pure (.inr child)

def checkChild (selected : Option (Bytes × UInt8)) (bytes : Bytes) : Result Unit :=
  match selected with
  | some (parent,label) => (r.verifyReceivedChild parent label bytes).mapError fun _ =>
      integrity "selected child violates committed count or prefix partition"
  | none => .ok ()

/-- The page of one answer that was asked for, decoded and checked against its parent. -/
def selectPage (expected : Digest) (chain : List (Digest × Bytes))
    (selected : Option (Bytes × UInt8)) (pages : List (Digest × Bytes)) : Result (Bytes × Page) := do
  let target ← pages.foldlM (receivePage r expected chain) none
  let bytes ← okOr target (integrity "selective witness omitted requested target")
  let page ← decodePage r.codec bytes
  checkChild r selected bytes
  pure (bytes,page)

/-- `prove_component` with `MAX_DEPTH + 1 - route.len()` turns left. -/
def componentLoop (l : WorkLimits) (directory : Text) (name : Bytes) : ℕ → Digest → Bytes →
    List (Digest × Bytes) → Option (Bytes × UInt8) → Proof Entry
  | 0, _, _, _, _ => fail (made (integrity "cycle or excessive selected radix depth"))
  | turns+1, expected, route, chain, selected => do
    check (¬chain.any (·.1 = expected)) (integrity "cycle or excessive selected radix depth")
    let work ← state
    let work ← lift (work.admitRoute l r.codec.pageMaxBytes route.length)
    update fun _ => (.ok (),work)
    ensureLease
    let pages ← orStatus (← ask (.metadataPages ⟨directory,route,some (digest expected)⟩))
    let work ← lift (work.received l pages)
    update fun _ => (.ok (),work)
    let (bytes,page) ← lift ((selectPage r expected chain selected pages).mapError made)
    match ← lift ((inspect r name bytes page).mapError made) with
    | .inl entry => pure entry
    | .inr child =>
      componentLoop l directory name turns child.childPageId (route ++ [child.label])
        (chain ++ [(r.codec.pageId bytes,bytes)]) (some (bytes,child.label))

def proveComponent (l : WorkLimits) (directory : Text) (root : Digest) (name : Bytes) :
    Proof Entry :=
  componentLoop r l directory name (maxDepth+1) root [] [] none

end Component

/-! ## The path -/

section Paths

variable (r : SnapshotReader) (l : WorkLimits)

def fileSizeOk (e : Entry) : Bool :=
  e.size ≤ maxFileSize ∧ (e.kind = .symlink → 1 ≤ e.size ∧ e.size ≤ 4095)

/-- What the last component gives. -/
def finalEntry (path : Text) (e : Entry) : Proof ProvenSnapshotFile :=
  match fsKind e.kind with
  | none => fail (.notFile "selected path is a directory")
  | some kind => do
    lift (require (fileSizeOk e) workLimit)
    ensureLease
    pure (mint r ⟨path,kind,e.size,digest e.contentId⟩)

def pathLoop (path : Text) : List Text → Digest → Text → List Digest → Proof ProvenSnapshotFile
  | [], _, _, _ => fail (made (integrity "selected file path has no final component"))
  | component :: rest, root, directory, active => do
    check (root ∉ active) (integrity "cycle in selected directory roots")
    let entry ← proveComponent r l directory root component
    if rest = [] then finalEntry r path entry
    else do
      check (entry.kind ≠ .symlink)
        ⟨.symlinkTraversal,"selected ancestor is a symlink; membership does not follow it"⟩
      check (entry.kind = .directory) ⟨.notDirectory,"selected ancestor is not a directory"⟩
      pathLoop path rest entry.childRoot
        ((if directory ≠ txt "/" then directory ++ [slash] else directory) ++ component)
        (root :: active)

def provePath (path : Text) : Proof ProvenSnapshotFile := do
  let root ← lift ((parseDigest r.descriptor.metadataRoot).mapError made)
  update fun _ => (.ok (),ProofWork.new)
  pathLoop r l path (pathComponents path) root (txt "/") []

/-! ## The seeded answer -/

/-- What stands before each slash of a path. -/
def ancestors (path : Text) : List Text :=
  ((List.range path.length).filter fun i => path[i]? = some slash).map (path.take ·)

def seededAncestor (files : List SnapshotFile) (path : Text) : Option SnapshotFile :=
  (ancestors path).findSome? fun ancestor => files.find? (·.relPath = ancestor)

/-- The answer from a complete closure. Its file paths are distinct, so the hash map of the source
is its list of files. -/
def seededAnswer (files : List SnapshotFile) (directories : Option (List Text)) (path : Text) :
    Except FileMembershipError ProvenSnapshotFile :=
  match seededAncestor files path with
  | some ancestor =>
    .error (made ⟨if ancestor.fsKind = txt "symlink" then .symlinkTraversal else .notDirectory,
      "seeded fixed-root ancestor is not a directory"⟩)
  | none =>
    match files.find? (·.relPath = path) with
    | some file => .ok (mint r file)
    | none =>
      if directories.any (binarySearch · path) then
        .error (.notFile "seeded fixed-root path is a directory")
      else .error (made (notFound "file absent from seeded fixed root"))

/-! ## The call -/

/-- `ProvenSnapshotFile::validate`. -/
def validateToken (token : ProvenSnapshotFile) : Proof Unit := do
  check (token.identity = r.identity)
    (integrity "proven file belongs to a different reader authority or fixed root")
  lift ((validateRelativePath r.codec r.descriptor.scope token.file.relPath).mapError made)
  ensureLease

/-- `strip_prefix('/')`. -/
def stripSlash (path : Text) : Text := if path.head? = some slash then path.tail else path

/-- `get_or_try_init` of the cell. Several callers may prove one path at once here, so a cell
answers with the token it has kept. -/
def cellToken (cell : PathCell) : Proof ProvenSnapshotFile := do
  match ← ask (.token cell) with
  | some token => pure token
  | none => do
    admission
    let token ← provePath r l cell.path
    ask (.publish cell token)

def proveFileAdmitted (path : Text) : Proof ProvenSnapshotFile := do
  ensureLease
  if stripSlash path = [] then fail (.notFile "scope root is not a file")
  else
    match ← ask .seeded with
    | some (files,directories) => lift (seededAnswer r files directories (stripSlash path))
    | none => do
      check r.metadataPages ⟨.snapshotNotReady,"selective membership requires metadata/pages"⟩
      match ← ask (.cell (stripSlash path)) with
      | none => fail workLimit
      | some cell => do
        let token ← cellToken r l cell
        validateToken r token
        pure token

def proveFile (path : Text) : Proof ProvenSnapshotFile := do
  lift ((validateRelativePath r.codec r.descriptor.scope path).mapError made)
  admission
  proveFileAdmitted r l path

end Paths

end Scorpio.ProvenFile
