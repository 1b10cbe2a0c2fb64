import Scorpio.Snapshot.LogicalTree

/-!
# The closure validator

`snapshot::closure`. The validator hashes and decodes every supplied page, and
walks from the committed root. A radix page is expanded once: its entries are
remembered after the canonical encoding of the sorted entries was compared with
the page. Budgets, deadline and path profile can stop the walk at any point.

`now` are the successive readings of the monotonic clock. The recursion of
`radix_entries` is bounded by the depth check of the source. The recursion of
`walk_directory` is bounded by the length of a path, and `walkDirectory` counts
that bound down.
-/

set_option autoImplicit false

namespace Scorpio.ClosureValidator

open ByteText Fallible PageCodec LogicalTree

/-- `BTreeMap<String, Vec<u8>>` in key order. -/
structure PageMap where
  rows : List (Text × Bytes)
  sorted : rows.Pairwise fun a b => a.1 < b.1

namespace PageMap

def get (m : PageMap) (id : Text) : Option Bytes := m.rows.lookup id

def keys (m : PageMap) : List Text := m.rows.map Prod.fst

end PageMap

structure Descriptor where
  schemaVersion : ℕ
  metadataCodec : ℕ
  instanceId : Text
  namespaceViewId : Text
  scope : Text
  materializationPolicy : ℕ
  fsSemantics : ℕ
  accessProjection : ℕ
  metadataRoot : Text
  snapshotId : Text
  deriving DecidableEq, Repr

structure VerifiedSubtreeFacts where
  rootPageId : Text
  pageIds : List Text
  files : List SnapshotFile
  totalEntries : ℕ
  deriving DecidableEq, Repr

structure ValidatedSnapshotClosure where
  descriptor : Descriptor
  descriptorBytes : Bytes
  pages : PageMap
  directories : List SnapshotDirectory
  files : List SnapshotFile

structure Validator where
  bytes : PageMap
  decoded : Graph
  entries : Text → Option (List Entry)
  reached : Finset Text
  paths : Finset Text
  contentSizes : Text → Option ℕ
  directories : List SnapshotDirectory
  files : List SnapshotFile
  maxRadixEntries : ℕ
  maxLogicalEntries : ℕ
  maxLogicalBytes : ℕ
  logicalBytes : ℕ
  deadline : Option ℕ
  clock : ℕ

def maxFileSize : ℕ := 8*1024*1024*1024*1024

section Paths

variable (c : Codec)

def pathComponents (path : Text) : List Text := path.splitOn slash

def trimStart (path : Text) : Text := path.dropWhile (· = slash)

def validateAbsolutePath (path : Text) : Result Unit := do
  require (path.length ≤ 4096 ∧
      (path = txt "/" ∨ (pathComponents (trimStart path)).length ≤ 256) ∧
      ∀ component ∈ pathComponents path, component.length ≤ 255)
    (limit "full path exceeds serving profile limits")
  (c.validateScope path).mapError fun e => integrity ("invalid closure path: " ++ e)

def composedPath (scope relative : Text) : Text :=
  if relative = [] then scope
  else if scope = txt "/" then slash :: relative
  else scope ++ slash :: relative

def validateComposedPath (scope relative : Text) : Result Unit :=
  validateAbsolutePath c (composedPath scope relative)

def childPath (relPath name : Text) : Text :=
  if relPath = [] then name else relPath ++ slash :: name

end Paths

section Budgets

variable (now : ℕ → ℕ)

def checkDeadline (v : Validator) : Result Validator :=
  match v.deadline with
  | none => .ok v
  | some deadline =>
    if deadline ≤ now v.clock then .error (limit "metadata root proof deadline exceeded")
    else .ok { v with clock := v.clock+1 }

def admitAllocation (v : Validator) (bytes : ℕ) : Result Validator := do
  let v ← checkDeadline now v
  let total ← okOr (checkedAdd v.logicalBytes bytes) (limit "metadata logical allocation overflow")
  require (total ≤ v.maxLogicalBytes) (limit "metadata logical allocation budget exceeded")
  pure { v with logicalBytes := total }

def admitLogicalPath (v : Validator) (path : Text) : Result Validator := do
  let v ← checkDeadline now v
  require (v.paths.card < v.maxLogicalEntries) (limit "metadata logical entry budget exceeded")
  admitAllocation now v (saturatingAdd (saturatingMul path.length 4) 512)

/-- The `try_fold` over entry names before a list of entries is copied. -/
def entriesAllocation (overflow : Text) (entries : List Entry) : Result ℕ :=
  entries.foldlM (fun sum e =>
    okOr (checkedAdd sum (saturatingMul (saturatingAdd e.name.length 256) 4)) (limit overflow)) 0

end Budgets

section Walk

variable (c : Codec) (now : ℕ → ℕ)

def Validator.empty (bytes : PageMap) (maxRadixEntries maxAllocation : ℕ)
    (deadline : Option ℕ) : Validator where
  bytes := bytes
  decoded := fun _ => none
  entries := fun _ => none
  reached := ∅
  paths := ∅
  contentSizes := fun _ => none
  directories := []
  files := []
  maxRadixEntries := maxRadixEntries
  maxLogicalEntries := usizeMax
  maxLogicalBytes := maxAllocation
  logicalBytes := 0
  deadline := deadline
  clock := 0

def admitPage (v : Validator) (row : Text × Bytes) : Result Validator := do
  let v ← admitAllocation now v (saturatingAdd (saturatingMul row.2.length 16) 512)
  let want ← parseDigest row.1
  require (c.pageId row.2 = want) (integrity ("metadata page bytes do not match " ++ row.1))
  let page ← decodePage c row.2
  pure { v with decoded := Function.update v.decoded row.1 (some page) }

def newBounded (bytes : PageMap) (maxRadixEntries maxAllocation : ℕ) (deadline : Option ℕ) :
    Result Validator :=
  bytes.rows.foldlM (admitPage c now) (.empty bytes maxRadixEntries maxAllocation deadline)

def sortEntries (entries : List Entry) : List Entry :=
  entries.insertionSort fun a b => a.name ≤ b.name

/-- The loop over the children of a branch; `visit` is the recursive call. -/
def radixChildren (visit : Validator → Text → Result (List Entry × Validator)) :
    Validator → List Entry → List BranchChild → Result (List Entry × Validator)
  | v, entries, [] => .ok (entries,v)
  | v, entries, ch :: rest => do
    let (childEntries,v) ← visit v (childId ch)
    require (childEntries.length = ch.subtreeEntries)
      (integrity "branch child subtree_entries does not match its entries")
    require ((checkedAdd entries.length childEntries.length).any (· ≤ v.maxRadixEntries))
      (limit "directory entry proof budget exceeded")
    let allocation ← entriesAllocation "radix proof allocation overflow" childEntries
    let v ← admitAllocation now v allocation
    radixChildren visit v (entries ++ childEntries) rest

/-- What follows the collection of a page's entries: sort, re-encode, compare, remember. -/
def finishRadix (v : Validator) (id : Text) (entries : List Entry) :
    Result (List Entry × Validator) := do
  require (entries.length ≤ v.maxRadixEntries) (limit "directory entry proof budget exceeded")
  let entries := sortEntries entries
  let allocation ← entriesAllocation "canonical rebuild allocation overflow" entries
  let v ← admitAllocation now v allocation
  let rebuilt ← (c.buildPage entries).mapError fun e =>
    integrity ("invalid metadata entry partition: " ++ e)
  require (v.bytes.get id = some rebuilt)
    (integrity "metadata page is not the canonical partition of its entries")
  pure (entries,{ v with entries := Function.update v.entries id (some entries) })

/-- `radix_entries` at depth `MAX_DEPTH + 1 - remaining`. -/
def radixEntries : ℕ → Finset Text → Validator → Text → Result (List Entry × Validator)
  | 0, _, v, _ => do
    let _ ← checkDeadline now v
    .error (limit "metadata radix depth exceeds 255")
  | remaining+1, active, v, id => do
    let v ← checkDeadline now v
    match v.entries id with
    | some entries => pure (entries,v)
    | none =>
      require (id ∉ active) (integrity "cycle in metadata radix pages")
      let v ← admitAllocation now v
        ((v.bytes.get id).elim 0 fun b => saturatingAdd (saturatingMul b.length 4) 256)
      let page ← okOr (v.decoded id) (integrity ("missing committed metadata page " ++ id))
      let v := { v with reached := insert id v.reached }
      let (entries,v) ← radixChildren now (radixEntries remaining (insert id active)) v
        page.entries page.children
      finishRadix c now v id entries

/-- One file entry of a walked directory. -/
def walkFile (v : Validator) (path kind : Text) (e : Entry) : Result Validator := do
  let v ← admitLogicalPath now v path
  require (e.size ≤ maxFileSize ∧ (e.kind = .symlink → 1 ≤ e.size ∧ e.size ≤ 4095))
    (limit "file or symlink size exceeds serving profile")
  require (path ∉ v.paths) (integrity "duplicate logical path in metadata closure")
  let contentDigest := digest e.contentId
  require ((v.contentSizes contentDigest).all (· = e.size))
    (integrity "one content digest has conflicting sizes")
  pure { v with
    paths := insert path v.paths
    contentSizes := Function.update v.contentSizes contentDigest (some e.size)
    files := v.files ++ [⟨path,kind,e.size,contentDigest⟩] }

/-- One entry of a walked directory; `descend` is the recursive call. -/
def walkEntry (descend : Validator → Text → Text → Result Validator) (scope relPath : Text)
    (v : Validator) (e : Entry) : Result Validator := do
  let name ← okOr (fromUtf8 e.name) (integrity "non-UTF-8 entry name")
  validateComposedPath c scope (childPath relPath name)
  match fsKind e.kind with
  | none => descend v (childPath relPath name) (digest e.childRoot)
  | some kind => walkFile now v (childPath relPath name) kind e

def enterDirectory (scope : Text) (active : Finset Text) (v : Validator) (relPath root : Text) :
    Result Validator := do
  let v ← admitLogicalPath now v relPath
  validateComposedPath c scope relPath
  require (root ∉ active) (integrity "cycle in logical directory graph")
  require (relPath ∉ v.paths) (integrity "duplicate logical path in metadata closure")
  pure { v with
    paths := insert relPath v.paths
    directories := v.directories ++ [⟨relPath,root⟩] }

def walkDirectory (scope : Text) : ℕ → Finset Text → Validator → Text → Text → Result Validator
  | 0, active, v, relPath, root => do
    let _ ← enterDirectory c now scope active v relPath root
    .error (limit "full path exceeds serving profile limits")
  | fuel+1, active, v, relPath, root => do
    let v ← enterDirectory c now scope active v relPath root
    let (entries,v) ← radixEntries c now (maxDepth+1) ∅ v root
    entries.foldlM (walkEntry c now (walkDirectory scope fuel (insert root active)) scope relPath) v

end Walk

end Scorpio.ClosureValidator
