import Scorpio.Base.Assoc
import Scorpio.Snapshot.ClosureConstructor

/-!
# Incremental acquisition

`IncrementalSync::acquire` of `snapshot::incremental` as a machine. The nested
loops of the source are one step function: directories waiting to be enqueued
come first, then the items of the current batch, then the completion cascade,
and when nothing of these is left the next batch of at most 64 items is
fetched. The walk ends when the frontier is empty.

Everything outside the process is an input: the bytes a read of the page cache
returns, the answers of the server, the lease, failing writes, and the order in
which the hash map of open directories is searched. `tick` counts the calls, so
every call may have another answer. Counters of the meters are left out.
-/

set_option autoImplicit false

namespace Scorpio.Incremental

open ByteText Fallible PageCodec LogicalTree ClosureValidator ClosureConstructor

def policyRevision : ℕ := 2

def pageBatch : ℕ := 64

structure ClosureRecord where
  authDomain : Text
  metadataCodec : ℕ
  policyRevision : ℕ
  rootPageId : Text
  pageIds : List Text
  totalEntries : ℕ
  files : List SnapshotFile
  pinRef : Text
  deriving DecidableEq, Repr

def ClosureRecord.compatible (r : ClosureRecord) (authDomain : Text) (codec : ℕ) : Bool :=
  r.authDomain = authDomain ∧ r.metadataCodec = codec ∧ r.policyRevision = Incremental.policyRevision

/-- `ClosureTransaction`: the loaded index, the live pins, and whether to publish. -/
structure Transaction where
  records : Text → Option ClosureRecord
  livePins : List Text
  dirty : Bool

def Transaction.putRecord (t : Transaction) (r : ClosureRecord) : Transaction :=
  if t.records r.rootPageId = some r then t
  else { t with records := Function.update t.records r.rootPageId (some r), dirty := true }

/-- One page of a directory's page tree, still to be read. -/
structure Item where
  dir : Text
  route : Bytes
  expected : Text
  deriving DecidableEq, Repr

structure DirState where
  base : Text
  parent : Option Text
  rootPageId : Text
  pageIds : List Text
  files : List SnapshotFile
  totalEntries : ℕ
  pendingPages : ℕ
  pendingChildren : ℕ
  deriving DecidableEq, Repr

/-- The arguments of `enqueue_dir!`. -/
structure Enqueue where
  dir : Text
  expected : Text
  parent : Option Text
  base : Text
  deriving DecidableEq, Repr

/-- What one synchronisation is fixed to. -/
structure Reader where
  scope : Text
  metadataRoot : Text
  snapshotId : Text
  authDomain : Text
  codec : ℕ

structure Outside where
  read : ℕ → Text → Result (Option Bytes)
  put : ℕ → Text → Bytes → Result Unit
  lease : ℕ → Result Unit
  serve : ℕ → List Item → Result (List (Digest × Bytes))
  pick : ℕ → ℕ

structure Walk where
  states : List (Text × DirState)
  frontier : List Item
  routeIds : Text → Bytes → Option Text
  byId : Text → Option Bytes
  batch : List Item
  pending : List Enqueue
  filesOut : List SnapshotFile
  tx : Transaction
  tick : ℕ

section Paths

variable (c : Codec)

/-- `auth::validate_scope`. -/
def validateScope (scope : Text) : Result Unit := do
  require (scope.length ≤ 4096) ⟨.limitExceeded,"path exceeds 4096 bytes"⟩
  require ((scope = txt "/" ∨ (pathComponents (trimStart scope)).length ≤ 256) ∧
      ∀ part ∈ pathComponents (trimStart scope), part.length ≤ 255)
    ⟨.limitExceeded,"full path exceeds profile limits"⟩
  (c.validateScope scope).mapError fun e => ⟨.scopeInvalid,"invalid path: " ++ e⟩

def relativeForm (path : Text) : Text :=
  if path = [] then "/" else if path.head? = some slash then path else slash :: path

def validateRelativePath (scope path : Text) : Result Unit := do
  validateScope c (relativeForm path)
  validateScope c (if scope = txt "/" then relativeForm path
    else if relativeForm path = txt "/" then scope else scope ++ relativeForm path)

def withPrefix (rel dir : Text) : Text :=
  if trimStart dir = [] then rel
  else if rel = [] then trimStart dir
  else trimStart dir ++ slash :: trimStart rel

def childDir (dir name : Text) : Text :=
  slash :: if dir = txt "/" then name else trimStart dir ++ slash :: name

end Paths

/-! ## Open directories

The hash map of open directories is an association list; inserting a path that is open replaces
its state. -/

/-- `pending_children -= 1` of a release build. -/
def decrement (n : ℕ) : ℕ := if n = 0 then usizeMax else n-1

/-- A finished subtree is handed to its parent, with paths below `base`. -/
def DirState.absorb (st : DirState) (base : Text) (files : List SnapshotFile)
    (pageIds : List Text) (total : ℕ) : DirState :=
  { st with
    files := st.files ++ files.map fun f => { f with relPath := withPrefix f.relPath base }
    pageIds := extendIds st.pageIds pageIds
    totalEntries := total
    pendingChildren := decrement st.pendingChildren }

def entryOverflow : SnapshotError := ⟨.limitExceeded,"entry count overflow"⟩

/-- Files, pages and entry count go to the open parent; without a parent the files are the
result. A parent that is not open receives nothing. -/
def handUp (w : Walk) (parent : Option Text) (base : Text) (files : List SnapshotFile)
    (pageIds : List Text) (totalEntries : ℕ) : Result Walk :=
  match parent with
  | none => .ok { w with filesOut := files }
  | some p =>
    match w.states.lookup p with
    | none => .ok w
    | some ps => do
      let total ← okOr (checkedAdd ps.totalEntries totalEntries) entryOverflow
      pure { w with
        states := Assoc.modify w.states p fun st => st.absorb base files pageIds total }

section Steps

variable (c : Codec) (reader : Reader) (out : Outside)

/-- `cached_page`: a missing, oversized or corrupt page is a miss. -/
def cachedPage (tick : ℕ) (id : Text) : Result (Option Bytes) := do
  let raw ← out.read tick id
  match parseDigest id, raw with
  | .ok want, some bytes =>
    pure (if bytes.length ≤ c.pageMaxBytes ∧ c.pageId bytes = want then some bytes else none)
  | _, _ => pure none

/-- Every page of a record is present and hashes to its id. -/
def pagesPresent : List Text → ℕ → Result (Bool × ℕ)
  | [], tick => .ok (true,tick)
  | id :: ids, tick => do
    match ← cachedPage c out tick id with
    | none => pure (false,tick+1)
    | some _ => pagesPresent ids (tick+1)

/-- The record conditions of `try_reuse` that need no page. -/
def reusable (tx : Transaction) (root : Text) (r : ClosureRecord) : Bool :=
  r.compatible reader.authDomain reader.codec ∧ r.pinRef ∈ tx.livePins ∧ r.pageIds ≠ [] ∧
    r.rootPageId = root ∧ root ∈ r.pageIds

/-- The pin of a reused record moves to the reusing snapshot. -/
def transferPin (tx : Transaction) (root : Text) (r : ClosureRecord) : Transaction :=
  if r.pinRef = reader.snapshotId then tx
  else { tx with
    records := Function.update tx.records root (some { r with pinRef := reader.snapshotId })
    dirty := true }

def tryReuse (w : Walk) (dir root : Text) : Result (Option ClosureRecord × Walk) := do
  validateRelativePath c reader.scope dir
  match w.tx.records root with
  | none => pure (none,w)
  | some r =>
    if reusable reader w.tx root r then do
      let (present,tick) ← pagesPresent c out r.pageIds w.tick
      let w := { w with tick := tick }
      if present then pure (some r,{ w with tx := transferPin reader w.tx root r })
      else pure (none,w)
    else pure (none,w)

def freshState (q : Enqueue) : DirState where
  base := q.base
  parent := q.parent
  rootPageId := q.expected
  pageIds := []
  files := []
  totalEntries := 0
  pendingPages := 1
  pendingChildren := 0

/-- The parent counts a child before it is known whether the child is reused. -/
def countChild (states : List (Text × DirState)) (parent : Option Text) :
    List (Text × DirState) :=
  parent.elim states fun p =>
    Assoc.modify states p fun st => { st with pendingChildren := st.pendingChildren+1 }

def enqueueDir (w : Walk) (q : Enqueue) : Result Walk := do
  validateRelativePath c reader.scope q.dir
  let w := { w with states := countChild w.states q.parent }
  let (reused,w) ← tryReuse c reader out w q.dir q.expected
  match reused with
  | some r => handUp w q.parent q.base r.files r.pageIds r.totalEntries
  | none => pure { w with
      states := Assoc.insert w.states q.dir (freshState q)
      frontier := w.frontier ++ [⟨q.dir,[],q.expected⟩] }

/-- `handle_entry`: one more entry of an open directory; a directory entry is left to be
enqueued. -/
def handleEntry (dir : Text) (acc : DirState × List Enqueue) (e : Entry) :
    Result (DirState × List Enqueue) := do
  let name ← okOr (fromUtf8 e.name) ⟨.internal,"non-utf8 entry name in MTP2 page"⟩
  let total ← okOr (checkedAdd acc.1.totalEntries 1) entryOverflow
  let st := { acc.1 with totalEntries := total }
  match fsKind e.kind with
  | none => pure (st,acc.2 ++ [⟨childDir dir name,digest e.childRoot,some dir,name⟩])
  | some kind =>
    pure ({ st with files := st.files ++ [⟨name,kind,e.size,digest e.contentId⟩] },acc.2)

def childItem (it : Item) (ch : BranchChild) : Item :=
  ⟨it.dir,it.route ++ [ch.label],childId ch⟩

def insertId (ids : List Text) (id : Text) : List Text := if id ∈ ids then ids else id :: ids

def processItem (w : Walk) (it : Item) : Result Walk := do
  let bytes ← okOr (w.byId it.expected) ⟨.digestMismatch,
    "metadata/pages did not return the requested page " ++ it.expected ++ " for " ++ it.dir⟩
  let page ← decodePage c bytes
  let st ← okOr (w.states.lookup it.dir) ⟨.internal,"missing walk state for " ++ it.dir⟩
  let st := { st with pageIds := insertId st.pageIds it.expected }
  let (st,pending) ← page.entries.foldlM (handleEntry it.dir) (st,[])
  let st := { st with pendingPages := st.pendingPages+page.children.length-1 }
  pure { w with
    states := Assoc.modify w.states it.dir fun _ => st
    frontier := w.frontier ++ page.children.map (childItem it)
    pending := pending }

/-! ## Batches -/

/-- The first loop over a batch: what the cache holds, and what has to be requested. -/
def lookupItem (acc : Walk × List Item) (it : Item) : Result (Walk × List Item) := do
  let w := acc.1
  validateRelativePath c reader.scope it.dir
  let w := { w with routeIds := fun dir route =>
    if dir = it.dir ∧ route = it.route then some it.expected else w.routeIds dir route }
  require (it.route.length ≤ maxDepth) (limit "metadata radix depth exceeds 255")
  match w.byId it.expected with
  | some _ => pure (w,acc.2)
  | none => do
    match ← cachedPage c out w.tick it.expected with
    | some bytes =>
      pure ({ w with byId := Function.update w.byId it.expected (some bytes), tick := w.tick+1 },
        acc.2)
    | none => pure ({ w with tick := w.tick+1 },acc.2 ++ [it])

/-- The ids on the route of a requested item. -/
def allowedIds (w : Walk) (items : List Item) : List Text :=
  items.flatMap fun it =>
    (List.range (it.route.length+1)).filterMap fun depth => w.routeIds it.dir (it.route.take depth)

def receivePage (allowed : List Text) (w : Walk) (page : Digest × Bytes) : Result Walk := do
  let id := digest page.1
  require (id ∈ allowed ∧ c.pageId page.2 = page.1) ⟨.digestMismatch,
    "metadata/pages returned an invalid or unrequested page " ++ id⟩
  out.put w.tick id page.2
  pure { w with byId := Function.update w.byId id (some page.2), tick := w.tick+1 }

def requestPages (w : Walk) (items : List Item) : Result Walk :=
  if items = [] then .ok w
  else do
    out.lease w.tick
    let pages ← out.serve w.tick items
    pages.foldlM (receivePage c out (allowedIds w items)) { w with tick := w.tick+1 }

def fetchBatch (w : Walk) : Result Walk := do
  let batch := w.frontier.take pageBatch
  let w := { w with frontier := w.frontier.drop pageBatch, batch := batch, byId := fun _ => none }
  let (w,items) ← batch.foldlM (lookupItem c reader out) (w,[])
  requestPages c out w items

/-! ## Completion -/

def DirState.done (st : DirState) : Bool := st.pendingPages = 0 ∧ st.pendingChildren = 0

def doneStates (w : Walk) : List (Text × DirState) := w.states.filter fun s => s.2.done

def recordOf (st : DirState) : ClosureRecord where
  authDomain := reader.authDomain
  metadataCodec := reader.codec
  policyRevision := Incremental.policyRevision
  rootPageId := st.rootPageId
  pageIds := sortIds st.pageIds
  totalEntries := st.totalEntries
  files := st.files
  pinRef := reader.snapshotId

def completeDir (w : Walk) (dir : Text) (st : DirState) : Result Walk :=
  handUp { w with
      states := Assoc.erase w.states dir
      tx := w.tx.putRecord (recordOf reader st)
      tick := w.tick+1 }
    st.parent st.base st.files (sortIds st.pageIds) st.totalEntries

/-! ## The machine -/

inductive Outcome where
  | next (w : Walk)
  | finished (files : List SnapshotFile) (tx : Transaction)

def step (w : Walk) : Result Outcome :=
  match w.pending with
  | q :: rest => (enqueueDir c reader out { w with pending := rest } q).map .next
  | [] =>
    match w.batch with
    | it :: rest => (processItem c { w with batch := rest } it).map .next
    | [] =>
      match doneStates w with
      | s :: rest =>
        let s := ((s :: rest)[out.pick w.tick % (rest.length+1)]?).getD s
        (completeDir reader w s.1 s.2).map .next
      | [] =>
        if w.frontier = [] then .ok (.finished w.filesOut w.tx)
        else (fetchBatch c reader out w).map .next

def start (tx : Transaction) : Walk where
  states := []
  frontier := []
  routeIds := fun _ _ => none
  byId := fun _ => none
  batch := []
  pending := [⟨"/",reader.metadataRoot,none,[]⟩]
  filesOut := []
  tx := tx
  tick := 0

/-- The walk with a bound on the number of steps; `none` means that the bound was too small. -/
def run : ℕ → Walk → Option (Result (List SnapshotFile × Transaction))
  | 0, _ => none
  | fuel+1, w =>
    match step c reader out w with
    | .error e => some (.error e)
    | .ok (.finished files tx) => some (.ok (files,tx))
    | .ok (.next w) => run fuel w

def acquire (fuel : ℕ) (tx : Transaction) : Option (Result (List SnapshotFile × Transaction)) :=
  run c reader out fuel (start reader tx)

/-- `ClosureTransaction::commit`: a changed index is stored. The result is the stored index. -/
def commit (store : Result Unit) (before : Text → Option ClosureRecord) (tx : Transaction) :
    Result (Text → Option ClosureRecord) :=
  if tx.dirty then store.map fun _ => tx.records else .ok before

/-- `sync` after the index is loaded; the stored index is the second component. -/
def sync (store : Result Unit) (fuel : ℕ) (tx : Transaction) :
    Option (Result (List SnapshotFile × (Text → Option ClosureRecord))) :=
  (acquire c reader out fuel tx).map fun result => do
    let acquired ← result
    acquired.1.forM fun file => validateRelativePath c reader.scope file.relPath
    let records ← commit store tx.records acquired.2
    pure (acquired.1,records)

def factRecord (fact : VerifiedSubtreeFacts) : ClosureRecord where
  authDomain := reader.authDomain
  metadataCodec := reader.codec
  policyRevision := Incremental.policyRevision
  rootPageId := fact.rootPageId
  pageIds := fact.pageIds
  totalEntries := fact.totalEntries
  files := fact.files
  pinRef := reader.snapshotId

/-- `sync_snapshot` after the pages are collected: the records come from the proof of the root.
`checks` are the lease and the file limits of the reader. -/
def syncSnapshot (now : ℕ → ℕ) (checks : ValidatedSnapshotClosure → Result Unit)
    (store : Result Unit) (d : Descriptor) (pages : PageMap) (tx : Transaction) :
    Result (ValidatedSnapshotClosure × (Text → Option ClosureRecord)) := do
  let proved ← withSubtreeFacts c now d pages
  checks proved.1
  let records ← commit store tx.records
    (proved.2.foldl (fun tx fact => tx.putRecord (factRecord reader fact)) tx)
  pure (proved.1,records)

end Steps

end Scorpio.Incremental
