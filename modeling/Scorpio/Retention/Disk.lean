import Scorpio.Base.CrashLogic
import Scorpio.Base.Queries
import Scorpio.Base.DirectoryTree
import Scorpio.Retention.Records

/-!
# The local disk

The file system calls that the cache makes, over one tree of directories, regular
files and other nodes. A link is never followed: below a node that is no directory
there is nothing. Every call draws a number, and the host says for each number
whether the call fails. A call that changes the disk is a point where the process
can be cut; a write can be cut with a part of its bytes in the file.

Beside the visible tree the machine keeps what the system has not made durable:
the entries that a power failure may bring back, and the files whose bytes it may
lose. `sync_all` on a file or a directory settles its part.
-/

set_option autoImplicit false

namespace Scorpio.Retention

open ByteText PageCodec DirectoryTree CrashLogic Queries

inductive IoKind where
  | notFound
  | notADirectory
  | alreadyExists
  | wouldBlock
  | other
  deriving DecidableEq, Repr

structure IoError where
  kind : IoKind
  text : Text
  deriving DecidableEq, Repr

inductive Node where
  | directory
  | regular (bytes : Bytes)
  | special
  deriving DecidableEq, Repr

def Node.isDir : Node → Bool
  | directory => true
  | _ => false

def Node.isFile : Node → Bool
  | regular _ => true
  | _ => false

def Node.len : Node → ℕ
  | regular bytes => bytes.length
  | _ => 0

abbrev Disk := Tree Text Node Node.isDir

def notFound : IoError := ⟨.notFound,"No such file or directory (os error 2)"⟩
def notADirectory : IoError := ⟨.notADirectory,"Not a directory (os error 20)"⟩
def alreadyExists : IoError := ⟨.alreadyExists,"File exists (os error 17)"⟩
def isADirectory : IoError := ⟨.other,"Is a directory (os error 21)"⟩
def notRegular : IoError := ⟨.other,"local integrity object is not a regular file"⟩

/-- Why there is nothing at a path. -/
def missing (d : Disk) : Path → IoError
  | [] => notFound
  | _ :: dir => match d.get dir with
    | some .directory => notFound
    | some _ => notADirectory
    | none => missing d dir

def node (d : Disk) (p : Path) : Except IoError Node :=
  match d.get p with
  | some n => .ok n
  | none => .error (missing d p)

def contents (d : Disk) (p : Path) : Except IoError Bytes :=
  match d.get p with
  | some (.regular bytes) => .ok bytes
  | some _ => .error notRegular
  | none => .error (missing d p)

def listing (d : Disk) (p : Path) : Except IoError (List (Text × Node)) :=
  match d.get p with
  | some .directory => .ok (d.children p)
  | some _ => .error notADirectory
  | none => .error (missing d p)

/-! ## The host -/

/-- What the program takes from outside: the outcome of calls, identifiers, clocks, the hash
function, and the code of other crates. -/
structure Host where
  fault : ℕ → Option IoError
  /-- A failure from outside is no statement about what is there. -/
  fault_kind : ∀ n e, fault n = some e → e.kind = .other
  torn : ℕ → ℕ
  busy : ℕ → Bool
  uuid : ℕ → Text
  millis : ℕ → ℕ
  seconds : ℕ → ℕ
  processId : Text
  hash : Bytes → Digest
  codec : Codec
  formats : Formats
  /-- `Instant::now().checked_add` of so many milliseconds has a value. -/
  instantFits : ℕ → Bool
  /-- `resolve_wire::timestamp` accepts the text. -/
  timestamp : Text → Bool
  /-- `String::from_utf8_lossy`. -/
  lossy : Bytes → Text
  /-- `trim().is_empty()`. -/
  blank : Text → Bool

def digestOf (h : Host) (bytes : Bytes) : Text := digest (h.hash bytes)

/-- `HydrationBudget`, under the root of its owner. -/
structure Budget where
  scope : Path
  operationId : Text
  remaining : ℕ
  proof : Bool
  deriving DecidableEq, Repr

structure Machine where
  disk : Disk
  unsynced : List (Path × Option Node)
  dirty : List Path
  tick : ℕ
  budgets : List (Path × Budget)

abbrev Look := Query Disk SnapshotError
abbrev Io := Prog Machine SnapshotError

def look {α : Type} (q : Look α) : Io α := fun m =>
  ⟨[],{m with tick := (q m.disk m.tick).2},(q m.disk m.tick).1⟩

/-! ## Reading calls -/

section Reading

variable (h : Host) {α : Type}

def sense (f : Disk → Except IoError α) : Look (Except IoError α) := fun d n =>
  (.ok ((h.fault n).elim (f d) .error),n+1)

def symlinkMetadata (p : Path) : Look (Except IoError Node) := sense h (node · p)

/-- `open_regular`, `open_regular_nonblocking` and the read of the whole file. -/
def readFile (p : Path) : Look (Except IoError Bytes) := sense h (contents · p)

def readDir (p : Path) : Look (Except IoError (List (Text × Node))) := sense h (listing · p)

def instantNow : Look ℕ := fun _ n => (.ok (h.millis n),n+1)

def wouldBlock : Look Bool := fun _ n => (.ok (h.busy n),n+1)

/-- `map_err` of an input or output error. -/
def orFail (wrap : IoError → SnapshotError) (m : Look (Except IoError α)) : Look α := do
  let r ← m
  Queries.lift (r.mapError wrap)

def fail (e : SnapshotError) : Look α := Queries.lift (.error e)

def demand (b : Bool) (e : SnapshotError) : Look Unit := Queries.lift (Fallible.require b e)

def insist (b : Bool) (e : SnapshotError) : Io Unit := CrashLogic.lift (Fallible.require b e)

def ioError (e : IoError) : SnapshotError := ⟨.internal,e.text⟩

/-- The wording of `durable`. -/
def ioErr (e : IoError) : SnapshotError := ⟨.internal,"local store: " ++ e.text⟩

end Reading

/-! ## Changing calls -/

namespace Machine

def link (m : Machine) (p : Path) (n : Node) : Machine :=
  {m with disk := m.disk.put p n, unsynced := (p,m.disk.get p) :: m.unsynced}

def unlink (m : Machine) (p : Path) : Machine :=
  {m with
    disk := m.disk.remove p
    unsynced := (p,m.disk.get p) :: m.unsynced
    dirty := m.dirty.filter (· ≠ p)}

def fill (m : Machine) (p : Path) (bytes : Bytes) : Machine :=
  {m with disk := m.disk.put p (.regular bytes), dirty := p :: m.dirty}

def move (m : Machine) (src dst : Path) (bytes : Bytes) : Machine :=
  {(m.link dst (.regular bytes)).unlink src with
    dirty := if src ∈ m.dirty then dst :: m.dirty.filter (· ≠ src) else m.dirty.filter (· ≠ dst)}

end Machine

section Changing

variable (h : Host)

def act (f : Machine → Except IoError Machine) : Io (Except IoError Unit) := fun m =>
  match (h.fault m.tick).elim (f m) .error with
  | .ok m' => ⟨[m],{m' with tick := m.tick+1},.ok (.ok ())⟩
  | .error e => ⟨[m],{m with tick := m.tick+1},.ok (.error e)⟩

/-- The directory of a new entry must be there. -/
def newEntry (m : Machine) (p : Path) (n : Node) : Except IoError Machine :=
  if m.disk.accepts n p then .ok (m.link p n) else .error (missing m.disk p)

def openCreateNew (p : Path) : Io (Except IoError Unit) := act h fun m =>
  match m.disk.get p with
  | some _ => .error alreadyExists
  | none => newEntry m p (.regular [])

/-- The bytes in the file before a write; an open file is regular. -/
def written (m : Machine) (p : Path) : Bytes :=
  match m.disk.get p with
  | some (.regular bytes) => bytes
  | _ => []

/-- `write_all` at the end of an open file. A cut or failed write leaves a part of its bytes. -/
def writeAll (p : Path) (bytes : Bytes) : Io (Except IoError Unit) := fun m =>
  let part := m.fill p (written m p ++ bytes.take (h.torn m.tick))
  match h.fault m.tick with
  | some e => ⟨[m,part],{part with tick := m.tick+1},.ok (.error e)⟩
  | none => ⟨[m,part],{m.fill p (written m p ++ bytes) with tick := m.tick+1},.ok (.ok ())⟩

def syncFile (p : Path) : Io (Except IoError Unit) := act h fun m =>
  match m.disk.get p with
  | some (.regular _) => .ok {m with dirty := m.dirty.filter (· ≠ p)}
  | some _ => .error notRegular
  | none => .error (missing m.disk p)

def syncDirectory (p : Path) : Io (Except IoError Unit) := act h fun m =>
  match m.disk.get p with
  | some _ => .ok {m with unsynced := m.unsynced.filter fun e => e.1 = [] ∨ e.1.tail ≠ p}
  | none => .error (missing m.disk p)

def renamed (m : Machine) (src dst : Path) : Except IoError Machine :=
  match m.disk.get src with
  | some (.regular bytes) =>
    if src = dst then .ok m
    else if m.disk.hasDir dst then .error isADirectory
    else if m.disk.accepts (.regular bytes) dst then .ok (m.move src dst bytes)
    else .error (missing m.disk dst)
  | some _ => .error notRegular
  | none => .error (missing m.disk src)

def rename (src dst : Path) : Io (Except IoError Unit) := act h (renamed · src dst)

def removeFile (p : Path) : Io (Except IoError Unit) := act h fun m =>
  match m.disk.get p with
  | some .directory => .error isADirectory
  | some _ => .ok (m.unlink p)
  | none => .error (missing m.disk p)

/-- Lets go of a file whether or not it is there. -/
def discardFile (p : Path) : Io Unit := do
  let _ ← removeFile h p
  pure ()

def newUuid : Io Text := fun m => ⟨[],{m with tick := m.tick+1},.ok (h.uuid m.tick)⟩

variable {α : Type}

def orStop (wrap : IoError → SnapshotError) (m : Io (Except IoError α)) : Io α := do
  let r ← m
  CrashLogic.lift (r.mapError wrap)

end Changing

/-!
## Admission of writes

The admission part of `snapshot::cache_retention` with the atomic writers of
`durable` and `incremental`. In a managed scope a write is charged to the ledger
and declared by an intent before its temporary file is made. A hydration reserves
once; its writes are taken from the reservation while that lasts. Nothing removes
the fence and the admission lock of a scope: taking one is only a look at the disk.
-/

open Fallible

section Reads

variable (h : Host) {α : Type}

def jsonError (e : Text) : SnapshotError := integrity ("invalid managed cache record: " ++ e)

def readOptionalBytes (p : Path) (maximum : ℕ) : Look (Option Bytes) := do
  match ← readFile h p with
  | .error e => if e.kind = .notFound then pure none else fail (ioError e)
  | .ok bytes =>
    if maximum < bytes.length then fail (limit "managed cache record size budget exceeded")
    else pure (some bytes)

def readOptionalRecord (f : Format α) (p : Path) (maximum : ℕ) : Look (Option α) := do
  match ← readOptionalBytes h p maximum with
  | none => pure none
  | some bytes => do
    let a ← Queries.lift ((f.decode bytes).mapError jsonError)
    pure (some a)

def readRecord (f : Format α) (p : Path) (maximum : ℕ) : Look α := do
  let r ← readOptionalRecord h f p maximum
  Queries.lift (okOr r (integrity "managed cache record is missing"))

def CacheLimits.valid (l : CacheLimits) : Bool :=
  l.proofHeadroomBytes < l.maxBytes ∧ controlBytes+8*entryCharge ≤ l.proofHeadroomBytes ∧
    l.maxEntries ≠ 0 ∧ l.maxOwners ≠ 0 ∧ l.maxInventoryBytes ≠ 0 ∧ l.maxMetadataBytes ≠ 0 ∧
    l.maxRootNodes ≠ 0 ∧ l.maxRecordBytes ≠ 0 ∧ l.maxScanMillis ≠ 0 ∧
    h.instantFits l.maxScanMillis ∧ l.maxDeleteEntries ≠ 0 ∧ l.maxDeleteBytes ≠ 0

def validateLimits (l : CacheLimits) : Result Unit :=
  require (CacheLimits.valid h l) (limit "invalid managed cache capacity limits")

def policy (scope : Path) : Look CacheLimits := do
  let policy ← readRecord h h.formats.policy (policyName :: scope) controlBytes
  demand (policy.revision = 1) (integrity "unsupported managed cache policy")
  Queries.lift (validateLimits h policy.limits)
  pure policy.limits

def searchPolicy : List Path → Look (Option Path)
  | [] => pure none
  | directory :: above => do
    match ← symlinkMetadata h (policyName :: directory) with
    | .ok (.regular _) => do
      let _ ← policy h directory
      pure (some directory)
    | .ok _ => fail (integrity "managed cache policy is not a regular file")
    | .error e =>
      if e.kind = .notFound ∨ e.kind = .notADirectory then searchPolicy above
      else fail (ioError e)

/-- Only repository-defined layouts are at most eight levels below a scope. -/
def managedScope (p : Path) : Look (Option Path) := searchPolicy h (p.tails.take 9)

/-- `lock` of the fence or the admission lock of a managed scope. -/
def lock (p : Path) : Look Unit := do
  match ← sense h (fun d => (d.get p).elim (.ok (.regular [])) .ok) with
  | .error e => fail (ioError e)
  | .ok (.regular _) => do
    if ← wouldBlock h then fail (busyError "managed cache lifecycle is busy") else pure ()
  | .ok _ => fail (ioError notRegular)

def readCharges (scope : Path) : Look Charges := do
  let charges ← readRecord h h.formats.charges (ledgerName :: scope) controlBytes
  demand (charges.revision = 1) (integrity "unsupported cache charge ledger")
  pure charges

end Reads

/-! ## Control records -/

section Control

variable (h : Host)

def syncDir (p : Path) : Io Unit := orStop ioErr (syncDirectory h p)

/-- The temporary file, filled, made durable and renamed. -/
def fillAndRename (wrap : IoError → SnapshotError) (tmp final : Path) (data : Bytes) : Io Unit := do
  orStop wrap (openCreateNew h tmp)
  orStop wrap (writeAll h tmp data)
  orStop wrap (syncFile h tmp)
  orStop wrap (rename h tmp final)

def rawAtomic (directory : Path) (name : Text) (bytes : Bytes) : Io Unit := do
  CrashLogic.lift (validateChild name)
  insist (bytes.length ≤ controlBytes) (limit "cache control record exceeds budget")
  let id ← newUuid h
  let temporary := tempName name id :: directory
  onError (do
    fillAndRename h ioError temporary (name :: directory) bytes
    syncDir h directory) (discardFile h temporary)

/-! ## Write admissions -/

/-- The names below the scope, from the leaf up. -/
def relativeTo (scope p : Path) : Option Path :=
  if scope <:+ p then some (p.take (p.length-scope.length)) else none

/-! ## Atomic writes -/

end Control

end Scorpio.Retention
