import Scorpio.Base.RelyGuarantee
import Scorpio.Retention.Owners

/-!
# Binding a cache directory, by many processes

`bind_directory` of `snapshot::auth` as one of many calls on the same
directory. Each file step is an operation of the shared directory; the system
chooses its answer, an I/O error included. The advisory lock on
`authority.lock` has at most one holder, and taking it waits. A crash cuts a
call off between two steps; the system then releases its lock, and what the
call did to the directory stays.

The record, the temporary files of bindings, and all other entries of the
directory are kept apart. `Retention.bindDirectory` is the same function run by
one process over a whole disk.
-/

set_option autoImplicit false

namespace Scorpio.Authority

open ByteText PageCodec Dialogues RelyGuarantee Retention

/-- An entry of the directory that no binding made. -/
structure Entry where
  name : Text
  isDir : Bool
  isEmpty : Bool
  deriving DecidableEq, Repr

structure Directory (κ : Type) where
  authority : Option Bytes
  temporaries : Text → Option Bytes
  content : List Entry
  holder : Option κ

/-- What `read_dir` yields for one entry. -/
structure Listed where
  name : Text
  isDir : Except IoError Bool

/-! ## Operations -/

inductive Op where
  | ioGuard
  | createDirAll
  | openLock
  | lock
  | readAuthority
  | readDir
  | childEmpty (name : Text)
  | beginWrite (bytes : ℕ)
  | openTruncate (name : Text)
  | write (name : Text) (data : Bytes)
  | syncFile (name : Text)
  | rename (name : Text)
  | syncDir
  | dropAdmission (name : Text)
  | unlock

abbrev Answer : Op → Type
  | .ioGuard => Result Unit
  | .createDirAll | .openLock | .lock | .openTruncate _ | .syncFile _ | .rename _ | .syncDir =>
    Except IoError Unit
  | .readAuthority => Except IoError Bytes
  | .readDir => Except IoError (List (Except IoError Listed))
  | .childEmpty _ => Except IoError Bool
  | .beginWrite _ => Result (Option Text)
  | .write .. => Except IoError ℕ
  | .dropAdmission _ | .unlock => Unit

section Effects

variable {κ : Type}

def Directory.setTemporary (d : Directory κ) (name : Text) (data : Option Bytes) : Directory κ :=
  { d with temporaries := Function.update d.temporaries name data }

/-- Every entry is listed, unless listing fails before. -/
def Lists (content : List Entry) (items : List (Except IoError Listed)) : Prop :=
  (∃ e, .error e ∈ items) ∨
    ∀ entry ∈ content, ∃ item : Listed, .ok item ∈ items ∧ item.name = entry.name ∧
      (item.isDir = .ok entry.isDir ∨ ∃ e, item.isDir = .error e)

variable [DecidableEq κ]

/-- The lock of a call that ends or is cut off. -/
def Directory.release (d : Directory κ) (k : κ) : Directory κ :=
  if d.holder = some k then { d with holder := none } else d

/-- What each operation of call `k` does. -/
def effect (k : κ) : (op : Op) → Directory κ → Answer op → Directory κ → Prop
  | .lock, d, r, d' =>
    ((∃ e, r = .error e) ∧ d' = d) ∨
      (r = .ok () ∧ d.holder = none ∧ d' = { d with holder := some k })
  | .readAuthority, d, r, d' =>
    d' = d ∧ match r with
      | .ok bytes => d.authority = some bytes
      | .error e => e.kind = .notFound → d.authority = none
  | .readDir, d, r, d' => d' = d ∧ ∀ items, r = .ok items → Lists d.content items
  | .childEmpty name, d, r, d' =>
    d' = d ∧ ∀ isEmpty, r = .ok isEmpty →
      ∀ entry ∈ d.content, entry.name = name → entry.isEmpty = isEmpty
  | .openTruncate name, d, r, d' =>
    match r with
    | .ok _ => d' = d.setTemporary name (some [])
    | .error _ => d' = d ∨ d' = d.setTemporary name (some [])
  | .write name data, d, r, d' =>
    match r with
    | .ok n => n ≤ data.length ∧ ∃ old, d.temporaries name = some old ∧
        d' = d.setTemporary name (some (old ++ data.take n))
    | .error _ => d' = d
  | .rename name, d, r, d' =>
    match r with
    | .ok _ => ∃ data, d.temporaries name = some data ∧
        d' = { d.setTemporary name none with authority := some data }
    | .error _ => d' = d
  | .dropAdmission name, d, _, d' => d' = d.setTemporary name none ∨ d' = d
  | .unlock, d, _, d' => d' = d.release k
  | .ioGuard, d, _, d' => d' = d
  | .createDirAll, d, _, d' => d' = d
  | .openLock, d, _, d' => d' = d
  | .beginWrite _, d, _, d' => d' = d
  | .syncFile _, d, _, d' => d' = d
  | .syncDir, d, _, d' => d' = d

end Effects

/-! ## The call -/

abbrev Call := Task Answer SnapshotError Unit

def ask (op : Op) : Call (Answer op) := call op

def orIo {α : Type} (m : Call (Except IoError α)) : Call α := do
  lift ((← m).mapError ioError)

def populated : SnapshotError := forbidden "populated legacy cache has no authority record"

def checkEntries : List (Except IoError Listed) → Call Unit
  | [] => pure ()
  | item :: rest => do
    let entry ← lift (item.mapError ioError)
    if entry.name = authorityLock ∨ entry.name = authorityTmp then checkEntries rest
    else do
      let isDir ← lift (entry.isDir.mapError ioError)
      if isDir then do
        let isEmpty ← orIo (ask (.childEmpty entry.name))
        if isEmpty then checkEntries rest else fail populated
      else fail populated

/-- `write_all`: a write that takes nothing is an error, so each turn has less to write. -/
def writeAll (name : Text) : ℕ → Bytes → Call Unit
  | _, [] => pure ()
  | 0, _ => fail ⟨.internal,"failed to write whole buffer"⟩
  | turns+1, data => do
    let n ← orIo (ask (.write name data))
    if n = 0 then fail ⟨.internal,"failed to write whole buffer"⟩
    else writeAll name turns (data.drop n)

def writeAuthority (temp : Text) (data : Bytes) : Call Unit := do
  orIo (ask (.openTruncate temp))
  writeAll temp data.length data
  orIo (ask (.syncFile temp))
  orIo (ask (.rename temp))
  orIo (ask .syncDir)

section Bind

variable (format : Format CacheBinding)

def compareStored (binding : CacheBinding) (bytes : Bytes) : Result Unit :=
  match format.decode bytes with
  | .error _ => .error (forbidden "cache authority record is malformed")
  | .ok stored =>
    if stored = binding then .ok ()
    else .error (forbidden "cache belongs to a different authority, scope or snapshot")

def adopt (data : Bytes) : Call Unit := do
  checkEntries (← orIo (ask .readDir))
  match ← lift (← ask (.beginWrite data.length)) with
  | some temp => ensuring (writeAuthority temp data) (ask (.dropAdmission temp))
  | none => writeAuthority authorityTmp data

def underLock (binding : CacheBinding) : Call Unit := do
  match ← ask .readAuthority with
  | .ok bytes => lift (compareStored format binding bytes)
  | .error e => if e.kind = .notFound then adopt (format.encode binding) else fail (ioError e)

def bindDirectory (binding : CacheBinding) : Call Unit := do
  lift (← ask .ioGuard)
  orIo (ask .createDirAll)
  orIo (ask .openLock)
  orIo (ask .lock)
  ensuring (underLock format binding) (ask .unlock)

/-- Calls on one directory, each with its own binding. -/
def bindings (κ : Type) [DecidableEq κ] :
    System Answer (Directory κ) κ CacheBinding (Result Unit × Unit) where
  program binding := bindDirectory format binding ()
  effect := effect
  crash k d := d.release k

end Bind

end Scorpio.Authority
