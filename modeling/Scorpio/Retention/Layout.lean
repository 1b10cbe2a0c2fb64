import Scorpio.Retention.Owners

/-!
# The layout of a managed scope

The names that the collector knows: the directories, the final files and the
temporaries of control records, by their place below the scope, with the inventory
of everything that is there. The inventory counts as it goes and gives up at the
first limit.
-/

set_option autoImplicit false

namespace Scorpio.Retention

open ByteText Fallible PageCodec

/-! ## Names -/

/-- The names below the scope, from the node up. -/
def parts (scope path : Path) : Result (List Text) := do
  let relative ← okOr (relativeTo scope path) (integrity "cache path escaped scope")
  require (relative.all validUtf8) (integrity "cache name is not UTF-8")
  pure relative

/-- `rsplit_once`. -/
def rsplitOnce (t separator : Text) : Option (Text × Text) :=
  ((List.range (t.length+1)).reverse.find? fun i => separator <+: t.drop i).map fun i =>
    (t.take i,t.drop (i+separator.length))

/-- The final name of a temporary whose identifier is canonical. -/
def temporaryOf (name : Text) : Option Text :=
  if txt "." <+: name then
    match rsplitOnce (name.drop 1) (txt ".tmp.") with
    | some (finalName,id) => if canonicalUuid id then some finalName else none
    | none => none
  else none

def hydrateSuffix : Text := ".hydrate.json"

def jsonSuffix : Text := ".json"

/-- The longer suffix is tried first. -/
def intentId (name : Text) : Option Text :=
  stripSuffix name hydrateSuffix <|> stripSuffix name jsonSuffix

def rawControlTemporary (scope path : Path) : Result Bool := do
  match ← parts scope path with
  | [name] => pure ((temporaryOf name).any fun final => final = policyName ∨ final = ledgerName)
  | [name,directory] =>
    pure (directory = intentsName ∧ (temporaryOf name).any fun final =>
      (intentId final).any canonicalUuid)
  | _ => pure false

def validDirectory (scope path : Path) (owners : List Path) : Result Bool := do
  match ← parts scope path with
  | [name] => pure (name ∈ [blobDir,pagesName,registryDir,intentsName] ∨ canonicalHex name)
  | [directory,sid] => pure (directory = ownersName ∧ canonicalHex sid)
  | [id,directory,sid] =>
    pure (directory = ownersName ∧ canonicalHex sid ∧ ownerRoot scope sid id ∈ owners)
  | [name,id,directory,sid] =>
    pure (directory = ownersName ∧ ownerRoot scope sid id ∈ owners ∧
      name ∈ [metadataDir,retentionDir])
  | [name,parent,id,directory,sid] =>
    pure (name = pagesName ∧ parent = retentionDir ∧ directory = ownersName ∧
      ownerRoot scope sid id ∈ owners)
  | _ => pure false

def scopeNames : List Text := [authorityFile,authorityLock,policyName,ledgerName,fenceName,
  admissionLock,ownerAdmissionLock,closuresFile,closuresLock]

def ownerNames : List Text := [authorityFile,authorityLock,ownerFile,transactionLock,useRecordName,
  revokeFile,viewFile,manifestFile,journalFile,completeMarker,pinFile,offlineGrantFile,repairFile,
  descriptorFile,metadataIndexFile]

def registryName (name : Text) : Bool :=
  (stripSuffix name jsonSuffix <|> stripSuffix name (txt ".lock")).any canonicalUuid

/-- A final name by its directories below the scope. -/
def finalName (scope : Path) (owners : List Path) (name : Text) : List Text → Bool
  | [] => name ∈ scopeNames
  | [directory] =>
    if directory = blobDir then canonicalHex name ∨ name ∈ [authorityFile,authorityLock]
    else if directory = pagesName then canonicalHex name
    else directory = registryDir ∧ registryName name
  | [id,directory,sid] =>
    directory = ownersName ∧ ownerRoot scope sid id ∈ owners ∧ name ∈ ownerNames
  | [child,id,directory,sid] =>
    directory = ownersName ∧ ownerRoot scope sid id ∈ owners ∧
      if child = metadataDir then canonicalHex name
      else child = retentionDir ∧ name = retainedDescriptor
  | [child,parent,id,directory,sid] =>
    child = pagesName ∧ parent = retentionDir ∧ directory = ownersName ∧
      ownerRoot scope sid id ∈ owners ∧ canonicalHex name
  | _ => false

def validFinalFile (scope path : Path) (owners : List Path) : Result Bool := do
  match ← parts scope path with
  | [] => pure false
  | name :: parents => pure (finalName scope owners name parents)

/-! ## The inventory -/

structure Inventory where
  bytes : ℕ
  entries : ℕ
  allocation : ℕ
  files : List (Path × ℕ)
  directories : List Path

/-- The order of `BTreeMap<PathBuf, _>`. -/
def pathLe (p q : Path) : Bool := p.reverse ≤ q.reverse

/-- `std::mem::size_of::<(PathBuf, u64)>() + 64`. -/
def entryAllocation : ℕ := 32+64

def checkedBytes (message : Text) (a b : ℕ) : Result ℕ := okOr (checkedAdd a b) (limit message)

section Scanning

variable (h : Host) (limits : CacheLimits) (deadline : ℕ)

def checkWork : Look Unit := do
  let now ← instantNow h
  demand (now < deadline) (limit "cache inventory deadline exceeded")

/-- The sums with a further node. -/
def countEntry (i : Inventory) (path : Path) (n : Node) : Result Inventory := do
  let bytes ← checkedBytes "cache inventory byte count overflow" i.bytes (entryCharge+n.len)
  require (bytes ≤ limits.maxBytes) (limit "cache physical inventory exceeds capacity")
  let allocation ← checkedBytes "cache inventory allocation overflow" i.allocation
    (saturatingMul (displayPath path).length 2+entryAllocation)
  require (allocation ≤ limits.maxInventoryBytes)
    (limit "cache inventory allocation budget exceeded")
  pure {i with bytes := bytes, allocation := allocation}

def scanEntry (descend : Path → Inventory → Look Inventory) (directory : Path) (i : Inventory)
    (entry : Text × Node) : Look Inventory := do
  checkWork h deadline
  let i := {i with entries := i.entries+1}
  demand (i.entries ≤ limits.maxEntries) (limit "cache inventory entry budget exceeded")
  let path := entry.1 :: directory
  let n ← orFail ioError (symlinkMetadata h path)
  demand (n.isFile ∨ n.isDir) (integrity "managed cache contains a symlink or special file")
  let i ← Queries.lift (countEntry limits i path n)
  if n.isDir then descend path {i with directories := path :: i.directories}
  else pure {i with files := (path,n.len) :: i.files}

/-- `scan_directory`, with the depth counted down. -/
def scanDirectory : ℕ → Path → Inventory → Look Inventory
  | 0, _, _ => do
    checkWork h deadline
    fail (integrity "unknown managed cache directory layout")
  | depth+1, directory, i => do
    checkWork h deadline
    let entries ← orFail ioError (readDir h directory)
    entries.foldlM (scanEntry h limits deadline (scanDirectory depth) directory) i

/-- `Inventory::scan`, in the order of its maps. -/
def scan (scope : Path) : Look Inventory := do
  let i ← scanDirectory h limits deadline 9 scope ⟨0,0,0,[],[]⟩
  pure {i with
    files := i.files.insertionSort fun a b => pathLe a.1 b.1
    directories := i.directories.insertionSort fun a b => pathLe a b}

end Scanning

end Scorpio.Retention
