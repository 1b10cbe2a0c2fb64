import Scorpio.Base.CrashLogic

/-!
# Workspaces: preparation, mount and destruction

The control operations of `workspace::service` and `workspace::mount` on one
workspace. The runtime lock lets one of them run at a time; native mutations go on
beside it at every step, unless the fence is sealed or held by a pause. A step can
fail, and an operation can be cut between any two steps.

What the world does is numbered by the steps: failures, identities of new
directories, mutations, scans of the upper, and the answers of the cache. The log
records the events that the order of a destruction is about.
-/

set_option autoImplicit false

namespace Scorpio.Workspace

open CrashLogic

structure Identity where
  dev : ℕ
  ino : ℕ
  deriving DecidableEq, Repr

/-- What `lstat` shows at a private path. -/
inductive Entry where
  | directory (identity : Identity)
  | other
  deriving DecidableEq, Repr

structure WorkspaceError where
  code : String
  message : String
  deriving DecidableEq, Repr

def ioError (message : String) : WorkspaceError := ⟨"WORKSPACE_IO",message⟩

def unknownError (message : String) : WorkspaceError := ⟨"WORKSPACE_UNKNOWN",message⟩

inductive MountState where
  | creating
  | mounted
  | retiring
  | unmounted
  | failed
  deriving DecidableEq, Repr

inductive DirtyState where
  | clean
  | dirty
  | unknown
  deriving DecidableEq, Repr

structure MutationFence where
  isSealed : Bool
  uncertain : Bool
  deriving DecidableEq, Repr

structure WorkspaceMount where
  handle : Bool
  mountedIdentity : Option Identity
  plainIdentity : Identity
  retryUnmount : Bool
  retired : Bool
  fence : MutationFence
  deriving DecidableEq, Repr

/-- The reader, the store and the lower are only looked at for their presence. -/
structure Runtime where
  reader : Bool
  store : Bool
  lower : Bool
  mount : Option WorkspaceMount
  mountState : MountState
  hydrate : Bool
  directoryIdentity : Option Identity
  upperIdentity : Option Identity
  mountpointIdentity : Option Identity
  upperRemoved : Bool
  mountpointRemoved : Bool
  lastError : Option String
  deriving DecidableEq, Repr

def Runtime.new : Runtime where
  reader := false
  store := false
  lower := false
  mount := none
  mountState := .creating
  hydrate := false
  directoryIdentity := none
  upperIdentity := none
  mountpointIdentity := none
  upperRemoved := false
  mountpointRemoved := false
  lastError := none

inductive Mark where
  | mutated
  | fenced
  | retired
  | scannedClean
  | removed
  deriving DecidableEq, Repr

variable {υ κ : Type}

/-- One workspace with its private paths, the native mount over the mountpoint, the contents of
its upper, the owner in the cache and the contents that a removal has started on. -/
structure Machine (υ κ : Type) where
  listed : Bool
  runtime : Runtime
  directory : Option Entry
  upper : Option Entry
  mountpoint : Option Entry
  kernel : Option Identity
  layer : υ
  cache : κ
  tick : ℕ
  log : List Mark
  discarded : List υ

/-- What comes from outside at each step. -/
structure World (υ κ : Type) where
  fault : ℕ → Option String
  fresh : ℕ → Identity
  session : ℕ → Identity
  mutations : ℕ → List (υ → υ)
  unknown : ℕ → Bool
  recovery : ℕ → υ → υ
  /-- A failed native unmount can have taken the mount away. -/
  gone : ℕ → Bool
  scan : ℕ → υ → Except String Bool
  /-- What a failed recursive removal has left. -/
  remains : ℕ → υ → υ
  bind : ℕ → κ → Except String Unit × κ
  release : ℕ → κ → Except String Unit × κ
  retire : ℕ → κ → Except String Unit × κ

abbrev Op (υ κ : Type) := Prog (Machine υ κ) WorkspaceError

namespace Machine

def setMount (m : Machine υ κ) (mount : WorkspaceMount) : Machine υ κ :=
  {m with runtime := {m.runtime with mount := some mount}}

/-- Mutations complete one after another; each is acknowledged. -/
def mutate (m : Machine υ κ) (changes : List (υ → υ)) : Machine υ κ :=
  {m with
    layer := changes.foldl (fun layer change => change layer) m.layer
    log := changes.map (fun _ => .mutated) ++ m.log}

/-- The root of the mount covers the directory. -/
def shown (m : Machine υ κ) : Option Entry := (m.kernel.map .directory).or m.mountpoint

end Machine

section Steps

variable (w : World υ κ) {α : Type}

/-- While a step waits, mutations are admitted unless a pause is held or the fence is sealed, and
a lost mutation or handle latches the fence. -/
def disturb (paused : Bool) (m : Machine υ κ) : Machine υ κ :=
  match m.runtime.mount with
  | none => m
  | some mount =>
    let fence := {mount.fence with uncertain := mount.fence.uncertain || w.unknown m.tick}
    (m.mutate (if paused || mount.fence.isSealed then [] else w.mutations m.tick)).setMount
      {mount with fence := fence}

/-- A step whose failure changes nothing. -/
def perform (paused : Bool) (f : Machine υ κ → Except WorkspaceError α × Machine υ κ) :
    Op υ κ α := fun m =>
  let d := disturb w paused m
  match w.fault m.tick with
  | some e => ⟨[m,d],{d with tick := m.tick+1},.error (ioError e)⟩
  | none => ⟨[m,d],{(f d).2 with tick := m.tick+1},(f d).1⟩

/-- A step with its own outcome. -/
def conclude (f : Machine υ κ → Except WorkspaceError α × Machine υ κ) : Op υ κ α := fun m =>
  let d := disturb w false m
  ⟨[m,d],{(f d).2 with tick := m.tick+1},(f d).1⟩

def await : Op υ κ Unit := perform w false fun m => (.ok (),m)

def runtime : Op υ κ Runtime := ask fun m => .ok m.runtime

def setRuntime (f : Runtime → Runtime) : Op υ κ Unit := fun m =>
  ⟨[],{m with runtime := f m.runtime},.ok ()⟩

def fail (e : WorkspaceError) : Op υ κ α := lift (.error e)

def demand (b : Bool) (e : WorkspaceError) : Op υ κ Unit :=
  lift (if b then .ok () else .error e)

/-! ## Private paths -/

inductive Place where
  | directory
  | upper
  | mountpoint
  deriving DecidableEq, Repr

def Machine.entry (m : Machine υ κ) : Place → Option Entry
  | .directory => m.directory
  | .upper => m.upper
  | .mountpoint => m.shown

/-- `symlink_metadata`; the failure is a value. -/
def lstat (paused : Bool) (place : Place) : Op υ κ (Except String (Option Entry)) := fun m =>
  let d := disturb w paused m
  ⟨[m,d],{d with tick := m.tick+1},.ok ((w.fault m.tick).elim (.ok (d.entry place)) .error)⟩

def bindingUnproved : WorkspaceError :=
  unknownError "private directory ownership could not be proved"

/-- `check_directory_binding`. -/
def checkBinding (found : Except String (Option Entry)) (expected : Option Identity)
    (removed : Bool) : Except WorkspaceError Unit :=
  match found with
  | .ok none => if removed || expected.isNone then .ok () else .error bindingUnproved
  | .ok (some (.directory identity)) =>
    if !removed && expected.isSome then
      if some identity = expected then .ok ()
      else .error (unknownError "private directory was replaced")
    else .error bindingUnproved
  | _ => .error bindingUnproved

def checkPrivatePaths (paused : Bool) : Op υ κ Unit := do
  let r ← runtime
  let directory ← lstat w paused .directory
  lift (checkBinding directory r.directoryIdentity false)
  let upper ← lstat w paused .upper
  lift (checkBinding upper r.upperIdentity r.upperRemoved)

def checkRetiredMountpoint : Op υ κ Unit := do
  let r ← runtime
  let mountpoint ← lstat w false .mountpoint
  lift (checkBinding mountpoint r.mountpointIdentity r.mountpointRemoved)

def identityOf (found : Except String (Option Entry)) : Except WorkspaceError Identity :=
  match found with
  | .ok (some (.directory identity)) => .ok identity
  | .ok (some .other) => .error (unknownError "workspace directory is not a real directory")
  | .ok none => .error (ioError "No such file or directory (os error 2)")
  | .error e => .error (ioError e)

def directoryIdentity (place : Place) : Op υ κ Identity := do
  let found ← lstat w false place
  lift (identityOf found)

/-! ## The fence -/

def certain (message : String) (m : Machine υ κ) : Except WorkspaceError Unit × Machine υ κ :=
  match m.runtime.mount with
  | some mount => (if mount.fence.uncertain then .error (ioError message) else .ok (),m)
  | none => (.ok (),m)

/-- The pause is taken when every admitted mutation has ended. -/
def pause : Op υ κ Unit :=
  perform w false (certain "native mutation or handle cleanup has an unknown outcome")

def ensureCertain : Op υ κ Unit :=
  perform w true (certain "handle cleanup became unknown during the mutation pause")

def closeFence (m : Machine υ κ) : Except WorkspaceError Unit × Machine υ κ :=
  match m.runtime.mount with
  | some mount =>
    if mount.fence.uncertain then
      (.error (ioError "handle cleanup became unknown during the mutation pause"),m)
    else (.ok (),{m.setMount {mount with fence := {mount.fence with isSealed := true}} with
      log := .fenced :: m.log})
  | none => (.ok (),m)

/-- `MutationPause::seal`. -/
def sealPause : Op υ κ Unit := perform w true closeFence

/-- `MutationFence::seal`. -/
def sealFence : Op υ κ Unit := do
  pause w
  sealPause w

/-! ## The mount -/

def setMountField (f : WorkspaceMount → WorkspaceMount) : Op υ κ Unit :=
  setRuntime fun r => {r with mount := r.mount.map f}

def newMount (identity : Identity) : WorkspaceMount where
  handle := false
  mountedIdentity := none
  plainIdentity := identity
  retryUnmount := false
  retired := false
  fence := ⟨false,false⟩

/-- `WorkspaceMount::new`. -/
def prepareMount : Op υ κ Unit := do
  await w
  let identity ← directoryIdentity w .mountpoint
  await w
  setRuntime fun r => {r with mount := some (newMount identity)}

def nativeMount (m : Machine υ κ) : Except WorkspaceError Unit × Machine υ κ :=
  match m.runtime.mount with
  | some mount => (.ok (),{m.setMount {mount with handle := true} with
      kernel := some (w.session m.tick)})
  | none => (.ok (),m)

def notReady : WorkspaceError := ioError "workspace mount was not ready"

/-- The readiness loop: the identity of the mounted root is recorded when it is seen in time. -/
def recordIdentity (m : Machine υ κ) : Except WorkspaceError Unit × Machine υ κ :=
  match m.runtime.mount, m.kernel with
  | some mount, some identity => (.ok (),m.setMount {mount with mountedIdentity := some identity})
  | _, _ => (.error notReady,m)

def mount : Op υ κ Unit := do
  let r ← runtime
  match r.mount with
  | none => pure ()
  | some current =>
    if current.retired || current.retryUnmount then
      fail (ioError "workspace generation cannot be remounted")
    else if current.handle then pure ()
    else do
      perform w false (nativeMount w)
      perform w false recordIdentity

/-- `recover_all_copyups`. -/
def recoverCopyups (m : Machine υ κ) : Except WorkspaceError Unit × Machine υ κ :=
  (.ok (),{m with layer := w.recovery m.tick m.layer})

def recover : Op υ κ Unit := do
  sealFence w
  perform w false (recoverCopyups w)
  sealFence w

def mountReplaced : WorkspaceError := ioError "workspace kernel mount or mountpoint was replaced"

def checkShown (found : Except String (Option Entry)) (mount : WorkspaceMount) :
    Except WorkspaceError Unit :=
  match found with
  | .error e => .error (ioError e)
  | .ok none => .error (ioError "No such file or directory (os error 2)")
  | .ok (some (.directory actual)) =>
    if actual = mount.plainIdentity ∨ some actual = mount.mountedIdentity then .ok ()
    else .error mountReplaced
  | .ok (some .other) => .error mountReplaced

/-- A native unmount, by the session or by the helper. -/
def nativeUnmount (m : Machine υ κ) : Except WorkspaceError Unit × Machine υ κ :=
  match w.fault m.tick with
  | some e => (.error (ioError e),if w.gone m.tick then {m with kernel := none} else m)
  | none => (.ok (),{m with kernel := none})

def unmountHandle : Op υ κ Unit := do
  setMountField fun mount => {mount with handle := false, retryUnmount := true}
  match ← attempt (conclude w (nativeUnmount w)) with
  | .ok _ => pure ()
  | .error _ => conclude w (nativeUnmount w)

def unmountNative (mount : WorkspaceMount) : Op υ κ Unit :=
  if mount.handle then unmountHandle w
  else if mount.retryUnmount then conclude w (nativeUnmount w)
  else pure ()

/-- `wait_for_retired_owners`: a timeout or an uncertain fence ends the wait. -/
def waitForRetiredOwners : Op υ κ Unit := await w

def markRetired : Op υ κ Unit := fun m =>
  match m.runtime.mount with
  | some mount => ⟨[],{m.setMount {mount with retired := true, retryUnmount := false} with
      log := .retired :: m.log},.ok ()⟩
  | none => ⟨[],m,.ok ()⟩

def retireMount (current : WorkspaceMount) : Op υ κ Unit := do
  let found ← lstat w false .mountpoint
  lift (checkShown found current)
  recover w
  unmountNative w current
  setMountField fun mount => {mount with retryUnmount := true}
  waitForRetiredOwners w
  recover w
  markRetired

def unmount : Op υ κ Unit := do
  let r ← runtime
  match r.mount with
  | none => pure ()
  | some current => if current.retired then recover w else retireMount w current

/-! ## Dirty checks -/

def scanUpper (m : Machine υ κ) : Except WorkspaceError Bool × Machine υ κ :=
  match w.scan m.tick m.layer with
  | .ok true => (.ok true,{m with log := .scannedClean :: m.log})
  | .ok false => (.ok false,m)
  | .error e => (.error (ioError e),m)

def dirtyOf (clean : Bool) : DirtyState := if clean then .clean else .dirty

/-- A removed upper must stay away. -/
def removedUpper (paused : Bool) : Op υ κ DirtyState := do
  match ← lstat w paused .upper with
  | .ok none => pure .clean
  | _ => fail (unknownError "removed private upper reappeared")

def scanPaused : Op υ κ DirtyState := do
  let clean ← perform w true (scanUpper w)
  ensureCertain w
  pure (dirtyOf clean)

/-- Without a native overlay the fence is a fresh one, and nothing is admitted. -/
def dirtyUnmounted (lower : Bool) : Op υ κ DirtyState := do
  match ← lstat w false .upper with
  | .ok none => pure .clean
  | .ok (some (.directory _)) => if lower then scanPaused w else pure .unknown
  | _ => pure .unknown

def dirtyInner : Op υ κ DirtyState := do
  let r ← runtime
  if r.upperRemoved then removedUpper w false
  else if r.lower && r.mount.isSome then do
    pause w
    scanPaused w
  else dirtyUnmounted w r.lower

def dirty : Op υ κ DirtyState := do
  checkPrivatePaths w false
  let state ← dirtyInner w
  checkPrivatePaths w false
  pure state

def refuseDirty (state : DirtyState) (discard : Bool) : Except WorkspaceError Unit :=
  match state with
  | .clean => .ok ()
  | .dirty => if discard then .ok ()
    else .error ⟨"WORKSPACE_DIRTY","explicit discard_dirty is required"⟩
  | .unknown => .error (unknownError "upper or native ownership could not be proved")

/-! ## Destruction -/

def reconcileHydrate : Op υ κ Unit := do
  await w
  setRuntime fun r => {r with hydrate := false}

def cacheError (e : String) : WorkspaceError := ⟨"SNAPSHOT_ERROR",e⟩

def cacheCall (f : ℕ → κ → Except String Unit × κ) (m : Machine υ κ) :
    Except WorkspaceError Unit × Machine υ κ :=
  ((f m.tick m.cache).1.mapError cacheError,{m with cache := (f m.tick m.cache).2})

def scanFenced (r : Runtime) : Op υ κ DirtyState :=
  if r.upperRemoved then removedUpper w true
  else do
    let clean ← perform w true (scanUpper w)
    checkPrivatePaths w true
    pure (dirtyOf clean)

/-- The check before anything is taken down. -/
def firstCheck (discard : Bool) : Op υ κ Unit := do
  let r ← runtime
  if r.lower && r.mount.isSome then do
    pause w
    let state ← scanFenced w r
    lift (refuseDirty state discard)
    sealPause w
  else do
    let state ← dirty w
    lift (refuseDirty state discard)

def unmountObserved : Op υ κ Unit := do
  match ← attempt (unmount w) with
  | .ok _ => pure ()
  | .error e => do
    setRuntime fun r => {r with lastError := some e.message}
    fail e

def releaseOwner : Op υ κ Unit := do
  let r ← runtime
  if r.store then conclude w (cacheCall w.release) else pure ()

def retireOwner : Op υ κ Unit := do
  let r ← runtime
  if r.store then conclude w (cacheCall w.retire) else pure ()

/-- The removal starts on what the upper holds, when it is there. -/
def startRemoval (m : Machine υ κ) : Machine υ κ :=
  {m with
    log := .removed :: m.log
    discarded := if m.upper.isSome then m.layer :: m.discarded else m.discarded}

/-- `remove_dir_all`; a failure can leave a part. -/
def removeUpper (m : Machine υ κ) : Except WorkspaceError Unit × Machine υ κ :=
  match w.fault m.tick with
  | some e => (.error (ioError e),{startRemoval m with layer := w.remains m.tick m.layer})
  | none => (.ok (),{startRemoval m with upper := none})

def removeMountpoint (m : Machine υ κ) : Except WorkspaceError Unit × Machine υ κ :=
  (.ok (),{m with mountpoint := none})

def removeDirectory (m : Machine υ κ) : Except WorkspaceError Unit × Machine υ κ :=
  (.ok (),{m with directory := none})

def removePaths (expected : Identity) : Op υ κ Unit := do
  let identity ← directoryIdentity w .directory
  demand (identity = expected) (unknownError "private workspace directory was replaced")
  conclude w (removeUpper w)
  setRuntime fun r => {r with upperRemoved := true}
  perform w false removeMountpoint
  setRuntime fun r => {r with mountpointRemoved := true}

def removePrivate : Op υ κ Unit := do
  let r ← runtime
  match r.directoryIdentity with
  | some expected => removePaths w expected
  | none => do
    demand r.mount.isNone (unknownError "native owner has no private directory binding")
    setRuntime fun r => {r with upperRemoved := true, mountpointRemoved := true}

def removeWorkspace : Op υ κ Unit := do
  let r ← runtime
  if r.directoryIdentity.isSome then perform w false removeDirectory else pure ()

def unlist : Op υ κ Unit := fun m => ⟨[],{m with listed := false},.ok ()⟩

def find : Op υ κ Unit := ask fun m =>
  if m.listed then .ok () else .error ⟨"WORKSPACE_NOT_FOUND","unknown workspace"⟩

/-- Everything that is taken down before the upper goes. -/
def takeDown (discard : Bool) : Op υ κ Unit := do
  checkPrivatePaths w false
  firstCheck w discard
  reconcileHydrate w
  setRuntime fun r => {r with mountState := .retiring}
  unmountObserved w
  setRuntime fun r => {r with mountState := .unmounted}

/-- The last check follows the retirement of the native owners. -/
def lastCheck (discard : Bool) : Op υ κ Unit := do
  let state ← dirty w
  lift (refuseDirty state discard)
  checkRetiredMountpoint w
  releaseOwner w
  checkPrivatePaths w false
  checkRetiredMountpoint w

def destroy (discard : Bool) : Op υ κ Unit := do
  find
  takeDown w discard
  lastCheck w discard
  removePrivate w
  checkPrivatePaths w false
  checkRetiredMountpoint w
  retireOwner w
  removeWorkspace w
  unlist

/-! ## Creation and observation -/

def makeDirectory (place : Place) (m : Machine υ κ) :
    Except WorkspaceError Unit × Machine υ κ :=
  match m.entry place with
  | some _ => (.error (ioError "File exists (os error 17)"),m)
  | none =>
    let entry := some (Entry.directory (w.fresh m.tick))
    (.ok (),match place with
      | .directory => {m with directory := entry}
      | .upper => {m with upper := entry}
      | .mountpoint => {m with mountpoint := entry})

def bindIdentity (place : Place) (identity : Identity) (r : Runtime) : Runtime :=
  match place with
  | .directory => {r with directoryIdentity := some identity}
  | .upper => {r with upperIdentity := some identity}
  | .mountpoint => {r with mountpointIdentity := some identity}

/-- A directory is made, recorded and initialised. -/
def preparePlace (place : Place) : Op υ κ Unit := do
  perform w false (makeDirectory w place)
  let identity ← directoryIdentity w place
  setRuntime (bindIdentity place identity)
  await w

def preparePaths : Op υ κ Unit := do
  preparePlace w .directory
  preparePlace w .upper
  preparePlace w .mountpoint
  checkPrivatePaths w false
  checkRetiredMountpoint w

def prepareStore : Op υ κ Unit := do
  conclude w (cacheCall w.bind)
  setRuntime fun r => {r with store := true}

/-- `prepare_inner`. -/
def prepare (full : Bool) : Op υ κ Unit := do
  await w
  await w
  setRuntime fun r => {r with reader := true}
  prepareStore w
  await w
  setRuntime fun r => {r with lower := true}
  preparePaths w
  prepareMount w
  checkPrivatePaths w false
  checkRetiredMountpoint w
  mount w
  checkPrivatePaths w false
  setRuntime fun r => {r with mountState := .mounted, hydrate := full}

def insertEntry : Op υ κ Unit := fun m =>
  ⟨[],{m with listed := true, runtime := Runtime.new},.ok ()⟩

/-- Every partial owner is retained for a retry. -/
def create (full : Bool) : Op υ κ Unit := do
  insertEntry
  match ← attempt (prepare w full) with
  | .ok _ => pure ()
  | .error e => do
    setRuntime fun r => {r with mountState := .failed, lastError := some e.message}
    fail e

/-- The scan of `status`; its failure is only recorded. -/
def observe : Op υ κ DirtyState := do
  find
  let r ← runtime
  if r.hydrate then pure .unknown
  else do
    match ← attempt (dirty w) with
    | .ok state => pure state
    | .error e => do
      setRuntime fun r => {r with lastError := some e.message}
      pure .unknown

/-- The part of `shutdown_cleanup` for one workspace. -/
def shutdown : Op υ κ Unit := do
  reconcileHydrate w
  checkPrivatePaths w false
  unmountObserved w
  setRuntime fun r => {r with mountState := .unmounted}

end Steps

end Scorpio.Workspace
