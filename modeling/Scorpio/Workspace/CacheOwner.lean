import Scorpio.Workspace.Service

/-!
# The owner of a workspace in the cache

The binding of a store records the owner, registers it, audits what it retains and
only then registers its cache use. The release of the pin and the retirement of the
use continue from where an earlier attempt has stopped. A stage can fail; what the
stages before it have written stays.
-/

set_option autoImplicit false

namespace Scorpio.Workspace

open CrashLogic

inductive RegistrationState where
  | active
  | released
  deriving DecidableEq, Repr

inductive ReleasePhase where
  | revoking
  | revoked
  deriving DecidableEq, Repr

/-- What the managed scope holds for one workspace id; `use` is the flag `retired` of its record. -/
structure Owner where
  record : Bool
  registration : Option RegistrationState
  pinned : Bool
  revocation : Option ReleasePhase
  use : Option Bool
  deriving DecidableEq, Repr

def Owner.none : Owner := ⟨false,.none,false,.none,.none⟩

inductive Stage where
  | record
  | register
  | audit
  | use
  | intent
  | unpin
  | released
  | pruned
  | revoked
  | retire
  deriving DecidableEq, Repr

abbrev OwnerOp := Prog Owner String

/-- One durable write, or its failure. -/
def write (fault : Option String) (f : Owner → Owner) : OwnerOp Unit := fun o =>
  match fault with
  | some e => ⟨[],o,.error e⟩
  | none => ⟨[],f o,.ok ()⟩

def require (p : Owner → Bool) (e : String) : OwnerOp Unit := ask fun o =>
  if p o then .ok () else .error e

section Calls

variable (fault : Stage → Option String)

/-- `has_guarantee_artifacts`. -/
def Owner.artifacts (o : Owner) : Bool := o.pinned || o.revocation.isSome

def recordOwner (o : Owner) : OwnerOp Unit :=
  if o.record then pure ()
  else do
    require (fun o => !o.artifacts) "workspace owner record is missing from existing retention state"
    write (fault .record) fun o => {o with record := true}

/-- An existing registration stays as it is. -/
def registerOpened (o : Owner) : OwnerOp Unit :=
  if o.registration.isNone then do
    require (fun o => !o.artifacts) "workspace registry is missing from existing retention state"
    write (fault .register) fun o => {o with registration := some .active}
  else pure ()

def registerCacheUse (o : Owner) : OwnerOp Unit :=
  if o.use = some false then pure ()
  else write (fault .use) fun o => {o with use := some false}

/-- `open_workspace_context`, after the owner is admitted. -/
def openWorkspace : OwnerOp Unit := do
  recordOwner fault (← ask .ok)
  registerOpened fault (← ask .ok)
  write (fault .audit) id
  registerCacheUse fault (← ask .ok)

/-- `release_local_pin`. -/
def releaseLocalPin : OwnerOp Unit := do
  require (fun o => o.record) "workspace owner record is missing"
  require (fun o => o.registration.isSome) "workspace pin registry entry is missing"
  require (fun o => !(o.registration = some .released && o.revocation.isNone))
    "released workspace registry has lost its revocation record"
  write (fault .intent) fun o => {o with revocation := some (o.revocation.getD .revoking)}
  write (fault .unpin) fun o => {o with pinned := false}
  write (fault .released) fun o => {o with registration := some .released}
  write (fault .pruned) id
  write (fault .revoked) fun o => {o with revocation := some .revoked}

/-- `retire_cache_use`. -/
def retireCacheUse : OwnerOp Unit := do
  require (fun o => o.record) "workspace owner record is missing"
  require (fun o => o.use.isSome) "No such file or directory (os error 2)"
  require (fun o => !o.pinned) "cache use cannot retire a retained complete pin"
  require (fun o => o.registration = some .released && o.revocation = some .revoked)
    "cache use retirement requires completed owner revocation"
  write (fault .retire) fun o => {o with use := some true}

end Calls

/-! ## What the calls leave -/

/-- Nothing was recorded, or everything is released and retired. -/
def Settled (o : Owner) : Prop :=
  o.record = false ∨
    o.registration = some .released ∧ o.revocation = some .revoked ∧ o.use = some true

instance (o : Owner) : Decidable (Settled o) := inferInstanceAs (Decidable (_ ∨ _))

/-- The binding is complete, and whatever was released has its revocation. -/
structure Bound (o : Owner) : Prop where
  record : o.record = true
  registration : o.registration ≠ none
  revocation : o.registration = some .released → o.revocation ≠ none
  use : o.use ≠ none

section Results

variable {fault : Stage → Option String} {o t : Owner} {P C : Owner → Prop} {f : Owner → Owner}

theorem write_triple {R : Owner → Prop} {e : Option String} (hf : ∀ o, P o → R (f o))
    (hP : ∀ o, P o → C o) (hR : ∀ o, R o → C o) : Triple P (write e f) (fun _ => R) C := by
  intro s hs
  cases e with
  | some e =>
    refine ⟨nofun,fun t h => ?_⟩
    rcases h with h | rfl
    · cases h
    · exact hP _ hs
  | none =>
    refine ⟨fun a t h => ?_,fun t h => ?_⟩
    · rw [← h.2]
      exact hf s hs
    · rcases h with h | rfl
      · cases h
      · exact hR _ (hf s hs)

theorem require_triple {p : Owner → Bool} {e : String} (hC : ∀ o, P o → C o) :
    Triple P (require p e) (fun _ o => P o ∧ p o = true) C := by
  intro s hs
  refine ⟨fun a t h => ?_,fun t h => ?_⟩
  · obtain ⟨hok,rfl⟩ := returns_ask.mp h
    split_ifs at hok with hp
    exact ⟨hs,hp⟩
  · rw [passes_ask.mp h]
    exact hC s hs

theorem write_returns {e : Option String} (h : Returns (write e f) o () t) : t = f o := by
  cases e with
  | some e => cases h.1
  | none => exact h.2.symm

/-- A binding of a new id that returns is complete. -/
theorem open_bound (h : Returns (openWorkspace fault) .none () t) : Bound t := by
  obtain ⟨_,_,⟨hnow,rfl⟩,h⟩ := returns_bind.mp h
  cases hnow
  obtain ⟨_,a,ha,h⟩ := returns_bind.mp h
  obtain ⟨_,_,⟨-,rfl⟩,ha⟩ := returns_bind.mp ha
  cases write_returns ha
  obtain ⟨_,_,⟨hnow,rfl⟩,h⟩ := returns_bind.mp h
  cases hnow
  obtain ⟨_,b,hb,h⟩ := returns_bind.mp h
  obtain ⟨_,_,⟨-,rfl⟩,hb⟩ := returns_bind.mp hb
  cases write_returns hb
  obtain ⟨_,c,hc,h⟩ := returns_bind.mp h
  cases write_returns hc
  obtain ⟨_,_,⟨hnow,rfl⟩,h⟩ := returns_bind.mp h
  cases hnow
  cases write_returns h
  exact ⟨rfl,nofun,nofun,nofun⟩

theorem release_keeps_bound : Keeps Bound (releaseLocalPin fault) := by
  have hC : ∀ o, Bound o → Bound o := fun _ h => h
  refine triple_bind (require_triple hC) fun _ => ?_
  refine triple_bind (require_triple fun _ h => h.1) fun _ => ?_
  refine triple_bind (require_triple fun _ h => h.1.1) fun _ => ?_
  refine triple_bind (write_triple (R := fun o => Bound o ∧ o.revocation ≠ none)
    (fun o h => ⟨{h.1.1.1 with revocation := nofun},nofun⟩)
    (fun _ h => h.1.1.1) fun _ h => h.1) fun _ => ?_
  refine triple_bind (write_triple (R := fun o => Bound o ∧ o.revocation ≠ none)
    (fun o h => ⟨{h.1 with},h.2⟩)
    (fun _ h => h.1) fun _ h => h.1) fun _ => ?_
  refine triple_bind (write_triple (R := fun o => Bound o ∧ o.revocation ≠ none)
    (fun o h => ⟨⟨h.1.record,nofun,fun _ => h.2,h.1.use⟩,h.2⟩)
    (fun _ h => h.1) fun _ h => h.1) fun _ => ?_
  refine triple_bind (write_triple (R := Bound) (fun o h => h.1) (fun _ h => h.1) hC) fun _ => ?_
  exact write_triple (fun o h => {h with revocation := nofun}) hC hC

theorem retire_keeps_bound : Keeps Bound (retireCacheUse fault) := by
  have hC : ∀ o, Bound o → Bound o := fun _ h => h
  refine triple_bind (require_triple hC) fun _ => ?_
  refine triple_bind (require_triple fun _ h => h.1) fun _ => ?_
  refine triple_bind (require_triple fun _ h => h.1.1) fun _ => ?_
  refine triple_bind (require_triple fun _ h => h.1.1.1) fun _ => ?_
  exact write_triple (fun o h => {h.1.1.1.1 with use := nofun})
    (fun _ h => h.1.1.1.1) hC

/-- A retirement that returns leaves nothing behind. -/
theorem retire_settles (h : Returns (retireCacheUse fault) o () t) : Settled t := by
  have hretire : Triple (fun _ => True) (retireCacheUse fault) (fun _ => Settled)
      (fun _ => True) := by
    have hC : ∀ (P : Owner → Prop) o, P o → True := fun _ _ _ => trivial
    refine triple_bind (require_triple (hC _)) fun _ => triple_bind (require_triple (hC _)) fun _ => ?_
    refine triple_bind (require_triple (hC _)) fun _ => triple_bind (require_triple (hC _)) fun _ => ?_
    refine write_triple (fun o h => .inr ?_) (hC _) (hC _)
    have hdone := h.2
    simp only [Bool.and_eq_true, decide_eq_true_eq] at hdone
    exact ⟨hdone.1,hdone.2,rfl⟩
  exact (hretire o trivial).1 () t h

/-! ## Calls without failures -/

/-- Released to the end; only the use is still there. -/
def Revoked (o : Owner) : Prop :=
  Bound o ∧ o.pinned = false ∧ o.registration = some .released ∧ o.revocation = some .revoked

theorem require_yields {p : Owner → Bool} {e : String} (hp : p o = true) :
    Yields (require p e) o fun _ t => t = o :=
  ⟨(),o,⟨by simp [require, ask, hp],rfl⟩,rfl⟩

theorem write_yields : Yields (write none f) o fun _ t => t = f o := ⟨(),f o,⟨rfl,rfl⟩,rfl⟩

theorem release_yields (ho : Bound o) :
    Yields (releaseLocalPin fun _ => none) o fun _ => Revoked := by
  refine yields_bind (require_yields ho.record) fun _ _ h => ?_
  cases h
  refine yields_bind (require_yields (Option.isSome_iff_ne_none.mpr ho.registration)) fun _ _ h => ?_
  cases h
  refine yields_bind (require_yields ?_) fun _ _ h => ?_
  · cases hreg : o.registration with
    | none => rfl
    | some state =>
      cases state with
      | active => rfl
      | released =>
        have hkept : o.revocation.isNone = false :=
          Option.isNone_eq_false_iff.mpr (Option.isSome_iff_ne_none.mpr (ho.revocation hreg))
        simp [hkept]
  cases h
  refine yields_bind write_yields fun _ _ h => ?_
  cases h
  refine yields_bind write_yields fun _ _ h => ?_
  cases h
  refine yields_bind write_yields fun _ _ h => ?_
  cases h
  refine yields_bind write_yields fun _ _ h => ?_
  cases h
  refine yields_mono write_yields fun _ _ h => ?_
  cases h
  exact ⟨⟨ho.record,nofun,nofun,ho.use⟩,rfl,rfl,rfl⟩

theorem retire_yields (ho : Revoked o) :
    Yields (retireCacheUse fun _ => none) o fun _ _ => True := by
  obtain ⟨hbound,hpinned,hreleased,hrevoked⟩ := ho
  refine yields_bind (require_yields hbound.record) fun _ _ h => ?_
  cases h
  refine yields_bind (require_yields (Option.isSome_iff_ne_none.mpr hbound.use)) fun _ _ h => ?_
  cases h
  refine yields_bind (require_yields (by simp [hpinned])) fun _ _ h => ?_
  cases h
  refine yields_bind (require_yields (by simp [hreleased, hrevoked])) fun _ _ h => ?_
  cases h
  exact yields_mono write_yields fun _ _ _ => trivial

end Results

/-! ## The world of such an owner -/

def ran (p : OwnerOp Unit) (o : Owner) : Except String Unit × Owner := ((p o).result,(p o).last)

/-- The cache calls of the world are those of the owner, with these failures. -/
structure Served {υ : Type} (w : World υ Owner) (fault : ℕ → Stage → Option String) : Prop where
  bind : w.bind = fun n => ran (openWorkspace (fault n))
  release : w.release = fun n => ran (releaseLocalPin (fault n))
  retire : w.retire = fun n => ran (retireCacheUse (fault n))

end Scorpio.Workspace
