import Scorpio.Workspace.Rules

/-!
# No acknowledged edit is destroyed

Without an explicit discard the upper goes only after a clean scan, and no mutation is
admitted after that scan: the fence was sealed before the native owners retired, and
they retired before the scan. What is kept at every cut of every operation is an order
of the marks in the log.
-/

set_option autoImplicit false

namespace Scorpio.Workspace

open CrashLogic

/-! ## Orders of marks, the newest first -/

/-- The fence was sealed, and nothing was mutated since. -/
def Fenced (log : List Mark) : Prop :=
  ∃ a b, log = a ++ .fenced :: b ∧ .mutated ∉ a

/-- Sealed, then retired, and nothing was mutated since the sealing. -/
def Retired (log : List Mark) : Prop :=
  ∃ a b, log = a ++ .retired :: b ∧ .mutated ∉ a ∧ Fenced b

/-- Sealed, retired, then scanned clean, and nothing was mutated since the sealing. -/
def Scanned (log : List Mark) : Prop :=
  ∃ a b, log = a ++ .scannedClean :: b ∧ .mutated ∉ a ∧ Retired b

/-- Nothing was ever mutated, or a clean scan follows the last mutation with the sealing and the
retirement in between. -/
def Ordered (log : List Mark) : Prop := .mutated ∉ log ∨ Scanned log

section Marks

variable {mark : Mark} {log : List Mark}

theorem not_mem_cons_mark (hmark : mark ≠ .mutated) (h : .mutated ∉ log) : .mutated ∉ mark :: log := by
  simp [h, hmark.symm]

theorem Fenced.cons (h : Fenced log) (hmark : mark ≠ .mutated) : Fenced (mark :: log) := by
  obtain ⟨a,b,rfl,ha⟩ := h
  exact ⟨mark :: a,b,rfl,not_mem_cons_mark hmark ha⟩

theorem Retired.cons (h : Retired log) (hmark : mark ≠ .mutated) : Retired (mark :: log) := by
  obtain ⟨a,b,rfl,ha,hb⟩ := h
  exact ⟨mark :: a,b,rfl,not_mem_cons_mark hmark ha,hb⟩

theorem Scanned.cons (h : Scanned log) (hmark : mark ≠ .mutated) : Scanned (mark :: log) := by
  obtain ⟨a,b,rfl,ha,hb⟩ := h
  exact ⟨mark :: a,b,rfl,not_mem_cons_mark hmark ha,hb⟩

theorem Ordered.cons (h : Ordered log) (hmark : mark ≠ .mutated) : Ordered (mark :: log) := by
  rcases h with h | h
  · exact .inl (not_mem_cons_mark hmark h)
  · exact .inr (h.cons hmark)

theorem fenced_cons : Fenced (.fenced :: log) := ⟨[],log,rfl,List.not_mem_nil⟩

theorem Fenced.retired (h : Fenced log) : Retired (.retired :: log) :=
  ⟨[],log,rfl,List.not_mem_nil,h⟩

theorem Retired.scanned (h : Retired log) : Scanned (.scannedClean :: log) :=
  ⟨[],log,rfl,List.not_mem_nil,h⟩

end Marks

/-! ## The invariant -/

variable {υ κ : Type}

structure Safe (Clean : υ → Prop) (m : Machine υ κ) : Prop where
  unmounted : m.runtime.mount = none → .mutated ∉ m.log
  lower : m.runtime.mount ≠ none → m.runtime.lower = true
  fenced : ∀ mount, m.runtime.mount = some mount → mount.fence.isSealed = true → Fenced m.log
  retired : ∀ mount, m.runtime.mount = some mount → mount.retired = true →
    mount.fence.isSealed = true ∧ Retired m.log
  removed : m.runtime.upperRemoved = true → m.upper = none ∧ Ordered m.log ∧
    ∀ mount, m.runtime.mount = some mount → mount.fence.isSealed = true
  absent : m.runtime.directoryIdentity = none → m.upper = none
  ordered : ∀ a b, m.log = a ++ .removed :: b → Ordered b
  discarded : ∀ u ∈ m.discarded, Clean u

section Invariant

variable {Clean : υ → Prop} {w : World υ κ} {m : Machine υ κ}

theorem Safe.tick (h : Safe Clean m) (n : ℕ) : Safe Clean {m with tick := n} :=
  {h with}

/-- What the invariant does not read may change. -/
theorem Safe.same {m' : Machine υ κ} (h : Safe Clean m) (hmount : m'.runtime.mount = m.runtime.mount)
    (hlower : m'.runtime.lower = m.runtime.lower)
    (hremoved : m'.runtime.upperRemoved = m.runtime.upperRemoved)
    (hdirectory : m'.runtime.directoryIdentity = m.runtime.directoryIdentity)
    (hupper : m'.upper = m.upper) (hlog : m'.log = m.log) (hgone : m'.discarded = m.discarded) :
    Safe Clean m' where
  unmounted := by rw [hmount, hlog]; exact h.unmounted
  lower := by rw [hmount, hlower]; exact h.lower
  fenced := by rw [hmount, hlog]; exact h.fenced
  retired := by rw [hmount, hlog]; exact h.retired
  removed := by rw [hremoved, hupper, hlog, hmount]; exact h.removed
  absent := by rw [hdirectory, hupper]; exact h.absent
  ordered := by rw [hlog]; exact h.ordered
  discarded := by rw [hgone]; exact h.discarded

/-- A mark that is not a mutation; before a removal the log must be in order. -/
theorem Safe.mark (h : Safe Clean m) {mark : Mark} (hmark : mark ≠ .mutated)
    (hremoved : mark = .removed → Ordered m.log) : Safe Clean {m with log := mark :: m.log} where
  unmounted := fun hnone => not_mem_cons_mark hmark (h.unmounted hnone)
  lower := h.lower
  fenced := fun mount hmount hseal => (h.fenced mount hmount hseal).cons hmark
  retired := fun mount hmount hretired =>
    ⟨(h.retired mount hmount hretired).1,(h.retired mount hmount hretired).2.cons hmark⟩
  removed := fun hgone =>
    ⟨(h.removed hgone).1,(h.removed hgone).2.1.cons hmark,(h.removed hgone).2.2⟩
  absent := h.absent
  ordered := by
    rintro (_ | ⟨first,a⟩) b hlog
    · obtain ⟨hfirst,rfl⟩ := List.cons.inj hlog
      exact hremoved hfirst
    · exact h.ordered a b (List.cons.inj hlog).2
  discarded := h.discarded

/-- The mount may change while neither its sealing nor its retirement is made up. -/
theorem Safe.remount (h : Safe Clean m) {mount mount' : WorkspaceMount}
    (hmount : m.runtime.mount = some mount)
    (hseal : mount'.fence.isSealed = mount.fence.isSealed)
    (hretired : mount'.retired = mount.retired) : Safe Clean (m.setMount mount') where
  unmounted := fun hnone => by cases hnone
  lower := fun _ => h.lower (by rw [hmount]; exact Option.some_ne_none _)
  fenced := by
    rintro _ ⟨⟩ hs
    exact h.fenced mount hmount (hseal ▸ hs)
  retired := by
    rintro _ ⟨⟩ hr
    rw [hseal]
    exact h.retired mount hmount (hretired ▸ hr)
  removed := by
    intro hgone
    refine ⟨(h.removed hgone).1,(h.removed hgone).2.1,?_⟩
    rintro _ ⟨⟩
    rw [hseal]
    exact (h.removed hgone).2.2 mount hmount
  absent := h.absent
  ordered := h.ordered
  discarded := h.discarded

theorem removed_not_mem (changes : List (υ → υ)) :
    .removed ∉ changes.map fun _ => Mark.mutated := by
  intro hmem
  obtain ⟨_,_,hmark⟩ := List.mem_map.mp hmem
  cases hmark

/-- Mutations are admitted only through an open fence. -/
theorem Safe.mutate (h : Safe Clean m) {mount : WorkspaceMount} (hmount : m.runtime.mount = some mount)
    (hopen : mount.fence.isSealed = false) (changes : List (υ → υ)) :
    Safe Clean (m.mutate changes) where
  unmounted := fun hnone => by
    change m.runtime.mount = none at hnone
    rw [hmount] at hnone
    cases hnone
  lower := h.lower
  fenced := by
    intro mount' hmount' hseal
    cases hmount.symm.trans hmount'
    rw [hopen] at hseal
    cases hseal
  retired := by
    intro mount' hmount' hretired
    cases hmount.symm.trans hmount'
    have hseal := (h.retired mount hmount hretired).1
    rw [hopen] at hseal
    cases hseal
  removed := by
    intro hgone
    have hseal := (h.removed hgone).2.2 mount hmount
    rw [hopen] at hseal
    cases hseal
  absent := h.absent
  ordered := by
    intro a b hlog
    change changes.map (fun _ => Mark.mutated) ++ m.log = a ++ .removed :: b at hlog
    rcases List.append_eq_append_iff.mp hlog with ⟨c,-,hrest⟩ | ⟨c,hleft,hrest⟩
    · exact h.ordered c b hrest
    · cases c with
      | nil => exact h.ordered [] b (by simpa using hrest.symm)
      | cons mark c =>
        have hmark : mark = .removed := (List.cons.inj hrest).1.symm
        refine absurd ?_ (removed_not_mem changes)
        rw [hleft, hmark]
        simp
  discarded := h.discarded

theorem Safe.disturb (h : Safe Clean m) (paused : Bool) : Safe Clean (disturb w paused m) := by
  cases hmount : m.runtime.mount with
  | none =>
    simp only [Workspace.disturb, hmount]
    exact h
  | some mount =>
    simp only [Workspace.disturb, hmount]
    split_ifs with hstill
    · exact h.remount hmount rfl rfl
    · simp only [Bool.or_eq_true, not_or, Bool.not_eq_true] at hstill
      exact (h.mutate hmount hstill.2 _).remount hmount rfl rfl

theorem safe_along (paused : Bool) : Along w paused (Safe Clean) (Safe Clean) :=
  ⟨fun _ h => h.disturb paused,fun _ n h => h.tick n,fun _ h => h⟩

theorem Safe.close (h : Safe Clean m) : Safe Clean (closeFence m).2 := by
  unfold closeFence
  split
  case h_2 => exact h
  case h_1 mount hmount =>
    split_ifs with huncertain
    · exact h
    have hlog : Safe Clean {m with log := .fenced :: m.log} := h.mark (by decide) (by rintro ⟨⟩)
    exact {
      unmounted := fun hnone => by cases hnone
      lower := fun _ => h.lower (by rw [hmount]; exact Option.some_ne_none _)
      fenced := fun _ _ _ => fenced_cons
      retired := by
        rintro _ ⟨⟩ hretired
        exact ⟨rfl,(h.retired mount hmount hretired).2.cons (by decide)⟩
      removed := by
        intro hgone
        refine ⟨(h.removed hgone).1,(h.removed hgone).2.1.cons (by decide),?_⟩
        rintro _ ⟨⟩
        rfl
      absent := h.absent
      ordered := hlog.ordered
      discarded := h.discarded}

/-! ## Retirement -/

/-- No mutation is admitted any more. -/
def Still (m : Machine υ κ) : Prop :=
  ∀ mount, m.runtime.mount = some mount → mount.fence.isSealed = true

/-- The native owners have retired. -/
def Ended (Clean : υ → Prop) (m : Machine υ κ) : Prop :=
  Safe Clean m ∧ ∀ mount, m.runtime.mount = some mount → mount.retired = true

theorem Ended.still (h : Ended Clean m) : Still m :=
  fun mount hmount => (h.1.retired mount hmount (h.2 mount hmount)).1

theorem disturb_still (h : Still m) (paused : Bool) :
    (disturb w paused m).layer = m.layer ∧ (disturb w paused m).log = m.log := by
  cases hmount : m.runtime.mount with
  | none => simp [disturb, hmount]
  | some mount => simp [disturb, hmount, h mount hmount, Machine.mutate, Machine.setMount]

theorem Ended.disturb (h : Ended Clean m) (paused : Bool) : Ended Clean (disturb w paused m) := by
  refine ⟨h.1.disturb paused,?_⟩
  cases hmount : m.runtime.mount with
  | none =>
    intro mount hm
    rw [Workspace.disturb, hmount] at hm
    cases hmount.symm.trans hm
  | some mount =>
    intro mount' hm
    rw [Workspace.disturb, hmount] at hm
    cases hm
    exact h.2 mount hmount

theorem ended_along (paused : Bool) : Along w paused (Ended Clean) (Safe Clean) :=
  ⟨fun _ h => h.disturb paused,fun _ n h => ⟨h.1.tick n,h.2⟩,fun _ h => h.1⟩

theorem Ended.close (h : Ended Clean m) : Ended Clean (closeFence m).2 := by
  refine ⟨h.1.close,?_⟩
  unfold closeFence
  split
  case h_2 => exact h.2
  case h_1 mount hmount =>
    split_ifs with huncertain
    · exact h.2
    · rintro _ ⟨⟩
      exact h.2 mount hmount

theorem close_still {a : Unit} (hok : (closeFence m).1 = .ok a) : Still (closeFence m).2 := by
  unfold closeFence at hok ⊢
  split at hok
  case h_2 hmount =>
    intro mount hm
    simp [hmount] at hm
  case h_1 mount hmount =>
    split_ifs at hok with huncertain
    simp only [huncertain]
    rintro _ ⟨⟩
    rfl

theorem Safe.recover (h : Safe Clean m) : Safe Clean (recoverCopyups w m).2 :=
  h.same rfl rfl rfl rfl rfl rfl rfl

theorem seal_fence_still :
    Triple (Safe Clean) (sealFence w) (fun _ m => Safe Clean m ∧ Still m) (Safe Clean) := by
  refine triple_bind (certain_kept (safe_along false)) fun _ => ?_
  refine perform_triple (safe_along true) fun d n hd => ?_
  have hclose := hd.close.tick n
  exact ⟨hclose,fun a hok => ⟨hclose,close_still hok⟩⟩

theorem recover_still :
    Triple (Safe Clean) (recover w) (fun _ m => Safe Clean m ∧ Still m) (Safe Clean) := by
  refine triple_bind (seal_fence_kept safe_along fun _ hd => hd.close) fun _ => ?_
  exact triple_bind (perform_kept (safe_along false) fun _ hd => hd.recover) fun _ => seal_fence_still

theorem recover_ended :
    Triple (Ended Clean) (recover w) (fun _ => Ended Clean) (Safe Clean) :=
  recover_kept ended_along (fun _ hd => hd.close) fun _ hd => ⟨hd.1.recover,hd.2⟩

theorem set_mount_safe {f : WorkspaceMount → WorkspaceMount}
    (hseal : ∀ mount, (f mount).fence = mount.fence)
    (hretired : ∀ mount, (f mount).retired = mount.retired) :
    Keeps (Safe Clean) (setMountField f : Op υ κ Unit) := by
  refine set_runtime_triple (fun m hm => ?_) fun _ h => h
  cases hmount : m.runtime.mount with
  | none => exact hm.same hmount.symm rfl rfl rfl rfl rfl rfl
  | some mount => exact hm.remount hmount (by rw [hseal]) (hretired mount)

theorem native_unmount_safe : Keeps (Safe Clean) (conclude w (nativeUnmount w)) := by
  refine conclude_kept (safe_along false) fun d hd => ?_
  have hgone : Safe Clean {d with kernel := none} := hd.same rfl rfl rfl rfl rfl rfl rfl
  unfold nativeUnmount
  split
  · dsimp only
    split_ifs
    · exact hgone
    · exact hd
  · exact hgone

theorem unmount_native_safe (current : WorkspaceMount) :
    Keeps (Safe Clean) (unmountNative w current) := by
  unfold unmountNative
  split_ifs
  · refine triple_bind (set_mount_safe (fun _ => rfl) fun _ => rfl) fun _ => ?_
    refine triple_bind (triple_attempt native_unmount_safe) ?_
    rintro (e | _)
    · exact native_unmount_safe
    · exact pure_kept fun _ hs => hs
  · exact native_unmount_safe
  · exact pure_kept fun _ hs => hs

theorem mark_retired_ended : Triple (fun m => Safe Clean m ∧ Still m) (markRetired : Op υ κ Unit)
    (fun _ => Ended Clean) (Safe Clean) := by
  rintro s ⟨hs,hstill⟩
  have hafter : Ended Clean (markRetired s).last := by
    cases hmount : s.runtime.mount with
    | none =>
      simp only [markRetired, hmount]
      refine ⟨hs,fun mount hm => ?_⟩
      cases hmount.symm.trans hm
    | some mount =>
      have hseal := hstill mount hmount
      have hlog : Safe Clean {s with log := .retired :: s.log} := hs.mark (by decide) (by rintro ⟨⟩)
      simp only [markRetired, hmount]
      refine ⟨?_,?_⟩
      · exact {
          unmounted := fun hnone => by cases hnone
          lower := fun _ => hs.lower (by rw [hmount]; exact Option.some_ne_none _)
          fenced := by
            rintro _ ⟨⟩ _
            exact (hs.fenced mount hmount hseal).cons (by decide)
          retired := by
            rintro _ ⟨⟩ _
            exact ⟨hseal,(hs.fenced mount hmount hseal).retired⟩
          removed := by
            intro hgone
            refine ⟨(hs.removed hgone).1,(hs.removed hgone).2.1.cons (by decide),?_⟩
            rintro _ ⟨⟩
            exact hseal
          absent := hs.absent
          ordered := hlog.ordered
          discarded := hs.discarded}
      · rintro _ ⟨⟩
        rfl
  constructor
  · rintro a t ⟨-,rfl⟩
    exact hafter
  · intro t ht
    have hlast : t = (markRetired s).last := by
      rcases ht with ht | ht
      · simp only [markRetired] at ht
        split at ht <;> cases ht
      · exact ht
    rw [hlast]
    exact hafter.1

theorem retire_mount_ended (current : WorkspaceMount) :
    Triple (Safe Clean) (retireMount w current) (fun _ => Ended Clean) (Safe Clean) := by
  refine triple_bind (lstat_kept (safe_along false)) fun _ => ?_
  refine triple_bind (lift_kept fun _ hs => hs) fun _ => ?_
  refine triple_bind (recover_kept safe_along (fun _ hd => hd.close) fun _ hd => hd.recover) fun _ => ?_
  refine triple_bind (unmount_native_safe current) fun _ => ?_
  refine triple_bind (set_mount_safe (fun _ => rfl) fun _ => rfl) fun _ => ?_
  refine triple_bind (await_kept (safe_along false)) fun _ => ?_
  exact triple_bind recover_still fun _ => mark_retired_ended

theorem unmount_ended :
    Triple (Safe Clean) (unmount w) (fun _ => Ended Clean) (Safe Clean) := by
  refine triple_bind (runtime_triple fun _ hs => hs) fun r => ?_
  cases hmount : r.mount with
  | none =>
    refine triple_pure ?_ fun _ hs => hs.1
    rintro s ⟨hs,rfl⟩
    refine ⟨hs,fun mount hm => ?_⟩
    cases hmount.symm.trans hm
  | some current =>
    dsimp only
    split_ifs with hretired
    · refine triple_mono recover_ended ?_ fun _ _ h => h
      rintro s ⟨hs,rfl⟩
      refine ⟨hs,fun mount hm => ?_⟩
      cases hmount.symm.trans hm
      exact hretired
    · exact triple_mono (retire_mount_ended current) (fun _ hs => hs.1) fun _ _ h => h

/-! ## Scans -/

/-- Everything is retired, and the upper holds nothing that the lower does not. -/
def Ready (Clean : υ → Prop) (m : Machine υ κ) : Prop :=
  Ended Clean m ∧ Ordered m.log ∧ (m.upper = none ∨ Clean m.layer)

/-- As far as this scan says. -/
def Found (Clean : υ → Prop) (state : DirtyState) (m : Machine υ κ) : Prop :=
  Ended Clean m ∧ (state = .clean → Ready Clean m)

theorem disturb_runtime (paused : Bool) :
    (disturb w paused m).runtime.upperRemoved = m.runtime.upperRemoved := by
  unfold disturb
  split <;> rfl

theorem disturb_upper (paused : Bool) : (disturb w paused m).upper = m.upper := by
  unfold disturb
  split <;> rfl

theorem Ready.disturb (h : Ready Clean m) (paused : Bool) : Ready Clean (disturb w paused m) := by
  obtain ⟨hlayer,hlog⟩ := disturb_still (w := w) h.1.still paused
  refine ⟨h.1.disturb paused,?_,?_⟩
  · rw [hlog]
    exact h.2.1
  · rw [hlayer, disturb_upper]
    exact h.2.2

theorem ready_along (paused : Bool) : Along w paused (Ready Clean) (Safe Clean) :=
  ⟨fun _ h => h.disturb paused,fun _ n h => ⟨⟨h.1.1.tick n,h.1.2⟩,h.2⟩,fun _ h => h.1.1⟩

theorem found_along (state : DirtyState) (paused : Bool) :
    Along w paused (Found Clean state) (Safe Clean) :=
  ⟨fun _ h => ⟨h.1.disturb paused,fun hs => (h.2 hs).disturb paused⟩,
    fun m n h => ⟨(ended_along (w := w) paused).ticked m n h.1,
      fun hs => (ready_along (w := w) paused).ticked m n (h.2 hs)⟩,
    fun _ h => h.1.1⟩

theorem Ended.scanned (h : Ended Clean m) : Ordered (.scannedClean :: m.log) := by
  cases hmount : m.runtime.mount with
  | none => exact .inl (not_mem_cons_mark (by decide) (h.1.unmounted hmount))
  | some mount => exact .inr (h.1.retired mount hmount (h.2 mount hmount)).2.scanned

theorem Safe.scan (h : Safe Clean m) : Safe Clean (scanUpper w m).2 := by
  unfold scanUpper
  split
  · exact h.mark (by decide) (by rintro ⟨⟩)
  · exact h
  · exact h

theorem Ended.scan (h : Ended Clean m) : Ended Clean (scanUpper w m).2 := by
  refine ⟨h.1.scan,?_⟩
  unfold scanUpper
  split <;> exact h.2

section Scan

variable (hscan : ∀ n u, w.scan n u = .ok true → Clean u)
include hscan

theorem Ended.scan_found (h : Ended Clean m) {clean : Bool} (hok : (scanUpper w m).1 = .ok clean) :
    Found Clean (dirtyOf clean) (scanUpper w m).2 := by
  refine ⟨h.scan,fun hclean => ⟨h.scan,?_⟩⟩
  unfold scanUpper at hok ⊢
  split at hok
  case h_1 hfound =>
    dsimp only
    exact ⟨h.scanned,.inr (hscan _ _ hfound)⟩
  case h_2 =>
    cases hok
    cases hclean
  case h_3 => cases hok

theorem scan_paused_found :
    Triple (Ended Clean) (scanPaused w) (Found Clean) (Safe Clean) := by
  refine triple_bind (Q := fun clean => Found Clean (dirtyOf clean))
    (perform_triple (ended_along true) fun d n hd => ?_) fun clean => ?_
  · refine ⟨hd.scan.1.tick n,fun clean hok => ?_⟩
    exact (found_along (w := w) _ true).ticked _ n (hd.scan_found hscan hok)
  · exact triple_bind (certain_kept (found_along _ true)) fun _ =>
      triple_pure (fun _ hs => hs) fun _ hs => hs.1.1

omit hscan in
theorem removed_upper_found : Triple (fun m => Ended Clean m ∧ m.runtime.upperRemoved = true)
    (removedUpper w false) (Found Clean) (Safe Clean) := by
  have halong : Along w false (fun m => Ended Clean m ∧ m.runtime.upperRemoved = true)
      (Safe Clean) := by
    refine ⟨fun m h => ⟨h.1.disturb false,?_⟩,fun _ n h => ⟨⟨h.1.1.tick n,h.1.2⟩,h.2⟩,
      fun _ h => h.1.1⟩
    rw [disturb_runtime]
    exact h.2
  refine triple_bind (lstat_kept halong) fun found => ?_
  split
  · refine triple_pure ?_ halong.cut
    rintro s ⟨hs,hgone⟩
    exact ⟨hs,fun _ => ⟨hs,(hs.1.removed hgone).2.1,.inl (hs.1.removed hgone).1⟩⟩
  · exact triple_lift (fun _ _ h => by cases h) halong.cut

theorem dirty_unmounted_found {lower : Bool} :
    Triple (fun m => Ended Clean m ∧ m.runtime.mount = none) (dirtyUnmounted w lower) (Found Clean)
      (Safe Clean) := by
  have halong : Along w false (fun m => Ended Clean m ∧ m.runtime.mount = none) (Safe Clean) := by
    refine ⟨fun m h => ?_,fun _ n h => ⟨⟨h.1.1.tick n,h.1.2⟩,h.2⟩,fun _ h => h.1.1⟩
    rw [disturb, h.2]
    exact h
  refine triple_bind (lstat_triple halong) fun found => ?_
  split
  · refine triple_pure ?_ fun _ hs => hs.1.1.1
    rintro s ⟨⟨hs,hnone⟩,hfound⟩
    exact ⟨hs,fun _ => ⟨hs,.inl (hs.1.unmounted hnone),.inl (hfound _ rfl)⟩⟩
  · split_ifs
    · exact triple_mono (scan_paused_found hscan) (fun _ hs => hs.1.1) fun _ _ h => h
    · exact triple_pure (fun _ hs => ⟨hs.1.1,fun h => by cases h⟩) fun _ hs => hs.1.1.1
  · exact triple_pure (fun _ hs => ⟨hs.1.1,fun h => by cases h⟩) fun _ hs => hs.1.1.1

theorem dirty_inner_found : Triple (Ended Clean) (dirtyInner w) (Found Clean) (Safe Clean) := by
  refine triple_bind (runtime_triple fun _ hs => hs.1) fun r => ?_
  split_ifs with hremoved hboth
  · refine triple_mono removed_upper_found ?_ fun _ _ h => h
    rintro s ⟨hs,rfl⟩
    exact ⟨hs,hremoved⟩
  · refine triple_bind (triple_mono (certain_kept (ended_along false)) (fun _ hs => hs.1)
      fun _ _ h => h) fun _ => scan_paused_found hscan
  · refine triple_mono (dirty_unmounted_found hscan) ?_ fun _ _ h => h
    rintro s ⟨hs,rfl⟩
    refine ⟨hs,?_⟩
    -- A mount comes with its lower, so its absence is the only way here.
    by_contra hsome
    exact hboth (by simp [hs.1.lower hsome, Option.isSome_iff_ne_none, hsome])

theorem dirty_found : Triple (Ended Clean) (dirty w) (Found Clean) (Safe Clean) := by
  refine triple_bind (check_private_paths_kept (ended_along false)) fun _ => ?_
  refine triple_bind (dirty_inner_found hscan) fun state => ?_
  refine triple_bind (check_private_paths_kept (found_along state false)) fun _ => ?_
  exact triple_pure (fun _ hs => hs) fun _ hs => hs.1.1

end Scan

/-! ## Operations -/

theorem reconcile_safe : Keeps (Safe Clean) (reconcileHydrate w) :=
  triple_bind (await_kept (safe_along false)) fun _ => set_runtime_triple
    (fun _ hm => hm.same rfl rfl rfl rfl rfl rfl rfl) fun _ h => h

theorem unmount_observed_ended :
    Triple (Safe Clean) (unmountObserved w) (fun _ => Ended Clean) (Safe Clean) := by
  refine triple_bind (triple_attempt unmount_ended) ?_
  rintro (e | _)
  · refine triple_bind (set_runtime_triple (R := Safe Clean)
      (fun _ hm => hm.same rfl rfl rfl rfl rfl rfl rfl) fun _ h => h) fun _ => ?_
    exact triple_lift (fun _ _ h => by cases h) fun _ h => h
  · exact pure_kept fun _ hs => hs.1

theorem take_down_ended {discard : Bool} :
    Triple (Safe Clean) (takeDown w discard) (fun _ => Ended Clean) (Safe Clean) := by
  refine triple_bind (check_private_paths_kept (safe_along false)) fun _ => ?_
  refine triple_bind (first_check_kept safe_along (fun _ hd => hd.scan) fun _ hd => hd.close)
    fun _ => ?_
  refine triple_bind reconcile_safe fun _ => ?_
  refine triple_bind (set_runtime_triple (R := Safe Clean)
    (fun _ hm => hm.same rfl rfl rfl rfl rfl rfl rfl) fun _ h => h) fun _ => ?_
  refine triple_bind unmount_observed_ended fun _ => ?_
  exact set_runtime_triple (fun _ hm => ⟨hm.1.same rfl rfl rfl rfl rfl rfl rfl,hm.2⟩) fun _ h => h.1

theorem cache_call_ready {f : ℕ → κ → Except String Unit × κ} (h : Ready Clean m) :
    Ready Clean (cacheCall f m).2 :=
  ⟨⟨h.1.1.same rfl rfl rfl rfl rfl rfl rfl,h.1.2⟩,h.2⟩

theorem release_owner_ready :
    Triple (Ready Clean) (releaseOwner w) (fun _ => Ready Clean) (Safe Clean) := by
  refine triple_bind (runtime_kept fun _ hs => hs.1.1) fun r => ?_
  split_ifs
  · exact conclude_kept (ready_along false) fun _ hd => cache_call_ready hd
  · exact pure_kept fun _ hs => hs.1.1

theorem last_check_ready (hscan : ∀ n u, w.scan n u = .ok true → Clean u) :
    Triple (Ended Clean) (lastCheck w false) (fun _ => Ready Clean) (Safe Clean) := by
  refine triple_bind (dirty_found hscan) fun state => ?_
  refine triple_bind (Q := fun _ => Ready Clean) (triple_lift ?_ fun _ hs => hs.1.1) fun _ => ?_
  · intro _ s hok hs
    cases state with
    | clean => exact hs.2 rfl
    | dirty => cases hok
    | unknown => cases hok
  refine triple_bind (check_retired_mountpoint_kept (ready_along false)) fun _ => ?_
  refine triple_bind release_owner_ready fun _ => ?_
  exact triple_bind (check_private_paths_kept (ready_along false)) fun _ =>
    check_retired_mountpoint_kept (ready_along false)

/-! ## Removal -/

theorem Ready.start (h : Ready Clean m) : Ready Clean (startRemoval m) := by
  have hlog : Safe Clean {m with log := .removed :: m.log} := h.1.1.mark (by decide) fun _ => h.2.1
  refine ⟨⟨?_,h.1.2⟩,h.2.1.cons (by decide),h.2.2⟩
  refine {hlog with discarded := ?_}
  intro u hu
  unfold startRemoval at hu
  dsimp only at hu
  split_ifs at hu with hupper
  · rcases List.mem_cons.mp hu with rfl | hu
    · rcases h.2.2 with hnone | hclean
      · rw [hnone] at hupper
        cases hupper
      · exact hclean
    · exact h.1.1.discarded u hu
  · exact h.1.1.discarded u hu

theorem remove_upper_ready :
    Triple (Ready Clean) (conclude w (removeUpper w))
      (fun _ m => Ready Clean m ∧ m.upper = none) (Safe Clean) := by
  refine conclude_triple (ready_along false) fun d n hd => ?_
  have hs := hd.start.1.1
  have hgone : Safe Clean {startRemoval d with upper := none} :=
    {hs with removed := fun h => ⟨rfl,(hs.removed h).2⟩, absent := fun _ => rfl}
  unfold removeUpper
  split
  · exact ⟨hs.same rfl rfl rfl rfl rfl rfl rfl,fun _ h => by cases h⟩
  · exact ⟨hgone.tick n,fun _ _ => ⟨⟨⟨hgone.tick n,hd.1.2⟩,hd.start.2.1,.inl rfl⟩,rfl⟩⟩

theorem remove_paths_safe {expected : Identity} :
    Triple (Ready Clean) (removePaths w expected) (fun _ => Safe Clean) (Safe Clean) := by
  refine triple_bind (triple_bind (lstat_kept (ready_along false)) fun _ =>
    lift_kept fun _ hs => hs.1.1) fun _ => ?_
  refine triple_bind (demand_kept fun _ hs => hs.1.1) fun _ => ?_
  refine triple_bind remove_upper_ready fun _ => ?_
  refine triple_bind (set_runtime_triple (R := Safe Clean) ?_ fun _ h => h) fun _ => ?_
  · rintro m ⟨hm,hnone⟩
    have hs := hm.1.1
    exact {hs with removed := fun _ => ⟨hnone,hm.2.1,hm.1.still⟩}
  refine triple_bind (perform_kept (safe_along false) fun _ hd =>
    hd.same rfl rfl rfl rfl rfl rfl rfl) fun _ => ?_
  exact set_runtime_triple (fun _ hm => hm.same rfl rfl rfl rfl rfl rfl rfl) fun _ h => h

theorem remove_private_safe :
    Triple (Ready Clean) (removePrivate w) (fun _ => Safe Clean) (Safe Clean) := by
  refine triple_bind (runtime_triple fun _ hs => hs.1.1) fun r => ?_
  cases hdirectory : r.directoryIdentity with
  | some expected => exact triple_mono remove_paths_safe (fun _ hs => hs.1) fun _ _ h => h
  | none =>
    refine triple_bind (triple_lift (Q := fun _ m => Safe Clean m ∧
      m.runtime.mount = none ∧ m.upper = none) ?_ fun _ hs => hs.1.1.1) fun _ => ?_
    · rintro _ s hok ⟨hs,rfl⟩
      refine ⟨hs.1.1,?_,hs.1.1.absent hdirectory⟩
      split_ifs at hok with hnone
      exact Option.isNone_iff_eq_none.mp hnone
    · refine set_runtime_triple ?_ fun _ h => h
      rintro m ⟨hm,hnone,hupper⟩
      refine {hm with removed := fun _ => ⟨hupper,.inl (hm.unmounted hnone),?_⟩}
      intro mount hmount
      cases hnone.symm.trans hmount

theorem retire_owner_safe : Keeps (Safe Clean) (retireOwner w) := by
  refine triple_bind (runtime_kept fun _ hs => hs) fun r => ?_
  split_ifs
  · exact conclude_kept (safe_along false) fun _ hd => hd.same rfl rfl rfl rfl rfl rfl rfl
  · exact pure_kept fun _ hs => hs

theorem remove_workspace_safe : Keeps (Safe Clean) (removeWorkspace w) := by
  refine triple_bind (runtime_kept fun _ hs => hs) fun r => ?_
  split_ifs
  · exact perform_kept (safe_along false) fun _ hd => hd.same rfl rfl rfl rfl rfl rfl rfl
  · exact pure_kept fun _ hs => hs

theorem unlist_safe : Keeps (Safe Clean) (unlist : Op υ κ Unit) := by
  intro s hs
  have hafter : Safe Clean {s with listed := false} := hs.same rfl rfl rfl rfl rfl rfl rfl
  refine ⟨?_,?_⟩
  · rintro a t ⟨-,rfl⟩
    exact hafter
  · rintro t (ht | rfl)
    · cases ht
    · exact hafter

theorem find_safe : Keeps (Safe Clean) (find : Op υ κ Unit) := by
  intro s hs
  refine ⟨?_,fun t ht => ?_⟩
  · rintro a t ⟨-,rfl⟩
    exact hs
  · rw [passes_ask.mp ht]
    exact hs

theorem destroy_safe (hscan : ∀ n u, w.scan n u = .ok true → Clean u) :
    Keeps (Safe Clean) (destroy w false) := by
  refine triple_bind find_safe fun _ => triple_bind take_down_ended fun _ => ?_
  refine triple_bind (last_check_ready hscan) fun _ => triple_bind remove_private_safe fun _ => ?_
  refine triple_bind (check_private_paths_kept (safe_along false)) fun _ => ?_
  refine triple_bind (check_retired_mountpoint_kept (safe_along false)) fun _ => ?_
  refine triple_bind retire_owner_safe fun _ => triple_bind remove_workspace_safe fun _ => ?_
  exact unlist_safe

theorem observe_safe : Keeps (Safe Clean) (observe w) := by
  refine triple_bind find_safe fun _ => ?_
  refine triple_bind (runtime_kept fun _ hs => hs) fun r => ?_
  split_ifs
  · exact pure_kept fun _ hs => hs
  · refine triple_bind (triple_attempt (dirty_kept safe_along fun _ hd => hd.scan)) ?_
    rintro (e | state)
    · refine triple_bind (set_runtime_triple (R := Safe Clean)
        (fun _ hm => hm.same rfl rfl rfl rfl rfl rfl rfl) fun _ h => h) fun _ => ?_
      exact pure_kept fun _ hs => hs
    · exact pure_kept fun _ hs => hs

theorem shutdown_safe : Keeps (Safe Clean) (shutdown w) := by
  refine triple_bind reconcile_safe fun _ => ?_
  refine triple_bind (check_private_paths_kept (safe_along false)) fun _ => ?_
  refine triple_bind unmount_observed_ended fun _ => ?_
  exact set_runtime_triple (fun _ hm => hm.1.same rfl rfl rfl rfl rfl rfl rfl) fun _ h => h

end Invariant

end Scorpio.Workspace
