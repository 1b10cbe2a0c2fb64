import Scorpio.Base.Traces
import Scorpio.Content.IndexCache

/-!
# The budget of the cache of chunk facts

The clients of the cache look facts up, reserve, publish what they have built, and
let go of reservations and facts in any order. A reservation is charged once, from
the moment it is granted until its last owner is gone: its builder, a slot of the
cache, or a reader. The fixed slots of the cache itself are charged as well.
-/

set_option autoImplicit false

namespace Scorpio.IndexCache

open ByteText PageCodec Traces

/-! ## Clients of the cache -/

inductive Event where
  | get (domain : Text) (digest : Digest) (size : ℕ)
  | reserve (bytes : ℕ)
  | publish (fact : Index)
  | share (r : Reservation)
  | drop (r : Reservation)
  | evict

/-- Only an owner can publish, share or drop; a builder writes the current format. -/
def step (c : Cache) : Event → Option Cache
  | .get domain digest size => some (c.get domain digest size).2
  | .reserve bytes => some (c.reserve bytes).2
  | .publish fact => guarded (fact.reservation ∈ c.held ∧ fact.format = indexFormat) (c.publish fact)
  | .share r => guarded (r ∈ c.held) {c with held := r :: c.held}
  | .drop r => guarded (r ∈ c.held) (c.dropOwner r)
  | .evict => c.evictOldest

namespace Cache

/-- The reservations that a builder, a reader or a slot still owns. -/
def owners (c : Cache) : Finset Reservation := (c.held ++ c.facts.map Index.reservation).toFinset

def charged (c : Cache) : ℕ := ∑ r ∈ c.owners, r.bytes

variable {c c' : Cache} {r : Reservation}

theorem mem_owners : r ∈ c.owners ↔ r ∈ c.held ∨ ∃ f ∈ c.facts, f.reservation = r := by
  simp [owners]

theorem owners_congr (hheld : ∀ x, x ∈ c'.held ↔ x ∈ c.held) (hfacts : c'.facts = c.facts) :
    c'.owners = c.owners := by
  ext x
  rw [mem_owners, mem_owners, hheld, hfacts]

@[simp] theorem owners_settle : (c.settle r).owners = c.owners := by
  unfold settle
  split <;> rfl

theorem live_iff {id : ℕ} : c.live id = true ↔ ∃ x ∈ c.owners, x.id = id := by
  simp only [live, Bool.or_eq_true, List.any_eq_true, decide_eq_true_eq, mem_owners]
  constructor
  · rintro (⟨x,hx,hid⟩ | ⟨f,hf,hid⟩)
    · exact ⟨x,.inl hx,hid⟩
    · exact ⟨f.reservation,.inr ⟨f,hf,rfl⟩,hid⟩
  · rintro ⟨x,hx | ⟨f,hf,rfl⟩,hid⟩
    · exact .inl ⟨x,hx,hid⟩
    · exact .inr ⟨f,hf,hid⟩

/-- When the last owner goes, exactly its charge goes. -/
theorem settle_owned {base : ℕ} (hunique : ∀ x ∈ c.owners, x.id = r.id → x = r)
    (howned : c.owned = base+∑ x ∈ insert r c.owners, x.bytes) :
    (c.settle r).owned = base+(c.settle r).charged := by
  rw [charged, owners_settle]
  unfold settle
  by_cases hlive : c.live r.id = true
  · obtain ⟨x,hx,hid⟩ := live_iff.mp hlive
    obtain rfl := hunique x hx hid
    rw [if_pos hlive, howned, Finset.insert_eq_self.mpr hx]
  · have hout : r ∉ c.owners := fun hin => hlive (live_iff.mpr ⟨r,hin,rfl⟩)
    rw [if_neg hlive]
    show c.owned-r.bytes = _
    rw [howned, Finset.sum_insert hout]
    omega

theorem owners_held (hr : r ∈ c.held) :
    c.owners = insert r ({c with held := c.held.erase r} : Cache).owners := by
  ext x
  rw [Finset.mem_insert, mem_owners, mem_owners]
  show x ∈ c.held ∨ _ ↔ x = r ∨ x ∈ c.held.erase r ∨ _
  by_cases heq : x = r
  · subst heq
    simp [hr]
  · rw [List.mem_erase_of_ne heq]
    simp [heq, facts]

end Cache

/-! ## Slots -/

section Slots

variable {l : List (Option Entry)}

/-- The facts in the slots. -/
def slotFacts (l : List (Option Entry)) : List Index := l.filterMap fun e => e.map Entry.fact

theorem slot_facts_clear (i : ℕ) : (slotFacts (l.set i none)).Sublist (slotFacts l) := by
  induction l generalizing i with
  | nil => exact List.Sublist.refl _
  | cons e l ih =>
    cases i with
    | zero =>
      show (slotFacts l).Sublist (slotFacts (e :: l))
      cases e with
      | none => exact List.Sublist.refl _
      | some e => exact List.sublist_cons_self _ _
    | succ i =>
      cases e with
      | none => exact ih i
      | some e => exact (ih i).cons_cons _

theorem slot_facts_cleared {i : ℕ} {e : Entry} (hget : l[i]? = some (some e)) :
    (slotFacts l).Perm (e.fact :: slotFacts (l.set i none)) := by
  induction l generalizing i with
  | nil => cases hget
  | cons x l ih =>
    cases i with
    | zero =>
      cases Option.some.inj hget
      exact List.Perm.refl _
    | succ i =>
      cases x with
      | none => exact ih hget
      | some x => exact ((ih hget).cons _).trans (List.Perm.swap _ _ _)

theorem slot_facts_place (e : Entry) (hfree : none ∈ l) :
    (slotFacts (Cache.place e l)).Perm (e.fact :: slotFacts l) := by
  induction l with
  | nil => cases hfree
  | cons x l ih =>
    cases x with
    | none => exact List.Perm.refl _
    | some x =>
      have hrest : none ∈ l := (List.mem_cons.mp hfree).resolve_left nofun
      exact ((ih hrest).cons _).trans (List.Perm.swap _ _ _)

theorem place_length (e : Entry) : (Cache.place e l).length = l.length := by
  induction l with
  | nil => rfl
  | cons x l ih =>
    cases x with
    | none => rfl
    | some x => exact congrArg (·+1) ih

theorem touch_length (domain : Text) (digest : Digest) (size used : ℕ) :
    (Cache.touch domain digest size used l).length = l.length := by
  induction l with
  | nil => rfl
  | cons x l ih =>
    cases x with
    | none => exact congrArg (·+1) ih
    | some x =>
      unfold Cache.touch
      split
      · rfl
      · exact congrArg (·+1) ih

/-- The best of a list under the eviction order is one of its members. -/
theorem oldest_fold_mem (xs : List (ℕ × ℕ)) (best : Option (ℕ × ℕ)) {x : ℕ × ℕ}
    (hx : xs.foldl (fun best x => match best with
      | none => some x
      | some b => if x.2 < b.2 then some x else some b) best = some x) :
    x ∈ xs ∨ best = some x := by
  induction xs generalizing best with
  | nil => exact .inr hx
  | cons y xs ih =>
    rcases ih _ hx with hmem | hbest
    · exact .inl (List.mem_cons_of_mem _ hmem)
    · cases best with
      | none => exact .inl (Option.some.inj hbest ▸ List.mem_cons_self)
      | some b =>
        dsimp only at hbest
        split_ifs at hbest
        · exact .inl (Option.some.inj hbest ▸ List.mem_cons_self)
        · exact .inr hbest

theorem oldest_fold_none (xs : List (ℕ × ℕ)) (best : Option (ℕ × ℕ))
    (hx : xs.foldl (fun best x => match best with
      | none => some x
      | some b => if x.2 < b.2 then some x else some b) best = none) : xs = [] ∧ best = none := by
  induction xs generalizing best with
  | nil => exact ⟨rfl,hx⟩
  | cons y xs ih =>
    have hnext := (ih _ hx).2
    cases best with
    | none => cases hnext
    | some b =>
      dsimp only at hnext
      split_ifs at hnext

theorem oldest_some {slot : ℕ} (hslot : Cache.oldest l = some slot) :
    ∃ e, l[slot]? = some (some e) := by
  unfold Cache.oldest at hslot
  obtain ⟨x,hx,rfl⟩ := Option.map_eq_some_iff.mp hslot
  have hmem := (oldest_fold_mem _ none hx).resolve_right nofun
  obtain ⟨⟨entry,i⟩,hentry,heq⟩ := List.mem_filterMap.mp hmem
  obtain ⟨e,rfl,rfl⟩ := Option.map_eq_some_iff.mp heq
  exact ⟨e,List.mem_zipIdx_iff_getElem?.mp hentry⟩

theorem oldest_none (hslot : Cache.oldest l = none) : slotFacts l = [] := by
  unfold Cache.oldest at hslot
  have hempty := (oldest_fold_none _ none (Option.map_eq_none_iff.mp hslot)).1
  rw [slotFacts, List.filterMap_eq_nil_iff]
  intro x hx
  obtain ⟨i,hi⟩ := List.mem_iff_getElem?.mp hx
  have hnone := List.filterMap_eq_nil_iff.mp hempty (x,i) (List.mem_zipIdx_iff_getElem?.mpr hi)
  rw [Option.map_eq_none_iff] at hnone ⊢
  exact hnone

end Slots

namespace Cache

variable {c c' : Cache}

/-- What an eviction does. -/
theorem evict_cases (h : c.evictOldest = some c') : ∃ slot e, c.entries[slot]? = some (some e) ∧
    c' = ({c with entries := c.entries.set slot none} : Cache).settle e.fact.reservation := by
  unfold evictOldest at h
  split at h
  · cases h
  · rename_i slot hslot
    obtain ⟨e,he⟩ := oldest_some hslot
    simp only [he] at h
    exact ⟨slot,e,he,(Option.some.inj h).symm⟩

theorem evict_none (h : c.evictOldest = none) : c.facts = [] := by
  unfold evictOldest at h
  split at h
  · rename_i hslot
    exact oldest_none hslot
  · rename_i slot hslot
    obtain ⟨e,he⟩ := oldest_some hslot
    simp only [he] at h
    cases h

@[simp] theorem settle_held (r : Reservation) : (c.settle r).held = c.held := by
  unfold settle
  split <;> rfl

@[simp] theorem settle_entries (r : Reservation) : (c.settle r).entries = c.entries := by
  unfold settle
  split <;> rfl

@[simp] theorem settle_limit (r : Reservation) : (c.settle r).limit = c.limit := by
  unfold settle
  split <;> rfl

@[simp] theorem settle_next (r : Reservation) : (c.settle r).next = c.next := by
  unfold settle
  split <;> rfl

theorem settle_owned_le (r : Reservation) : (c.settle r).owned ≤ c.owned := by
  unfold settle
  split
  · exact Nat.le_refl _
  · exact Nat.sub_le _ _

theorem evict_facts (h : c.evictOldest = some c') : c.facts.length = c'.facts.length+1 := by
  obtain ⟨slot,e,he,rfl⟩ := evict_cases h
  rw [facts_settle]
  exact (slot_facts_cleared he).length_eq

end Cache

/-! ## The accounts -/

/-- What a lookup goes by. -/
def Index.key (f : Index) : Text × Digest × ℕ := (f.domain,f.digest,f.size)

theorem matches_iff {f : Index} {domain : Text} {digest : Digest} {size : ℕ} :
    f.matches domain digest size = true ↔ f.key = (domain,digest,size) ∧ f.format = indexFormat := by
  simp [Index.matches, Index.key, and_assoc]

structure Accounted (limit base : ℕ) (c : Cache) : Prop where
  capped : c.limit = limit
  owned : c.owned = base+c.charged
  bounded : c.owned ≤ limit
  fresh : ∀ r ∈ c.owners, r.id < c.next
  unique : ∀ r ∈ c.owners, ∀ x ∈ c.owners, x.id = r.id → x = r
  slots : c.entries.length = cacheEntries
  format : ∀ f ∈ c.facts, f.format = indexFormat
  keys : c.facts.Pairwise fun f g => f.key ≠ g.key

section Steps

variable {limit base : ℕ} {c c' : Cache}

theorem accounted_new (hbase : base ≤ limit) : Accounted limit base (new limit base) := by
  have howners : (new limit base).owners = ∅ := by
    rw [Cache.owners, Cache.facts_new]
    rfl
  refine ⟨rfl,?_,hbase,?_,?_,List.length_replicate,?_,?_⟩
  · rw [Cache.charged, howners]
    rfl
  · simp [howners]
  · simp [howners]
  · simp
  · simp

variable (hc : Accounted limit base c)

include hc

/-- Owners may go, slots may be emptied, and the last owner takes its charge along. -/
theorem Accounted.settle {r : Reservation} {mid : Cache}
    (hlimit : mid.limit = c.limit) (howned : mid.owned = c.owned) (hnext : mid.next = c.next)
    (howners : c.owners = insert r mid.owners) (hslots : mid.entries.length = c.entries.length)
    (hfacts : mid.facts.Sublist c.facts) : Accounted limit base (mid.settle r) := by
  have hin : ∀ x ∈ mid.owners, x ∈ c.owners := fun x hx => by
    rw [howners]
    exact Finset.mem_insert_of_mem hx
  have hr : r ∈ c.owners := by
    rw [howners]
    exact Finset.mem_insert_self _ _
  have hsum : mid.owned = base+∑ x ∈ insert r mid.owners, x.bytes := by
    rw [howned, hc.owned, Cache.charged, howners]
  refine ⟨?_,?_,?_,?_,?_,?_,?_,?_⟩
  · rw [Cache.settle_limit, hlimit, hc.capped]
  · exact Cache.settle_owned (fun x hx hid => hc.unique r hr x (hin x hx) hid) hsum
  · exact (Cache.settle_owned_le r).trans (howned ▸ hc.bounded)
  · rw [Cache.owners_settle, Cache.settle_next, hnext]
    exact fun x hx => hc.fresh x (hin x hx)
  · rw [Cache.owners_settle]
    exact fun x hx y hy => hc.unique x (hin x hx) y (hin y hy)
  · rw [Cache.settle_entries, hslots, hc.slots]
  · rw [Cache.facts_settle]
    exact fun f hf => hc.format f (hfacts.subset hf)
  · rw [Cache.facts_settle]
    exact hc.keys.sublist hfacts

theorem Accounted.drop {r : Reservation} (hr : r ∈ c.held) : Accounted limit base (c.dropOwner r) :=
  hc.settle rfl rfl rfl (Cache.owners_held hr) rfl (List.Sublist.refl _)

theorem Accounted.evict (h : c.evictOldest = some c') : Accounted limit base c' := by
  obtain ⟨slot,e,he,rfl⟩ := Cache.evict_cases h
  refine hc.settle rfl rfl rfl ?_ List.length_set (slot_facts_clear slot)
  ext x
  have hperm := slot_facts_cleared he
  rw [Finset.mem_insert, Cache.mem_owners, Cache.mem_owners]
  show x ∈ c.held ∨ (∃ f ∈ slotFacts c.entries, _) ↔
    _ ∨ x ∈ c.held ∨ ∃ f ∈ slotFacts (c.entries.set slot none), _
  simp only [hperm.mem_iff, List.mem_cons, exists_eq_or_imp]
  constructor
  · rintro (hx | heq | hx)
    · exact .inr (.inl hx)
    · exact .inl heq.symm
    · exact .inr (.inr hx)
  · rintro (heq | hx | hx)
    · exact .inr (.inl heq.symm)
    · exact .inl hx
    · exact .inr (.inr hx)

/-- The same owners in other slots or under another clock. -/
theorem Accounted.same (hlimit : c'.limit = c.limit)
    (howned : c'.owned = c.owned) (hnext : c'.next = c.next) (howners : c'.owners = c.owners)
    (hslots : c'.entries.length = c.entries.length) (hfacts : c'.facts = c.facts) :
    Accounted limit base c' := by
  refine ⟨hlimit.trans hc.capped,?_,howned ▸ hc.bounded,?_,?_,hslots.trans hc.slots,?_,?_⟩
  · rw [howned, hc.owned, Cache.charged, Cache.charged, howners]
  · rw [howners, hnext]
    exact hc.fresh
  · rw [howners]
    exact hc.unique
  · rw [hfacts]
    exact hc.format
  · rw [hfacts]
    exact hc.keys

theorem Accounted.share {r : Reservation} (hr : r ∈ c.owners) :
    Accounted limit base {c with held := r :: c.held} := by
  have howners : ({c with held := r :: c.held} : Cache).owners = c.owners := by
    ext x
    rw [Cache.mem_owners, Cache.mem_owners]
    show x ∈ r :: c.held ∨ _ ↔ _
    rw [List.mem_cons, or_assoc]
    exact ⟨fun hx => hx.elim (fun heq => Cache.mem_owners.mp (heq ▸ hr)) id,Or.inr⟩
  exact hc.same rfl rfl rfl howners rfl rfl

theorem Accounted.tick : Accounted limit base c.tick :=
  hc.same rfl rfl rfl rfl rfl rfl

theorem Accounted.get (domain : Text) (digest : Digest) (size : ℕ) :
    Accounted limit base (c.get domain digest size).2 := by
  unfold Cache.get
  dsimp only
  split
  · exact hc.tick
  · rename_i f hf
    have hmem : f ∈ c.facts := List.mem_of_find?_eq_some hf
    refine (hc.tick.share (r := f.reservation) ?_).same rfl rfl rfl ?_ (touch_length ..) ?_
    · exact Cache.mem_owners.mpr (.inr ⟨f,hmem,rfl⟩)
    · exact Cache.owners_congr (fun _ => Iff.rfl) (Cache.facts_touch ..)
    · exact Cache.facts_touch ..

theorem Accounted.charge {bytes : ℕ} {r : Reservation}
    (h : c.charge bytes = some (r,c')) : Accounted limit base c' := by
  unfold Cache.charge at h
  split_ifs at h with hfits
  cases h
  have hout : ∀ x ∈ c.owners, x.id ≠ c.next := fun x hx => (hc.fresh x hx).ne
  have howners : ({c with
      owned := c.owned+bytes, next := c.next+1, held := ⟨c.next,bytes⟩ :: c.held} : Cache).owners
      = insert ⟨c.next,bytes⟩ c.owners := by
    ext x
    rw [Finset.mem_insert, Cache.mem_owners, Cache.mem_owners, ← or_assoc]
    show x ∈ _ :: c.held ∨ _ ↔ _
    rw [List.mem_cons]
    rfl
  refine ⟨hc.capped,?_,hc.capped ▸ hfits,?_,?_,hc.slots,hc.format,hc.keys⟩
  · rw [Cache.charged, howners, Finset.sum_insert fun hin => hout _ hin rfl]
    show c.owned+bytes = _
    rw [hc.owned, Cache.charged, Nat.add_assoc, Nat.add_comm bytes]
  · rw [howners]
    intro x hx
    rcases Finset.mem_insert.mp hx with rfl | hx
    · exact Nat.lt_succ_self _
    · exact Nat.lt_succ_of_lt (hc.fresh x hx)
  · rw [howners]
    intro x hx y hy hid
    rcases Finset.mem_insert.mp hx with rfl | hx <;> rcases Finset.mem_insert.mp hy with rfl | hy
    · rfl
    · exact absurd hid (hout y hy)
    · exact absurd hid.symm (hout x hx)
    · exact hc.unique x hx y hy hid

theorem Accounted.reserve_loop (fuel bytes : ℕ) :
    Accounted limit base (Cache.reserveLoop fuel c bytes).2 := by
  induction fuel generalizing c with
  | zero =>
    unfold Cache.reserveLoop
    split
    · rename_i h
      exact hc.charge h
    · exact hc
  | succ fuel ih =>
    unfold Cache.reserveLoop
    split
    · rename_i h
      exact hc.charge h
    · dsimp only
      split
      · exact hc
      · rename_i h
        exact ih (hc.evict h)

/-- A full cache has a free slot after an eviction. -/
theorem free_slot (hfull : c.entries.all Option.isSome = true) :
    ∃ c', c.evictOldest = some c' ∧ none ∈ c'.entries := by
  cases h : c.evictOldest with
  | none =>
    have hempty := Cache.evict_none h
    have hslots := hc.slots
    cases hentries : c.entries with
    | nil =>
      rw [hentries] at hslots
      cases hslots
    | cons x l =>
      rw [hentries, List.all_cons, Bool.and_eq_true] at hfull
      obtain ⟨e,rfl⟩ := Option.isSome_iff_exists.mp hfull.1
      have hmem : e.fact ∈ c.facts := Cache.mem_facts.mpr ⟨e.used,by rw [hentries]; simp⟩
      rw [hempty] at hmem
      cases hmem
  | some c' =>
    obtain ⟨slot,e,he,rfl⟩ := Cache.evict_cases h
    refine ⟨_,rfl,?_⟩
    rw [Cache.settle_entries]
    obtain ⟨hlt,-⟩ := List.getElem?_eq_some_iff.mp he
    exact List.mem_iff_getElem?.mpr ⟨slot,List.getElem?_set_self hlt⟩

/-- A published fact takes its place beside facts with other keys. -/
theorem Accounted.place {fact : Index} (used : ℕ)
    (hheld : fact.reservation ∈ c.held) (hformat : fact.format = indexFormat)
    (hkey : ∀ f ∈ c.facts, f.key ≠ fact.key) (hfree : none ∈ c.entries) :
    Accounted limit base
      ({c with entries := Cache.place ⟨fact,used⟩ c.entries} : Cache) := by
  have hperm := slot_facts_place ⟨fact,used⟩ hfree
  have howners : ({c with entries := Cache.place ⟨fact,used⟩ c.entries} : Cache).owners = c.owners := by
    ext x
    rw [Cache.mem_owners, Cache.mem_owners]
    show x ∈ c.held ∨ (∃ f ∈ slotFacts (Cache.place ⟨fact,used⟩ c.entries), _) ↔
      x ∈ c.held ∨ ∃ f ∈ slotFacts c.entries, _
    simp only [hperm.mem_iff, List.mem_cons, exists_eq_or_imp]
    constructor
    · rintro (hx | rfl | hx)
      · exact .inl hx
      · exact .inl hheld
      · exact .inr hx
    · rintro (hx | hx)
      · exact .inl hx
      · exact .inr (.inr hx)
  refine ⟨hc.capped,?_,hc.bounded,?_,?_,(place_length _).trans hc.slots,?_,?_⟩
  · rw [Cache.charged, howners]
    exact hc.owned
  · rw [howners]
    exact hc.fresh
  · rw [howners]
    exact hc.unique
  · intro f hf
    rcases List.mem_cons.mp (hperm.mem_iff.mp hf) with rfl | hf
    · exact hformat
    · exact hc.format f hf
  · refine (hperm.pairwise_iff fun hne => hne.symm).mpr (List.pairwise_cons.mpr ⟨?_,hc.keys⟩)
    exact fun f hf heq => hkey f hf heq.symm

theorem Accounted.publish {fact : Index}
    (hheld : fact.reservation ∈ c.held) (hformat : fact.format = indexFormat) :
    Accounted limit base (c.publish fact) := by
  unfold Cache.publish
  split_ifs with hany hfull
  · exact hc.drop hheld
  -- Publication is refused above unless no fact has this key.
  all_goals
    have hkey : ∀ f ∈ c.facts, f.key ≠ fact.key := by
      intro f hf heq
      apply hany
      exact List.any_eq_true.mpr ⟨f,hf,matches_iff.mpr ⟨heq,hc.format f hf⟩⟩
  · obtain ⟨mid,hmid,hfree⟩ := free_slot hc hfull
    rw [hmid, Option.getD_some]
    obtain ⟨slot,e,-,hcases⟩ := Cache.evict_cases hmid
    have hheld' : fact.reservation ∈ mid.held := by
      rw [hcases, Cache.settle_held]
      exact hheld
    refine ((hc.evict hmid).tick.place _ hheld' hformat ?_ hfree).drop hheld'
    exact fun f hf => hkey f (Cache.facts_evict hmid hf)
  · have hfree : none ∈ c.entries := by
      simp only [List.all_eq_true, not_forall, Bool.not_eq_true, Option.isSome_eq_false_iff,
        Option.isNone_iff_eq_none] at hfull
      obtain ⟨x,hx,rfl⟩ := hfull
      exact hx
    exact (hc.tick.place _ hheld hformat hkey hfree).drop hheld

theorem step_accounted {e : Event} (h : step c e = some c') : Accounted limit base c' := by
  cases e with
  | get domain digest size =>
    cases Option.some.inj h
    exact hc.get domain digest size
  | reserve bytes =>
    cases Option.some.inj h
    exact hc.reserve_loop _ bytes
  | publish fact =>
    obtain ⟨⟨hheld,hformat⟩,rfl⟩ := guarded_eq_some.mp h
    exact hc.publish hheld hformat
  | share r =>
    obtain ⟨hr,rfl⟩ := guarded_eq_some.mp h
    exact hc.share (Cache.mem_owners.mpr (.inl hr))
  | drop r =>
    obtain ⟨hr,rfl⟩ := guarded_eq_some.mp h
    exact hc.drop hr
  | evict => exact hc.evict h

end Steps

/-! ## The loop of a reservation

The loop holds the mutex, so that nobody looks up or publishes; but owners outside the slots may
still share and drop between any two of its actions.
-/

def Event.outside : Event → Bool
  | .share _ | .drop _ => true
  | _ => false

def Meanwhile (c c' : Cache) : Prop :=
  ∃ es : List Event, (∀ e ∈ es, e.outside = true) ∧ run step c es = some c'

/-- One whole loop with its number of evictions. -/
inductive Reserves (bytes : ℕ) : ℕ → Cache → Option Reservation → Cache → Prop
  | granted {c mid c' : Cache} {r : Reservation} (hmid : Meanwhile c mid)
      (h : mid.charge bytes = some (r,c')) : Reserves bytes 0 c (some r) c'
  | refused {c mid c' : Cache} (hmid : Meanwhile c mid) (h : mid.charge bytes = none)
      (hthen : Meanwhile mid c') (hempty : c'.evictOldest = none) : Reserves bytes 0 c none c'
  | evicted {c mid next after c' : Cache} {n : ℕ} {result : Option Reservation}
      (hmid : Meanwhile c mid) (h : mid.charge bytes = none) (hthen : Meanwhile mid next)
      (hevict : next.evictOldest = some after) (hrest : Reserves bytes n after result c') :
      Reserves bytes (n+1) c result c'

theorem Meanwhile.refl (c : Cache) : Meanwhile c c := ⟨[],nofun,rfl⟩

/-- What the owners outside the slots cannot do. -/
structure Aside (c c' : Cache) : Prop where
  facts : c'.facts = c.facts
  next : c'.next = c.next
  owned : c'.owned ≤ c.owned
  owners : ∀ r ∈ c'.held, r ∈ c.held

theorem step_aside {c c' : Cache} {e : Event} (he : e.outside = true) (h : step c e = some c') :
    Aside c c' := by
  cases e with
  | share r =>
    obtain ⟨hr,rfl⟩ := guarded_eq_some.mp h
    exact ⟨rfl,rfl,Nat.le_refl _,fun x hx => (List.mem_cons.mp hx).elim (fun heq => heq ▸ hr) id⟩
  | drop r =>
    obtain ⟨hr,rfl⟩ := guarded_eq_some.mp h
    refine ⟨Cache.facts_drop_owner,Cache.settle_next r,Cache.settle_owned_le r,fun x hx => ?_⟩
    unfold Cache.dropOwner at hx
    rw [Cache.settle_held] at hx
    exact List.mem_of_mem_erase hx
  | get => cases he
  | reserve => cases he
  | publish => cases he
  | evict => cases he

theorem Meanwhile.aside {c c' : Cache} (h : Meanwhile c c') : Aside c c' := by
  obtain ⟨es,hes,hrun⟩ := h
  induction es generalizing c with
  | nil =>
    cases hrun
    exact ⟨rfl,rfl,Nat.le_refl _,fun _ hx => hx⟩
  | cons e es ih =>
    obtain ⟨mid,hstep,hrest⟩ := run_cons.mp hrun
    have hfirst := step_aside (hes e List.mem_cons_self) hstep
    have hlater := ih (fun x hx => hes x (List.mem_cons_of_mem _ hx)) hrest
    exact ⟨hlater.facts.trans hfirst.facts,hlater.next.trans hfirst.next,
      hlater.owned.trans hfirst.owned,fun x hx => hfirst.owners x (hlater.owners x hx)⟩

theorem reserve_charged {c c' : Cache} {bytes : ℕ} {r : Reservation}
    (h : c.charge bytes = some (r,c')) : c.reserve bytes = (some r,c') := by
  unfold Cache.reserve
  cases c.entries.length <;> simp only [Cache.reserveLoop, h]

section Loops

variable {bytes n : ℕ} {c c' : Cache} {result : Option Reservation}

theorem charge_within (h : c.owned+bytes ≤ c.limit) : c.charge bytes = some (⟨c.next,bytes⟩,{c with
    owned := c.owned+bytes, next := c.next+1, held := ⟨c.next,bytes⟩ :: c.held}) :=
  if_pos h

/-- A loop evicts each fact at most once. -/
theorem Reserves.bounded (h : Reserves bytes n c result c') : n ≤ c.facts.length := by
  induction h with
  | granted => exact Nat.zero_le _
  | refused => exact Nat.zero_le _
  | evicted hmid _ hthen hevict _ ih =>
    rw [← hmid.aside.facts, ← hthen.aside.facts, Cache.evict_facts hevict]
    exact Nat.succ_le_succ ih

/-- A refused reservation leaves no new owner and no new charge. -/
theorem Reserves.refused_free (h : Reserves bytes n c result c') (hnone : result = none) :
    c'.facts = [] ∧ c'.next = c.next ∧ c'.owned ≤ c.owned ∧ ∀ r ∈ c'.held, r ∈ c.held := by
  induction h with
  | granted => cases hnone
  | refused hmid _ hthen hempty =>
    exact ⟨Cache.evict_none hempty,hthen.aside.next.trans hmid.aside.next,
      hthen.aside.owned.trans hmid.aside.owned,
      fun x hx => hmid.aside.owners x (hthen.aside.owners x hx)⟩
  | evicted hmid _ hthen hevict _ ih =>
    obtain ⟨hfacts,hnext,howned,hheld⟩ := ih hnone
    obtain ⟨slot,e,-,rfl⟩ := Cache.evict_cases hevict
    rw [Cache.settle_next] at hnext
    rw [Cache.settle_held] at hheld
    refine ⟨hfacts,?_,?_,fun x hx => ?_⟩
    · exact hnext.trans (hthen.aside.next.trans hmid.aside.next)
    · exact howned.trans ((Cache.settle_owned_le _).trans (hthen.aside.owned.trans hmid.aside.owned))
    · exact hmid.aside.owners x (hthen.aside.owners x (hheld x hx))

/-- The loop is made of the events of the histories, also when others come in between. -/
theorem Reserves.history (h : Reserves bytes n c result c') :
    ∃ es, run step c es = some c' := by
  induction h with
  | granted hmid h =>
    obtain ⟨es,-,hes⟩ := hmid
    refine ⟨es++[.reserve bytes],run_append.mpr ⟨_,hes,run_cons.mpr ⟨_,?_,rfl⟩⟩⟩
    show some _ = _
    rw [reserve_charged h]
  | refused hmid _ hthen _ =>
    obtain ⟨es,-,hes⟩ := hmid
    obtain ⟨fs,-,hfs⟩ := hthen
    exact ⟨es++fs,run_append.mpr ⟨_,hes,hfs⟩⟩
  | evicted hmid _ hthen hevict _ ih =>
    obtain ⟨es,-,hes⟩ := hmid
    obtain ⟨fs,-,hfs⟩ := hthen
    obtain ⟨gs,hgs⟩ := ih
    refine ⟨es++(fs++.evict :: gs),run_append.mpr ⟨_,hes,run_append.mpr ⟨_,hfs,?_⟩⟩⟩
    exact run_cons.mpr ⟨_,hevict,hgs⟩

end Loops

theorem reserve_loop_ends {fuel : ℕ} {c : Cache} (bytes : ℕ) (hfuel : c.facts.length ≤ fuel) :
    ∃ n, Reserves bytes n c (Cache.reserveLoop fuel c bytes).1
      (Cache.reserveLoop fuel c bytes).2 := by
  induction fuel generalizing c with
  | zero =>
    unfold Cache.reserveLoop
    split
    · rename_i h
      exact ⟨0,.granted (.refl c) h⟩
    · rename_i h
      cases hevict : c.evictOldest with
      | none => exact ⟨0,.refused (.refl c) h (.refl c) hevict⟩
      | some c' =>
        have hlen := Cache.evict_facts hevict
        omega
  | succ fuel ih =>
    unfold Cache.reserveLoop
    split
    · rename_i h
      exact ⟨0,.granted (.refl c) h⟩
    · rename_i h
      dsimp only
      split
      · rename_i hevict
        exact ⟨0,.refused (.refl c) h (.refl c) hevict⟩
      · rename_i c' hevict
        have hlen := Cache.evict_facts hevict
        obtain ⟨n,hrest⟩ := ih (c := c') (by omega)
        exact ⟨n+1,.evicted (.refl c) h (.refl c) hevict hrest⟩

theorem facts_le_slots (c : Cache) : c.facts.length ≤ c.entries.length := List.length_filterMap_le _ _

/-! ## Histories of the process -/

def processIndexBytes : ℕ := 64*1024*1024

/-- The size of an empty cache and of its state on a 64-bit target. -/
def cacheBytes : ℕ := 2072+2056

/-- In every history of the process's cache the charge is that of the empty cache and of every
reservation with an owner, within the limit. There are at most as many facts as slots, no two of
them with one key. The loop of a reservation ends whoever comes in between, and a refused one
charges nothing. -/
theorem index_cache_accounted (base : ℕ) (hbase : base ≤ processIndexBytes) (es : List Event)
    (c : Cache) (hrun : run step (new processIndexBytes base) es = some c) :
    c.owned = base+c.charged ∧ c.owned ≤ processIndexBytes ∧
      c.facts.length ≤ cacheEntries ∧ (c.facts.map Index.key).Nodup ∧
      (∀ bytes, ∃ n, Reserves bytes n c (c.reserve bytes).1 (c.reserve bytes).2) ∧
      ∀ bytes n result c', Reserves bytes n c result c' →
        n ≤ cacheEntries ∧ (∃ fs, run step (new processIndexBytes base) (es++fs) = some c') ∧
        (result = none → c'.next = c.next ∧ c'.owned ≤ c.owned ∧ ∀ r ∈ c'.held, r ∈ c.held) := by
  have hc : Accounted processIndexBytes base c := by
    apply run_invariant (Accounted processIndexBytes base) (accounted_new hbase) _ hrun
    intro u e v hu hstep
    exact step_accounted hu hstep
  have hslots : c.facts.length ≤ cacheEntries := hc.slots ▸ facts_le_slots c
  refine ⟨hc.owned,hc.bounded,hslots,List.pairwise_map.mpr hc.keys,fun bytes => ?_,?_⟩
  · exact reserve_loop_ends bytes (facts_le_slots c)
  · intro bytes n result c' hloop
    refine ⟨hloop.bounded.trans hslots,?_,fun hnone => (hloop.refused_free hnone).2⟩
    obtain ⟨fs,hfs⟩ := hloop.history
    exact ⟨fs,run_append.mpr ⟨c,hrun,hfs⟩⟩

theorem index_cache_reservation_accounted :
    ∃ c, run step (new processIndexBytes cacheBytes) [.reserve 1000] = some c ∧
      c.held = [⟨0,1000⟩] ∧ c.owned = cacheBytes+c.charged := by
  have hcharge := charge_within (c := new processIndexBytes cacheBytes) (by decide : _+1000 ≤ _)
  have hrun := congrArg (fun p => some p.2) (reserve_charged hcharge)
  exact ⟨_,hrun,rfl,(index_cache_accounted cacheBytes (by decide) [.reserve 1000] _ hrun).1⟩

/-- The fixed slots exist, and are charged, even when there are no facts. -/
theorem empty_index_cache_charged :
    run step (new processIndexBytes cacheBytes) [] = some (new processIndexBytes cacheBytes) ∧
      (new processIndexBytes cacheBytes).charged = 0 ∧
      (new processIndexBytes cacheBytes).owned = 4128 := by
  refine ⟨rfl,?_,rfl⟩
  rw [Cache.charged, Cache.owners, Cache.facts_new]
  rfl

end Scorpio.IndexCache
