import Scorpio.Snapshot.PageCodec

/-!
# The cache of chunk facts

The process keeps the chunk digests of files it has scanned in a fixed number of
slots, under one byte budget. A reservation is charged to the budget as long as
its builder, a slot of the cache or a reader still owns it. Each operation here
is one critical section of the cache's mutex, or the drop of one owner.
-/

set_option autoImplicit false

namespace Scorpio.IndexCache

open ByteText PageCodec

def indexFormat : ℕ := 1

def cacheEntries : ℕ := 128

/-- The budget's own counter is the sum over reservations; `id` tells two of them apart. -/
structure Reservation where
  id : ℕ
  bytes : ℕ
  deriving DecidableEq, Repr

structure Index where
  domain : Text
  digest : Digest
  size : ℕ
  format : ℕ
  chunks : List Digest
  reservation : Reservation
  deriving DecidableEq

def Index.matches (ix : Index) (domain : Text) (digest : Digest) (size : ℕ) : Bool :=
  ix.domain = domain && ix.digest = digest && ix.size = size && ix.format = indexFormat

structure Entry where
  fact : Index
  used : ℕ
  deriving DecidableEq

structure Cache where
  limit : ℕ
  owned : ℕ
  next : ℕ
  held : List Reservation
  entries : List (Option Entry)
  clock : ℕ

/-- `base` is the size of the empty cache itself, which is charged from the start. -/
def new (limit base : ℕ) : Cache := ⟨limit,base,0,[],List.replicate cacheEntries none,0⟩

namespace Cache

def facts (c : Cache) : List Index := c.entries.filterMap fun e => e.map Entry.fact

def live (c : Cache) (id : ℕ) : Bool :=
  c.held.any (fun r => r.id = id) || c.facts.any fun f => f.reservation.id = id

/-- Drop for Reservation: the last owner is gone. -/
def settle (c : Cache) (r : Reservation) : Cache :=
  if c.live r.id then c else {c with owned := c.owned-r.bytes}

/-- The drop of a builder's reservation or of a reader's reference to a fact. -/
def dropOwner (c : Cache) (r : Reservation) : Cache :=
  {c with held := c.held.erase r}.settle r

/-- The first slot among those with the smallest use. -/
def oldest (entries : List (Option Entry)) : Option ℕ :=
  let used := entries.zipIdx.filterMap fun p => p.1.map fun e => (p.2,e.used)
  (used.foldl (fun best x => match best with
    | none => some x
    | some b => if x.2 < b.2 then some x else some b) none).map Prod.fst

def evictOldest (c : Cache) : Option Cache :=
  match oldest c.entries with
  | none => none
  | some slot =>
    let c' := {c with entries := c.entries.set slot none}
    match c.entries[slot]? with
    | some (some e) => some (c'.settle e.fact.reservation)
    | _ => some c'

/-- The clock saturates at the largest 64-bit value. -/
def tick (c : Cache) : Cache := {c with clock := min (c.clock+1) (2^64-1)}

def touch (domain : Text) (digest : Digest) (size used : ℕ) :
    List (Option Entry) → List (Option Entry)
  | [] => []
  | none :: rest => none :: touch domain digest size used rest
  | some e :: rest =>
    if e.fact.matches domain digest size then some {e with used := used} :: rest
    else some e :: touch domain digest size used rest

def get (c : Cache) (domain : Text) (digest : Digest) (size : ℕ) : Option Index × Cache :=
  let c := c.tick
  match c.facts.find? fun f => f.matches domain digest size with
  | none => (none,c)
  | some f => (some f,{c with
      entries := touch domain digest size c.clock c.entries
      held := f.reservation :: c.held})

/-- Budget::reserve. -/
def charge (c : Cache) (bytes : ℕ) : Option (Reservation × Cache) :=
  if c.owned+bytes ≤ c.limit then
    let r := ⟨c.next,bytes⟩
    some (r,{c with owned := c.owned+bytes, next := c.next+1, held := r :: c.held})
  else none

def reserveLoop : ℕ → Cache → ℕ → Option Reservation × Cache
  | fuel, c, bytes =>
    match c.charge bytes with
    | some (r,c') => (some r,c')
    | none =>
      match fuel with
      | 0 => (none,c)
      | fuel+1 =>
        match c.evictOldest with
        | none => (none,c)
        | some c' => reserveLoop fuel c' bytes

/-- Each round of the loop empties one slot. -/
def reserve (c : Cache) (bytes : ℕ) : Option Reservation × Cache :=
  reserveLoop c.entries.length c bytes

def place (e : Entry) : List (Option Entry) → List (Option Entry)
  | [] => []
  | none :: rest => some e :: rest
  | some e' :: rest => some e' :: place e rest

/-- The builder's ownership passes to the slot, or ends with the call. -/
def publish (c : Cache) (fact : Index) : Cache :=
  if c.facts.any fun f => f.matches fact.domain fact.digest fact.size then
    c.dropOwner fact.reservation
  else
    let c := if c.entries.all Option.isSome then (c.evictOldest).getD c else c
    let c := c.tick
    {c with entries := place ⟨fact,c.clock⟩ c.entries}.dropOwner fact.reservation

end Cache

/-! ## The facts in the cache -/

namespace Cache

variable {c c' : Cache} {f : Index} {r : Reservation}

@[simp] theorem facts_settle : (c.settle r).facts = c.facts := by
  unfold settle
  split <;> rfl

@[simp] theorem facts_drop_owner : (c.dropOwner r).facts = c.facts := facts_settle

@[simp] theorem facts_tick : c.tick.facts = c.facts := rfl

theorem mem_facts : f ∈ c.facts ↔ ∃ used, some ⟨f,used⟩ ∈ c.entries := by
  simp only [facts, List.mem_filterMap, Option.map_eq_some_iff]
  constructor
  · rintro ⟨_,he,⟨fact,used⟩,rfl,rfl⟩
    exact ⟨used,he⟩
  · rintro ⟨used,he⟩
    exact ⟨_,he,_,rfl,rfl⟩

theorem facts_evict (h : c.evictOldest = some c') (hf : f ∈ c'.facts) : f ∈ c.facts := by
  obtain ⟨slot,hsub⟩ : ∃ slot, c'.facts = {c with entries := c.entries.set slot none}.facts := by
    unfold evictOldest at h
    split at h
    · cases h
    · rename_i slot _
      refine ⟨slot,?_⟩
      dsimp only at h
      split at h <;> cases h
      · exact facts_settle
      · rfl
  rw [hsub] at hf
  obtain ⟨used,he⟩ := mem_facts.mp hf
  refine mem_facts.mpr ⟨used,?_⟩
  rcases List.mem_or_eq_of_mem_set he with he | he
  · exact he
  · cases he

theorem facts_touch (domain : Text) (digest : Digest) (size used : ℕ) (l : List (Option Entry)) :
    (touch domain digest size used l).filterMap (fun e => e.map Entry.fact)
      = l.filterMap fun e => e.map Entry.fact := by
  induction l with
  | nil => rfl
  | cons e rest ih =>
    cases e with
    | none => simpa [touch] using ih
    | some e =>
      unfold touch
      split
      · rfl
      · simpa using ih

theorem get_fact {domain : Text} {digest : Digest} {size : ℕ}
    (h : (c.get domain digest size).1 = some f) :
    f ∈ c.facts ∧ f.matches domain digest size = true := by
  unfold get at h
  simp only at h
  split at h
  · cases h
  · rename_i g hg
    cases h
    exact ⟨List.mem_of_find?_eq_some hg,by simpa using List.find?_some hg⟩

@[simp] theorem facts_get {domain : Text} {digest : Digest} {size : ℕ} :
    (c.get domain digest size).2.facts = c.facts := by
  unfold get
  simp only
  split
  · rfl
  · exact facts_touch ..

theorem facts_charge {bytes : ℕ} (h : c.charge bytes = some (r,c')) : c'.facts = c.facts := by
  unfold charge at h
  split at h
  · cases h
    rfl
  · cases h

theorem facts_reserve_loop {fuel bytes : ℕ} (hf : f ∈ (reserveLoop fuel c bytes).2.facts) :
    f ∈ c.facts := by
  induction fuel generalizing c with
  | zero =>
    unfold reserveLoop at hf
    split at hf
    · rename_i hc
      exact facts_charge hc ▸ hf
    · exact hf
  | succ fuel ih =>
    unfold reserveLoop at hf
    split at hf
    · rename_i hc
      exact facts_charge hc ▸ hf
    · simp only at hf
      split at hf
      · exact hf
      · rename_i c' hc
        exact facts_evict hc (ih hf)

theorem facts_reserve {bytes : ℕ} (hf : f ∈ (c.reserve bytes).2.facts) : f ∈ c.facts :=
  facts_reserve_loop hf

theorem mem_place {e : Entry} {l : List (Option Entry)} {x : Option Entry} (h : x ∈ place e l) :
    x = some e ∨ x ∈ l := by
  induction l with
  | nil => simp [place] at h
  | cons y rest ih =>
    cases y with
    | none =>
      rcases List.mem_cons.mp h with h | h
      · exact .inl h
      · exact .inr (List.mem_cons_of_mem _ h)
    | some y =>
      rcases List.mem_cons.mp h with h | h
      · exact .inr (h ▸ List.mem_cons_self)
      · exact (ih h).imp_right (List.mem_cons_of_mem _)

theorem facts_publish {fact : Index} (hf : f ∈ (c.publish fact).facts) :
    f = fact ∨ f ∈ c.facts := by
  unfold publish at hf
  split at hf
  · exact .inr (by simpa using hf)
  · simp only [facts_drop_owner] at hf
    obtain ⟨used,he⟩ := mem_facts.mp hf
    rcases mem_place he with he | he
    · cases he
      exact .inl rfl
    · right
      have hmem := mem_facts.mpr ⟨used,he⟩
      rw [facts_tick] at hmem
      split at hmem
      · cases hev : c.evictOldest with
        | none => simpa [hev] using hmem
        | some c' =>
          rw [hev] at hmem
          exact facts_evict hev hmem
      · exact hmem

@[simp] theorem facts_new (limit base : ℕ) : (new limit base).facts = [] := by
  simp [new, facts]

end Cache

end Scorpio.IndexCache
