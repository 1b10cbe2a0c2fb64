import Mathlib

/-!
# Tables in order of use

A table keeps at most a fixed number of entries with distinct keys, the least
recently used first. Its meaning is a list: a lookup moves its entry to the end, and
a new entry goes there after the entry with its key, and in a full table the first
one, has been dropped. The fixed array packs the list in its first slots and closes
the gap of a removed entry by moving the later ones down; where the array code would
panic there is no result.
-/

set_option autoImplicit false

namespace Scorpio.RecencyTable

variable {α κ : Type*} [DecidableEq κ] (key : α → κ) (n : ℕ)

/-! ## The list -/

def touch (k : κ) (l : List α) : List α :=
  match l.find? fun x => key x = k with
  | none => l
  | some x => (l.eraseP fun x => key x = k) ++ [x]

def put (x : α) (l : List α) : List α :=
  let l := l.eraseP fun y => key y = key x
  (if l.length = n then l.tail else l) ++ [x]

inductive Op (κ α : Type*) where
  | get (k : κ)
  | put (x : α)
  | clear

def apply (l : List α) : Op κ α → List α
  | .get k => touch key k l
  | .put x => put key n x l
  | .clear => []

def after (ops : List (Op κ α)) : List α := ops.foldl (apply key n) []

def uses (k : κ) : Op κ α → Bool
  | .get k' => k' = k
  | .put x => key x = k
  | .clear => false

/-- The number of the last operation on a key. -/
def lastUse (k : κ) (ops : List (Op κ α)) : ℕ :=
  (ops.foldl (fun p op => (p.1+1,if uses key k op then p.1+1 else p.2)) (0,0)).2

/-- At most `n` entries in the order of their last uses. -/
structure Recent (ops : List (Op κ α)) (l : List α) : Prop where
  bounded : l.length ≤ n
  ordered : l.Pairwise fun x y => lastUse key (key x) ops < lastUse key (key y) ops

section List

variable {key n} {k : κ} {x : α} {l : List α} {ops : List (Op κ α)} {op : Op κ α}

theorem after_snoc : after key n (ops ++ [op]) = apply key n (after key n ops) op := by
  simp [after]

theorem last_use_snoc :
    lastUse key k (ops ++ [op]) = if uses key k op then ops.length+1 else lastUse key k ops := by
  have htime : ∀ ops : List (Op κ α), (ops.foldl
      (fun p op => (p.1+1,if uses key k op then p.1+1 else p.2)) (0,0)).1 = ops.length := by
    intro ops
    induction ops using List.reverseRecOn with
    | nil => rfl
    | append_singleton ops op ih => simp [ih]
  simp [lastUse, htime]

theorem last_use_le : lastUse key k ops ≤ ops.length := by
  induction ops using List.reverseRecOn with
  | nil => exact Nat.le_refl _
  | append_singleton ops op ih =>
    rw [last_use_snoc, List.length_append]
    split
    · exact Nat.le_refl _
    · exact Nat.le_succ_of_le ih

theorem Recent.distinct (h : Recent key n ops l) : (l.map key).Nodup := by
  rw [List.Nodup, List.pairwise_map]
  refine h.ordered.imp fun hlt heq => ?_
  rw [heq] at hlt
  exact Nat.lt_irrefl _ hlt

/-- The entry of a key goes, and the last operation uses that key. -/
theorem Recent.used {l' : List α} (h : Recent key n ops l) (hsub : l'.Sublist l)
    (hout : ∀ y ∈ l', key y ≠ key x) (hlen : l'.length+1 ≤ n)
    (huses : ∀ k, uses key k op = true ↔ k = key x) :
    Recent key n (ops ++ [op]) (l' ++ [x]) := by
  have hold : ∀ y ∈ l', lastUse key (key y) (ops ++ [op]) = lastUse key (key y) ops := by
    intro y hy
    rw [last_use_snoc, if_neg fun hu => hout y hy ((huses _).mp hu)]
  have hnew : lastUse key (key x) (ops ++ [op]) = ops.length+1 := by
    rw [last_use_snoc, if_pos ((huses _).mpr rfl)]
  refine ⟨by rw [List.length_append]; exact hlen,List.pairwise_append.mpr ⟨?_,?_,?_⟩⟩
  · refine (h.ordered.sublist hsub).imp_of_mem fun {a b} ha hb hlt => ?_
    rw [hold a ha, hold b hb]
    exact hlt
  · exact List.pairwise_singleton _ _
  · intro y hy z hz
    rw [List.mem_singleton.mp hz, hold y hy, hnew]
    exact Nat.lt_succ_of_le last_use_le

/-- Removing the one entry with a key leaves none with it. -/
theorem erase_out (h : (l.map key).Nodup) : ∀ y ∈ l.eraseP (fun y => key y = k), key y ≠ k := by
  induction l with
  | nil => simp
  | cons z l ih =>
    rw [List.map_cons, List.nodup_cons] at h
    intro y hy
    by_cases hz : key z = k
    · rw [List.eraseP_cons_of_pos (by simpa using hz)] at hy
      rintro rfl
      exact h.1 (hz ▸ List.mem_map_of_mem hy)
    · rw [List.eraseP_cons_of_neg (by simpa using hz)] at hy
      rcases List.mem_cons.mp hy with rfl | hy
      · exact hz
      · exact ih h.2 y hy

theorem apply_recent (hn : 0 < n) (h : Recent key n ops l) :
    Recent key n (ops ++ [op]) (apply key n l op) := by
  cases op with
  | clear => exact ⟨Nat.zero_le _,List.Pairwise.nil⟩
  | get k =>
    show Recent key n _ (touch key k l)
    unfold touch
    split
    · rename_i hnone
      refine ⟨h.bounded,h.ordered.imp_of_mem fun {a b} ha hb hlt => ?_⟩
      have hmiss : ∀ y ∈ l, uses key (key y) (.get k : Op κ α) = false := by
        intro y hy
        have hy' := List.find?_eq_none.mp hnone y hy
        simpa [uses, eq_comm] using hy'
      rw [last_use_snoc, last_use_snoc, hmiss a ha, hmiss b hb]
      exact hlt
    · rename_i x hx
      have hkey : key x = k := by simpa using List.find?_some hx
      have hmem := List.mem_of_find?_eq_some hx
      subst hkey
      refine h.used List.eraseP_sublist (erase_out h.distinct) ?_ fun k => by simp [uses, eq_comm]
      have hlen := List.length_eraseP_of_mem hmem (p := fun y => decide (key y = key x)) (by simp)
      have hpos : 0 < l.length := List.length_pos_of_mem hmem
      have hbound := h.bounded
      omega
  | put x =>
    show Recent key n _ (put key n x l)
    unfold put
    dsimp only
    have hout := erase_out (k := key x) h.distinct
    have hlen : (l.eraseP fun y => key y = key x).length ≤ n :=
      (List.length_eraseP_le).trans h.bounded
    have huses : ∀ k, uses key k (.put x : Op κ α) = true ↔ k = key x := by
      intro k
      simp [uses, eq_comm]
    by_cases hfull : (l.eraseP fun y => key y = key x).length = n
    · rw [if_pos hfull]
      refine h.used ((List.tail_sublist _).trans List.eraseP_sublist)
        (fun y hy => hout y (List.mem_of_mem_tail hy)) ?_ huses
      rw [List.length_tail]
      omega
    · rw [if_neg hfull]
      exact h.used List.eraseP_sublist hout (by omega) huses

theorem after_recent (hn : 0 < n) (ops : List (Op κ α)) :
    Recent key n ops (after key n ops) := by
  induction ops using List.reverseRecOn with
  | nil => exact ⟨Nat.zero_le _,List.Pairwise.nil⟩
  | append_singleton ops op ih =>
    rw [after_snoc]
    exact apply_recent hn ih

theorem apply_mem {P : α → Prop} (h : ∀ x ∈ l, P x) (hop : ∀ x, op = .put x → P x) :
    ∀ x ∈ apply key n l op, P x := by
  cases op with
  | clear => simp [apply]
  | get k =>
    show ∀ x ∈ touch key k l, P x
    unfold touch
    split
    · exact h
    · rename_i x hx
      intro y hy
      rcases List.mem_append.mp hy with hy | hy
      · exact h y (List.mem_of_mem_eraseP hy)
      · rw [List.mem_singleton.mp hy]
        exact h x (List.mem_of_find?_eq_some hx)
  | put x =>
    show ∀ y ∈ put key n x l, P y
    unfold put
    dsimp only
    intro y hy
    rcases List.mem_append.mp hy with hy | hy
    · apply h y
      split at hy
      · exact List.mem_of_mem_eraseP (List.mem_of_mem_tail hy)
      · exact List.mem_of_mem_eraseP hy
    · rw [List.mem_singleton.mp hy]
      exact hop x rfl

end List

/-! ## The array -/

structure Slots (α : Type*) where
  entries : List (Option α)
  len : ℕ

namespace Slots

def new (n : ℕ) : Slots α := ⟨List.replicate n none,0⟩

/-- `for slot in slot..slot + n { entries[slot] = entries[slot + 1].take() }`. -/
def shift : ℕ → ℕ → List (Option α) → List (Option α)
  | 0, _, entries => entries
  | n+1, slot, entries =>
    shift n (slot+1) ((entries.set slot (entries.getD (slot+1) none)).set (slot+1) none)

def remove (t : Slots α) (slot : ℕ) : Option (α × Slots α) :=
  match t.entries[slot]? with
  | some (some x) => some (x,⟨shift (t.len-1-slot) slot (t.entries.set slot none),t.len-1⟩)
  | _ => none

/-- The first entry with a key, all entries before it being there. -/
def position (k : κ) : List (Option α) → Option (Option ℕ)
  | [] => some none
  | none :: _ => none
  | some x :: rest =>
    if key x = k then some (some 0) else (position k rest).map fun slot => slot.map (·+1)

/-- `entries[len] = Some(x); len += 1`. -/
def store (t : Slots α) (x : α) : Option (Slots α) :=
  if t.len < t.entries.length then some ⟨t.entries.set t.len (some x),t.len+1⟩ else none

def get (t : Slots α) (k : κ) : Option (Option α × Slots α) :=
  (position key k (t.entries.take t.len)).bind fun slot =>
    match slot with
    | none => some (none,t)
    | some slot => (t.remove slot).bind fun p => (p.2.store p.1).map fun t => (some p.1,t)

def dropAt (t : Slots α) : Option ℕ → Option (Slots α)
  | none => some t
  | some slot => (t.remove slot).map Prod.snd

def insert (t : Slots α) (x : α) : Option (Slots α) :=
  (position key (key x) (t.entries.take t.len)).bind fun slot =>
    (t.dropAt slot).bind fun t =>
      (t.dropAt (if t.len = n then some 0 else none)).bind fun t => t.store x

def clear (t : Slots α) : Slots α := ⟨t.entries.map fun _ => none,0⟩

/-- The list stands in the first slots. -/
def Packed (t : Slots α) (l : List α) : Prop :=
  l.length ≤ n ∧ t.len = l.length ∧ t.entries = l.map some ++ List.replicate (n-l.length) none

section Refines

variable {key n} {t : Slots α} {l : List α} {k : κ} {x : α}

theorem new_packed : Packed n (new n : Slots α) [] :=
  ⟨Nat.zero_le _,rfl,by simp [new]⟩

theorem clear_packed (h : Packed n t l) : Packed n t.clear [] := by
  obtain ⟨hlen,-,hentries⟩ := h
  refine ⟨Nat.zero_le _,rfl,?_⟩
  show t.entries.map (fun _ => none) = List.replicate (n-0) none
  rw [List.map_const', hentries, List.length_append, List.length_map, List.length_replicate,
    Nat.sub_zero, Nat.add_sub_cancel' hlen]

theorem entries_length (h : Packed n t l) : t.entries.length = n := by
  obtain ⟨hlen,-,hentries⟩ := h
  rw [hentries, List.length_append, List.length_map, List.length_replicate]
  omega

theorem entries_take (h : Packed n t l) : t.entries.take t.len = l.map some := by
  obtain ⟨-,hlen,hentries⟩ := h
  rw [hentries, hlen, List.take_left' (List.length_map _)]

theorem position_packed (l : List α) :
    position key k (l.map some) = some (l.findIdx? fun x => key x = k) := by
  induction l with
  | nil => rfl
  | cons x l ih =>
    rw [List.map_cons, position, List.findIdx?_cons, ih]
    by_cases hx : key x = k
    · simp [hx]
    · simp [hx]

/-- The gap moves past the entries after it. -/
theorem shift_gap (a b c : List (Option α)) :
    shift b.length a.length (a ++ none :: (b ++ c)) = a ++ b ++ none :: c := by
  induction b generalizing a with
  | nil => simp [shift]
  | cons y b ih =>
    have hmoved : ((a ++ none :: (y :: b ++ c)).set a.length
        ((a ++ none :: (y :: b ++ c)).getD (a.length+1) none)).set (a.length+1) none =
        (a ++ [y]) ++ none :: (b ++ c) := by
      simp
    have hnext := ih (a ++ [y])
    rw [List.length_append, List.length_singleton] at hnext
    rw [List.length_cons, shift, hmoved, hnext]
    simp

theorem split_at {slot : ℕ} (hx : l[slot]? = some x) :
    ∃ a b, l = a ++ x :: b ∧ a.length = slot := by
  obtain ⟨hslot,hget⟩ := List.getElem?_eq_some_iff.mp hx
  refine ⟨l.take slot,l.drop (slot+1),?_,List.length_take_of_le hslot.le⟩
  rw [← hget, List.cons_getElem_drop_succ, List.take_append_drop]

theorem remove_packed {slot : ℕ} (h : Packed n t l) (hx : l[slot]? = some x) :
    ∃ t', t.remove slot = some (x,t') ∧ Packed n t' (l.eraseIdx slot) := by
  obtain ⟨hlen,hcount,hentries⟩ := h
  obtain ⟨a,b,rfl,rfl⟩ := split_at hx
  rw [List.length_append, List.length_cons] at hlen hcount
  have hparts : t.entries = a.map some ++ some x :: (b.map some ++
      List.replicate (n-(a.length+(b.length+1))) none) := by
    rw [hentries]
    simp
  have hentry : t.entries[a.length]? = some (some x) := by
    rw [hparts]
    simp
  have hgap : t.entries.set a.length none = a.map some ++ none :: (b.map some ++
      List.replicate (n-(a.length+(b.length+1))) none) := by
    rw [hparts]
    simp
  have herase : (a ++ x :: b).eraseIdx a.length = a ++ b := by
    simp [List.eraseIdx_append_of_length_le]
  have hshift := shift_gap (a.map some) (b.map some)
    (List.replicate (n-(a.length+(b.length+1))) none)
  rw [List.length_map, List.length_map] at hshift
  refine ⟨_,by rw [remove, hentry],?_⟩
  rw [herase]
  refine ⟨by simp; omega,by show t.len-1 = _; simp; omega,?_⟩
  show shift (t.len-1-a.length) a.length (t.entries.set a.length none) = _
  rw [hgap, show t.len-1-a.length = b.length by omega, hshift, List.map_append,
    ← List.replicate_succ, List.length_append,
    show n-(a.length+(b.length+1))+1 = n-(a.length+b.length) by omega]

theorem store_packed (h : Packed n t l) (hroom : l.length < n) :
    ∃ t', t.store x = some t' ∧ Packed n t' (l ++ [x]) := by
  have hlength := entries_length h
  obtain ⟨hlen,hcount,hentries⟩ := h
  refine ⟨_,if_pos (by omega),by simpa using hroom,by simp [hcount],?_⟩
  show t.entries.set t.len (some x) = _
  obtain ⟨m,hm⟩ : ∃ m, n-l.length = m+1 := ⟨n-l.length-1,by omega⟩
  rw [hentries, hcount, hm, List.replicate_succ, List.set_append_right _ _ (by simp)]
  simp [show n-(l.length+1) = m by omega]

theorem erase_at (l : List α) (p : α → Bool) : l.eraseP p = (l.findIdx? p).elim l l.eraseIdx := by
  rw [List.eraseP_eq_eraseIdx]
  cases l.findIdx? p <;> rfl

theorem find_at {p : α → Bool} {slot : ℕ} (h : l.findIdx? p = some slot) :
    ∃ x, l[slot]? = some x ∧ l.find? p = some x := by
  obtain ⟨hlt,hp,hbefore⟩ := List.findIdx?_eq_some_iff_getElem.mp h
  refine ⟨l[slot],List.getElem?_eq_getElem hlt,?_⟩
  exact List.find?_eq_some_iff_getElem.mpr ⟨hp,slot,hlt,rfl,fun j hj => by simpa using hbefore j hj⟩

variable (key) in
theorem get_packed (h : Packed n t l) (k : κ) :
    ∃ t', t.get key k = some (l.find? (fun x => key x = k),t') ∧ Packed n t' (touch key k l) := by
  unfold get touch
  rw [entries_take h, position_packed, Option.bind_some]
  cases hslot : l.findIdx? fun x => key x = k with
  | none =>
    have hnone : l.find? (fun x => key x = k) = none := by
      rw [List.find?_eq_none]
      simpa using List.findIdx?_eq_none_iff.mp hslot
    rw [hnone]
    exact ⟨t,rfl,h⟩
  | some slot =>
    obtain ⟨x,hx,hfind⟩ := find_at hslot
    obtain ⟨t',ht',hp'⟩ := remove_packed h hx
    have hshort : (l.eraseIdx slot).length < n := by
      obtain ⟨hlt,-⟩ := List.getElem?_eq_some_iff.mp hx
      rw [List.length_eraseIdx_of_lt hlt]
      have hlen := h.1
      omega
    obtain ⟨t'',ht'',hp''⟩ := store_packed (x := x) hp' hshort
    refine ⟨t'',?_,?_⟩
    · simp only [ht', ht'', hfind, Option.bind_some, Option.map_some]
    · rw [hfind, erase_at, hslot]
      exact hp''

theorem drop_at_packed {slot : Option ℕ} (h : Packed n t l) (hslot : ∀ i ∈ slot, i < l.length) :
    ∃ t', t.dropAt slot = some t' ∧ Packed n t' (slot.elim l l.eraseIdx) := by
  cases slot with
  | none => exact ⟨t,rfl,h⟩
  | some i =>
    obtain ⟨t',ht',hp'⟩ := remove_packed h (List.getElem?_eq_getElem (hslot i rfl))
    exact ⟨t',by rw [dropAt, ht']; rfl,hp'⟩

variable (key) in
theorem insert_packed (hn : 0 < n) (h : Packed n t l) (x : α) :
    ∃ t', t.insert key n x = some t' ∧ Packed n t' (put key n x l) := by
  unfold insert put
  dsimp only
  rw [entries_take h, position_packed, Option.bind_some]
  have hin : ∀ i ∈ l.findIdx? (fun y => key y = key x), i < l.length := by
    intro i hi
    obtain ⟨y,hy,-⟩ := find_at hi
    exact (List.getElem?_eq_some_iff.mp hy).1
  obtain ⟨t₁,ht₁,hp₁⟩ := drop_at_packed h hin
  rw [← erase_at] at hp₁
  rw [ht₁, Option.bind_some]
  have hcount := hp₁.2.1
  have hbound := hp₁.1
  by_cases hfull : (l.eraseP fun y => key y = key x).length = n
  · have hfirst : ∀ i ∈ some 0, i < (l.eraseP fun y => key y = key x).length := by
      rintro i ⟨⟩
      omega
    obtain ⟨t₂,ht₂,hp₂⟩ := drop_at_packed hp₁ hfirst
    rw [Option.elim_some, List.eraseIdx_zero] at hp₂
    rw [if_pos (hcount.trans hfull), ht₂, if_pos hfull]
    exact store_packed hp₂ (by rw [List.length_tail]; omega)
  · rw [if_neg (hcount ▸ hfull), if_neg hfull]
    exact store_packed hp₁ (by omega)

end Refines

/-! ## A table after a history -/

/-- The array has the list of its operations, and each entry has a property. -/
structure Follows (P : α → Prop) (ops : List (Op κ α)) (t : Slots α) : Prop where
  packed : Packed n t (after key n ops)
  entries : ∀ x ∈ after key n ops, P x

section Follows

variable {key n} {P : α → Prop} {ops : List (Op κ α)} {t : Slots α}

theorem new_follows : Follows key n P [] (new n) := by
  refine ⟨new_packed,?_⟩
  intro x hx
  cases hx

theorem Follows.get (h : Follows key n P ops t) (k : κ) :
    ∃ found t', t.get key k = some (found,t') ∧ (∀ x, found = some x → key x = k ∧ P x) ∧
      Follows key n P (ops ++ [.get k]) t' := by
  obtain ⟨t',hget,hpacked⟩ := get_packed key h.packed k
  refine ⟨_,t',hget,?_,?_,?_⟩
  · intro x hx
    exact ⟨by simpa using List.find?_some hx,h.entries x (List.mem_of_find?_eq_some hx)⟩
  · rw [after_snoc]
    exact hpacked
  · rw [after_snoc]
    exact apply_mem h.entries nofun

theorem Follows.insert (hn : 0 < n) (h : Follows key n P ops t) {x : α} (hx : P x) :
    ∃ t', t.insert key n x = some t' ∧ Follows key n P (ops ++ [.put x]) t' := by
  obtain ⟨t',hinsert,hpacked⟩ := insert_packed key hn h.packed x
  refine ⟨t',hinsert,?_,?_⟩
  · rw [after_snoc]
    exact hpacked
  · rw [after_snoc]
    refine apply_mem h.entries ?_
    rintro y ⟨⟩
    exact hx

theorem Follows.clear (h : Follows key n P ops t) :
    Follows key n P (ops ++ [.clear]) t.clear := by
  refine ⟨?_,?_⟩
  · rw [after_snoc]
    exact clear_packed h.packed
  · rw [after_snoc]
    exact apply_mem h.entries nofun

end Follows

end Slots

end Scorpio.RecencyTable
