import Mathlib

/-!
# Association lists

Finite maps as lists of pairs, searched by `List.lookup`. A list with distinct
keys is a map; the operations keep the keys distinct and touch one key only.
-/

set_option autoImplicit false

namespace Scorpio.Assoc

variable {κ β : Type*} {m : List (κ × β)} {k : κ} {v : β}

def keys (m : List (κ × β)) : List κ := m.map Prod.fst

theorem mem_keys_of_mem (h : (k,v) ∈ m) : k ∈ keys m := List.mem_map.mpr ⟨_,h,rfl⟩

theorem exists_of_mem_keys (h : k ∈ keys m) : ∃ v, (k,v) ∈ m := by
  obtain ⟨⟨k',v⟩,hmem,rfl⟩ := List.mem_map.mp h
  exact ⟨v,hmem⟩

section Lookup

variable [BEq κ] [LawfulBEq κ]

theorem lookup_cons_of_ne {k' : κ} (hk : k ≠ k') : ((k',v) :: m).lookup k = m.lookup k := by
  simp [List.lookup, beq_eq_false_iff_ne.mpr hk]

theorem mem_of_lookup (h : m.lookup k = some v) : (k,v) ∈ m := by
  induction m with
  | nil => simp at h
  | cons row m ih =>
    obtain ⟨k',v'⟩ := row
    by_cases hk : k = k'
    · subst hk
      rw [List.lookup_cons_self] at h
      cases h
      exact List.mem_cons_self
    · rw [lookup_cons_of_ne hk] at h
      exact List.mem_cons_of_mem _ (ih h)

theorem lookup_of_mem (hnd : (keys m).Nodup) (h : (k,v) ∈ m) : m.lookup k = some v := by
  induction m with
  | nil => simp at h
  | cons row m ih =>
    obtain ⟨k',v'⟩ := row
    obtain ⟨hnew,hnd⟩ := List.nodup_cons.mp hnd
    rcases List.mem_cons.mp h with heq | htail
    · cases heq
      exact List.lookup_cons_self
    · have hne : k ≠ k' := by
        rintro rfl
        exact hnew (mem_keys_of_mem htail)
      rw [lookup_cons_of_ne hne]
      exact ih hnd htail

theorem not_mem_keys_of_lookup (h : m.lookup k = none) : k ∉ keys m := by
  intro hk
  obtain ⟨v,hv⟩ := exists_of_mem_keys hk
  have hne := List.lookup_eq_none_iff.mp h _ hv
  simp at hne

end Lookup

theorem eq_of_mem (hnd : (keys m).Nodup) {v' : β} (h : (k,v) ∈ m) (h' : (k,v') ∈ m) : v = v' := by
  have heq := List.inj_on_of_nodup_map hnd h h' rfl
  exact congrArg Prod.snd heq

variable [DecidableEq κ]

def modify (m : List (κ × β)) (k : κ) (f : β → β) : List (κ × β) :=
  m.map fun s => if s.1 = k then (s.1,f s.2) else s

def erase (m : List (κ × β)) (k : κ) : List (κ × β) := m.filter fun s => s.1 ≠ k

/-- The value of `k` becomes `v`, whether or not there was one. -/
def insert (m : List (κ × β)) (k : κ) (v : β) : List (κ × β) := erase m k ++ [(k,v)]

@[simp] theorem keys_modify (f : β → β) : keys (modify m k f) = keys m := by
  unfold keys modify
  rw [List.map_map]
  refine List.map_congr_left fun s _ => ?_
  by_cases hs : s.1 = k <;> simp [hs]

theorem mem_modify {f : β → β} {s : κ × β} :
    s ∈ modify m k f ↔ (s ∈ m ∧ s.1 ≠ k) ∨ ∃ v, (k,v) ∈ m ∧ s = (k,f v) := by
  unfold modify
  rw [List.mem_map]
  constructor
  · rintro ⟨⟨k',v'⟩,hmem,rfl⟩
    by_cases hk : k' = k
    · subst hk
      exact .inr ⟨v',hmem,by simp⟩
    · exact .inl ⟨by simpa [hk] using hmem,by simp [hk]⟩
  · rintro (⟨hmem,hne⟩ | ⟨v,hmem,rfl⟩)
    · exact ⟨s,hmem,by simp [hne]⟩
    · exact ⟨(k,v),hmem,by simp⟩

theorem modify_modify (f g : β → β) : modify (modify m k f) k g = modify m k (g ∘ f) := by
  unfold modify
  rw [List.map_map]
  refine List.map_congr_left fun s _ => ?_
  by_cases hs : s.1 = k <;> simp [hs]

theorem mem_erase {s : κ × β} : s ∈ erase m k ↔ s ∈ m ∧ s.1 ≠ k := by
  simp [erase]

theorem erase_of_not_mem (h : k ∉ keys m) : erase m k = m := by
  refine List.filter_eq_self.mpr fun s hs => ?_
  have hne : s.1 ≠ k := by
    rintro rfl
    exact h (mem_keys_of_mem hs)
  simpa using hne

theorem insert_of_not_mem (h : k ∉ keys m) : insert m k v = m ++ [(k,v)] := by
  rw [insert, erase_of_not_mem h]

theorem keys_erase_nodup (hnd : (keys m).Nodup) : (keys (erase m k)).Nodup :=
  hnd.sublist (List.filter_sublist.map _)

theorem mem_keys_erase {k' : κ} : k' ∈ keys (erase m k) ↔ k' ∈ keys m ∧ k' ≠ k := by
  constructor
  · intro h
    obtain ⟨v,hv⟩ := exists_of_mem_keys h
    obtain ⟨hmem,hne⟩ := mem_erase.mp hv
    exact ⟨mem_keys_of_mem hmem,hne⟩
  · rintro ⟨h,hne⟩
    obtain ⟨v,hv⟩ := exists_of_mem_keys h
    exact mem_keys_of_mem (mem_erase.mpr ⟨hv,hne⟩)

/-- A map with distinct keys is one of its rows and the rest. -/
theorem perm_cons_erase (hnd : (keys m).Nodup) (h : (k,v) ∈ m) :
    m.Perm ((k,v) :: erase m k) := by
  induction m with
  | nil => simp at h
  | cons row m ih =>
    obtain ⟨k',v'⟩ := row
    obtain ⟨hnew,hnd'⟩ := List.nodup_cons.mp hnd
    by_cases hk : k' = k
    · subst hk
      have hv : v = v' := eq_of_mem hnd h List.mem_cons_self
      subst hv
      have herase : erase ((k',v) :: m) k' = m := by
        rw [erase, List.filter_cons_of_neg (by simp)]
        exact erase_of_not_mem hnew
      rw [herase]
    · have htail : (k,v) ∈ m := by
        rcases List.mem_cons.mp h with heq | htail
        · cases heq
          exact absurd rfl hk
        · exact htail
      have herase : erase ((k',v') :: m) k = (k',v') :: erase m k := by
        rw [erase, List.filter_cons_of_pos (by simpa using hk)]
        rfl
      rw [herase]
      exact ((ih hnd' htail).cons _).trans (List.Perm.swap _ _ _)

theorem keys_insert_nodup (hnd : (keys m).Nodup) : (keys (insert m k v)).Nodup := by
  unfold insert keys
  rw [List.map_append]
  refine List.Nodup.append (keys_erase_nodup hnd) (List.nodup_singleton _) ?_
  rw [List.map_singleton, List.disjoint_singleton]
  intro hk
  exact (mem_keys_erase.mp hk).2 rfl

theorem mem_insert {s : κ × β} : s ∈ insert m k v ↔ (s ∈ m ∧ s.1 ≠ k) ∨ s = (k,v) := by
  simp [insert, mem_erase]

variable [BEq κ] [LawfulBEq κ]

omit [DecidableEq κ] in
theorem lookup_iff (hnd : (keys m).Nodup) : m.lookup k = some v ↔ (k,v) ∈ m :=
  ⟨mem_of_lookup,lookup_of_mem hnd⟩

theorem lookup_erase (hnd : (keys m).Nodup) (k' : κ) :
    (erase m k).lookup k' = if k' = k then none else m.lookup k' := by
  ext w
  rw [lookup_iff (keys_erase_nodup hnd), mem_erase]
  by_cases hk : k' = k <;> simp [hk, lookup_iff hnd]

theorem lookup_insert (hnd : (keys m).Nodup) (k' : κ) :
    (insert m k v).lookup k' = if k' = k then some v else m.lookup k' := by
  ext w
  rw [lookup_iff (keys_insert_nodup hnd), mem_insert]
  by_cases hk : k' = k
  · simp [hk, eq_comm]
  · simp [hk, lookup_iff hnd]

end Scorpio.Assoc
