import Mathlib

/-!
# Sums over unfolded forests

A graph is a partial map `expand` from a node to its own value and its list of
successors. `Sums expand xs f` says that unfolding the nodes of `xs` ends after
finitely many steps, that no unfolded node is missing, and that the values met
on the way add up to `f`, one summand for each occurrence. Shared nodes count
once for each path that leads to them, so a sum describes the unfolded forest
and not the graph.
-/

set_option autoImplicit false

namespace Scorpio.ForestSum

open Relation

section Sums

variable {ν F : Type*} [AddCommMonoid F]

inductive Sums (expand : ν → Option (F × List ν)) : List ν → F → Prop
  | nil : Sums expand [] 0
  | cons {x : ν} {xs kids : List ν} {own below rest : F} (hx : expand x = some (own,kids))
      (hkids : Sums expand kids below) (hxs : Sums expand xs rest) :
      Sums expand (x :: xs) (own + below + rest)

/-- One step of the graph: `y` is a successor of a node that is present. -/
def Child (expand : ν → Option (F × List ν)) (x y : ν) : Prop :=
  ∃ own kids, expand x = some (own,kids) ∧ y ∈ kids

/-- The node is present and reached from `x`. -/
def Reaches (expand : ν → Option (F × List ν)) : ν → ν → Prop := ReflTransGen (Child expand)

variable {expand : ν → Option (F × List ν)} {x : ν} {xs ys kids : List ν} {f g h own : F}

@[simp] theorem sums_nil_iff : Sums expand [] f ↔ f = 0 := by
  constructor
  · intro hs
    cases hs
    rfl
  · rintro rfl
    exact .nil

theorem sums_unique (hf : Sums expand xs f) (hg : Sums expand xs g) : f = g := by
  induction hf generalizing g with
  | nil => exact (sums_nil_iff.mp hg).symm
  | cons hx _ _ ihkids ihxs =>
    cases hg with
    | cons hx' hkids' hxs' =>
      rw [hx] at hx'
      cases hx'
      rw [ihkids hkids', ihxs hxs']

theorem sums_single (hx : expand x = some (own,kids)) (hkids : Sums expand kids f) :
    Sums expand [x] (own + f) := by
  simpa using Sums.cons hx hkids .nil

theorem sums_single_cases (hs : Sums expand [x] f) :
    ∃ own kids below, expand x = some (own,kids) ∧ Sums expand kids below ∧ f = own + below := by
  cases hs with
  | cons hx hkids hxs =>
    refine ⟨_,_,_,hx,hkids,?_⟩
    rw [sums_nil_iff.mp hxs, add_zero]

/-- Every node of a summed forest is present. -/
theorem sums_present (hs : Sums expand xs f) (hx : x ∈ xs) : ∃ v, expand x = some v := by
  induction hs with
  | nil => cases hx
  | cons hy _ _ _ ihxs =>
    rcases List.mem_cons.mp hx with rfl | hx
    · exact ⟨_,hy⟩
    · exact ihxs hx

theorem sums_append (hf : Sums expand xs f) (hg : Sums expand ys g) :
    Sums expand (xs ++ ys) (f + g) := by
  induction hf with
  | nil => simpa using hg
  | cons hx hkids _ _ ihxs =>
    rw [add_assoc]
    exact .cons hx hkids ihxs

theorem sums_append_cases (hs : Sums expand (xs ++ ys) h) :
    ∃ f g, Sums expand xs f ∧ Sums expand ys g ∧ h = f + g := by
  induction xs generalizing h with
  | nil => exact ⟨0,h,.nil,hs,(zero_add h).symm⟩
  | cons x xs ih =>
    cases hs with
    | cons hx hkids hxs =>
      obtain ⟨f,g,hf,hg,rfl⟩ := ih hxs
      exact ⟨_,g,.cons hx hkids hf,hg,(add_assoc _ _ _).symm⟩

theorem sums_append_iff :
    Sums expand (xs ++ ys) h ↔ ∃ f g, Sums expand xs f ∧ Sums expand ys g ∧ h = f + g := by
  refine ⟨sums_append_cases, ?_⟩
  rintro ⟨f,g,hf,hg,rfl⟩
  exact sums_append hf hg

theorem sums_cons_iff :
    Sums expand (x :: xs) h ↔ ∃ f g, Sums expand [x] f ∧ Sums expand xs g ∧ h = f + g :=
  @sums_append_iff _ _ _ expand [x] xs h

/-- A forest of summed trees has a sum. -/
theorem sums_of_forall (h : ∀ x ∈ xs, ∃ g, Sums expand [x] g) : ∃ f, Sums expand xs f := by
  induction xs with
  | nil => exact ⟨0,.nil⟩
  | cons x xs ih =>
    obtain ⟨g,hg⟩ := h x List.mem_cons_self
    obtain ⟨f,hf⟩ := ih fun y hy => h y (List.mem_cons_of_mem _ hy)
    exact ⟨g+f,sums_append hg hf⟩

theorem sums_perm (hp : xs.Perm ys) (hs : Sums expand xs f) : Sums expand ys f := by
  induction hp generalizing f with
  | nil => exact hs
  | cons x _ ih =>
    cases hs with
    | cons hx hkids hxs => exact .cons hx hkids (ih hxs)
  | swap x y l =>
    obtain ⟨fy,frest,hy,hrest,rfl⟩ := sums_cons_iff.mp hs
    obtain ⟨fx,fl,hx,hl,rfl⟩ := sums_cons_iff.mp hrest
    have hyl := sums_cons_iff.mpr ⟨fy,fl,hy,hl,rfl⟩
    exact sums_cons_iff.mpr ⟨fx,fy + fl,hx,hyl,add_left_comm fy fx fl⟩
  | trans _ _ ih₁ ih₂ => exact ih₂ (ih₁ hs)

/-- A larger graph keeps every sum of a smaller one. -/
theorem sums_mono {expand' : ν → Option (F × List ν)}
    (hle : ∀ x v, expand x = some v → expand' x = some v) (hs : Sums expand xs f) :
    Sums expand' xs f := by
  induction hs with
  | nil => exact .nil
  | cons hx _ _ ihkids ihxs => exact .cons (hle _ _ hx) ihkids ihxs

/-- Two graphs that agree up to a renaming of nodes have corresponding sums. -/
theorem sums_map {ν' F' : Type*} [AddCommMonoid F'] {expand' : ν' → Option (F' × List ν')}
    (r : ν → ν') (φ : F →+ F')
    (hr : ∀ x own kids, expand x = some (own,kids) → expand' (r x) = some (φ own,kids.map r))
    (hs : Sums expand xs f) : Sums expand' (xs.map r) (φ f) := by
  induction hs with
  | nil => simp
  | cons hx _ _ ihkids ihxs =>
    rw [map_add, map_add]
    exact .cons (hr _ _ _ hx) ihkids ihxs

/-- Whether a forest has a sum depends on its shape only. -/
theorem sums_of_shape {ν' F' : Type*} [AddCommMonoid F'] {expand' : ν' → Option (F' × List ν')}
    {r : ν → ν' → Prop}
    (hr : ∀ x y own kids, r x y → expand x = some (own,kids) →
      ∃ own' kids', expand' y = some (own',kids') ∧ List.Forall₂ r kids kids')
    (hs : Sums expand xs f) {ys : List ν'} (hxs : List.Forall₂ r xs ys) :
    ∃ g, Sums expand' ys g := by
  induction hs generalizing ys with
  | nil =>
    cases hxs
    exact ⟨0,.nil⟩
  | cons hx _ _ ihkids ihxs =>
    cases hxs with
    | cons hxy hrest =>
      obtain ⟨own',kids',hy,hkids⟩ := hr _ _ _ _ hxy hx
      obtain ⟨g,hg⟩ := ihkids hkids
      obtain ⟨g',hg'⟩ := ihxs hrest
      exact ⟨_,.cons hy hg hg'⟩

/-- Each summand is bounded by what is collected from the nodes it comes from. -/
theorem mem_sums {β : Type*} (μ : F →+ Multiset β) (hs : Sums expand xs f) (b : β) :
    b ∈ μ f ↔
      ∃ x ∈ xs, ∃ y, Reaches expand x y ∧ ∃ own kids, expand y = some (own,kids) ∧ b ∈ μ own := by
  induction hs with
  | nil => simp
  | @cons x xs kids own below rest hx _ _ ihkids ihxs =>
    rw [map_add, map_add, Multiset.mem_add, Multiset.mem_add, ihkids, ihxs]
    constructor
    · rintro ((hown | ⟨k,hk,y,hy,hb⟩) | ⟨z,hz,hb⟩)
      · exact ⟨x,by simp,x,.refl,own,kids,hx,hown⟩
      · exact ⟨x,by simp,y,.head ⟨own,kids,hx,hk⟩ hy,hb⟩
      · exact ⟨z,by simp [hz],hb⟩
    · rintro ⟨z,hz,y,hy,hb⟩
      rcases List.mem_cons.mp hz with rfl | hz
      · left
        rcases ReflTransGen.cases_head hy with rfl | ⟨k,⟨own',kids',hz',hk⟩,hky⟩
        · obtain ⟨own',kids',hz',hb⟩ := hb
          rw [hx] at hz'
          cases hz'
          exact .inl hb
        · rw [hx] at hz'
          cases hz'
          exact .inr ⟨k,hk,y,hky,hb⟩
      · exact .inr ⟨z,hz,y,hy,hb⟩

/-- Every node reached from a summed forest has a sum of its own, which is a part of the whole. -/
theorem sums_of_reaches {y : ν} (hs : Sums expand xs f) (hx : x ∈ xs) (hy : Reaches expand x y) :
    ∃ g rest, Sums expand [y] g ∧ f = g + rest := by
  induction hs generalizing x with
  | nil => simp at hx
  | @cons z zs kids own below rest hz hkids _ ihkids ihzs =>
    rcases List.mem_cons.mp hx with rfl | hx
    · rcases ReflTransGen.cases_head hy with rfl | ⟨k,⟨own',kids',hz',hk⟩,hky⟩
      · exact ⟨_,rest,sums_single hz hkids,rfl⟩
      · rw [hz] at hz'
        cases hz'
        obtain ⟨g,other,hg,rfl⟩ := ihkids hk hky
        exact ⟨g,own+other+rest,hg,by abel⟩
    · obtain ⟨g,other,hg,rfl⟩ := ihzs hx hy
      exact ⟨g,own+below+other,hg,by abel⟩

end Sums

end Scorpio.ForestSum
