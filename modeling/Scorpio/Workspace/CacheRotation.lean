import Scorpio.Base.ByteText
import Scorpio.Base.Rotation

/-!
# The rotation of cache maintenance

`start_cache_worker` and `maintain_cache_scope` of `workspace::service`: each pass with a
permit maintains the scope after the last one and promotes at most eight of its workspaces
after the last one that was promoted there. The workspaces are listed by id; their ids are
the keys of the map they are kept in.
-/

set_option autoImplicit false

namespace Scorpio.CacheRotation

open ByteText Rotation

/-- `scope` is the parent of the content directory of the store, if there are both. -/
structure Workspace (σ : Type) where
  id : Text
  scope : Option σ
  reader : Bool
  upperRemoved : Bool

section Worker

variable {σ : Type} [LinearOrder σ]

/-- What one round of the worker meets: the permit, the locks and the pressure. -/
structure Round (σ : Type) where
  permit : Bool
  locked : Text → Bool
  pressure : σ → Option Bool

structure CacheWorker (σ : Type) where
  lastScope : Option σ
  owners : σ → Option Text

structure Report (σ : Type) where
  scope : Option σ
  promoted : List Text

def scopesOf (entries : List (Workspace σ)) (locked : Text → Bool) : List σ :=
  ((entries.filter fun w => !locked w.id).filterMap Workspace.scope).toFinset.sort (· ≤ ·)

def eligible (scope : σ) (w : Workspace σ) : Bool :=
  w.reader && w.scope = some scope && !w.upperRemoved

/-- The loop over the entries after `visited` promotions. -/
def visit (locked : Text → Bool) (scope : σ) : ℕ → List (Workspace σ) → List Text
  | _, [] => []
  | visited, w :: rest =>
    if visited = 8 then []
    else if locked w.id || !eligible scope w then visit locked scope visited rest
    else w.id :: visit locked scope (visited+1) rest

def maintainCacheScope (entries : List (Workspace σ)) (r : Round σ) (scope : σ)
    (after : Option Text) : List Text × Option Text :=
  match r.pressure scope with
  | some true =>
    let start := after.elim 0 fun last => entries.findIdx fun entry => !decide (entry.id ≤ last)
    let promoted := visit r.locked scope 0 (entries.drop start ++ entries.take start)
    (promoted,promoted.getLast?)
  | _ => ([],none)

def pass (entries : List (Workspace σ)) (r : Round σ) (w : CacheWorker σ) :
    Report σ × CacheWorker σ :=
  let scopes := scopesOf entries r.locked
  let owners := fun s => if s ∈ scopes then w.owners s else none
  match (scopes.find? fun s => w.lastScope.all (· < s)).or scopes.head? with
  | none => (⟨none,[]⟩,⟨w.lastScope,owners⟩)
  | some scope =>
    let m := maintainCacheScope entries r scope (owners scope)
    (⟨some scope,m.1⟩,⟨some scope,Function.update owners scope (m.2.or (owners scope))⟩)

/-- The passes of the rounds with a permit. -/
def reports (entries : List (Workspace σ)) : CacheWorker σ → List (Round σ) → List (Report σ)
  | _, [] => []
  | w, r :: rounds =>
    if r.permit then (pass entries r w).1 :: reports entries (pass entries r w).2 rounds
    else reports entries w rounds

/-- No runtime is locked, and every scope is under pressure. -/
def Calm (r : Round σ) : Prop := (∀ id, r.locked id = false) ∧ ∀ scope, r.pressure scope = some true

def scopes (entries : List (Workspace σ)) : List σ := scopesOf entries fun _ => false

def ofScope (entries : List (Workspace σ)) (scope : σ) : List Text :=
  (entries.filter (eligible scope)).map Workspace.id

variable {entries : List (Workspace σ)} {r : Round σ} {w : CacheWorker σ} {scope : σ}

/-! ## One pass -/

theorem visit_eq (hcalm : Calm r) (visited : ℕ) (hvisited : visited ≤ 8) :
    visit r.locked scope visited entries = (ofScope entries scope).take (8-visited) := by
  unfold ofScope
  induction entries generalizing visited with
  | nil => simp [visit]
  | cons w entries ih =>
    rw [visit, hcalm.1, Bool.false_or]
    by_cases hfull : visited = 8
    · simp [hfull]
    · rw [if_neg hfull]
      cases hw : eligible scope w with
      | false =>
        rw [List.filter_cons_of_neg (by simp [hw])]
        exact ih visited hvisited
      | true =>
        rw [List.filter_cons_of_pos hw, List.map_cons, show 8-visited = 8-(visited+1)+1 by omega,
          List.take_succ_cons, ← ih (visited+1) (by omega)]
        rfl

theorem promoted_eq (hentries : (entries.map Workspace.id).Pairwise (· < ·)) (hcalm : Calm r)
    (after : Option Text) : maintainCacheScope entries r scope after =
      ((around (ofScope entries scope) after).take 8,
        ((around (ofScope entries scope) after).take 8).getLast?) := by
  unfold maintainCacheScope
  rw [hcalm.2 scope]
  simp only [visit_eq hcalm 0 (Nat.zero_le 8), Nat.sub_zero]
  cases after with
  | none => simp [around]
  | some last =>
    obtain ⟨htake,hdrop⟩ := filter_split hentries last
    have hparts : ofScope (entries.drop (entries.findIdx fun entry => !decide (entry.id ≤ last)) ++
        entries.take (entries.findIdx fun entry => !decide (entry.id ≤ last))) scope =
        around (ofScope entries scope) (some last) := by
      rw [← List.dropWhile_eq_drop_findIdx_not, ← List.takeWhile_eq_take_findIdx_not, hdrop, htake]
      simp [ofScope, around, List.filter_map, List.filter_filter, Function.comp_def, Bool.and_comm]
    rw [Option.elim_some, hparts]

/-- The next scope is the first one around the list. -/
theorem next_scope (scopes : List σ) (last : Option σ) :
    (scopes.find? fun s => last.all (· < s)).or scopes.head? = (around scopes last).head? := by
  cases last with
  | none => cases scopes <;> simp [around]
  | some last =>
    simp only [around, Option.all_some, List.head?_append, List.head?_filter]
    cases hfirst : scopes.find? (last < ·) with
    | some s => rfl
    | none =>
      have hall : ∀ s ∈ scopes, s ≤ last := by simpa using List.find?_eq_none.mp hfirst
      rw [Option.none_or, Option.none_or, ← List.head?_filter, List.filter_eq_self.mpr]
      simpa using hall

theorem scopes_sorted : (scopes entries).Pairwise (· < ·) := by
  unfold scopes scopesOf
  exact (Finset.sortedLT_sort _).pairwise

theorem of_scope_sorted (hentries : (entries.map Workspace.id).Pairwise (· < ·)) (scope : σ) :
    (ofScope entries scope).Pairwise (· < ·) :=
  hentries.sublist (List.filter_sublist.map _)

/-- What a pass reports and where it leaves the two cursors. -/
structure Passed (entries : List (Workspace σ)) (w : CacheWorker σ) (p : Report σ × CacheWorker σ) :
    Prop where
  scope : p.1.scope = (around (scopes entries) w.lastScope).head?
  lastScope : p.2.lastScope = p.1.scope.or w.lastScope
  none : p.1.scope = none → p.1.promoted = []
  promoted : ∀ s, p.1.scope = some s →
    p.1.promoted = (around (ofScope entries s) (w.owners s)).take 8 ∧
      p.2.owners s = p.1.promoted.getLast?.or (w.owners s)
  others : ∀ s ∈ scopes entries, p.1.scope ≠ some s → p.2.owners s = w.owners s

theorem pass_passed (hentries : (entries.map Workspace.id).Pairwise (· < ·)) (hcalm : Calm r) :
    Passed entries w (pass entries r w) := by
  have hscopes : scopesOf entries r.locked = scopes entries := by
    rw [show r.locked = fun _ => false from funext hcalm.1, scopes]
  unfold pass
  simp only [hscopes, next_scope]
  cases hnext : (around (scopes entries) w.lastScope).head? with
  | none => exact ⟨hnext.symm,(Option.none_or).symm,fun _ => rfl,nofun,fun s hs _ => if_pos hs⟩
  | some s =>
    have hmem : s ∈ scopes entries :=
      (around_perm scopes_sorted _).subset (List.mem_of_head? hnext)
    refine ⟨hnext.symm,rfl,nofun,?_,fun s' hs' hne => ?_⟩
    · rintro _ ⟨⟩
      simp [promoted_eq hentries hcalm, hmem]
    · have hne : s' ≠ s := fun heq => hne (heq ▸ rfl)
      dsimp only
      rw [Function.update_of_ne hne, if_pos hs']

/-! ## Runs of passes -/

theorem reports_length (rounds : List (Round σ)) (w : CacheWorker σ) :
    (reports entries w rounds).length = rounds.countP Round.permit := by
  induction rounds generalizing w with
  | nil => rfl
  | cons r rounds ih => cases hr : r.permit <;> simp [reports, hr, ih]

section Runs

variable {rounds : List (Round σ)} (hentries : (entries.map Workspace.id).Pairwise (· < ·))
  (hcalm : ∀ r ∈ rounds, Calm r)

include hentries hcalm

/-- What every pass keeps or reports holds along the rounds. -/
theorem reports_induction {P : CacheWorker σ → List (Report σ) → Prop} (hnil : ∀ w, P w [])
    (hpass : ∀ w p rest, Passed entries w p → P p.2 rest → P w (p.1 :: rest)) (w : CacheWorker σ) :
    P w (reports entries w rounds) := by
  induction rounds generalizing w with
  | nil => exact hnil w
  | cons r rounds ih =>
    have hrest := ih fun r hr => hcalm r (by simp [hr])
    rw [reports]
    split
    · exact hpass w _ _ (pass_passed hentries (hcalm r (by simp))) (hrest _)
    · exact hrest w

theorem scope_turns (w : CacheWorker σ) : Turns (scopes entries) 1 w.lastScope
    ((reports entries w rounds).map fun report => report.scope.toList) := by
  refine reports_induction hentries hcalm
    (P := fun w reports => Turns (scopes entries) 1 w.lastScope (reports.map _))
    (fun _ => trivial) (fun w p rest hp hrest => ?_) w
  refine ⟨by rw [List.take_one, ← hp.scope],?_⟩
  rw [hp.lastScope] at hrest
  cases hs : p.1.scope <;> simpa [hs] using hrest

theorem owner_turns (hs : scope ∈ scopes entries) (w : CacheWorker σ) :
    Turns (ofScope entries scope) 8 (w.owners scope)
      (((reports entries w rounds).filter (·.scope = some scope)).map Report.promoted) := by
  refine reports_induction hentries hcalm (P := fun w reports => Turns (ofScope entries scope) 8
    (w.owners scope) ((reports.filter (·.scope = some scope)).map Report.promoted))
    (fun _ => trivial) (fun w p rest hp hrest => ?_) w
  by_cases hscope : p.1.scope = some scope
  · rw [List.filter_cons_of_pos (by simpa using hscope)]
    obtain ⟨hpromoted,howner⟩ := hp.promoted scope hscope
    exact ⟨hpromoted,howner ▸ hrest⟩
  · rw [List.filter_cons_of_neg (by simpa using hscope), ← hp.others scope hs hscope]
    exact hrest

/-- Wherever the cursors stand, rounds with as many permits as there are scopes maintain each scope;
rounds with enough passes over one scope promote each of its workspaces; and no pass promotes more
than eight workspaces or one twice. -/
theorem maintenance_fair (w : CacheWorker σ) :
    ((scopes entries).length ≤ rounds.countP Round.permit → ∀ scope ∈ scopes entries,
      ∃ report ∈ reports entries w rounds, report.scope = some scope) ∧
    (∀ scope, (ofScope entries scope).length ≤
        8*(reports entries w rounds).countP (·.scope = some scope) →
      ∀ id ∈ ofScope entries scope, ∃ report ∈ reports entries w rounds,
        report.scope = some scope ∧ id ∈ report.promoted) ∧
    ∀ report ∈ reports entries w rounds, report.promoted.length ≤ 8 ∧ report.promoted.Nodup := by
  refine ⟨fun hlen scope hscope => ?_,fun scope hlen id hid => ?_,?_⟩
  · have hlen : (scopes entries).length ≤ 1*((reports entries w rounds).map fun report =>
        report.scope.toList).length := by
      rwa [Nat.one_mul, List.length_map, reports_length]
    obtain ⟨s,hs,hmem⟩ := turns_cover scopes_sorted (scope_turns hentries hcalm w) hlen scope hscope
    obtain ⟨report,hreport,rfl⟩ := List.mem_map.mp hs
    exact ⟨report,hreport,Option.mem_toList.mp hmem⟩
  · have hscope : scope ∈ scopes entries := by
      obtain ⟨entry,hentry,-⟩ := List.mem_map.mp hid
      obtain ⟨hmem,hel⟩ := List.mem_filter.mp hentry
      simp only [eligible, Bool.and_eq_true, decide_eq_true_eq] at hel
      simp only [scopes, scopesOf, Finset.mem_sort, List.mem_toFinset, List.mem_filterMap]
      exact ⟨entry,by simpa using hmem,hel.1.2⟩
    rw [List.countP_eq_length_filter] at hlen
    obtain ⟨s,hs,hmem⟩ := turns_cover (of_scope_sorted hentries scope)
      (owner_turns hentries hcalm hscope w) (by rwa [List.length_map]) id hid
    obtain ⟨report,hreport,rfl⟩ := List.mem_map.mp hs
    obtain ⟨hreport,heq⟩ := List.mem_filter.mp hreport
    exact ⟨report,hreport,of_decide_eq_true heq,hmem⟩
  · refine reports_induction hentries hcalm (P := fun _ reports => ∀ report ∈ reports,
      report.promoted.length ≤ 8 ∧ report.promoted.Nodup) nofun (fun w p rest hp hrest => ?_) w
    refine List.forall_mem_cons.mpr ⟨?_,hrest⟩
    cases hs : p.1.scope with
    | none => simp [hp.none hs]
    | some s =>
      rw [(hp.promoted s hs).1]
      have hnodup := (around_perm (of_scope_sorted hentries s) (w.owners s)).nodup_iff.mpr
        ((of_scope_sorted hentries s).imp ne_of_lt)
      exact ⟨List.length_take_le 8 _,hnodup.sublist (List.take_sublist 8 _)⟩

end Runs

end Worker

def calmRound : Round ℕ := ⟨true,fun _ => false,fun _ => some true⟩

theorem maintenance_fair_two : ∃ report ∈ reports
    [⟨txt "a",some 7,true,false⟩,⟨txt "b",some 7,true,false⟩] ⟨none,fun _ => none⟩ [calmRound],
    report.scope = some 7 := by
  refine (maintenance_fair (by decide) ?_ _).1 ?_ 7 ?_
  · simp [Calm, calmRound]
  · simp only [scopes, scopesOf, Finset.length_sort]
    decide
  · simp only [scopes, scopesOf, Finset.mem_sort]
    decide

end Scorpio.CacheRotation
