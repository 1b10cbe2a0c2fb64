import Scorpio.Tasks.FetchCoordinator

/-!
# Entries, flights and calls of the coordinator

Every entry points to a running flight that is not cancelled and whose waiters
are calls that wait for it with nothing in their inbox. A call that waits is in
its flight's entry, in its flight's outbox, or has that flight's answer. The
cancellation answers only flights that have lost their entry, hence nobody.
-/

set_option autoImplicit false

namespace Scorpio.FetchCoordinator

open Traces

def Job.answer {ν ε : Type} : Job ν ε → Option (FetchResult ν ε)
  | .running => none
  | .delivering r _ => some r
  | .ended r => some r

section Links

variable {κ ν ε : Type}

/-- How far a flight has come for one of its waiters. -/
def Served (s : State κ ν ε) (fl : Flight κ ν ε) (c id f : ℕ) (inbox : List (FetchResult ν ε)) :
    Prop :=
  match fl.job with
  | .running => inbox = [] ∧ ∃ p, s.entries fl.key = some p ∧ p.flight = f ∧ ⟨id,c⟩ ∈ p.waiters
  | .delivering r outbox =>
    r ≠ .noLiveWaiters ∧ (inbox = [] ∧ ⟨id,c⟩ ∈ outbox ∨ inbox = [r])
  | .ended r => r ≠ .noLiveWaiters ∧ inbox = [r]

structure Linked (s : State κ ν ε) : Prop where
  entry : ∀ key p, s.entries key = some p → p.waiters ≠ [] ∧
    ∃ fl, s.flights p.flight = some fl ∧ fl.key = key ∧ fl.cancel = false ∧ fl.job = .running
  waiters : ∀ key p, s.entries key = some p → (p.waiters.map Waiter.id).Nodup ∧
    ∀ w ∈ p.waiters, w.id ≤ s.nextId ∧ s.calls w.call = .waiting w.id key p.flight []
  outbox : ∀ f fl r out, s.flights f = some fl → fl.job = .delivering r out →
    (out.map Waiter.id).Nodup ∧ ∀ w ∈ out, r ≠ .noLiveWaiters ∧
      (s.calls w.call = .waiting w.id fl.key f [] ∨ s.calls w.call = .ended)
  issued : ∀ f fl, s.flights f = some fl → f ≤ s.nextId
  waiting : ∀ c id key f inbox, s.calls c = .waiting id key f inbox →
    ∃ fl, s.flights f = some fl ∧ fl.key = key ∧ Served s fl c id f inbox
  returned : ∀ c f r, s.calls c = .returned f r →
    r ≠ .noLiveWaiters ∧ ∃ fl, s.flights f = some fl ∧ fl.job.answer = some r

theorem linked_new : Linked (new κ ν ε) :=
  ⟨by simp [new],by simp [new],by simp [new],by simp [new],by simp [new],by simp [new]⟩

variable {s t : State κ ν ε} {c id f : ℕ} {key : κ} {p : PendingFlight} {fl : Flight κ ν ε}
  {r : FetchResult ν ε} {inbox : List (FetchResult ν ε)} {out : List Waiter} {y : Call κ ν ε}

/-! ## What the links say -/

/-- An entry and the flight it points to have one key, so one flight has one entry. -/
theorem Linked.entry_key (h : Linked s) {key' : κ} {p' : PendingFlight}
    (hp : s.entries key = some p) (hp' : s.entries key' = some p') (heq : p.flight = p'.flight) :
    key = key' := by
  obtain ⟨_,fl,hfl,hkey,_⟩ := h.entry key p hp
  obtain ⟨_,fl',hfl',hkey',_⟩ := h.entry key' p' hp'
  rw [heq, hfl'] at hfl
  cases hfl
  rw [← hkey, ← hkey']

/-- The flight of an entry runs under its key. -/
theorem Linked.runs (h : Linked s) (hp : s.entries key = some p) (hfl : s.flights p.flight = some fl) :
    fl.key = key ∧ fl.cancel = false ∧ fl.job = .running := by
  obtain ⟨_,fl',hfl',hrest⟩ := h.entry key p hp
  rw [hfl] at hfl'
  cases hfl'
  exact hrest

/-- A waiter of a running flight is in that flight's entry. -/
theorem Linked.attached (h : Linked s) (hc : s.calls c = .waiting id key f inbox)
    (hfl : s.flights f = some fl) (hrun : fl.job = .running) :
    inbox = [] ∧ ∃ p, s.entries key = some p ∧ p.flight = f ∧ ⟨id,c⟩ ∈ p.waiters := by
  obtain ⟨fl',hfl',hkey,hserved⟩ := h.waiting c id key f inbox hc
  rw [hfl] at hfl'
  cases hfl'
  rw [← hkey]
  simpa [Served, hrun] using hserved

/-- A flight that answers has no entry. -/
theorem Linked.detached (h : Linked s) (hfl : s.flights f = some fl) (hjob : fl.job ≠ .running)
    (hp : s.entries key = some p) : p.flight ≠ f := by
  rintro rfl
  exact hjob (h.runs hp hfl).2.2

/-- Two waiters of one list with one id are the same waiter. -/
theorem waiter_eq {ws : List Waiter} (hnodup : (ws.map Waiter.id).Nodup) {w w' : Waiter}
    (hw : w ∈ ws) (hw' : w' ∈ ws) (hid : w.id = w'.id) : w = w' :=
  List.inj_on_of_nodup_map hnodup hw hw' hid

/-- A call that does not wait in an entry is none of its waiters. -/
theorem Linked.not_waiter (h : Linked s) (hp : s.entries key = some p)
    (hc : ∀ id, s.calls c ≠ .waiting id key p.flight []) : ∀ w ∈ p.waiters, ¬ w.call = c := by
  rintro w hw rfl
  exact hc w.id ((h.waiters key p hp).2 w hw).2

/-! ## What a change leaves as it is -/

/-- The calls, entries and flights that a change may touch. -/
structure Touches (s t : State κ ν ε) (C : ℕ → Prop) (K : κ → Prop) (F : ℕ → Prop) : Prop where
  nextId : s.nextId ≤ t.nextId
  calls : ∀ c, ¬ C c → t.calls c = s.calls c
  entries : ∀ key, ¬ K key → t.entries key = s.entries key
  flights : ∀ f, ¬ F f → t.flights f = s.flights f

/-- Nothing need be said of what is not touched, if no link leads from it to what is. -/
theorem Linked.touch {C F : ℕ → Prop} {K : κ → Prop} (h : Linked s) (ht : Touches s t C K F)
    (hapart : ∀ key p, ¬ K key → s.entries key = some p →
      ¬ F p.flight ∧ ∀ w ∈ p.waiters, ¬ C w.call)
    (hbox : ∀ c, C c → t.calls c = .ended ∨
      s.calls c ≠ .ended ∧ ∀ id key f, ¬ F f → s.calls c ≠ .waiting id key f [])
    (hentry : ∀ key p, K key → t.entries key = some p → (p.waiters ≠ [] ∧
        ∃ fl, t.flights p.flight = some fl ∧ fl.key = key ∧ fl.cancel = false ∧ fl.job = .running) ∧
      (p.waiters.map Waiter.id).Nodup ∧
        ∀ w ∈ p.waiters, w.id ≤ t.nextId ∧ t.calls w.call = .waiting w.id key p.flight [])
    (hflight : ∀ f fl, F f → t.flights f = some fl → f ≤ t.nextId ∧
      ∀ r out, fl.job = .delivering r out → (out.map Waiter.id).Nodup ∧
        ∀ w ∈ out, r ≠ .noLiveWaiters ∧
          (t.calls w.call = .waiting w.id fl.key f [] ∨ t.calls w.call = .ended))
    (hwaiting : ∀ c id key f inbox, C c ∨ F f → t.calls c = .waiting id key f inbox →
      ∃ fl, t.flights f = some fl ∧ fl.key = key ∧ Served t fl c id f inbox)
    (hkeeps : ∀ key p, K key → s.entries key = some p → ¬ F p.flight → ∀ w ∈ p.waiters,
      ¬ C w.call → ∃ p', t.entries key = some p' ∧ p'.flight = p.flight ∧ w ∈ p'.waiters)
    (hback : ∀ c f r, C c ∨ F f → t.calls c = .returned f r →
      r ≠ .noLiveWaiters ∧ ∃ fl, t.flights f = some fl ∧ fl.job.answer = some r) : Linked t := by
  refine ⟨?_,?_,?_,?_,?_,?_⟩
  · intro key p hp
    by_cases hK : K key
    · exact (hentry key p hK hp).1
    · rw [ht.entries key hK] at hp
      rw [ht.flights _ (hapart key p hK hp).1]
      exact h.entry key p hp
  · intro key p hp
    by_cases hK : K key
    · exact (hentry key p hK hp).2
    · rw [ht.entries key hK] at hp
      obtain ⟨hnodup,hwaiters⟩ := h.waiters key p hp
      refine ⟨hnodup,fun w hw => ⟨(hwaiters w hw).1.trans ht.nextId,?_⟩⟩
      rw [ht.calls _ ((hapart key p hK hp).2 w hw)]
      exact (hwaiters w hw).2
  · intro f fl r out hfl hjob
    by_cases hF : F f
    · exact (hflight f fl hF hfl).2 r out hjob
    · rw [ht.flights f hF] at hfl
      obtain ⟨hnodup,hout⟩ := h.outbox f fl r out hfl hjob
      refine ⟨hnodup,fun w hw => ⟨(hout w hw).1,?_⟩⟩
      by_cases hC : C w.call
      · rcases hbox _ hC with hend | ⟨hlive,hwait⟩
        · exact .inr hend
        · exact ((hout w hw).2.elim (hwait _ _ _ hF) hlive).elim
      · rw [ht.calls _ hC]
        exact (hout w hw).2
  · intro f fl hfl
    by_cases hF : F f
    · exact (hflight f fl hF hfl).1
    · rw [ht.flights f hF] at hfl
      exact (h.issued f fl hfl).trans ht.nextId
  · intro c id key f inbox hc
    by_cases hCF : C c ∨ F f
    · exact hwaiting c id key f inbox hCF hc
    · obtain ⟨hC,hF⟩ := not_or.mp hCF
      rw [ht.calls c hC] at hc
      obtain ⟨fl,hfl,rfl,hserved⟩ := h.waiting c id key f inbox hc
      refine ⟨fl,(ht.flights f hF).trans hfl,rfl,?_⟩
      unfold Served at hserved ⊢
      cases hjob : fl.job with
      | running =>
        rw [hjob] at hserved
        obtain ⟨hin,p,hp,rfl,hmem⟩ := hserved
        refine ⟨hin,?_⟩
        by_cases hK : K fl.key
        · exact hkeeps fl.key p hK hp hF _ hmem hC
        · exact ⟨p,(ht.entries _ hK).trans hp,rfl,hmem⟩
      | _ => rwa [hjob] at hserved
  · intro c f r hc
    by_cases hCF : C c ∨ F f
    · exact hback c f r hCF hc
    · obtain ⟨hC,hF⟩ := not_or.mp hCF
      rw [ht.calls c hC] at hc
      rw [ht.flights f hF]
      exact h.returned c f r hc

/-! ## Calls -/

/-- A call that no entry waits for moves on without waiting for a flight. -/
theorem Linked.move (h : Linked s) (he : t.entries = s.entries) (hf : t.flights = s.flights)
    (hn : s.nextId ≤ t.nextId) (hcalls : t.calls = Function.update s.calls c y)
    (hout : ∀ key p id, s.entries key = some p → s.calls c ≠ .waiting id key p.flight [])
    (hbox : y = .ended ∨ s.calls c ≠ .ended ∧ ∀ id key f, s.calls c ≠ .waiting id key f [])
    (hwait : ∀ id key f inbox, y ≠ .waiting id key f inbox)
    (hback : ∀ f r, y = .returned f r →
      r ≠ .noLiveWaiters ∧ ∃ fl, s.flights f = some fl ∧ fl.job.answer = some r) : Linked t := by
  have hnow : t.calls c = y := by rw [hcalls, Function.update_self]
  have hkeep : ∀ c', c' ≠ c → t.calls c' = s.calls c' := fun c' hc => by
    rw [hcalls, Function.update_of_ne hc]
  refine h.touch (C := (· = c)) (K := fun _ => False) (F := fun _ => False)
    ⟨hn,hkeep,fun _ _ => by rw [he],fun _ _ => by rw [hf]⟩ ?_ ?_ nofun nofun ?_ nofun ?_
  · exact fun key p _ hp => ⟨not_false,h.not_waiter hp fun id => hout key p id hp⟩
  · rintro _ rfl
    exact hbox.imp hnow.trans fun hc => ⟨hc.1,fun id key f _ => hc.2 id key f⟩
  · intro c' id key f inbox hx hc
    obtain rfl := hx.resolve_right not_false
    exact (hwait _ _ _ _ (hnow.symm.trans hc)).elim
  · intro c' f r hx hc
    obtain rfl := hx.resolve_right not_false
    rw [hf]
    exact hback f r (hnow.symm.trans hc)

/-- A call outside every flight. -/
def Call.outside : Call κ ν ε → Bool
  | .idle => true
  | .admitted => true
  | .direct => true
  | _ => false

/-- A call outside every flight may move on without one. -/
theorem Linked.outside (h : Linked s) (he : t.entries = s.entries) (hf : t.flights = s.flights)
    (hn : s.nextId ≤ t.nextId) (hcalls : t.calls = Function.update s.calls c y)
    (hold : (s.calls c).outside = true) (hy : y.outside = true ∨ y = .ended) : Linked t := by
  have hno : ∀ id key f inbox, s.calls c ≠ .waiting id key f inbox := by
    intro id key f inbox hc
    rw [hc] at hold
    cases hold
  refine h.move he hf hn hcalls (fun _ _ _ _ => hno _ _ _ _)
    (.inr ⟨fun hc => ?_,fun _ _ _ => hno _ _ _ _⟩) ?_ ?_
  · rw [hc] at hold
    cases hold
  · rintro id key f inbox rfl
    rcases hy with hy | hy <;> cases hy
  · rintro f r rfl
    rcases hy with hy | hy <;> cases hy

/-- A waiter of an answered flight leaves; its registration has no entry to change. -/
theorem Linked.close (h : Linked s) (hc : s.calls c = .waiting id key f inbox)
    (hfl : s.flights f = some fl) (hjob : fl.job ≠ .running)
    (hy : y = .ended ∨ ∃ r rest, inbox = r :: rest ∧ y = .returned f r)
    (hn : t.nextId = s.nextId) (he : t.entries = s.entries) (hf : t.flights = s.flights)
    (hcalls : t.calls = Function.update s.calls c y) : Linked t := by
  refine h.move he hf hn.ge hcalls ?_ ?_ ?_ ?_
  · intro key' p id' hp heq
    rw [hc] at heq
    cases heq
    exact h.detached hfl hjob hp rfl
  · -- An unsent waiter has an empty inbox, so it can only be dropped here.
    refine hy.imp_right ?_
    rintro ⟨r,rest,rfl,rfl⟩
    rw [hc]
    simp
  · rcases hy with rfl | ⟨r,rest,_,rfl⟩ <;> simp
  · rintro g r' rfl
    obtain ⟨r,rest,rfl,hback⟩ := hy.resolve_left nofun
    cases hback
    obtain ⟨fl',hfl',_,hserved⟩ := h.waiting c id key f _ hc
    rw [hfl] at hfl'
    cases hfl'
    unfold Served at hserved
    cases hcase : fl.job with
    | running => exact absurd hcase hjob
    | delivering r' out =>
      simp only [hcase, List.cons.injEq, reduceCtorEq, false_and, false_or] at hserved
      obtain ⟨hr,rfl,-⟩ := hserved
      exact ⟨hr,fl,hfl,by rw [hcase]; rfl⟩
    | ended r' =>
      simp only [hcase, List.cons.injEq] at hserved
      obtain ⟨hr,rfl,-⟩ := hserved
      exact ⟨hr,fl,hfl,by rw [hcase]; rfl⟩

variable [DecidableEq κ]

/-! ## Registrations -/

theorem Linked.join (h : Linked s) (hc : s.calls c = .admitted) (hp : s.entries key = some p) :
    Linked (join s c key p) := by
  obtain ⟨hnodup,hwaiters⟩ := h.waiters key p hp
  obtain ⟨_,fl,hfl,hkey,hcancel,hrun⟩ := h.entry key p hp
  have hself : (FetchCoordinator.join s c key p).entries key =
      some {p with waiters := ⟨s.nextId+1,c⟩ :: p.waiters} := Function.update_self ..
  have hnow : (FetchCoordinator.join s c key p).calls c = .waiting (s.nextId+1) key p.flight [] :=
    Function.update_self ..
  refine h.touch (C := (· = c)) (K := (· = key)) (F := fun _ => False)
    ⟨Nat.le_succ _,fun _ hne => Function.update_of_ne hne ..,
      fun _ hk => Function.update_of_ne hk ..,fun _ _ => rfl⟩ ?_ ?_ ?_ nofun ?_ ?_ ?_
  · exact fun key' p' _ hp' => ⟨not_false,h.not_waiter hp' (by simp [hc])⟩
  · rintro _ rfl
    simp [hc]
  · rintro _ p' rfl hp'
    rw [hself] at hp'
    cases hp'
    refine ⟨⟨by simp,fl,hfl,hkey,hcancel,hrun⟩,?_,?_⟩
    · rw [List.map_cons, List.nodup_cons]
      refine ⟨fun hmem => ?_,hnodup⟩
      obtain ⟨w,hw,hid⟩ := List.mem_map.mp hmem
      have hle := (hwaiters w hw).1
      simp only at hid
      omega
    · refine List.forall_mem_cons.mpr ⟨⟨Nat.le_refl _,hnow⟩,fun w hw => ?_⟩
      obtain ⟨hle,hcall⟩ := hwaiters w hw
      refine ⟨Nat.le_succ_of_le hle,(Function.update_of_ne ?_ ..).trans hcall⟩
      exact h.not_waiter hp (by simp [hc]) w hw
  · intro c' id' key' f inbox hx hc'
    obtain rfl := hx.resolve_right not_false
    rw [hnow] at hc'
    cases hc'
    exact ⟨fl,hfl,hkey,by simp [Served, hrun, hkey, hself]⟩
  · rintro _ q rfl hq _ w hw _
    rw [hp] at hq
    cases hq
    exact ⟨_,hself,rfl,List.mem_cons_of_mem _ hw⟩
  · intro c' f r hx hc'
    obtain rfl := hx.resolve_right not_false
    rw [hnow] at hc'
    cases hc'

theorem Linked.lead (h : Linked s) (hc : s.calls c = .admitted) (hnone : s.entries key = none) :
    Linked (lead s c key) := by
  have hself : (FetchCoordinator.lead s c key).entries key =
      some ⟨s.nextId+2,[⟨s.nextId+1,c⟩]⟩ := Function.update_self ..
  have hnow : (FetchCoordinator.lead s c key).calls c = .waiting (s.nextId+1) key (s.nextId+2) [] :=
    Function.update_self ..
  have hflight : (FetchCoordinator.lead s c key).flights (s.nextId+2) =
      some ⟨key,false,.running⟩ := Function.update_self ..
  -- The generation is new, so every old flight keeps its record.
  have hfresh : ∀ f fl, s.flights f = some fl → f ≠ s.nextId+2 := by
    intro f fl hfl
    have hle := h.issued f fl hfl
    omega
  have hkeep : ∀ c', c' ≠ c → (FetchCoordinator.lead s c key).calls c' = s.calls c' :=
    fun _ hne => Function.update_of_ne hne ..
  refine h.touch (C := (· = c)) (K := (· = key)) (F := (· = s.nextId+2))
    ⟨Nat.le_add_right _ 2,hkeep,fun _ hk => Function.update_of_ne hk ..,
      fun _ hne => Function.update_of_ne hne ..⟩ ?_ ?_ ?_ ?_ ?_ ?_ ?_
  · intro key' p' _ hp'
    obtain ⟨_,fl,hfl,_⟩ := h.entry key' p' hp'
    exact ⟨hfresh _ fl hfl,h.not_waiter hp' (by simp [hc])⟩
  · rintro _ rfl
    simp [hc]
  · rintro _ p' rfl hp'
    rw [hself] at hp'
    cases hp'
    refine ⟨⟨by simp,_,hflight,rfl,rfl,rfl⟩,by simp,?_⟩
    simp [FetchCoordinator.lead]
  · rintro _ fl rfl hfl
    rw [hflight] at hfl
    cases hfl
    exact ⟨Nat.le_refl _,nofun⟩
  · intro c' id' key' f inbox hx hc'
    by_cases hcc : c' = c
    · subst hcc
      rw [hnow] at hc'
      cases hc'
      exact ⟨_,hflight,rfl,by simp [Served, hself]⟩
    · rw [hkeep _ hcc] at hc'
      obtain ⟨fl,hfl,_⟩ := h.waiting c' id' key' f inbox hc'
      exact absurd (hx.resolve_left hcc) (hfresh f fl hfl)
  · rintro _ q rfl hq
    rw [hnone] at hq
    cases hq
  · intro c' f r hx hc'
    by_cases hcc : c' = c
    · rw [hcc, hnow] at hc'
      cases hc'
    · rw [hkeep _ hcc] at hc'
      obtain ⟨_,fl,hfl,_⟩ := h.returned c' f r hc'
      exact absurd (hx.resolve_left hcc) (hfresh f fl hfl)

/-- The other waiters keep the entry of their flight. -/
theorem Linked.dropOne (h : Linked s) (hc : s.calls c = .waiting id key f [])
    (hp : s.entries key = some p) (hpf : p.flight = f)
    (hrest : p.waiters.filter (·.id ≠ id) ≠ []) (hin : ⟨id,c⟩ ∈ p.waiters)
    (hn : t.nextId = s.nextId)
    (he : t.entries =
      Function.update s.entries key (some {p with waiters := p.waiters.filter (·.id ≠ id)}))
    (hf : t.flights = s.flights) (hcalls : t.calls = Function.update s.calls c .ended) :
    Linked t := by
  obtain ⟨hnodup,hwaiters⟩ := h.waiters key p hp
  have hself : t.entries key = some {p with waiters := p.waiters.filter (·.id ≠ id)} := by
    rw [he, Function.update_self]
  have hnow : t.calls c = .ended := by rw [hcalls, Function.update_self]
  have hkeep : ∀ c', c' ≠ c → t.calls c' = s.calls c' := fun c' hne => by
    rw [hcalls, Function.update_of_ne hne]
  refine h.touch (C := (· = c)) (K := (· = key)) (F := fun _ => False)
    ⟨hn.ge,hkeep,fun key' hk => by rw [he, Function.update_of_ne hk],fun _ _ => by rw [hf]⟩
    ?_ ?_ ?_ nofun ?_ ?_ ?_
  · refine fun key' p' hk hp' => ⟨not_false,h.not_waiter hp' fun id' heq => ?_⟩
    rw [hc] at heq
    cases heq
    exact hk rfl
  · rintro _ rfl
    exact .inl hnow
  · rintro _ p' rfl hp'
    rw [hself] at hp'
    cases hp'
    rw [hf]
    refine ⟨⟨hrest,(h.entry _ p hp).2⟩,hnodup.sublist (List.filter_sublist.map _),fun w hw => ?_⟩
    obtain ⟨hw,hid⟩ := List.mem_filter.mp hw
    obtain ⟨hle,hcall⟩ := hwaiters w hw
    have hne : w.call ≠ c := by
      intro heq
      rw [heq, hc] at hcall
      cases hcall
      simp at hid
    exact ⟨by omega,by rw [hkeep _ hne, hcall]⟩
  · intro c' id' key' g inbox hx hc'
    obtain rfl := hx.resolve_right not_false
    rw [hnow] at hc'
    cases hc'
  · rintro _ q rfl hq _ w hw hcw
    rw [hp] at hq
    cases hq
    refine ⟨_,hself,rfl,List.mem_filter.mpr ⟨hw,?_⟩⟩
    have hid : w.id ≠ id := fun hid => hcw (by rw [waiter_eq hnodup hw hin hid])
    simpa using hid
  · intro c' g r hx hc'
    obtain rfl := hx.resolve_right not_false
    rw [hnow] at hc'
    cases hc'

/-- The last waiter takes the entry with it and latches the cancellation. -/
theorem Linked.dropLast (h : Linked s) (hc : s.calls c = .waiting id key f [])
    (hp : s.entries key = some p) (hpf : p.flight = f) (hfl : s.flights f = some fl)
    (hrest : p.waiters.filter (·.id ≠ id) = []) (hin : ⟨id,c⟩ ∈ p.waiters)
    (hn : t.nextId = s.nextId) (he : t.entries = Function.update s.entries key none)
    (hf : t.flights = Function.update s.flights f (some {fl with cancel := true}))
    (hcalls : t.calls = Function.update s.calls c .ended) : Linked t := by
  subst hpf
  obtain ⟨hkey,_,hrun⟩ := h.runs hp hfl
  have honly : ∀ w ∈ p.waiters, w.call = c := by
    intro w hw
    have hid : w.id = id := by
      by_contra hne
      have hmem : w ∈ p.waiters.filter (·.id ≠ id) := List.mem_filter.mpr ⟨hw,by simpa using hne⟩
      rw [hrest] at hmem
      cases hmem
    rw [waiter_eq (h.waiters key p hp).1 hw hin hid]
  have hself : t.flights p.flight = some {fl with cancel := true} := by
    rw [hf, Function.update_self]
  have hnow : t.calls c = .ended := by rw [hcalls, Function.update_self]
  have hkeep : ∀ c', c' ≠ c → t.calls c' = s.calls c' := fun c' hne => by
    rw [hcalls, Function.update_of_ne hne]
  refine h.touch (C := (· = c)) (K := (· = key)) (F := (· = p.flight))
    ⟨hn.ge,hkeep,fun key' hk => by rw [he, Function.update_of_ne hk],
      fun g hg => by rw [hf, Function.update_of_ne hg]⟩ ?_ ?_ ?_ ?_ ?_ ?_ ?_
  · refine fun key' p' hk hp' => ⟨fun heq => hk (h.entry_key hp' hp heq),?_⟩
    refine h.not_waiter hp' fun id' heq => ?_
    rw [hc, Call.waiting.injEq] at heq
    exact hk heq.2.1.symm
  · rintro _ rfl
    exact .inl hnow
  · rintro _ p' rfl hp'
    rw [he, Function.update_self] at hp'
    cases hp'
  · rintro _ fl' rfl hfl'
    rw [hself] at hfl'
    cases hfl'
    exact ⟨hn ▸ h.issued _ fl hfl,by simp [hrun]⟩
  · -- Nobody else waits for this flight.
    intro c' id' key' g inbox hx hc'
    by_cases hcc : c' = c
    · rw [hcc, hnow] at hc'
      cases hc'
    rw [hkeep _ hcc] at hc'
    obtain rfl := hx.resolve_left hcc
    obtain ⟨_,q,hq,hqf,hmem⟩ := h.attached hc' hfl hrun
    rw [h.entry_key hq hp hqf, hp] at hq
    cases hq
    exact absurd (honly _ hmem) hcc
  · rintro _ q rfl hq hne
    rw [hp] at hq
    cases hq
    exact absurd rfl hne
  · intro c' g r hx hc'
    by_cases hcc : c' = c
    · rw [hcc, hnow] at hc'
      cases hc'
    rw [hkeep _ hcc] at hc'
    obtain rfl := hx.resolve_left hcc
    obtain ⟨_,fl',hfl',hans⟩ := h.returned c' _ r hc'
    rw [hfl] at hfl'
    cases hfl'
    simp [hrun, Job.answer] at hans

/-- What the drop of a registration does to the entry of its key. -/
theorem drop_registration_cases (s : State κ ν ε) (id : ℕ) (key : κ) (f : ℕ) :
    (∃ p, s.entries key = some p ∧ p.flight = f ∧ p.waiters.filter (·.id ≠ id) = [] ∧
      dropRegistration s id key f = {s with
        entries := Function.update s.entries key none
        flights := Function.update s.flights f ((s.flights f).map ({· with cancel := true}))}) ∨
    (∃ p, s.entries key = some p ∧ p.flight = f ∧ p.waiters.filter (·.id ≠ id) ≠ [] ∧
      dropRegistration s id key f = {s with
        entries := Function.update s.entries key
          (some {p with waiters := p.waiters.filter (·.id ≠ id)})}) ∨
    ((∀ p, s.entries key = some p → p.flight ≠ f) ∧ dropRegistration s id key f = s) := by
  unfold dropRegistration
  cases hp : s.entries key with
  | none => exact .inr (.inr ⟨by simp,rfl⟩)
  | some p =>
    by_cases hf : p.flight = f
    · by_cases hrest : p.waiters.filter (·.id ≠ id) = []
      · exact .inl ⟨p,rfl,hf,hrest,by simp only [hf, hrest]; simp⟩
      · exact .inr (.inl ⟨p,rfl,hf,hrest,by simp only [hf, hrest]; simp⟩)
    · exact .inr (.inr ⟨by simpa using hf,by simp [hf]⟩)

theorem Linked.dropRegistration (h : Linked s) (hc : s.calls c = .waiting id key f inbox)
    (hy : y = .ended ∨ ∃ r rest, inbox = r :: rest ∧ y = .returned f r) :
    Linked ((dropRegistration s id key f).finish c y) := by
  obtain ⟨fl,hfl,hkey,_⟩ := h.waiting c id key f inbox hc
  by_cases hrun : fl.job = .running
  · obtain ⟨rfl,p,hp,hpf,hin⟩ := h.attached hc hfl hrun
    obtain rfl : y = .ended := by simpa using hy
    rcases drop_registration_cases s id key f with ⟨q,hq,_,hrest,heq⟩ | ⟨q,hq,_,hrest,heq⟩ | ⟨hno,_⟩
    · rw [hp] at hq
      cases hq
      rw [heq]
      exact h.dropLast hc hp hpf hfl hrest hin rfl rfl (by simp [State.finish, hfl]) rfl
    · rw [hp] at hq
      cases hq
      rw [heq]
      exact h.dropOne hc hp hpf hrest hin rfl rfl rfl rfl
    · exact absurd hpf (hno p hp)
  · have heq : FetchCoordinator.dropRegistration s id key f = s := by
      rcases drop_registration_cases s id key f with ⟨q,hq,hqf,_⟩ | ⟨q,hq,hqf,_⟩ | ⟨_,heq⟩
      · exact absurd hqf (h.detached hfl hrun hq)
      · exact absurd hqf (h.detached hfl hrun hq)
      · exact heq
    rw [heq]
    exact h.close hc hfl hrun hy rfl rfl rfl rfl

/-- A registration is refused, joins or leads. -/
theorem register_cases (limits : Limits) (s : State κ ν ε) (c : ℕ) (key : κ) :
    (∃ n, s.nextId ≤ n ∧ register limits s c key = {s with nextId := n}.finish c .ended) ∨
    (∃ p, s.entries key = some p ∧ register limits s c key = join s c key p) ∨
    s.entries key = none ∧ register limits s c key = lead s c key := by
  unfold register
  by_cases hmax : s.nextId = u64Max
  · exact .inl ⟨s.nextId,le_refl _,by rw [if_pos hmax]⟩
  · rw [if_neg hmax]
    cases hp : s.entries key with
    | some p => exact .inr (.inl ⟨p,rfl,rfl⟩)
    | none =>
      by_cases hfree : ¬ s.jobFree limits ∨ s.nextId+1 = u64Max
      · exact .inl ⟨s.nextId+1,Nat.le_succ _,by simp only [hfree, if_true]⟩
      · exact .inr (.inr ⟨rfl,by simp only [hfree, if_false]⟩)

theorem Linked.register (h : Linked s) (limits : Limits) (hc : s.calls c = .admitted) (key : κ) : Linked (register limits s c key) := by
  rcases register_cases limits s c key with ⟨n,hn,heq⟩ | ⟨p,hp,heq⟩ | ⟨hp,heq⟩
  · rw [heq]
    exact h.outside rfl rfl hn rfl (by rw [hc]; rfl) (.inr rfl)
  · rw [heq]
    exact h.join hc hp
  · rw [heq]
    exact h.lead hc hp

/-! ## Jobs -/

omit [DecidableEq κ] in
/-- A job moves on, and its flight keeps or loses its entry. -/
theorem Linked.restage {job : Job ν ε} (h : Linked s) (hfl : s.flights f = some fl)
    (hn : t.nextId = s.nextId) (hcalls : t.calls = s.calls)
    (hf : t.flights = Function.update s.flights f (some {fl with job := job}))
    (hentries : ∀ key p, t.entries key = some p ↔ s.entries key = some p ∧ p.flight ≠ f)
    (hbox : ∀ r out, job = .delivering r out → (out.map Waiter.id).Nodup ∧
      ∀ w ∈ out, r ≠ .noLiveWaiters ∧
        (s.calls w.call = .waiting w.id fl.key f [] ∨ s.calls w.call = .ended))
    (hserved : ∀ c id inbox, s.calls c = .waiting id fl.key f inbox →
      Served t {fl with job := job} c id f inbox)
    (hback : ∀ r, fl.job.answer = some r → job.answer = some r) : Linked t := by
  have hself : t.flights f = some {fl with job := job} := by rw [hf, Function.update_self]
  have hentry : ∀ key, (¬ ∃ p, s.entries key = some p ∧ p.flight = f) →
      t.entries key = s.entries key := by
    intro key hK
    ext p
    exact (hentries key p).trans ⟨And.left,fun hp => ⟨hp,fun hpf => hK ⟨p,hp,hpf⟩⟩⟩
  refine h.touch (C := fun _ => False) (F := (· = f))
    ⟨hn.ge,fun _ _ => by rw [hcalls],hentry,fun g hg => by rw [hf, Function.update_of_ne hg]⟩
    ?_ nofun ?_ ?_ ?_ ?_ ?_
  · exact fun key p hK hp => ⟨fun hpf => hK ⟨p,hp,hpf⟩,fun _ _ => not_false⟩
  · rintro key p ⟨q,hq,hqf⟩ hp
    obtain ⟨hp,hne⟩ := (hentries key p).mp hp
    rw [hp] at hq
    cases hq
    exact absurd hqf hne
  · rintro _ fl' rfl hfl'
    rw [hself] at hfl'
    cases hfl'
    rw [hn, hcalls]
    exact ⟨h.issued _ fl hfl,hbox⟩
  · intro c id key g inbox hx hc
    obtain rfl := hx.resolve_left not_false
    rw [hcalls] at hc
    obtain ⟨fl',hfl',rfl,_⟩ := h.waiting c id key _ inbox hc
    rw [hfl] at hfl'
    cases hfl'
    exact ⟨_,hself,rfl,hserved c id inbox hc⟩
  · rintro key p ⟨q,hq,hqf⟩ hp hne
    rw [hp] at hq
    cases hq
    exact absurd hqf hne
  · intro c g r' hx hc
    obtain rfl := hx.resolve_left not_false
    rw [hcalls] at hc
    obtain ⟨hr',fl',hfl',hans⟩ := h.returned c _ r' hc
    rw [hfl] at hfl'
    cases hfl'
    exact ⟨hr',_,hself,hback r' hans⟩

theorem take_waiters_cases (s : State κ ν ε) (key : κ) (f : ℕ) :
    (∃ p, s.entries key = some p ∧ p.flight = f ∧ takeWaiters s key f =
      (p.waiters,{s with entries := Function.update s.entries key none})) ∨
    ((∀ p, s.entries key = some p → p.flight ≠ f) ∧ takeWaiters s key f = ([],s)) := by
  unfold takeWaiters
  cases hp : s.entries key with
  | none => exact .inr ⟨by simp,rfl⟩
  | some p =>
    by_cases hf : p.flight = f
    · exact .inl ⟨p,rfl,hf,by simp [hf]⟩
    · exact .inr ⟨by simpa using hf,by simp [hf]⟩

/-- A running job that ends takes its waiters, if it still has an entry. -/
theorem Linked.answer (h : Linked s) (hfl : s.flights f = some fl)
    (hrun : fl.job = .running) (hr : r = .noLiveWaiters → fl.cancel = true)
    (hcase : (∃ p, s.entries fl.key = some p ∧ p.flight = f ∧ out = p.waiters ∧
        t.entries = Function.update s.entries fl.key none) ∨
      (∀ p, s.entries fl.key = some p → p.flight ≠ f) ∧ out = [] ∧ t.entries = s.entries)
    (hn : t.nextId = s.nextId)
    (hf : t.flights = Function.update s.flights f (some {fl with job := .delivering r out}))
    (hcalls : t.calls = s.calls) : Linked t := by
  -- A flight with an entry is not cancelled.
  have hlive : ∀ key p, s.entries key = some p → p.flight = f → r ≠ .noLiveWaiters := by
    rintro key p hp rfl rfl
    rw [(h.runs hp hfl).2.1] at hr
    cases hr rfl
  refine h.restage hfl hn hcalls hf ?_ ?_ ?_ ?_
  · intro key p
    rcases hcase with ⟨q,hq,rfl,_,he⟩ | ⟨hnone,_,he⟩
    · rw [he, Function.update_apply]
      by_cases hk : key = fl.key
      · rw [if_pos hk, hk, hq]
        refine ⟨nofun,?_⟩
        rintro ⟨⟨⟩,hne⟩
        exact absurd rfl hne
      · rw [if_neg hk]
        exact ⟨fun hp => ⟨hp,fun heq => hk (h.entry_key hp hq heq)⟩,fun hp => hp.1⟩
    · rw [he]
      refine ⟨fun hp => ⟨hp,?_⟩,fun hp => hp.1⟩
      rintro rfl
      rw [(h.runs hp hfl).1] at hnone
      exact hnone p hp rfl
  · rintro r' out' hjob
    cases hjob
    rcases hcase with ⟨p,hp,rfl,rfl,_⟩ | ⟨_,rfl,_⟩
    · obtain ⟨hnodup,hwaiters⟩ := h.waiters _ p hp
      exact ⟨hnodup,fun w hw => ⟨hlive _ p hp rfl,.inl (hwaiters w hw).2⟩⟩
    · simp
  · intro c id inbox hc
    obtain ⟨hbox,p,hp,hpf,hmem⟩ := h.attached hc hfl hrun
    rcases hcase with ⟨q,hq,_,rfl,_⟩ | ⟨hnone,_,_⟩
    · rw [hp] at hq
      cases hq
      exact ⟨hlive _ p hp hpf,.inl ⟨hbox,hmem⟩⟩
    · exact absurd hpf (hnone p hp)
  · intro r' hans
    rw [hrun] at hans
    cases hans

theorem Linked.deliver (h : Linked s) (hfl : s.flights f = some fl) (hrun : fl.job = .running)
    (hr : r = .noLiveWaiters → fl.cancel = true) : Linked (deliver s f fl r) := by
  unfold FetchCoordinator.deliver
  rcases take_waiters_cases s fl.key f with ⟨p,hp,hpf,heq⟩ | ⟨hnone,heq⟩
  · rw [heq]
    exact h.answer hfl hrun hr (.inl ⟨p,hp,hpf,rfl,rfl⟩) rfl rfl rfl
  · rw [heq]
    exact h.answer hfl hrun hr (.inr ⟨hnone,rfl,rfl⟩) rfl rfl rfl

omit [DecidableEq κ] in
/-- One answer goes out; a dropped waiter's answer is lost. -/
theorem Linked.sent {w : Waiter} (h : Linked s) (hfl : s.flights f = some fl)
    (hjob : fl.job = .delivering r out) (hw : w ∈ out) (hn : t.nextId = s.nextId)
    (he : t.entries = s.entries)
    (hf : t.flights = Function.update s.flights f (some {fl with job := .delivering r (out.erase w)}))
    (hcalls : (s.calls w.call = .waiting w.id fl.key f [] ∧
        t.calls = Function.update s.calls w.call (.waiting w.id fl.key f [r])) ∨
      (s.calls w.call = .ended ∧ t.calls = s.calls)) : Linked t := by
  obtain ⟨hnodup,hout⟩ := h.outbox f fl r out hfl hjob
  have hself : t.flights f = some {fl with job := .delivering r (out.erase w)} := by
    rw [hf, Function.update_self]
  have hkeep : ∀ c, c ≠ w.call → t.calls c = s.calls c := by
    intro c hne
    rcases hcalls with ⟨_,hcalls⟩ | ⟨_,hcalls⟩
    · rw [hcalls, Function.update_of_ne hne]
    · rw [hcalls]
  -- The call of this waiter waits for nothing else.
  have hwait : ∀ id key g, s.calls w.call = .waiting id key g [] → id = w.id ∧ g = f := by
    intro id key g heq
    rcases hcalls with ⟨hold,_⟩ | ⟨hold,_⟩
    · rw [hold] at heq
      cases heq
      exact ⟨rfl,rfl⟩
    · rw [hold] at heq
      cases heq
  have hbox : t.calls w.call = .ended ∨ s.calls w.call ≠ .ended ∧
      ∀ id key g, ¬ g = f → s.calls w.call ≠ .waiting id key g [] := by
    rcases hcalls with ⟨hold,_⟩ | ⟨hold,hcalls⟩
    · exact .inr ⟨by simp [hold],fun id key g hg heq => hg (hwait id key g heq).2⟩
    · exact .inl (hcalls ▸ hold)
  refine h.touch (C := (· = w.call)) (K := fun _ => False) (F := (· = f))
    ⟨hn.ge,hkeep,fun _ _ => by rw [he],fun g hg => by rw [hf, Function.update_of_ne hg]⟩
    ?_ ?_ nofun ?_ ?_ nofun ?_
  · intro key p _ hp
    have hne := h.detached hfl (by simp [hjob]) hp
    exact ⟨hne,h.not_waiter hp fun id heq => hne (hwait id key _ heq).2⟩
  · rintro _ rfl
    exact hbox
  · rintro _ fl' rfl hfl'
    rw [hself] at hfl'
    cases hfl'
    refine ⟨hn ▸ h.issued _ fl hfl,fun r' out' hjob' => ?_⟩
    cases hjob'
    refine ⟨hnodup.sublist (List.erase_sublist.map _),fun w' hw' => ?_⟩
    have hnd : out.Nodup := hnodup.of_map
    obtain ⟨hne,hmem⟩ := (hnd.mem_erase_iff).mp hw'
    obtain ⟨hr,hcall⟩ := hout w' hmem
    refine ⟨hr,?_⟩
    -- Whoever is still to be answered has another call or has ended.
    by_cases heq : w'.call = w.call
    · rw [heq] at hcall ⊢
      rcases hcall with hcall | hend
      · exact absurd (waiter_eq hnodup hmem hw (hwait _ _ _ hcall).1) hne
      · exact .inr (hbox.resolve_right fun hlive => hlive.1 hend)
    · rwa [hkeep _ heq]
  · intro c id key g inbox hx hc
    by_cases hcw : c = w.call
    · rcases hcalls with ⟨hold,hcalls⟩ | ⟨hold,hcalls⟩
      · rw [hcw, hcalls, Function.update_self] at hc
        cases hc
        exact ⟨_,hself,rfl,(hout w hw).1,.inr rfl⟩
      · rw [hcw, hcalls, hold] at hc
        cases hc
    · obtain rfl := hx.resolve_left hcw
      rw [hkeep _ hcw] at hc
      obtain ⟨fl',hfl',hkey,hserved⟩ := h.waiting c id key _ inbox hc
      rw [hfl] at hfl'
      cases hfl'
      refine ⟨_,hself,hkey,?_⟩
      simp only [Served, hjob] at hserved
      refine ⟨hserved.1,hserved.2.imp (fun hin => ⟨hin.1,?_⟩) fun hin => hin⟩
      refine (List.mem_erase_of_ne ?_).mpr hin.2
      rintro rfl
      exact hcw rfl
  · intro c g r' hx hc
    have hcw : c ≠ w.call := by
      rintro rfl
      rcases hcalls with ⟨_,hcalls⟩ | ⟨hold,hcalls⟩
      · rw [hcalls, Function.update_self] at hc
        cases hc
      · rw [hcalls, hold] at hc
        cases hc
    obtain rfl := hx.resolve_left hcw
    rw [hkeep _ hcw] at hc
    obtain ⟨hr',fl',hfl',hans⟩ := h.returned c _ r' hc
    rw [hfl] at hfl'
    cases hfl'
    refine ⟨hr',_,hself,?_⟩
    simpa [hjob, Job.answer] using hans

omit [DecidableEq κ] in
/-- The guard of a job that has answered everybody is dropped. -/
theorem Linked.dropGuard (h : Linked s) (hfl : s.flights f = some fl)
    (hjob : fl.job = .delivering r []) (hn : t.nextId = s.nextId) (he : t.entries = s.entries)
    (hf : t.flights = Function.update s.flights f (some {fl with job := .ended r}))
    (hcalls : t.calls = s.calls) : Linked t := by
  refine h.restage hfl hn hcalls hf ?_ nofun ?_ ?_
  · intro key p
    rw [he]
    exact ⟨fun hp => ⟨hp,h.detached hfl (by simp [hjob]) hp⟩,fun hp => hp.1⟩
  · intro c id inbox hc
    obtain ⟨fl',hfl',_,hserved⟩ := h.waiting c id fl.key f inbox hc
    rw [hfl] at hfl'
    cases hfl'
    simpa [Served, hjob] using hserved
  · intro r' hans
    rw [hjob] at hans
    exact hans

/-! ## Events -/

/-- What an event does, whoever takes it. -/
inductive Does (limits : Limits) (s : State κ ν ε) : State κ ν ε → Prop
  | enter (c : ℕ) (hc : s.calls c = .idle) :
    Does limits s {s with calls := Function.update s.calls c .admitted, callers := c :: s.callers}
  | reject (c : ℕ) (hc : s.calls c = .idle) :
    Does limits s {s with calls := Function.update s.calls c .ended}
  | leave (c : ℕ) (hc : s.calls c = .admitted) : Does limits s (s.finish c .ended)
  | leadAlone (c : ℕ) (hc : s.calls c = .admitted) : Does limits s
    {s with calls := Function.update s.calls c .direct, jobs := .call c :: s.jobs}
  | endAlone (c : ℕ) (hc : s.calls c = .direct) :
    Does limits s {s.finish c .ended with jobs := s.jobs.erase (.call c)}
  | others (callers jobs : ℕ) : Does limits s {s with otherCallers := callers, otherJobs := jobs}
  | register (c : ℕ) (key : κ) (hc : s.calls c = .admitted) :
    Does limits s (register limits s c key)
  | deliver (f : ℕ) (fl : Flight κ ν ε) (r : FetchResult ν ε) (hfl : s.flights f = some fl)
    (hrun : fl.job = .running) (hr : r = .noLiveWaiters → fl.cancel = true) :
    Does limits s (deliver s f fl r)
  | send (f : ℕ) (fl : Flight κ ν ε) (r : FetchResult ν ε) (out : List Waiter) (w : Waiter)
    (hfl : s.flights f = some fl) (hjob : fl.job = .delivering r out) (hw : w ∈ out)
    (hc : s.calls w.call = .waiting w.id fl.key f []) : Does limits s
    {s.setJob f fl (.delivering r (out.erase w)) with
      calls := Function.update s.calls w.call (.waiting w.id fl.key f [r])}
  | lose (f : ℕ) (fl : Flight κ ν ε) (r : FetchResult ν ε) (out : List Waiter) (w : Waiter)
    (hfl : s.flights f = some fl) (hjob : fl.job = .delivering r out) (hw : w ∈ out)
    (hc : s.calls w.call = .ended) : Does limits s (s.setJob f fl (.delivering r (out.erase w)))
  | dropGuard (f : ℕ) (fl : Flight κ ν ε) (r : FetchResult ν ε) (hfl : s.flights f = some fl)
    (hjob : fl.job = .delivering r []) :
    Does limits s {s.setJob f fl (.ended r) with jobs := s.jobs.erase (.flight f)}
  | depart (c id : ℕ) (key : κ) (f : ℕ) (inbox : List (FetchResult ν ε)) (y : Call κ ν ε)
    (hc : s.calls c = .waiting id key f inbox)
    (hy : y = .ended ∨ ∃ r rest, inbox = r :: rest ∧ y = .returned f r) :
    Does limits s ((dropRegistration s id key f).finish c y)

variable [DecidableEq ν] [DecidableEq ε] {limits : Limits} {e : Event κ ν ε}

theorem step_does (h : Linked s) (hstep : step limits s e = some t) : Does limits s t := by
  cases e with
  | enter c =>
    obtain ⟨⟨hc,_⟩,rfl⟩ := guarded_eq_some.mp hstep
    exact .enter c hc
  | reject c =>
    obtain ⟨hc,rfl⟩ := guarded_eq_some.mp hstep
    exact .reject c hc
  | leave c =>
    obtain ⟨hc,rfl⟩ := guarded_eq_some.mp hstep
    exact .leave c hc
  | leadAlone c =>
    obtain ⟨⟨hc,_⟩,rfl⟩ := guarded_eq_some.mp hstep
    exact .leadAlone c hc
  | endAlone c =>
    obtain ⟨hc,rfl⟩ := guarded_eq_some.mp hstep
    exact .endAlone c hc
  | register c key =>
    obtain ⟨hc,rfl⟩ := guarded_eq_some.mp hstep
    exact .register c key hc
  | observeCancel f =>
    obtain ⟨fl,hfl,hstep⟩ := Option.bind_eq_some_iff.mp hstep
    obtain ⟨⟨hrun,hcancel⟩,rfl⟩ := guarded_eq_some.mp hstep
    exact .deliver f fl _ hfl hrun fun _ => hcancel
  | complete f r =>
    obtain ⟨fl,hfl,hstep⟩ := Option.bind_eq_some_iff.mp hstep
    obtain ⟨⟨hrun,hr⟩,rfl⟩ := guarded_eq_some.mp hstep
    exact .deliver f fl r hfl hrun hr
  | panic f =>
    obtain ⟨fl,hfl,hstep⟩ := Option.bind_eq_some_iff.mp hstep
    obtain ⟨hrun,rfl⟩ := guarded_eq_some.mp hstep
    exact .deliver f fl _ hfl hrun nofun
  | send f w =>
    obtain ⟨fl,hfl,hstep⟩ := Option.bind_eq_some_iff.mp hstep
    cases hjob : fl.job with
    | delivering r out =>
      rw [hjob] at hstep
      obtain ⟨hw,rfl⟩ := guarded_eq_some.mp hstep
      rcases ((h.outbox f fl r out hfl hjob).2 w hw).2 with hc | hc
      · simp only [hc]
        exact .send f fl r out w hfl hjob hw hc
      · simp only [hc]
        exact .lose f fl r out w hfl hjob hw hc
    | _ => simp [hjob] at hstep
  | dropGuard f =>
    obtain ⟨fl,hfl,hstep⟩ := Option.bind_eq_some_iff.mp hstep
    split at hstep
    · rename_i r hjob
      cases hstep
      exact .dropGuard f fl r hfl hjob
    · cases hstep
  | receive c =>
    cases hc : s.calls c with
    | waiting id key f inbox =>
      cases inbox with
      | nil => simp [step, hc] at hstep
      | cons r rest =>
        simp only [step, hc, Option.some.injEq] at hstep
        subst hstep
        exact .depart c id key f _ _ hc (.inr ⟨r,rest,rfl,rfl⟩)
    | _ => simp [step, hc] at hstep
  | dropCall c =>
    cases hc : s.calls c with
    | waiting id key f inbox =>
      simp only [step, hc, Option.some.injEq] at hstep
      subst hstep
      exact .depart c id key f _ _ hc (.inl rfl)
    | _ => simp [step, hc] at hstep
  | others callers jobs =>
    obtain ⟨_,rfl⟩ := guarded_eq_some.mp hstep
    exact .others callers jobs

theorem step_linked (h : Linked s) (hstep : step limits s e = some t) : Linked t := by
  cases step_does h hstep with
  | enter c hc => exact h.outside rfl rfl (le_refl _) rfl (by rw [hc]; rfl) (.inl rfl)
  | reject c hc => exact h.outside rfl rfl (le_refl _) rfl (by rw [hc]; rfl) (.inr rfl)
  | leave c hc => exact h.outside rfl rfl (le_refl _) rfl (by rw [hc]; rfl) (.inr rfl)
  | leadAlone c hc => exact h.outside rfl rfl (le_refl _) rfl (by rw [hc]; rfl) (.inl rfl)
  | endAlone c hc => exact h.outside rfl rfl (le_refl _) rfl (by rw [hc]; rfl) (.inr rfl)
  | others => exact ⟨h.entry,h.waiters,h.outbox,h.issued,h.waiting,h.returned⟩
  | register c key hc => exact h.register limits hc key
  | deliver f fl r hfl hrun hr => exact h.deliver hfl hrun hr
  | send f fl r out w hfl hjob hw hc =>
    exact h.sent hfl hjob hw rfl rfl rfl (.inl ⟨hc,rfl⟩)
  | lose f fl r out w hfl hjob hw hc =>
    exact h.sent hfl hjob hw rfl rfl rfl (.inr ⟨hc,rfl⟩)
  | dropGuard f fl r hfl hjob => exact h.dropGuard hfl hjob rfl rfl rfl rfl
  | depart c id key f inbox y hc hy => exact h.dropRegistration hc hy

end Links

end Scorpio.FetchCoordinator
