import Scorpio.Base.Assoc
import Scorpio.Snapshot.RadixTree

/-!
# What the radix walk proves

Budget steps change only the budget. Every admitted page hashes to its key. A
successful `radixEntries` returns the sorted entries of the whole radix tree
below its page, keeps what was remembered before, and marks exactly the pages
of that tree as reached.
-/

set_option autoImplicit false

namespace Scorpio.RadixProof

open ByteText Fallible PageCodec ForestSum LogicalTree ClosureValidator RadixTree

/-! ## Page maps -/

theorem keys_nodup (m : PageMap) : m.keys.Nodup := by
  have hlt : m.keys.Pairwise (· < ·) := List.pairwise_map.mpr m.sorted
  exact hlt.imp fun h => h.ne

theorem get_eq_some (m : PageMap) (id : Text) (b : Bytes) :
    m.get id = some b ↔ (id,b) ∈ m.rows :=
  ⟨Assoc.mem_of_lookup,Assoc.lookup_of_mem (keys_nodup m)⟩

theorem mem_keys (m : PageMap) (id : Text) : id ∈ m.keys ↔ ∃ b, m.get id = some b := by
  simp [PageMap.keys, get_eq_some]

/-- A map that has as many rows as keys were reached holds exactly those keys. -/
theorem mem_keys_iff_reached (m : PageMap) {reached : Finset Text}
    (hsub : ∀ id ∈ reached, id ∈ m.keys) (hcard : reached.card = m.rows.length) (id : Text) :
    id ∈ m.keys ↔ id ∈ reached := by
  have hsub' : reached ⊆ m.keys.toFinset := fun id hid => List.mem_toFinset.mpr (hsub id hid)
  have hle : m.keys.toFinset.card ≤ reached.card := by
    rw [List.toFinset_card_of_nodup (keys_nodup m), hcard, PageMap.keys, List.length_map]
  rw [Finset.eq_of_subset_of_card_le hsub' hle, List.mem_toFinset]

/-! ## Budgets -/

section Budgets

variable {now : ℕ → ℕ} {v v' : Validator}

/-- Only the clock and the allocation count differ. -/
def Budgeted (v v' : Validator) : Prop :=
  ∃ clock bytes, v' = { v with clock := clock, logicalBytes := bytes }

theorem Budgeted.refl (v : Validator) : Budgeted v v := ⟨v.clock,v.logicalBytes,rfl⟩

theorem Budgeted.trans {v'' : Validator} (h : Budgeted v v') (h' : Budgeted v' v'') :
    Budgeted v v'' := by
  obtain ⟨_,_,rfl⟩ := h
  obtain ⟨k,n,rfl⟩ := h'
  exact ⟨k,n,rfl⟩

theorem check_deadline_ok (h : checkDeadline now v = .ok v') : Budgeted v v' := by
  unfold checkDeadline at h
  split at h
  · cases h
    exact ⟨v.clock,v.logicalBytes,rfl⟩
  · split at h
    · cases h
    · cases h
      exact ⟨v.clock+1,v.logicalBytes,rfl⟩

theorem admit_allocation_ok {n : ℕ} (h : admitAllocation now v n = .ok v') : Budgeted v v' := by
  obtain ⟨w,hw,h⟩ := bind_ok.mp h
  obtain ⟨total,_,h⟩ := bind_ok.mp h
  obtain ⟨_,_,h⟩ := bind_ok.mp h
  cases h
  exact (check_deadline_ok hw).trans ⟨w.clock,total,rfl⟩

theorem admit_logical_path_ok {path : Text} (h : admitLogicalPath now v path = .ok v') :
    v.paths.card < v.maxLogicalEntries ∧ Budgeted v v' := by
  obtain ⟨w,hw,h⟩ := bind_ok.mp h
  obtain ⟨_,hcard,h⟩ := bind_ok.mp h
  have hb := check_deadline_ok hw
  refine ⟨?_,hb.trans (admit_allocation_ok h)⟩
  obtain ⟨_,_,rfl⟩ := hb
  simpa using hcard

end Budgets

/-! ## Admitted pages -/

section Pages

variable {c : Codec} {now : ℕ → ℕ}

theorem admit_page_ok {v v' : Validator} {row : Text × Bytes}
    (h : admitPage c now v row = .ok v') :
    digest (c.pageId row.2) = row.1 ∧ ∃ page, decodePage c row.2 = .ok page ∧
      ∃ w, Budgeted v w ∧ v' = { w with decoded := Function.update v.decoded row.1 (some page) } := by
  obtain ⟨w,hw,h⟩ := bind_ok.mp h
  obtain ⟨want,hwant,h⟩ := bind_ok.mp h
  obtain ⟨_,hid,h⟩ := bind_ok.mp h
  obtain ⟨page,hpage,h⟩ := bind_ok.mp h
  cases h
  have hb := admit_allocation_ok hw
  have hid : c.pageId row.2 = want := by simpa using hid
  refine ⟨?_,page,hpage,w,hb,?_⟩
  · rw [hid, ← parse_digest_ok hwant]
  · obtain ⟨_,_,rfl⟩ := hb
    rfl

/-- Every supplied page hashes to its key and is decoded; nothing else has changed. -/
theorem new_bounded_ok {pages : PageMap} {maxEntries maxBytes : ℕ} {deadline : Option ℕ}
    {v : Validator} (h : newBounded c now pages maxEntries maxBytes deadline = .ok v) :
    (∀ id b, pages.get id = some b → digest (c.pageId b) = id) ∧
    (∀ id b, pages.get id = some b → ∃ page, decodePage c b = .ok page) ∧
    Budgeted { Validator.empty pages maxEntries maxBytes deadline with
      decoded := pageGraph c pages } v := by
  let I : Validator → List (Text × Bytes) → Prop := fun s rest =>
    ∃ done, pages.rows = done ++ rest ∧
      (∀ row ∈ done, digest (c.pageId row.2) = row.1 ∧ ∃ page, decodePage c row.2 = .ok page) ∧
      Budgeted { Validator.empty pages maxEntries maxBytes deadline with
        decoded := fun id => (done.lookup id).bind fun b => (decodePage c b).toOption } s
  have hrun : I v [] := by
    refine foldlM_invariant (admitPage c now) I ?_ pages.rows ?_ h
    · rintro s row rest s' ⟨done,hrows,hdone,hs⟩ hstep
      obtain ⟨hid,page,hpage,w,hw,rfl⟩ := admit_page_ok hstep
      refine ⟨done ++ [row],by simp [hrows],?_,?_⟩
      · intro r hr
        rcases List.mem_append.mp hr with hr | hr
        · exact hdone r hr
        · rw [List.mem_singleton.mp hr]
          exact ⟨hid,page,hpage⟩
      · obtain ⟨_,_,rfl⟩ := hs
        obtain ⟨k,n,rfl⟩ := hw
        refine ⟨k,n,?_⟩
        -- the new row is the only one with its key, so appending it updates the lookup
        have hfresh : done.lookup row.1 = none := by
          cases hl : done.lookup row.1 with
          | none => rfl
          | some b =>
            have hpair := pages.sorted
            rw [hrows, List.pairwise_append] at hpair
            exact absurd (hpair.2.2 _ (Assoc.mem_of_lookup hl) row List.mem_cons_self) (lt_irrefl _)
        simp only [Validator.mk.injEq, true_and, and_true]
        funext id
        rw [List.lookup_append]
        by_cases hid : id = row.1
        · subst hid
          simp [hfresh, hpage, Except.toOption, List.lookup]
        · rw [Function.update_of_ne hid]
          have hnone : List.lookup id [row] = none := Assoc.lookup_cons_of_ne hid
          simp [hnone]
    · exact ⟨[],rfl,by simp,0,0,rfl⟩
  obtain ⟨done,hrows,hdone,hv⟩ := hrun
  rw [List.append_nil] at hrows
  subst hrows
  refine ⟨?_,?_,hv⟩
  · intro id b hget
    exact (hdone _ (Assoc.mem_of_lookup hget)).1
  · intro id b hget
    exact (hdone _ (Assoc.mem_of_lookup hget)).2

end Pages

/-! ## Radix walk -/

/-- The walk changes budgets, the memo and the reached pages only. -/
structure SameWalk (v v' : Validator) : Prop where
  bytes : v'.bytes = v.bytes
  decoded : v'.decoded = v.decoded
  paths : v'.paths = v.paths
  contentSizes : v'.contentSizes = v.contentSizes
  directories : v'.directories = v.directories
  files : v'.files = v.files
  maxLogicalEntries : v'.maxLogicalEntries = v.maxLogicalEntries

/-- From `v` to `v'` the pages `ids` were reached, and all of them are remembered. -/
structure Extends (v v' : Validator) (ids : Multiset Text) : Prop extends SameWalk v v' where
  kept : ∀ i es, v.entries i = some es → v'.entries i = some es
  reached : ∀ i, i ∈ v'.reached ↔ i ∈ v.reached ∨ i ∈ ids
  done : ∀ i ∈ ids, ∃ es, v'.entries i = some es

theorem Budgeted.extends {v v' : Validator} (h : Budgeted v v') : Extends v v' 0 := by
  obtain ⟨_,_,rfl⟩ := h
  exact ⟨⟨rfl,rfl,rfl,rfl,rfl,rfl,rfl⟩,fun _ _ h => h,by simp,by simp⟩

theorem Extends.trans {v v' v'' : Validator} {ids ids' : Multiset Text} (h : Extends v v' ids)
    (h' : Extends v' v'' ids') : Extends v v'' (ids + ids') where
  bytes := h'.bytes.trans h.bytes
  decoded := h'.decoded.trans h.decoded
  paths := h'.paths.trans h.paths
  contentSizes := h'.contentSizes.trans h.contentSizes
  directories := h'.directories.trans h.directories
  files := h'.files.trans h.files
  maxLogicalEntries := h'.maxLogicalEntries.trans h.maxLogicalEntries
  kept i es hi := h'.kept i es (h.kept i es hi)
  reached i := by rw [h'.reached, h.reached, Multiset.mem_add, or_assoc]
  done i hi := by
    rcases Multiset.mem_add.mp hi with hi | hi
    · obtain ⟨es,hes⟩ := h.done i hi
      exact ⟨es,h'.kept i es hes⟩
    · exact h'.done i hi

/-- What is remembered about one page. -/
structure ProvedPage (c : Codec) (v : Validator) (id : Text) (es : List Entry) : Prop where
  encodes : Encodes c v.bytes id es
  radix : ∃ ids, RadixFacts v.decoded id ↑es ids ∧ ∀ i ∈ ids, ∃ es, v.entries i = some es

structure MemoOk (c : Codec) (v : Validator) : Prop where
  proved : ∀ id es, v.entries id = some es → ProvedPage c v id es
  reached : ∀ id es, v.entries id = some es → id ∈ v.reached
  supplied : ∀ id ∈ v.reached, ∃ page, v.decoded id = some page

section Walk

variable {c : Codec} {now : ℕ → ℕ} {v v' : Validator}

theorem MemoOk.budgeted (hm : MemoOk c v) (h : Budgeted v v') : MemoOk c v' := by
  obtain ⟨_,_,rfl⟩ := h
  exact ⟨fun id es hid => ⟨(hm.proved id es hid).encodes,(hm.proved id es hid).radix⟩,
    hm.reached,hm.supplied⟩

variable {id : Text} {es : List Entry}

theorem MemoOk.mark (hm : MemoOk c v) {page : Page} (hid : v.decoded id = some page) :
    MemoOk c { v with reached := insert id v.reached } where
  proved i es hi := ⟨(hm.proved i es hi).encodes,(hm.proved i es hi).radix⟩
  reached i es hi := Finset.mem_insert_of_mem (hm.reached i es hi)
  supplied i hi := by
    rcases Finset.mem_insert.mp hi with rfl | hi
    · exact ⟨page,hid⟩
    · exact hm.supplied i hi

theorem update_some {entries : Text → Option (List Entry)} {i : Text}
    (h : i = id ∨ ∃ es', entries i = some es') :
    ∃ es', Function.update entries id (some es) i = some es' := by
  by_cases hi : i = id
  · subst hi
    exact ⟨es,Function.update_self ..⟩
  · obtain ⟨es',hes'⟩ := h.resolve_left hi
    exact ⟨es',by rw [Function.update_of_ne hi, hes']⟩

theorem update_cases {entries : Text → Option (List Entry)} {i : Text} {es' : List Entry}
    (h : Function.update entries id (some es) i = some es') :
    (i = id ∧ es' = es) ∨ (i ≠ id ∧ entries i = some es') := by
  by_cases hi : i = id
  · subst hi
    rw [Function.update_self] at h
    exact .inl ⟨rfl,(Option.some.inj h).symm⟩
  · rw [Function.update_of_ne hi] at h
    exact .inr ⟨hi,h⟩

/-- Remembering one more proved page. -/
theorem MemoOk.remember (hm : MemoOk c v) {ids : Multiset Text} (henc : Encodes c v.bytes id es)
    (hradix : RadixFacts v.decoded id ↑es ids)
    (hids : ∀ i ∈ ids, i = id ∨ ∃ es, v.entries i = some es) (hid : id ∈ v.reached) :
    MemoOk c { v with entries := Function.update v.entries id (some es) } where
  proved i es' hi := by
    rcases update_cases hi with ⟨rfl,rfl⟩ | ⟨_,hi⟩
    · exact ⟨henc,ids,hradix,fun i hi => update_some (hids i hi)⟩
    · obtain ⟨ids',hradix',hids'⟩ := (hm.proved i es' hi).radix
      exact ⟨(hm.proved i es' hi).encodes,ids',hradix',fun j hj => update_some (.inr (hids' j hj))⟩
  reached i es' hi := by
    rcases update_cases hi with ⟨rfl,_⟩ | ⟨_,hi⟩
    · exact hid
    · exact hm.reached i es' hi
  supplied := hm.supplied

/-- Marking a fresh page, visiting its children and remembering it reaches the page and what the
children reached. -/
theorem Extends.remember (es : List Entry) {ids : Multiset Text} (hfresh : v.entries id = none)
    (h : Extends { v with reached := insert id v.reached } v' ids) :
    Extends v { v' with entries := Function.update v'.entries id (some es) } ({id} + ids) where
  toSameWalk := {h.toSameWalk with}
  kept i es' hi := by
    have hne : i ≠ id := by
      rintro rfl
      rw [hfresh] at hi
      cases hi
    change Function.update v'.entries id (some es) i = some es'
    rw [Function.update_of_ne hne]
    exact h.kept i es' hi
  reached i := by
    rw [h.reached]
    simp only [Finset.mem_insert, Multiset.mem_add, Multiset.mem_singleton]
    tauto
  done i hi := by
    rcases Multiset.mem_add.mp hi with hi | hi
    · exact update_some (.inl (Multiset.mem_singleton.mp hi))
    · exact update_some (.inr (h.done i hi))

theorem sort_entries_perm (es : List Entry) : (sortEntries es).Perm es :=
  List.perm_insertionSort _ es

theorem finish_radix_ok {es' : List Entry} (h : finishRadix c now v id es = .ok (es',v')) :
    es'.Perm es ∧ Encodes c v.bytes id es' ∧
      ∃ w, Budgeted v w ∧ v' = { w with entries := Function.update v.entries id (some es') } := by
  obtain ⟨_,_,h⟩ := bind_ok.mp h
  obtain ⟨_,_,h⟩ := bind_ok.mp h
  obtain ⟨w,hw,h⟩ := bind_ok.mp h
  obtain ⟨rebuilt,hbuild,h⟩ := bind_ok.mp h
  obtain ⟨_,hsame,h⟩ := bind_ok.mp h
  cases h
  have hb := admit_allocation_ok hw
  have hsame : w.bytes.get id = some rebuilt := by simpa using hsame
  refine ⟨sort_entries_perm es,⟨rebuilt,?_,map_error_ok.mp hbuild⟩,w,hb,?_⟩
  · rw [← hsame, hb.extends.bytes]
  · obtain ⟨_,_,rfl⟩ := hb
    rfl

/-- The outcome of a successful visit of one radix page. -/
def Visited (c : Codec) (v : Validator) (id : Text) (es : List Entry) (v' : Validator) : Prop :=
  MemoOk c v' ∧ v'.entries id = some es ∧
    ∃ ids, RadixFacts v.decoded id ↑es ids ∧ Extends v v' ids

theorem radix_children_ok {visit : Validator → Text → Result (List Entry × Validator)}
    (hvisit : ∀ v id es v', MemoOk c v → visit v id = .ok (es,v') → Visited c v id es v')
    {acc : List Entry} {children : List BranchChild} (hm : MemoOk c v)
    (h : radixChildren now visit v acc children = .ok (es,v')) :
    MemoOk c v' ∧ ∃ below ids, es = acc ++ below ∧
      Sums (radixExpand v.decoded) (children.map childId) (↑below,ids) ∧ Extends v v' ids := by
  induction children generalizing v acc with
  | nil =>
    cases h
    exact ⟨hm,[],0,by simp,.nil,(Budgeted.refl _).extends⟩
  | cons ch rest ih =>
    obtain ⟨⟨childEs,v₁⟩,hch,h⟩ := bind_ok.mp h
    obtain ⟨_,_,h⟩ := bind_ok.mp h
    obtain ⟨_,_,h⟩ := bind_ok.mp h
    obtain ⟨_,_,h⟩ := bind_ok.mp h
    obtain ⟨v₂,hv₂,h⟩ := bind_ok.mp h
    obtain ⟨hm₁,_,ids₁,hradix,hext⟩ := hvisit v _ childEs v₁ hm hch
    have hb := admit_allocation_ok hv₂
    obtain ⟨hm',below,ids₂,hes,hsums,hext'⟩ := ih (hm₁.budgeted hb) h
    have hdec : v₂.decoded = v.decoded := hb.extends.decoded.trans hext.decoded
    refine ⟨hm',childEs ++ below,ids₁ + ids₂,by simp [hes],?_,?_⟩
    · rw [hdec] at hsums
      have := sums_append hradix hsums
      simpa using this
    · simpa using (hext.trans hb.extends).trans hext'

theorem radix_entries_ok {remaining : ℕ} {active : Finset Text} (hm : MemoOk c v)
    (h : radixEntries c now remaining active v id = .ok (es,v')) :
    Visited c v id es v' := by
  induction remaining generalizing active v id es v' with
  | zero =>
    obtain ⟨_,_,h⟩ := bind_ok.mp h
    cases h
  | succ remaining ih =>
    obtain ⟨v₁,hv₁,h⟩ := bind_ok.mp h
    have hb₁ := check_deadline_ok hv₁
    have hm₁ := hm.budgeted hb₁
    have hdec₁ := hb₁.extends.decoded
    split at h
    · -- remembered: the pages of the subtree were reached before
      rename_i entries hmemo
      cases h
      obtain ⟨ids,hradix,hids⟩ := (hm₁.proved _ _ hmemo).radix
      refine ⟨hm₁,hmemo,ids,hdec₁ ▸ hradix,?_⟩
      have hreach : ∀ i ∈ ids, i ∈ v'.reached := fun i hi => by
        obtain ⟨es,hes⟩ := hids i hi
        exact hm₁.reached i es hes
      have hself : Extends v' v' ids :=
        ⟨⟨rfl,rfl,rfl,rfl,rfl,rfl,rfl⟩,fun _ _ h => h,
          fun i => ⟨.inl,fun h => h.elim (fun h => h) (hreach i)⟩,hids⟩
      simpa using hb₁.extends.trans hself
    · rename_i hmemo
      obtain ⟨_,_,h⟩ := bind_ok.mp h
      obtain ⟨v₂,hv₂,h⟩ := bind_ok.mp h
      obtain ⟨page,hpage,h⟩ := bind_ok.mp h
      obtain ⟨⟨all,v₃⟩,hchildren,h⟩ := bind_ok.mp h
      have hb₂ := hb₁.trans (admit_allocation_ok hv₂)
      have hpage : v₂.decoded id = some page := by simpa using hpage
      obtain ⟨hm₃,below,ids,rfl,hsums,hext⟩ :=
        radix_children_ok (fun v id es v' hm h => ih hm h)
          ((hm.budgeted hb₂).mark hpage) hchildren
      obtain ⟨hperm,henc,w,hw,rfl⟩ := finish_radix_ok h
      have hdec₂ : v₂.decoded = v.decoded := hb₂.extends.decoded
      have hradix : RadixFacts v.decoded id ↑es ({id} + ids) := by
        have hall := radix_facts_of_page (hdec₂ ▸ hpage) (hdec₂ ▸ hsums)
        rwa [Multiset.coe_add, ← Multiset.coe_eq_coe.mpr hperm] at hall
      have hfresh : v.entries id = none := by
        obtain ⟨_,_,rfl⟩ := hb₁
        exact hmemo
      obtain ⟨k₂,n₂,rfl⟩ := hb₂
      obtain ⟨k₃,n₃,rfl⟩ := hw
      have hall : Extends { v with reached := insert id v.reached } v₃ ids :=
        {hext with}
      have hdone : ∀ i ∈ ({id} + ids : Multiset Text), i = id ∨ ∃ es, v₃.entries i = some es := by
        intro i hi
        rcases Multiset.mem_add.mp hi with hi | hi
        · exact .inl (Multiset.mem_singleton.mp hi)
        · exact .inr (hext.done i hi)
      have hreach : id ∈ v₃.reached := (hext.reached id).mpr (.inl (Finset.mem_insert_self ..))
      have hm₄ := hm₃.remember henc (hext.decoded ▸ hradix) hdone hreach
      refine ⟨hm₄.budgeted ⟨k₃,n₃,rfl⟩,by simp,_,hradix,?_⟩
      have hfin := (hall.remember es hfresh).trans
        (Budgeted.extends ⟨k₃,n₃,rfl⟩)
      simpa using hfin

end Walk

end Scorpio.RadixProof
