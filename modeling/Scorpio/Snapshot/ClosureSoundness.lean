import Scorpio.Snapshot.ClosureConstructor
import Scorpio.Snapshot.WalkProof

/-!
# An accepted closure is exact

Whatever map of pages is supplied, a validated closure holds every page its
root reaches and no other page, each under its own hash and in canonical form,
and its file and directory lists are the recursive enumeration of the tree.
-/

set_option autoImplicit false

namespace Scorpio.ClosureSoundness

open ByteText Fallible PageCodec LogicalTree ClosureValidator RadixTree RadixProof WalkProof
open ClosureConstructor

/-! ## Sorting by a key -/

section SortBy

variable {α β : Type*} [LinearOrder β] (key : α → β)

instance sortBy_total : Std.Total fun a b : α => key a ≤ key b :=
  ⟨fun a b => le_total (key a) (key b)⟩

instance sortBy_trans : IsTrans α fun a b => key a ≤ key b :=
  ⟨fun _ _ _ hab hbc => hab.trans hbc⟩

theorem sort_by_strict (l : List α) (hl : (l.map key).Nodup) :
    (l.insertionSort fun a b => key a ≤ key b).Pairwise fun a b => key a < key b := by
  have hperm := List.perm_insertionSort (fun a b => key a ≤ key b) l
  have hsorted := List.pairwise_insertionSort (fun a b => key a ≤ key b) l
  have hnodup : (l.insertionSort fun a b => key a ≤ key b).Pairwise fun a b => key a ≠ key b :=
    List.pairwise_map.mp ((hperm.map key).nodup_iff.mpr hl)
  exact (hsorted.and hnodup).imp fun h => lt_of_le_of_ne h.1 h.2

end SortBy

/-! ## Paths -/

section Paths

variable {c : Codec} {scope : Text} {v : Validator}

/-- What stands before a slash of a listed path is a listed directory, and not the root. -/
theorem slash_below_directory (h : PathInv c scope v) {p : Text} (hp : p ∈ v.paths) {q : Text}
    (hq : q ++ [slash] <+: p) : q ≠ [] ∧ ∃ d ∈ v.directories, d.relPath = q := by
  induction hn : p.length using Nat.strong_induction_on generalizing p with
  | _ n ih =>
    have hne : p ≠ [] := by
      rintro rfl
      simp at hq
    obtain ⟨d,hd,name,hname,rfl⟩ := h.parent p hp hne
    have hslash : ∀ r, r ++ [slash] <+: name → False := fun r hr =>
      hname.2.1 (hr.subset (by simp))
    by_cases hroot : d.relPath = []
    · rw [hroot, join_nil_left] at hq
      exact (hslash q hq).elim
    have hjoin : joinPath d.relPath name = d.relPath ++ slash :: name := by
      simp [joinPath, hroot, hname.1]
    rw [hjoin] at hq hn
    have hdp : d.relPath <+: d.relPath ++ slash :: name := List.prefix_append ..
    rcases lt_trichotomy q.length d.relPath.length with hlt | heq | hgt
    · have hqd : q ++ [slash] <+: d.relPath :=
        List.prefix_of_prefix_length_le hq hdp (by simpa using hlt)
      have hmem : d.relPath ∈ v.paths := by
        rw [h.paths]
        exact List.mem_append_left _ (List.mem_map_of_mem hd)
      refine ih d.relPath.length ?_ hmem hqd rfl
      rw [← hn, List.length_append, List.length_cons]
      omega
    · have hqd : q = d.relPath := by
        have h₁ : q <+: d.relPath ++ slash :: name := (List.prefix_append _ _).trans hq
        exact (List.prefix_of_prefix_length_le h₁ hdp heq.le).eq_of_length heq
      exact ⟨hqd ▸ hroot,d,hd,hqd.symm⟩
    · have hsplit : d.relPath ++ [slash] <+: q ++ [slash] := by
        have hd' : d.relPath ++ [slash] <+: d.relPath ++ slash :: name := ⟨name,by simp⟩
        exact List.prefix_of_prefix_length_le hd' hq (by simpa using hgt.le)
      obtain ⟨r,hr⟩ := hsplit
      rw [← hr, List.append_assoc, List.prefix_append_right_inj, List.singleton_append,
        List.cons_prefix_cons] at hq
      have hrne : r ≠ [] := by
        rintro rfl
        have := congrArg List.length hr
        simp only [List.append_nil, List.length_append, List.length_singleton] at this
        omega
      have hlast : slash ∈ r := by
        have hl := congrArg List.getLast? hr
        rw [List.getLast?_append_of_ne_nil _ hrne, List.getLast?_concat] at hl
        exact List.mem_of_getLast? hl
      exact (hname.2.1 (hq.2.subset hlast)).elim

end Paths

/-! ## The closure -/

/-- The lists and pages of a closure are exactly the tree below the committed root. -/
structure ExactClosure {c : Codec} (R : RadixPartition c) (closure : ValidatedSnapshotClosure) :
    Prop where
  hashes : ∀ id b, closure.pages.get id = some b → digest (c.pageId b) = id
  reachable : ∀ id, (∃ b, closure.pages.get id = some b) ↔
    PageReachable (pageGraph c closure.pages) closure.descriptor.metadataRoot id
  reencoded : ∀ d ∈ closure.directories, ∃ (es : List Entry) (ids : Multiset Text),
    RadixFacts (pageGraph c closure.pages) d.directoryRoot ↑es ids ∧
      es.Pairwise (fun a b => a.name < b.name) ∧
      ∀ b, (∃ id ∈ ids, closure.pages.get id = some b) ↔ CanonicalPage R es b
  enumerated : ∃ f, TreeFacts (pageGraph c closure.pages) [] closure.descriptor.metadataRoot f ∧
    ↑closure.files = f.files ∧ ↑closure.directories = f.dirs
  files_sorted : closure.files.Pairwise fun a b => a.relPath < b.relPath
  directories_sorted : closure.directories.Pairwise fun a b => a.relPath < b.relPath
  paths_distinct : (closure.directories.map (·.relPath) ++ closure.files.map (·.relPath)).Nodup
  no_file_ancestor : ∀ f ∈ closure.files,
    ∀ p ∈ closure.directories.map (·.relPath) ++ closure.files.map (·.relPath),
      ¬ f.relPath ++ [slash] <+: p
  paths_valid : ∀ p ∈ closure.directories.map (·.relPath) ++ closure.files.map (·.relPath),
    ¬ [slash] <+: p ∧ validateComposedPath c closure.descriptor.scope p = .ok ()
  one_size : ∀ f ∈ closure.files, ∀ g ∈ closure.files,
    f.contentDigest = g.contentDigest → f.size = g.size

/-- The state in which the walk from the committed root has ended. -/
structure ProvedRoot (c : Codec) (d : Descriptor) (pages : PageMap) (v : Validator) (f : Facts) :
    Prop extends WalkOk c d.scope v where
  bytes : v.bytes = pages
  decoded : v.decoded = pageGraph c pages
  hashes : ∀ id b, pages.get id = some b → digest (c.pageId b) = id
  tree : TreeFacts (pageGraph c pages) [] d.metadataRoot f
  reached : ∀ i, i ∈ v.reached ↔ i ∈ f.pages
  done : ∀ i ∈ f.pages, ∃ es, v.entries i = some es
  directories : ↑v.directories = f.dirs
  files : ↑v.files = f.files
  complete : v.reached.card = pages.rows.length
  named : ∀ i ∈ f.pages, NamedPage (pageGraph c pages) i

section Constructor

variable {c : Codec} {now : ℕ → ℕ} {d : Descriptor} {pages : PageMap}

theorem walk_ok_initial (scope : Text) {v : Validator} (hentries : v.entries = fun _ => none)
    (hreached : v.reached = ∅) (hpaths : v.paths = ∅) (hdirs : v.directories = [])
    (hfiles : v.files = []) : WalkOk c scope v := by
  refine ⟨⟨?_,?_,?_⟩,⟨?_,?_,?_,?_,?_,?_⟩⟩ <;>
    simp [hentries, hreached, hpaths, allPaths, hdirs, hfiles]

/-- What is known when the constructor accepts. -/
theorem validate_pages_cases (R : RadixPartition c) {includeFacts : Bool} {maxNodes maxBytes : ℕ}
    {deadline : Option ℕ} {closure : ValidatedSnapshotClosure}
    {facts : List VerifiedSubtreeFacts}
    (h : validatePagesBounded c now d pages includeFacts maxNodes maxBytes deadline =
      .ok (closure,facts)) :
    ∃ v f, ProvedRoot c d pages v f ∧ closure.descriptor = d ∧ closure.pages = pages ∧
      closure.directories = v.directories.insertionSort (fun a b => a.relPath ≤ b.relPath) ∧
      closure.files = v.files.insertionSort (fun a b => a.relPath ≤ b.relPath) ∧
      closureFacts v includeFacts pages.rows.length closure.directories closure.files =
        .ok facts ∧ v.maxLogicalEntries = maxNodes := by
  obtain ⟨db,_,h⟩ := bind_ok.mp h
  obtain ⟨v₀,hv₀,h⟩ := bind_ok.mp h
  obtain ⟨v,hv,h⟩ := bind_ok.mp h
  obtain ⟨_,hcard,h⟩ := bind_ok.mp h
  obtain ⟨fs,hfacts,h⟩ := bind_ok.mp h
  cases h
  obtain ⟨hhash,_,k,n,rfl⟩ := new_bounded_ok hv₀
  have hinit := walk_ok_initial (c := c) d.scope (v := { Validator.empty pages maxNodes maxBytes
    deadline with
      decoded := pageGraph c pages, clock := k, logicalBytes := n, maxLogicalEntries := maxNodes })
    rfl rfl rfl rfl rfl
  obtain ⟨hok,f,hf,hwalk,hnamed⟩ := walk_directory_ok R _ _ _ _ hinit (by simp [HasParent]) hv
  refine ⟨v,f,⟨hok,hwalk.bytes,hwalk.decoded,hhash,hf,?_,hwalk.done,?_,?_,by simpa using hcard,
    hnamed⟩,rfl,rfl,rfl,rfl,hfacts,hwalk.maxLogicalEntries⟩
  · intro i
    rw [hwalk.reached]
    simp [Validator.empty]
  · obtain ⟨ds,hds,hds'⟩ := hwalk.directories
    rw [hds, ← hds']
    rfl
  · obtain ⟨fs,hfs,hfs'⟩ := hwalk.files
    rw [hfs, ← hfs']
    rfl

theorem directory_page_reached {G : Graph} {path root : Text} {f : Facts}
    (hf : TreeFacts G path root f) {x : SnapshotDirectory} (hx : x ∈ f.dirs) :
    x.directoryRoot ∈ f.pages := by
  rw [mem_tree_pages hf]
  exact reachable_of_reaches (directory_node hf hx)

theorem proved_root_supplied {v : Validator} {f : Facts} (h : ProvedRoot c d pages v f)
    (id : Text) : (∃ b, pages.get id = some b) ↔ id ∈ f.pages := by
  have hsub : ∀ i ∈ v.reached, i ∈ pages.keys := fun i hi => by
    obtain ⟨page,hpage⟩ := h.memo.supplied i hi
    rw [h.decoded] at hpage
    obtain ⟨b,hb,_⟩ := page_graph_some hpage
    exact (mem_keys pages i).mpr ⟨b,hb⟩
  rw [← mem_keys, ← h.reached, mem_keys_iff_reached pages hsub h.complete]

theorem proved_root_exact (R : RadixPartition c) (hcf : CollisionFree c pages) {v : Validator}
    {f : Facts} (h : ProvedRoot c d pages v f) {closure : ValidatedSnapshotClosure}
    (hd : closure.descriptor = d) (hpages : closure.pages = pages)
    (hdirs : closure.directories =
      v.directories.insertionSort fun a b => a.relPath ≤ b.relPath)
    (hfiles : closure.files = v.files.insertionSort fun a b => a.relPath ≤ b.relPath) :
    ExactClosure R closure := by
  have hdperm : closure.directories.Perm v.directories := hdirs ▸ List.perm_insertionSort ..
  have hfperm : closure.files.Perm v.files := hfiles ▸ List.perm_insertionSort ..
  have hpaths : (closure.directories.map (·.relPath) ++ closure.files.map (·.relPath)).Perm
      (allPaths v) := (hdperm.map _).append (hfperm.map _)
  have hmem : ∀ p ∈ closure.directories.map (·.relPath) ++ closure.files.map (·.relPath),
      p ∈ v.paths := fun p hp => (h.path.paths p).mpr (hpaths.mem_iff.mp hp)
  obtain ⟨hdnodup,hfnodup,hcross⟩ := List.nodup_append.mp h.path.nodup
  constructor
  case hashes => exact hpages ▸ h.hashes
  case reachable =>
    intro id
    rw [hpages, hd, proved_root_supplied h, mem_tree_pages h.tree]
  case reencoded =>
    intro x hx
    rw [hpages]
    have hroot : x.directoryRoot ∈ f.pages := by
      refine directory_page_reached h.tree ?_
      rw [← h.directories]
      exact hdperm.mem_iff.mp hx
    obtain ⟨es,hes⟩ := h.done _ hroot
    obtain ⟨henc,ids,hradix,_⟩ := h.memo.proved _ es hes
    rw [h.bytes] at henc
    rw [h.decoded] at hradix
    obtain ⟨b,hb,hbuild⟩ := henc
    refine ⟨es,ids,hradix,R.sorted es b hbuild,fun b' => ?_⟩
    have hcan := canonical_pages R hcf h.hashes hradix
      (List.Forall₂.cons ⟨b,hb,hbuild⟩ List.Forall₂.nil) b'
    simpa using hcan
  case enumerated =>
    refine ⟨f,?_,?_,?_⟩
    · rw [hpages, hd]
      exact h.tree
    · rw [← h.files]
      exact Multiset.coe_eq_coe.mpr hfperm
    · rw [← h.directories]
      exact Multiset.coe_eq_coe.mpr hdperm
  case files_sorted => exact hfiles ▸ sort_by_strict (·.relPath) v.files hfnodup
  case directories_sorted => exact hdirs ▸ sort_by_strict (·.relPath) v.directories hdnodup
  case paths_distinct => exact hpaths.nodup_iff.mpr h.path.nodup
  case no_file_ancestor =>
    intro x hx p hp hanc
    obtain ⟨_,y,hy,heq⟩ := slash_below_directory h.path (hmem p hp) hanc
    exact hcross _ (List.mem_map_of_mem hy) _ (List.mem_map_of_mem (hfperm.mem_iff.mp hx)) heq
  case paths_valid =>
    intro p hp
    refine ⟨fun hslash => ?_,hd ▸ h.path.valid p (hmem p hp)⟩
    exact (slash_below_directory h.path (hmem p hp) hslash).1 rfl
  case one_size =>
    intro x hx y hy hxy
    have hsx := h.path.sizes x (hfperm.mem_iff.mp hx)
    have hsy := h.path.sizes y (hfperm.mem_iff.mp hy)
    rw [hxy, hsy] at hsx
    exact (Option.some.inj hsx).symm

/-- Every closure that a constructor accepts is exact. The budgets, the deadline and the readings
of the clock are arbitrary. -/
theorem accepted_closure_exact (R : RadixPartition c) (hcf : CollisionFree c pages)
    (maxNodes maxBytes : ℕ) (deadline : Option ℕ) :
    (∀ d includeFacts closure facts,
      validatePagesBounded c now d pages includeFacts maxNodes maxBytes deadline =
        .ok (closure,facts) →
      closure.descriptor = d ∧ closure.pages = pages ∧ ExactClosure R closure) ∧
    ∀ descriptorBytes closure,
      fromCanonicalPagesBounded c now descriptorBytes pages maxNodes maxBytes deadline =
        .ok closure →
      closure.descriptorBytes = descriptorBytes ∧ closure.pages = pages ∧
        ExactClosure R closure := by
  have hmain : ∀ d includeFacts closure facts,
      validatePagesBounded c now d pages includeFacts maxNodes maxBytes deadline =
        .ok (closure,facts) →
      closure.descriptor = d ∧ closure.pages = pages ∧ ExactClosure R closure := by
    intro d includeFacts closure facts h
    obtain ⟨v,f,hproved,hd,hpages,hdirs,hfiles,_,_⟩ := validate_pages_cases R h
    exact ⟨hd,hpages,proved_root_exact R hcf hproved hd hpages hdirs hfiles⟩
  refine ⟨hmain,?_⟩
  intro descriptorBytes closure h
  obtain ⟨serving,_,h⟩ := bind_ok.mp h
  obtain ⟨snapshotId,_,h⟩ := bind_ok.mp h
  obtain ⟨⟨found,facts⟩,hfound,h⟩ := bind_ok.mp h
  obtain ⟨_,hbytes,h⟩ := bind_ok.mp h
  cases h
  obtain ⟨_,hpages,hexact⟩ := hmain _ _ _ _ hfound
  exact ⟨by simpa using hbytes,hpages,hexact⟩

theorem accepted_closure_exact_sample : ∃ closure,
    fromCanonicalPagesBounded Sample.codec (fun _ => 0) [9] Sample.pages usizeMax usizeMax none =
      .ok closure ∧
    closure.files = [⟨"a/x","regular",3,digest (Sample.digestOf [7])⟩,
      ⟨"b","executable",5,digest (Sample.digestOf [8])⟩] ∧
    ExactClosure Sample.partition closure := by
  have hrun : (fromCanonicalPagesBounded Sample.codec (fun _ => 0) [9] Sample.pages usizeMax
      usizeMax none).map (·.files) = .ok [⟨"a/x","regular",3,digest (Sample.digestOf [7])⟩,
        ⟨"b","executable",5,digest (Sample.digestOf [8])⟩] := by decide +kernel
  obtain ⟨closure,hclosure,hfiles⟩ := map_ok.mp hrun
  exact ⟨closure,hclosure,hfiles,((accepted_closure_exact Sample.partition Sample.collision_free
    usizeMax usizeMax none).2 [9] closure hclosure).2.2⟩

end Constructor

end Scorpio.ClosureSoundness
