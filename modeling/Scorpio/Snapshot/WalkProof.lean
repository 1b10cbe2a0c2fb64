import Scorpio.Snapshot.RadixProof

/-!
# What the directory walk proves

The walk appends to its file and directory lists exactly the facts of the tree
it visits, reaches exactly the pages of that tree, and keeps the invariant of
its path table: no path twice, every path valid below the scope and directly
below a listed directory, one size for each content digest.
-/

set_option autoImplicit false

namespace Scorpio.WalkProof

open ByteText Fallible PageCodec ForestSum LogicalTree ClosureValidator RadixTree RadixProof

def allPaths (v : Validator) : List Text :=
  v.directories.map (·.relPath) ++ v.files.map (·.relPath)

/-- A nonempty path lies directly below a listed directory. -/
def HasParent (v : Validator) (path : Text) : Prop :=
  path ≠ [] → ∃ d ∈ v.directories, ∃ name, ValidName name ∧ path = joinPath d.relPath name

structure PathInv (c : Codec) (scope : Text) (v : Validator) : Prop where
  paths : ∀ p, p ∈ v.paths ↔ p ∈ allPaths v
  nodup : (allPaths v).Nodup
  valid : ∀ p ∈ v.paths, validateComposedPath c scope p = .ok ()
  parent : ∀ p ∈ v.paths, HasParent v p
  sizes : ∀ f ∈ v.files, v.contentSizes f.contentDigest = some f.size
  bounded : v.paths.card ≤ v.maxLogicalEntries

/-- From `v` to `v'` the walk has met the facts `f`. -/
structure Walked (v v' : Validator) (f : Facts) : Prop where
  bytes : v'.bytes = v.bytes
  decoded : v'.decoded = v.decoded
  kept : ∀ i es, v.entries i = some es → v'.entries i = some es
  reached : ∀ i, i ∈ v'.reached ↔ i ∈ v.reached ∨ i ∈ f.pages
  done : ∀ i ∈ f.pages, ∃ es, v'.entries i = some es
  directories : ∃ ds, v'.directories = v.directories ++ ds ∧ ↑ds = f.dirs
  files : ∃ fs, v'.files = v.files ++ fs ∧ ↑fs = f.files
  maxLogicalEntries : v'.maxLogicalEntries = v.maxLogicalEntries

theorem Walked.refl (v : Validator) : Walked v v 0 where
  bytes := rfl
  decoded := rfl
  kept _ _ h := h
  reached := by simp
  done := by simp
  directories := ⟨[],by simp⟩
  files := ⟨[],by simp⟩
  maxLogicalEntries := rfl

theorem Walked.trans {v v' v'' : Validator} {f f' : Facts} (h : Walked v v' f)
    (h' : Walked v' v'' f') : Walked v v'' (f+f') where
  bytes := h'.bytes.trans h.bytes
  decoded := h'.decoded.trans h.decoded
  kept i es hi := h'.kept i es (h.kept i es hi)
  reached i := by rw [h'.reached, h.reached, Facts.add_pages, Multiset.mem_add, or_assoc]
  done i hi := by
    rcases Multiset.mem_add.mp hi with hi | hi
    · obtain ⟨es,hes⟩ := h.done i hi
      exact ⟨es,h'.kept i es hes⟩
    · exact h'.done i hi
  directories := by
    obtain ⟨ds,hds,hds'⟩ := h.directories
    obtain ⟨es,hes,hes'⟩ := h'.directories
    exact ⟨ds ++ es,by simp [hes, hds],by rw [← Multiset.coe_add, hds', hes', Facts.add_dirs]⟩
  files := by
    obtain ⟨ds,hds,hds'⟩ := h.files
    obtain ⟨es,hes,hes'⟩ := h'.files
    exact ⟨ds ++ es,by simp [hes, hds],by rw [← Multiset.coe_add, hds', hes', Facts.add_files]⟩
  maxLogicalEntries := h'.maxLogicalEntries.trans h.maxLogicalEntries

theorem walked_of_extends {v v' : Validator} {ids : Multiset Text} (h : Extends v v' ids) :
    Walked v v' (pagesFact ids) where
  bytes := h.bytes
  decoded := h.decoded
  kept := h.kept
  reached := h.reached
  done := h.done
  directories := ⟨[],by simp [h.directories, pagesFact]⟩
  files := ⟨[],by simp [h.files, pagesFact]⟩
  maxLogicalEntries := h.maxLogicalEntries

theorem HasParent.mono {v v' : Validator} {path : Text} (h : HasParent v path)
    (hdirs : ∀ d ∈ v.directories, d ∈ v'.directories) : HasParent v' path := by
  intro hne
  obtain ⟨d,hd,name,hname,hpath⟩ := h hne
  exact ⟨d,hdirs d hd,name,hname,hpath⟩

theorem Walked.keeps_directory {v v' : Validator} {f : Facts} (h : Walked v v' f)
    {d : SnapshotDirectory} (hd : d ∈ v.directories) : d ∈ v'.directories := by
  obtain ⟨ds,hds,_⟩ := h.directories
  rw [hds]
  exact List.mem_append_left _ hd

section Invariant

variable {c : Codec} {scope : Text} {v v' : Validator}

theorem PathInv.same (h : PathInv c scope v) (hs : SameWalk v v') : PathInv c scope v' := by
  have hall : allPaths v' = allPaths v := by rw [allPaths, allPaths, hs.directories, hs.files]
  refine ⟨?_,hall ▸ h.nodup,?_,?_,?_,?_⟩
  · intro p
    rw [hs.paths, hall]
    exact h.paths p
  · rw [hs.paths]
    exact h.valid
  · intro p hp
    rw [hs.paths] at hp
    exact (h.parent p hp).mono fun d hd => hs.directories ▸ hd
  · rw [hs.files, hs.contentSizes]
    exact h.sizes
  · rw [hs.paths, hs.maxLogicalEntries]
    exact h.bounded

/-- One new path, of a file or of a directory, is added to the table. -/
theorem PathInv.insert (h : PathInv c scope v) {path : Text} (hnew : path ∉ v.paths)
    (hvalid : validateComposedPath c scope path = .ok ()) (hparent : HasParent v path)
    (hpaths : v'.paths = Insert.insert path v.paths)
    (hperm : (allPaths v').Perm (path :: allPaths v))
    (hdirs : ∀ d ∈ v.directories, d ∈ v'.directories)
    (hsizes : ∀ f ∈ v'.files, v'.contentSizes f.contentDigest = some f.size)
    (hroom : v.paths.card < v'.maxLogicalEntries) : PathInv c scope v' := by
  refine ⟨?_,?_,?_,?_,hsizes,?_⟩
  · intro p
    rw [hpaths, hperm.mem_iff, Finset.mem_insert, List.mem_cons, h.paths]
  · rw [hperm.nodup_iff]
    exact List.nodup_cons.mpr ⟨fun hp => hnew ((h.paths path).mpr hp),h.nodup⟩
  · intro p hp
    rw [hpaths] at hp
    rcases Finset.mem_insert.mp hp with rfl | hp
    · exact hvalid
    · exact h.valid p hp
  · intro p hp
    rw [hpaths] at hp
    rcases Finset.mem_insert.mp hp with rfl | hp
    · exact hparent.mono hdirs
    · exact (h.parent p hp).mono hdirs
  · rw [hpaths, Finset.card_insert_of_notMem hnew]
    exact hroom

end Invariant

/-! ## Steps -/

section Steps

variable {c : Codec} {now : ℕ → ℕ} {scope : Text} {v v' : Validator}

structure WalkOk (c : Codec) (scope : Text) (v : Validator) : Prop where
  memo : MemoOk c v
  path : PathInv c scope v

theorem MemoOk.paths {w : Validator} (hm : MemoOk c v) (hbytes : w.bytes = v.bytes)
    (hdec : w.decoded = v.decoded) (hentries : w.entries = v.entries)
    (hreached : w.reached = v.reached) : MemoOk c w := by
  refine ⟨?_,?_,?_⟩
  · intro id es hid
    rw [hentries] at hid
    obtain ⟨henc,ids,hradix,hids⟩ := hm.proved id es hid
    exact ⟨hbytes ▸ henc,ids,hdec ▸ hradix,hentries ▸ hids⟩
  · rw [hentries, hreached]
    exact hm.reached
  · rw [hreached, hdec]
    exact hm.supplied

variable {active : Finset Text} {relPath root : Text}

theorem enter_directory_ok (h : WalkOk c scope v) (hparent : HasParent v relPath)
    (hrun : enterDirectory c now scope active v relPath root = .ok v') :
    WalkOk c scope v' ∧ Walked v v' (dirFact relPath root) ∧
      ⟨relPath,root⟩ ∈ v'.directories := by
  obtain ⟨w,hw,hrun⟩ := bind_ok.mp hrun
  obtain ⟨⟨⟩,hvalid,hrun⟩ := bind_ok.mp hrun
  obtain ⟨_,_,hrun⟩ := bind_ok.mp hrun
  obtain ⟨_,hnew,hrun⟩ := bind_ok.mp hrun
  cases hrun
  obtain ⟨hroom,_,_,rfl⟩ := admit_logical_path_ok hw
  have hnew : relPath ∉ v.paths := by simpa using hnew
  refine ⟨⟨MemoOk.paths h.memo rfl rfl rfl rfl,?_⟩,?_,by simp⟩
  · refine h.path.insert hnew hvalid hparent rfl ?_ (fun d hd => by simp [hd]) h.path.sizes hroom
    simp only [allPaths, List.map_append, List.map_cons, List.map_nil, List.append_assoc,
      List.singleton_append]
    exact List.perm_middle
  · exact ⟨rfl,rfl,fun _ _ h => h,by simp [dirFact],by simp [dirFact],
      ⟨_,rfl,rfl⟩,⟨[],by simp [dirFact]⟩,rfl⟩

theorem walk_file_ok {path kind : Text} {e : Entry} (h : WalkOk c scope v)
    (hvalid : validateComposedPath c scope path = .ok ()) (hparent : HasParent v path)
    (hrun : walkFile now v path kind e = .ok v') :
    WalkOk c scope v' ∧ Walked v v' ⟨{⟨path,kind,e.size,digest e.contentId⟩},0,0,1⟩ := by
  obtain ⟨w,hw,hrun⟩ := bind_ok.mp hrun
  obtain ⟨_,_,hrun⟩ := bind_ok.mp hrun
  obtain ⟨_,hnew,hrun⟩ := bind_ok.mp hrun
  obtain ⟨_,hsize,hrun⟩ := bind_ok.mp hrun
  cases hrun
  obtain ⟨hroom,_,_,rfl⟩ := admit_logical_path_ok hw
  have hnew : path ∉ v.paths := by simpa using hnew
  have hsize : ∀ n, v.contentSizes (digest e.contentId) = some n → n = e.size := by
    intro n hn
    simpa [hn] using hsize
  refine ⟨⟨MemoOk.paths h.memo rfl rfl rfl rfl,?_⟩,?_⟩
  · refine h.path.insert hnew hvalid hparent rfl ?_ (fun d hd => hd) ?_ hroom
    · simp only [allPaths, List.map_append, List.map_cons, List.map_nil, ← List.append_assoc]
      exact List.perm_append_singleton _ _
    · intro f hf
      by_cases hd : f.contentDigest = digest e.contentId
      · rcases List.mem_append.mp hf with hf | hf
        · have := hsize f.size (hd ▸ h.path.sizes f hf)
          simp [hd, this]
        · simp [List.mem_singleton.mp hf]
      · rcases List.mem_append.mp hf with hf | hf
        · change Function.update v.contentSizes _ _ _ = _
          rw [Function.update_of_ne hd]
          exact h.path.sizes f hf
        · exact absurd (by rw [List.mem_singleton.mp hf]) hd
  · exact ⟨rfl,rfl,fun _ _ h => h,by simp,by simp,⟨[],by simp⟩,⟨_,rfl,rfl⟩,rfl⟩

theorem child_path_eq_join {name : Text} (hname : name ≠ []) :
    childPath relPath name = joinPath relPath name := by
  simp [childPath, joinPath, hname]

def Named (e : Entry) : Prop := fromUtf8 e.name = some e.name ∧ ValidName e.name

/-- The names in a page are path components in UTF-8. -/
def NamedPage (G : Graph) (id : Text) : Prop :=
  ∀ page, G id = some page → ∀ e ∈ page.entries, Named e

/-- The outcome of a successful walk of one directory. -/
def Descends (c : Codec) (scope : Text)
    (descend : Validator → Text → Text → Result Validator) : Prop :=
  ∀ v path root v', WalkOk c scope v → HasParent v path → descend v path root = .ok v' →
    WalkOk c scope v' ∧ ∃ f, TreeFacts v.decoded path root f ∧ Walked v v' f ∧
      ∀ i ∈ f.pages, NamedPage v.decoded i

theorem walk_entry_ok {descend : Validator → Text → Text → Result Validator}
    (hdescend : Descends c scope descend) {e : Entry} (h : WalkOk c scope v)
    (hdir : ⟨relPath,root⟩ ∈ v.directories) (hname : ValidName e.name)
    (hrun : walkEntry c now descend scope relPath v e = .ok v') :
    Named e ∧ WalkOk c scope v' ∧ ∃ f, Sums (expand v.decoded) (entryNodes relPath e) f ∧
      Walked v v' (entryFacts relPath e + f) ∧ ∀ i ∈ f.pages, NamedPage v.decoded i := by
  obtain ⟨name,hutf,hrun⟩ := bind_ok.mp hrun
  obtain ⟨⟨⟩,hvalid,hrun⟩ := bind_ok.mp hrun
  have hutf : fromUtf8 e.name = some name := by simpa using hutf
  obtain rfl := (fromUtf8_some hutf).1
  refine ⟨⟨hutf,hname⟩,?_⟩
  rw [child_path_eq_join hname.1] at hvalid hrun
  have hparent : HasParent v (joinPath relPath e.name) := fun _ => ⟨_,hdir,e.name,hname,rfl⟩
  split at hrun
  · rename_i hk
    obtain ⟨hok,f,hf,hw,hnames⟩ := hdescend v _ _ v' h hparent hrun
    refine ⟨hok,f,by simpa [entryNodes, hk, TreeFacts] using hf,?_,hnames⟩
    have hcount : Walked v v (entryFacts relPath e) := by
      simp only [entryFacts, hk]
      exact ⟨rfl,rfl,fun _ _ h => h,by simp,by simp,⟨[],by simp⟩,⟨[],by simp⟩,rfl⟩
    exact hcount.trans hw
  · rename_i kind hk
    obtain ⟨hok,hw⟩ := walk_file_ok h hvalid hparent hrun
    refine ⟨hok,0,by simp [entryNodes, hk],?_,by simp⟩
    simpa [entryFacts, hk] using hw

theorem walk_entries_ok {descend : Validator → Text → Text → Result Validator}
    (hdescend : Descends c scope descend) {es : List Entry} (h : WalkOk c scope v)
    (hdir : ⟨relPath,root⟩ ∈ v.directories) (hnames : ∀ e ∈ es, ValidName e.name)
    (hrun : es.foldlM (walkEntry c now descend scope relPath) v = .ok v') :
    (∀ e ∈ es, Named e) ∧ WalkOk c scope v' ∧
      ∃ f, Sums (expand v.decoded) (es.flatMap (entryNodes relPath)) f ∧
        Walked v v' ((es.map (entryFacts relPath)).sum + f) ∧
        ∀ i ∈ f.pages, NamedPage v.decoded i := by
  induction es generalizing v with
  | nil =>
    cases hrun
    exact ⟨by simp,h,0,.nil,by simpa using Walked.refl _,by simp⟩
  | cons e es ih =>
    rw [List.foldlM_cons] at hrun
    obtain ⟨w,hw,hrun⟩ := bind_ok.mp hrun
    obtain ⟨hnamed,hok,f,hf,hwalk,hpages⟩ := walk_entry_ok hdescend h hdir (hnames e (by simp)) hw
    obtain ⟨hnamed',hok',g,hg,hwalk',hpages'⟩ := ih hok (hwalk.keeps_directory hdir)
      (fun e' he' => hnames e' (by simp [he'])) hrun
    rw [hwalk.decoded] at hg hpages'
    refine ⟨List.forall_mem_cons.mpr ⟨hnamed,hnamed'⟩,hok',f+g,?_,?_,?_⟩
    · rw [List.flatMap_cons]
      exact sums_append hf hg
    · rw [List.map_cons, List.sum_cons, add_add_add_comm]
      exact hwalk.trans hwalk'
    · intro i hi
      rcases Multiset.mem_add.mp hi with hi | hi
      · exact hpages i hi
      · exact hpages' i hi

/-- A successful walk proves the whole tree of the directory. -/
theorem walk_directory_ok (R : RadixPartition c) {fuel : ℕ} :
    Descends c scope (walkDirectory c now scope fuel active) := by
  induction fuel generalizing active with
  | zero =>
    intro v path root v' _ _ hrun
    obtain ⟨_,_,hrun⟩ := bind_ok.mp hrun
    cases hrun
  | succ fuel ih =>
    intro v path root v' h hparent hrun
    obtain ⟨v₁,hv₁,hrun⟩ := bind_ok.mp hrun
    obtain ⟨⟨es,v₂⟩,hv₂,hrun⟩ := bind_ok.mp hrun
    obtain ⟨hok₁,hwalk₁,hdir⟩ := enter_directory_ok h hparent hv₁
    obtain ⟨hmemo₂,hes,ids,hradix,hext⟩ := radix_entries_ok hok₁.memo hv₂
    have hok₂ : WalkOk c scope v₂ := ⟨hmemo₂,hok₁.path.same hext.toSameWalk⟩
    obtain ⟨b,_,hbuild⟩ := (hmemo₂.proved root es hes).encodes
    obtain ⟨hnamed,hok₃,f,hf,hwalk₃,hpages⟩ := walk_entries_ok (@ih (insert root active)) hok₂
      (hext.directories ▸ hdir) (R.names es b hbuild) hrun
    rw [hwalk₁.decoded] at hradix
    rw [hext.decoded, hwalk₁.decoded] at hf hpages
    refine ⟨hok₃,_,tree_facts_iff.mpr ⟨_,?_,rfl⟩,
      hwalk₁.trans ((walked_of_extends hext).trans hwalk₃),?_⟩
    · have hpage := page_facts_of_radix path hradix hf
      rw [← add_assoc]
      exact hpage
    · intro i hi
      simp only [Facts.add_pages, dirFact, zero_add, pagesFact, entry_facts_pages,
        Multiset.mem_add] at hi
      rcases hi with hi | hi
      · exact fun page hpage e he => hnamed e (radix_entry_mem hradix hi hpage he)
      · exact hpages i hi

end Steps

end Scorpio.WalkProof
