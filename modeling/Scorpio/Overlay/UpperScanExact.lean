import Scorpio.Overlay.UpperDirectory
import Scorpio.Snapshot.RadixTree

/-!
# The scan computes the expected diff

Every step of the loop scans one directory of the work list. What is recorded
stays expected, what is expected in a scanned directory stays recorded, and a
visible directory is scanned or still on the list. No directory is scanned twice,
so the number of facts bounds the steps.
-/

set_option autoImplicit false

namespace Scorpio.UpperScan

open ByteText Fallible PageCodec Incremental DirectoryTree

variable {h : Host} {limits : DiffLimits} {upper : UpperTree} {lower : LowerTree}
  {facts : List (Path × Fact)} {s s' : Scan} {p dir : Path} {c : UpperChange}

/-- `done` are the directories that have been scanned. -/
structure LoopInv (h : Host) (upper : UpperTree) (lower : LowerTree) (facts : List (Path × Fact))
    (done : List Path) (s : Scan) : Prop where
  recorded : Recorded h upper lower s
  root : ∀ c, Expected h.hash h.owner upper lower [] c → ([],c) ∈ s.changes
  complete : ∀ dir ∈ done, ∀ n c, Expected h.hash h.owner upper lower (n :: dir) c →
    (n :: dir,c) ∈ s.changes
  start : [] ∈ s.pending.map Prod.fst ∨ [] ∈ done
  reached : ∀ dir ∈ done, ∀ n x, shown upper (n :: dir) = true → upper.get (n :: dir) = some x →
    x.kind = .directory → n :: dir ∈ s.pending.map Prod.fst ∨ n :: dir ∈ done
  work : ∀ q ∈ s.pending, PendOk upper lower q
  nodup : (s.pending.map Prod.fst ++ done).Nodup
  parents : ∀ n dir, n :: dir ∈ s.pending.map Prod.fst ++ done → dir ∈ done
  inside : ∀ dir ∈ done, ∃ x, upper.get dir = some x

variable {done : List Path} {α : Type}

theorem loop_step (S : Setting h upper lower) (F : FactsOk h upper facts) {q : Pending}
    {rest : List Pending} (hq : s.pending = q :: rest) (I : LoopInv h upper lower facts done s)
    (hok : scanDirectory h limits lower facts {s with pending := rest} q = .ok s') :
    LoopInv h upper lower facts (q.1 :: done) s' := by
  obtain ⟨dir,inherited,lowerDirectory⟩ := q
  have hpend : s.pending.map Prod.fst = dir :: rest.map Prod.fst := by simp [hq]
  have hnodup := I.nodup
  rw [hpend, List.cons_append, List.nodup_cons] at hnodup
  have hparents (n : Text) (d : Path) (hmem : n :: d ∈ rest.map Prod.fst ++ done) : d ∈ done := by
    refine I.parents n d ?_
    rw [hpend]
    exact List.mem_cons_of_mem _ hmem
  have hnew : dir ∉ done := fun hd => hnodup.1 (List.mem_append_right _ hd)
  have P : PendOk upper lower (dir,inherited,lowerDirectory) :=
    I.work _ (by rw [hq]; exact List.mem_cons_self)
  have hrec : Recorded h upper lower {s with pending := rest} :=
    ⟨I.recorded.expected,I.recorded.nodup⟩
  have D := scan_directory_ok S F P hrec (List.nodup_append.mp hnodup.2).1
    (fun n hn => hnew (hparents n dir (List.mem_append_left _ hn))) hok
  have hkept {p : Path} (hp : p ∈ rest.map Prod.fst) : p ∈ s'.pending.map Prod.fst := by
    obtain ⟨r,hr,rfl⟩ := List.mem_map.mp hp
    exact List.mem_map.mpr ⟨r,D.kept r hr,rfl⟩
  have hmoved {p : Path} (hp : p ∈ s.pending.map Prod.fst) :
      p ∈ s'.pending.map Prod.fst ∨ p ∈ dir :: done := by
    rw [hpend] at hp
    rcases List.mem_cons.mp hp with rfl | hp
    · exact .inr List.mem_cons_self
    · exact .inl (hkept hp)
  refine ⟨D.recorded,fun c hc => D.changes _ (I.root c hc),?_,?_,?_,?_,?_,?_,?_⟩
  · intro d hd n c hc
    rcases List.mem_cons.mp hd with rfl | hd
    · exact D.complete n c hc
    · exact D.changes _ (I.complete d hd n c hc)
  · rcases I.start with hroot | hroot
    · exact hmoved hroot
    · exact .inr (List.mem_cons_of_mem _ hroot)
  · intro d hd n x hshown hx hkind
    rcases List.mem_cons.mp hd with rfl | hd
    · exact .inl (D.pushed n x hshown hx hkind)
    · rcases I.reached d hd n x hshown hx hkind with hp | hp
      · exact hmoved hp
      · exact .inr (List.mem_cons_of_mem _ hp)
  · intro r hr
    rcases D.work r hr with hr | ⟨hr,-⟩
    · exact I.work r (by rw [hq]; exact List.mem_cons_of_mem _ hr)
    · exact hr
  · -- new work lies below a directory that was not scanned before
    have hfresh : ∀ p ∈ s'.pending.map Prod.fst, p ∉ dir :: done := by
      intro p hp hmem
      obtain ⟨r,hr,rfl⟩ := List.mem_map.mp hp
      rcases D.work r hr with hold | ⟨-,n,hn⟩
      · have hrest : r.1 ∈ rest.map Prod.fst := List.mem_map.mpr ⟨r,hold,rfl⟩
        rcases List.mem_cons.mp hmem with heq | hdone
        · exact hnodup.1 (heq ▸ List.mem_append_left _ hrest)
        · exact (List.nodup_append.mp hnodup.2).2.2 _ hrest _ hdone rfl
      · rw [hn] at hmem
        rcases List.mem_cons.mp hmem with heq | hdone
        · exact absurd (congrArg List.length heq) (by simp)
        · exact hnew (hparents n dir (List.mem_append_right _ hdone))
    refine List.nodup_append.mpr ⟨D.nodup,List.nodup_cons.mpr ⟨hnew,?_⟩,?_⟩
    · exact (List.nodup_append.mp hnodup.2).2.1
    · rintro p hp q hq rfl
      exact hfresh p hp hq
  · intro n d hmem
    rcases List.mem_append.mp hmem with hmem | hmem
    · obtain ⟨r,hr,hrp⟩ := List.mem_map.mp hmem
      rcases D.work r hr with hold | ⟨-,m,hm⟩
      · exact List.mem_cons_of_mem _ (hparents n d (List.mem_append_left _
          (List.mem_map.mpr ⟨r,hold,hrp⟩)))
      · rw [hm] at hrp
        cases hrp
        exact List.mem_cons_self
    · rcases List.mem_cons.mp hmem with heq | hmem
      · exact List.mem_cons_of_mem _ (I.parents n d (by
          rw [hpend, heq]
          exact List.mem_append_left _ List.mem_cons_self))
      · exact List.mem_cons_of_mem _ (hparents n d (List.mem_append_right _ hmem))
  · intro d hd
    rcases List.mem_cons.mp hd with rfl | hd
    · obtain ⟨x,hx,-⟩ := P.directory
      exact ⟨x,hx⟩
    · exact I.inside d hd

theorem scan_loop_ok (S : Setting h upper lower) (F : FactsOk h upper facts) {fuel : ℕ}
    (I : LoopInv h upper lower facts done s) (hok : scanLoop h limits lower facts fuel s = .ok s') :
    ∃ done', LoopInv h upper lower facts done' s' ∧ s'.pending = [] := by
  induction fuel generalizing s done with
  | zero =>
    unfold scanLoop at hok
    split at hok
    · rename_i hnil
      cases hok
      exact ⟨done,I,hnil⟩
    · cases hok
  | succ fuel ih =>
    unfold scanLoop at hok
    split at hok
    · rename_i hnil
      cases hok
      exact ⟨done,I,hnil⟩
    · rename_i q rest hq
      obtain ⟨t,ht,hrest⟩ := bind_ok.mp hok
      exact ih (loop_step S F hq I ht) hrest

/-- With no work left, every visible directory has been scanned. -/
theorem LoopInv.all_done (I : LoopInv h upper lower facts done s) (hnil : s.pending = [])
    {x : UpperNode} (hshown : shown upper p = true) (hx : upper.get p = some x)
    (hkind : x.kind = .directory) : p ∈ done := by
  induction p generalizing x with
  | nil => simpa [hnil] using I.start
  | cons n dir ih =>
    obtain ⟨y,hy,hdir⟩ := Tree.parent_dir hx
    have hdone := ih ((shown_cons.mp hshown).2.2) hy (of_decide_eq_true hdir)
    simpa [hnil] using I.reached dir hdone n x hshown hx hkind

/-! ## The bound on the steps -/

/-- The bound is reached by the loop alone. -/
def Fine {α : Type} (x : Except Halt α) : Prop := x ≠ .error .exhausted

theorem fine_bind_of {β : Type} {x : Except Halt α} {f : α → Except Halt β} (hx : Fine x)
    (hf : ∀ a, x = .ok a → Fine (f a)) : Fine (x >>= f) := by
  cases x with
  | ok a => exact hf a rfl
  | error e => exact fun heq => hx (congrArg Except.error (Except.error.inj heq))

theorem fine_bind {β : Type} {x : Except Halt α} {f : α → Except Halt β} (hx : Fine x)
    (hf : ∀ a, Fine (f a)) : Fine (x >>= f) := fine_bind_of hx fun a _ => hf a

theorem fine_pure (a : α) : Fine (pure a : Except Halt α) := fun heq => nomatch heq

theorem fine_lifted (x : Result α) : Fine (lifted x) := by
  cases x <;> exact fun heq => nomatch heq

theorem fine_require {b : Bool} {e : SnapshotError} : Fine (require b (Halt.error e)) := by
  unfold require
  split <;> exact fun heq => nomatch heq

theorem fine_fact (facts : List (Path × Fact)) (p : Path) : Fine (factAt facts p) := by
  unfold factAt
  cases facts.lookup p <;> exact fun heq => nomatch heq

theorem fine_fold {σ : Type} {f : σ → α → Except Halt σ} (hf : ∀ s a, Fine (f s a)) (l : List α)
    (s : σ) : Fine (l.foldlM f s) := by
  induction l generalizing s with
  | nil => exact fine_pure s
  | cons a l ih => exact fine_bind (hf s a) ih

theorem fine_certain (s : Scan) : Fine (ensureCertain h s) := by
  unfold ensureCertain
  split <;> exact fun heq => nomatch heq

theorem fine_base (m : DiffMeters) (p : Path) (b : Bool) : Fine (baseAt h lower m p b) := by
  refine fine_bind (fine_lifted _) fun _ => ?_
  split
  · unfold pathState
    dsimp only
    split <;> exact fun heq => nomatch heq
  · exact fine_pure _

theorem fine_name {visible : List Text} {isOpaque lowerDirectory : Bool} (s : Scan) (name : Text) :
    Fine (scanName h lower facts dir visible isOpaque lowerDirectory s name) := by
  refine fine_bind (fine_fact _ _) fun fact => ?_
  split
  · refine fine_bind fine_require fun _ => ?_
    split
    · exact fine_pure _
    · refine fine_bind (fine_lifted _) fun _ => fine_bind fine_require fun _ =>
        fine_bind (fine_base _ _ _) fun _ => ?_
      dsimp only
      split <;> exact fine_pure _
  · exact fine_bind (fine_base _ _ _) fun _ => fine_pure _

theorem fine_directory (s : Scan) (q : Pending) : Fine (scanDirectory h limits lower facts s q) := by
  refine fine_bind (fine_fact _ _) fun fact => fine_bind (fine_fold fine_name _ _) fun t =>
    fine_bind ?_ fun _ => fine_bind fine_require fun _ => fine_certain _
  unfold scanHidden
  split
  · refine fine_bind ?_ fun _ => fine_bind fine_require fun _ => fine_bind fine_require fun _ =>
      fine_pure _
    unfold directoryEntries
    dsimp only
    split <;> exact fun heq => nomatch heq
  · exact fine_pure _

theorem fine_root (s : Scan) : Fine (scanRoot h lower facts s) := by
  refine fine_bind ?_ fun _ => ?_
  · unfold pathState
    dsimp only
    split <;> exact fun heq => nomatch heq
  · dsimp only
    split
    · refine fine_bind (fine_fact _ _) fun _ => ?_
      split <;> exact fine_pure _
    · exact fun heq => nomatch heq

/-- Each directory is scanned once, and every one of them has a fact. -/
theorem scan_loop_bounded (S : Setting h upper lower) (F : FactsOk h upper facts)
    (hall : ∀ p x, upper.get p = some x → p ∈ Assoc.keys facts) {fuel : ℕ}
    (I : LoopInv h upper lower facts done s) (hfuel : facts.length ≤ fuel+done.length) :
    Fine (scanLoop h limits lower facts fuel s) := by
  induction fuel generalizing s done with
  | zero =>
    unfold scanLoop
    split
    · exact fun heq => nomatch heq
    · rename_i q rest hq
      exfalso
      have hsub : s.pending.map Prod.fst ++ done ⊆ Assoc.keys facts := by
        intro p hp
        rcases List.mem_append.mp hp with hp | hp
        · obtain ⟨r,hr,rfl⟩ := List.mem_map.mp hp
          obtain ⟨x,hx,-⟩ := (I.work r hr).directory
          exact hall _ x hx
        · obtain ⟨x,hx⟩ := I.inside p hp
          exact hall p x hx
      have hlen := (List.subperm_of_subset I.nodup hsub).length_le
      simp only [hq, Assoc.keys, List.length_append, List.length_map, List.length_cons] at hlen
      omega
  | succ fuel ih =>
    unfold scanLoop
    split
    · exact fun heq => nomatch heq
    · rename_i q rest hq
      simp only
      cases hstep : scanDirectory h limits lower facts {s with pending := rest} q with
      | error e =>
        have hfine : Fine (scanDirectory h limits lower facts {s with pending := rest} q) :=
          fine_directory _ q
        rw [hstep] at hfine
        exact fun heq => hfine (congrArg Except.error (Except.error.inj heq))
      | ok t => exact ih (loop_step S F hq I hstep) (by simp only [List.length_cons]; omega)

/-! ## The result -/

/-- The scan of the root starts the loop. -/
theorem scan_root_ok (S : Setting h upper lower) (F : FactsOk h upper facts)
    (hchanges : s.changes = []) (hpending : s.pending = [([],false,true)])
    (hok : scanRoot h lower facts s = .ok s') : LoopInv h upper lower facts [] s' := by
  simp only [scanRoot, bind_ok] at hok
  obtain ⟨⟨state,meters⟩,hstate,hok⟩ := hok
  obtain rfl : state = lower.get [] := by
    simp only [pathState] at hstate
    split at hstate <;> cases hstate
    rfl
  dsimp only at hok
  split at hok
  swap
  · cases hok
  rename_i root hroot
  simp only [factAt, bind_ok, ok_or_ok] at hok
  obtain ⟨fact,hfact,hok⟩ := hok
  obtain ⟨x,hx⟩ := F _ _ (Assoc.mem_of_lookup hfact)
  obtain ⟨y,hy,hdir⟩ := Tree.get_root (t := upper)
  obtain rfl : x = y := Option.some.inj (hx.node.symm.trans hy)
  have hshown : shown upper [] = true := by simp [shown, hx.node]
  have hempty : Recorded h upper lower {s with meters := meters} :=
    ⟨by simp [hchanges],by simp [hchanges, Assoc.keys]⟩
  have hexpected (c : UpperChange) := expected_visible (c := c) S hshown hx.node hx.identity
  have hpend : PendOk upper lower ([],false,true) :=
    ⟨hshown,⟨x,hx.node,of_decide_eq_true hdir⟩,rfl,by
      simp [hroot, SnapshotNodeIdentity.isDirectory]⟩
  obtain ⟨hrec,hnew,hwork⟩ : Recorded h upper lower s' ∧
      (∀ c, Expected h.hash h.owner upper lower [] c → ([],c) ∈ s'.changes) ∧
      s'.pending = [([],false,true)] := by
    split at hok
    · rename_i hsame
      rw [pure_ok] at hok
      subst hok
      refine ⟨hempty,fun c hc => ?_,hpending⟩
      rw [hexpected, hroot] at hc
      simp [hsame] at hc
    · rename_i hsame
      rw [pure_ok] at hok
      subst hok
      have hdiff : ((lower.get []).any fun b => fact.identity.matches h.owner b) = false := by
        simpa [hroot] using hsame
      have hchange : visibleChange [] (lower.get []) fact.identity
          = ⟨[],.modified,some (.directory root),some fact.identity⟩ := by
        simp [visibleChange, hroot, relPath]
      obtain ⟨hrec,hmem⟩ := record_recorded S hempty ((hexpected _).mpr ⟨hdiff,rfl⟩)
      rw [hchange] at hrec hmem
      refine ⟨hrec,fun c hc => ?_,hpending⟩
      rw [((hexpected c).mp hc).2, hchange]
      exact (hmem _).mpr (.inr rfl)
  refine ⟨hrec,hnew,by simp,.inl (by simp [hwork]),by simp,?_,by simp [hwork],?_,by simp⟩
  · intro q hq
    rw [hwork, List.mem_singleton] at hq
    exact hq ▸ hpend
  · intro n dir hmem
    simp [hwork] at hmem

/-- An expected change lies in a visible directory, or is the root's. -/
theorem expected_parent (S : Setting h upper lower) {n : Text}
    (hc : Expected h.hash h.owner upper lower (n :: dir) c) :
    shown upper dir = true ∧ ∃ x, upper.get dir = some x ∧ x.kind = .directory := by
  cases hc with
  | visible _ u hshown hu hd =>
    obtain ⟨⟨x,hx⟩,-,hdir⟩ := shown_cons.mp hshown
    obtain ⟨y,hy,hkind⟩ := Tree.parent_dir hx
    exact ⟨hdir,y,hy,of_decide_eq_true hkind⟩
  | deleted _ _ base x hb hg hx hkind =>
    refine ⟨?_,x,hx,hkind⟩
    have hplain : (dir.all fun m => !isMarker m) = true := by
      simpa using fun m hm => S.plain _ _ hb m (List.mem_cons_of_mem _ hm)
    simp [shown, hx, hplain]

theorem setting_of_collect {scanned : Scanned} (hcollect : collect h limits upper = .ok scanned)
    (hplain : ∀ p b, lower.get p = some b → ∀ n ∈ p, isMarker n = false) :
    Setting h upper lower where
  ids := fun q hq => by
    simp only [shown, Bool.and_eq_true] at hq
    obtain ⟨x,hx⟩ := Option.isSome_iff_exists.mp hq.1
    exact collect_ids hcollect hx
  plain := hplain

theorem ensure_certain_ok (hok : ensureCertain h s = .ok s') :
    s'.changes = s.changes ∧ s'.pending = s.pending := by
  simp only [ensureCertain] at hok
  split at hok <;> cases hok
  exact ⟨rfl,rfl⟩

/-- The bound on the steps of the loop is never reached. -/
theorem scan_upper_bounded (hplain : ∀ p b, lower.get p = some b → ∀ n ∈ p, isMarker n = false) :
    Fine (scanUpper h limits lower upper) := by
  refine fine_bind_of (fine_certain _) fun s₀ hs₀ => ?_
  obtain ⟨hc₀,hp₀⟩ := ensure_certain_ok hs₀
  split
  · exact fun heq => nomatch heq
  refine fine_bind_of (fine_lifted _) fun scanned hcollect => ?_
  rw [lifted, map_error_ok] at hcollect
  have S : Setting h upper lower := setting_of_collect hcollect hplain
  have F := collect_ok hcollect
  refine fine_bind_of (fine_root _) fun s₁ hs₁ => ?_
  have I := scan_root_ok (s := {s₀ with meters := scanned.meters}) S F hc₀ hp₀ hs₁
  refine fine_bind (scan_loop_bounded S F (fun p x hx => collect_all hcollect hx) I (by simp))
    fun s₂ => fine_bind (fine_lifted _) fun _ => fine_bind (fine_certain _) fun _ => fine_pure _

/-- A scan that succeeds returns one change for each expected one, and no other; it returns none
exactly when the merged view is the lower tree. -/
theorem upper_diff_exact (h : Host) (limits : DiffLimits) (lower : LowerTree) (upper : UpperTree)
    (hplain : ∀ p b, lower.get p = some b → ∀ n ∈ p, isMarker n = false) (diff : UpperDiff)
    (hok : scanUpper h limits lower upper = .ok diff) :
    (∃ changes : List (Path × UpperChange), (changes.map Prod.fst).Nodup ∧
      diff.changes.Perm (changes.map Prod.snd) ∧
      ∀ p c, (p,c) ∈ changes ↔ Expected h.hash h.owner upper lower p c) ∧
    (diff.changes = [] ↔
      ∀ p, merged h.hash h.owner upper lower p = lowerView h.owner lower p) := by
  simp only [scanUpper, bind_ok] at hok
  obtain ⟨s₀,hs₀,hok⟩ := hok
  split at hok
  · cases hok
  simp only [bind_ok, lifted, map_error_ok, pure_ok] at hok
  obtain ⟨scanned,hcollect,s₁,hs₁,s₂,hs₂,-,-,s₃,hs₃,rfl⟩ := hok
  have S : Setting h upper lower := setting_of_collect hcollect hplain
  have F := collect_ok hcollect
  obtain ⟨hc₀,hp₀⟩ := ensure_certain_ok hs₀
  have hs₃' := (ensure_certain_ok hs₃).1
  obtain ⟨done,I,hnil⟩ := scan_loop_ok S F (scan_root_ok (s := {s₀ with meters := scanned.meters})
    S F hc₀ hp₀ hs₁) hs₂
  have hmem (p : Path) (c : UpperChange) :
      (p,c) ∈ s₂.changes ↔ Expected h.hash h.owner upper lower p c := by
    refine ⟨I.recorded.expected p c,fun hc => ?_⟩
    cases p with
    | nil => exact I.root c hc
    | cons n dir =>
      obtain ⟨hshown,x,hx,hkind⟩ := expected_parent S hc
      exact I.complete dir (I.all_done hnil hshown hx hkind) n c hc
  have hperm : (sorted s₃.changes).Perm (s₂.changes.map Prod.snd) := by
    rw [hs₃']
    exact List.perm_insertionSort _ _
  refine ⟨⟨s₂.changes,I.recorded.nodup,hperm,hmem⟩,?_⟩
  rw [← no_expected_iff S.ids hplain]
  constructor
  · intro hnone p c hc
    have hin := (hmem p c).mpr hc
    have hnil' : s₂.changes.map Prod.snd = [] := List.nil_perm.mp (hnone ▸ hperm)
    rw [List.map_eq_nil_iff.mp hnil'] at hin
    cases hin
  · intro hnone
    have hnil' : s₂.changes = [] := List.eq_nil_iff_forall_not_mem.mpr fun r hin =>
      hnone r.1 r.2 ((hmem r.1 r.2).mp hin)
    rw [hnil'] at hperm
    exact List.perm_nil.mp hperm

/-! ## A small overlay -/

namespace Sample

def host : Host where
  codec := RadixTree.Sample.codec
  owner := ⟨1000,1000⟩
  hash := RadixTree.Sample.digestOf
  metadataPath := fun _ => .ok ()
  lowerFails := fun _ => none
  uncertain := fun _ => none

/-- The file `a`, and the directory `d` with the file `x`. -/
def base : LowerTree := .ofRows _ [([],.directory "r"),([txt "a"],.regular 3 "sha256:a"),
  ([txt "d"],.directory "s"),([txt "x",txt "d"],.executable 5 "sha256:x")] (by decide) (by decide)

def node (kind : FileKind) (mode : ℕ) (body : Bytes) : UpperNode :=
  ⟨kind,mode,1000,1000,body.length,none,.ok 0,.ok body⟩

/-- A whiteout of `a`, and an opaque `d` with the new file `y`. -/
def layer : UpperTree := .ofRows _ [([],node .directory 493 []),([txt ".wh.a"],node .regular 420 []),
  ([txt "d"],node .directory 493 []),([txt ".wh..wh..opq",txt "d"],node .regular 420 []),
  ([txt "y",txt "d"],node .regular 420 [7])] (by decide) (by decide)

def diff : List (Text × UpperChangeKind) := [("a",.deleted),("d/x",.deleted),("d/y",.added)]

end Sample

theorem upper_diff_exact_sample : ∃ d, scanUpper Sample.host {} Sample.base Sample.layer = .ok d ∧
    d.changes.map (fun c => (c.relPath,c.kind)) = Sample.diff ∧
    (∃ changes : List (Path × UpperChange), (changes.map Prod.fst).Nodup ∧
      d.changes.Perm (changes.map Prod.snd) ∧ ∀ p c, (p,c) ∈ changes ↔
        Expected Sample.host.hash Sample.host.owner Sample.layer Sample.base p c) ∧
    (d.changes = [] ↔ ∀ p, merged Sample.host.hash Sample.host.owner Sample.layer Sample.base p
      = lowerView Sample.host.owner Sample.base p) := by
  have hrun : (scanUpper Sample.host {} Sample.base Sample.layer).toOption.map
      (fun d => d.changes.map fun c => (c.relPath,c.kind)) = some Sample.diff := by decide +kernel
  cases hscan : scanUpper Sample.host {} Sample.base Sample.layer with
  | error e => simp [hscan, Except.toOption] at hrun
  | ok d =>
    have hplain : ∀ row ∈ Sample.base.rows, ∀ n ∈ row.1, isMarker n = false := by decide
    refine ⟨d,rfl,by simpa [hscan, Except.toOption] using hrun,
      upper_diff_exact Sample.host {} Sample.base Sample.layer (fun p b hb => ?_) d hscan⟩
    exact hplain _ (Tree.get_eq_some.mp hb)

theorem scan_upper_bounded_sample : Fine (scanUpper Sample.host {} Sample.base Sample.layer) := by
  have hplain : ∀ row ∈ Sample.base.rows, ∀ n ∈ row.1, isMarker n = false := by decide
  exact scan_upper_bounded fun p b hb => hplain _ (Tree.get_eq_some.mp hb)

end Scorpio.UpperScan
