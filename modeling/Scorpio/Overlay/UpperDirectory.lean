import Scorpio.Overlay.OverlayView

/-!
# The scan of one directory

A directory on the work list carries whether the lower is exposed there and
whether it is a directory there. Its scan records only changes that are expected,
leaves out none that is expected in it, and puts its visible subdirectories on the
work list with flags that are right again.
-/

set_option autoImplicit false

namespace Scorpio.UpperScan

open ByteText Fallible DirectoryTree

variable {h : Host} {limits : DiffLimits} {upper : UpperTree} {lower : LowerTree}

/-- The directories the scan may be at: the flags say whether the lower is exposed there, and
whether it is a directory there. -/
structure PendOk (upper : UpperTree) (lower : LowerTree) (q : Pending) : Prop where
  visible : shown upper q.1 = true
  directory : ∃ x, upper.get q.1 = some x ∧ x.kind = .directory
  inherited : exposed upper q.1 = !q.2.1
  lower : q.2.2 = (lower.get q.1).any SnapshotNodeIdentity.isDirectory

/-- What is recorded is expected. -/
structure Recorded (h : Host) (upper : UpperTree) (lower : LowerTree) (s : Scan) : Prop where
  expected : ∀ p c, (p,c) ∈ s.changes → Expected h.hash h.owner upper lower p c
  nodup : (Assoc.keys s.changes).Nodup

/-- The hypotheses on the two trees that the proofs below share. -/
structure Setting (h : Host) (upper : UpperTree) (lower : LowerTree) : Prop where
  ids : ∀ q, shown upper q = true → (upperAt h.hash upper q).isSome
  plain : ∀ p b, lower.get p = some b → ∀ n ∈ p, isMarker n = false

variable {s s' : Scan} {p dir : Path} {c : UpperChange}

theorem record_recorded (S : Setting h upper lower) (hs : Recorded h upper lower s)
    (hc : Expected h.hash h.owner upper lower p c) :
    Recorded h upper lower (record s p c) ∧
      ∀ x, x ∈ (record s p c).changes ↔ x ∈ s.changes ∨ x = (p,c) := by
  have hmem (x : Path × UpperChange) : x ∈ (record s p c).changes ↔ x ∈ s.changes ∨ x = (p,c) := by
    rw [record, Assoc.mem_insert]
    constructor
    · rintro (⟨hx,-⟩ | hx)
      · exact .inl hx
      · exact .inr hx
    · rintro (hx | hx)
      · by_cases hp : x.1 = p
        · right
          obtain ⟨q,c'⟩ := x
          dsimp only at hp
          subst hp
          rw [(hs.expected q c' hx).functional S.ids hc]
        · exact .inl ⟨hx,hp⟩
      · exact .inr hx
  refine ⟨⟨fun q c' hq => ?_,Assoc.keys_insert_nodup hs.nodup⟩,hmem⟩
  rcases (hmem _).mp hq with hq | hq
  · exact hs.expected q c' hq
  · cases hq
    exact hc

variable {n : Text} {x : UpperNode}

/-- The lower node of a name, if the directory is a lower directory; there is none otherwise. -/
theorem base_at_ok {m m' : DiffMeters} {lowerDirectory : Bool}
    {base : Option SnapshotNodeIdentity}
    (hlower : lowerDirectory = (lower.get dir).any SnapshotNodeIdentity.isDirectory)
    (hok : baseAt h lower m (n :: dir) lowerDirectory = .ok (base,m')) :
    base = lower.get (n :: dir) := by
  simp only [baseAt, bind_ok] at hok
  obtain ⟨-,-,hok⟩ := hok
  split at hok
  · simp only [pathState] at hok
    split at hok
    · cases hok
    · cases hok
      rfl
  · rename_i hfalse
    rw [pure_ok] at hok
    cases hok
    symm
    by_contra hne
    obtain ⟨b,hb⟩ := Option.ne_none_iff_exists'.mp hne
    obtain ⟨d,hd,hdir⟩ := Tree.parent_dir hb
    simp [hlower, hd, hdir] at hfalse

/-- A deletion is expected below a directory of the upper that hides the name. -/
theorem expected_deletion {base : SnapshotNodeIdentity}
    (hdir : ∃ x, upper.get dir = some x ∧ x.kind = .directory)
    (hbase : lower.get (n :: dir) = some base) (hshown : shown upper (n :: dir) = false)
    (hexposed : exposed upper (n :: dir) = false) :
    Expected h.hash h.owner upper lower (n :: dir) (deletion (n :: dir) base) := by
  obtain ⟨x,hx,hkind⟩ := hdir
  refine .deleted n dir base x hbase ?_ hx hkind
  simp [merged, hshown, hexposed]

theorem marker_split {name : Text} (hm : isMarker name = true) : wh ++ name.drop 4 = name := by
  obtain ⟨rest,hrest⟩ := of_decide_eq_true hm
  rw [← hrest]
  have hlen : wh.length = 4 := by decide
  rw [← hlen, List.drop_left]

/-- What the scan of one name must have done. -/
structure NameDone (h : Host) (upper : UpperTree) (lower : LowerTree) (dir : Path)
    (visible : List Text) (isOpaque : Bool) (name : Text) (s : Scan) : Prop where
  target : isMarker name = true → name ≠ opq → name.drop 4 ∉ visible
  whiteout : isMarker name = true → name ≠ opq → ∀ b, lower.get (name.drop 4 :: dir) = some b →
    (name.drop 4 :: dir,deletion (name.drop 4 :: dir) b) ∈ s.changes
  change : isMarker name = false → ∀ c, Expected h.hash h.owner upper lower (name :: dir) c →
    (name :: dir,c) ∈ s.changes
  pushed : isMarker name = false → ∀ x, upper.get (name :: dir) = some x → x.kind = .directory →
    ∃ l, (name :: dir,isOpaque,l) ∈ s.pending

theorem NameDone.mono {visible : List Text} {isOpaque : Bool} {name : Text}
    (hn : NameDone h upper lower dir visible isOpaque name s)
    (hc : ∀ x ∈ s.changes, x ∈ s'.changes) (hp : ∀ q ∈ s.pending, q ∈ s'.pending) :
    NameDone h upper lower dir visible isOpaque name s' where
  target := hn.target
  whiteout := fun hm ho b hb => hc _ (hn.whiteout hm ho b hb)
  change := fun hm c he => hc _ (hn.change hm c he)
  pushed := fun hm x hx hk => (hn.pushed hm x hx hk).imp fun _ hl => hp _ hl

/-- The names of a directory, and those of them that are visible. -/
structure Listing (upper : UpperTree) (dir : Path) (names visible : List Text) : Prop where
  all : ∀ n, n ∈ names ↔ ∃ x, upper.get (n :: dir) = some x
  seen : ∀ n, n ∈ visible ↔ n ∈ names ∧ isMarker n = false
  nodup : names.Nodup

variable {names visible : List Text} {isOpaque inherited lowerDirectory : Bool} {name : Text}
  {node : UpperNodeIdentity}

theorem Listing.shown_iff (L : Listing upper dir names visible) (hdir : shown upper dir = true) :
    shown upper (n :: dir) = true ↔ n ∈ visible := by
  rw [shown_cons, L.seen, L.all]
  simp [hdir]

theorem Listing.not_shown (L : Listing upper dir names visible) (hdir : shown upper dir = true)
    (hn : n ∉ visible) : shown upper (n :: dir) = false := by
  rw [← Bool.not_eq_true, L.shown_iff hdir]
  exact hn

/-- The state of a scan only gains changes and work. -/
structure Grows (s s' : Scan) : Prop where
  changes : ∀ x ∈ s.changes, x ∈ s'.changes
  pending : ∀ q ∈ s.pending, q ∈ s'.pending

theorem Grows.refl (s : Scan) : Grows s s := ⟨fun _ h => h,fun _ h => h⟩

theorem scan_marker_ok (S : Setting h upper lower) (P : PendOk upper lower (dir,inherited,lowerDirectory))
    (L : Listing upper dir names visible) (hname : name ∈ names) (hm : isMarker name = true)
    (hs : Recorded h upper lower s)
    (hok : scanMarker h lower dir visible lowerDirectory node s name = .ok s') :
    Recorded h upper lower s' ∧ Grows s s' ∧ s'.pending = s.pending ∧
      NameDone h upper lower dir visible isOpaque name s' := by
  have hvisible {t : Scan} : isMarker name = false → ∀ c,
      Expected h.hash h.owner upper lower (name :: dir) c → (name :: dir,c) ∈ t.changes := by
    simp [hm]
  have hpushed {t : Scan} : isMarker name = false → ∀ x, upper.get (name :: dir) = some x →
      x.kind = .directory → ∃ l, (name :: dir,isOpaque,l) ∈ t.pending := by
    simp [hm]
  simp only [scanMarker, bind_ok, require_ok] at hok
  obtain ⟨-,-,hok⟩ := hok
  split at hok
  · rename_i hopq
    rw [pure_ok] at hok
    subst hok
    exact ⟨hs,.refl s,rfl,fun _ hne => absurd hopq hne,fun _ hne => absurd hopq hne,hvisible,hpushed⟩
  · simp only [bind_ok, require_ok, decide_eq_true_eq] at hok
    obtain ⟨-,-,-,htarget,⟨base,meters⟩,hbase,hok⟩ := hok
    dsimp only at hok
    obtain rfl := base_at_ok P.lower hbase
    cases hb : lower.get (name.drop 4 :: dir) with
    | none =>
      simp only [hb, pure_ok] at hok
      subst hok
      exact ⟨⟨hs.expected,hs.nodup⟩,⟨fun _ h => h,fun _ h => h⟩,rfl,fun _ _ => htarget.2,
        fun _ _ b hb' => (by rw [hb] at hb'; cases hb'),hvisible,hpushed⟩
    | some b =>
      simp only [hb, pure_ok] at hok
      subst hok
      obtain ⟨x,hx⟩ := (L.all name).mp hname
      have hexposed : exposed upper (name.drop 4 :: dir) = false := by
        simp [exposed, marker_split hm, hx]
      have hexpected := expected_deletion (h := h) P.directory hb
        (L.not_shown P.visible htarget.2) hexposed
      obtain ⟨hrec,hmem⟩ := record_recorded (s := {s with meters := meters}) S
        ⟨hs.expected,hs.nodup⟩ hexpected
      refine ⟨hrec,⟨fun x hx => (hmem x).mpr (.inl hx),fun _ h => h⟩,rfl,fun _ _ => htarget.2,
        fun _ _ b' hb' => ?_,hvisible,hpushed⟩
      rw [hb] at hb'
      cases hb'
      exact (hmem _).mpr (.inr rfl)

theorem identity_directory (hid : nodeIdentity h.hash x = some node) :
    node.isDirectory = true ↔ x.kind = .directory := by
  rw [← not_directory_view hid]
  cases node <;> simp [UpperNodeIdentity.isDirectory, UpperNodeIdentity.view]

/-- A visible node is unchanged when the lower node of its path matches it. -/
theorem unchanged_iff : ((lower.get p).any fun b => node.matches h.owner b) = true ↔
    (lower.get p).map (SnapshotNodeIdentity.view h.owner) = some node.view := by
  cases lower.get p with
  | none => simp
  | some b => rw [Option.any_some, matches_iff, Option.map_some, Option.some.injEq, eq_comm]

/-- The only change that is expected of a visible node is the one that is recorded. -/
theorem expected_visible (S : Setting h upper lower) (hshown : shown upper p = true)
    (hx : upper.get p = some x) (hid : nodeIdentity h.hash x = some node) :
    Expected h.hash h.owner upper lower p c ↔
      ((lower.get p).any fun b => node.matches h.owner b) = false ∧
        c = visibleChange p (lower.get p) node := by
  have hu : upperAt h.hash upper p = some node := by simp [upperAt, hx, hid]
  constructor
  · intro hc
    have hne : ((lower.get p).any fun b => node.matches h.owner b) = false := by
      rw [← Bool.not_eq_true, unchanged_iff]
      intro heq
      cases hc with
      | visible _ u _ hu' hd =>
        rw [hu] at hu'
        cases hu'
        exact hd heq
      | deleted n dir base y hb hg hy hdir => simp [merged, hshown, hu] at hg
    refine ⟨hne,hc.functional S.ids (.visible p node hshown hu ?_)⟩
    rw [Ne, ← unchanged_iff, hne]
    simp
  · rintro ⟨hne,rfl⟩
    refine .visible p node hshown hu ?_
    rw [Ne, ← unchanged_iff, hne]
    simp

theorem scan_visible_ok (S : Setting h upper lower)
    (P : PendOk upper lower (dir,inherited,lowerDirectory)) (L : Listing upper dir names visible)
    (hname : name ∈ names) (hm : isMarker name = false) (hx : upper.get (name :: dir) = some x)
    (hid : nodeIdentity h.hash x = some node) (hs : Recorded h upper lower s)
    (hok : scanVisible h lower dir isOpaque lowerDirectory node s name = .ok s') :
    Recorded h upper lower s' ∧ Grows s s' ∧ s'.pending = (if x.kind = .directory then
      [(name :: dir,isOpaque,(lower.get (name :: dir)).any SnapshotNodeIdentity.isDirectory)]
        else []) ++ s.pending ∧ NameDone h upper lower dir visible isOpaque name s' := by
  simp only [scanVisible, bind_ok, pure_ok] at hok
  obtain ⟨⟨base,meters⟩,hbase,rfl⟩ := hok
  dsimp only
  obtain rfl := base_at_ok P.lower hbase
  have hshown : shown upper (name :: dir) = true := (L.shown_iff P.visible).mpr
    ((L.seen name).mpr ⟨hname,hm⟩)
  have hexpected (c : UpperChange) := expected_visible (c := c) S hshown hx hid
  -- the changes after the comparison with the lower node
  obtain ⟨t,ht,hrec,hkeep,hpend,hnew⟩ : ∃ t, t = (if ((lower.get (name :: dir)).any fun b =>
      node.matches h.owner b) then {s with meters := meters} else record {s with meters := meters}
        (name :: dir) (visibleChange (name :: dir) (lower.get (name :: dir)) node)) ∧
      Recorded h upper lower t ∧ (∀ x ∈ s.changes, x ∈ t.changes) ∧ t.pending = s.pending ∧
      ∀ c, Expected h.hash h.owner upper lower (name :: dir) c → (name :: dir,c) ∈ t.changes := by
    refine ⟨_,rfl,?_⟩
    split
    · rename_i hsame
      refine ⟨⟨hs.expected,hs.nodup⟩,fun _ h => h,rfl,fun c hc => ?_⟩
      rw [hexpected, hsame] at hc
      cases hc.1
    · rename_i hsame
      rw [Bool.not_eq_true] at hsame
      obtain ⟨hrec,hmem⟩ := record_recorded (s := {s with meters := meters}) S
        ⟨hs.expected,hs.nodup⟩ ((hexpected _).mpr ⟨hsame,rfl⟩)
      refine ⟨hrec,fun x hx => (hmem x).mpr (.inl hx),rfl,fun c hc => ?_⟩
      rw [((hexpected c).mp hc).2]
      exact (hmem _).mpr (.inr rfl)
  rw [← ht]
  by_cases hkind : x.kind = .directory
  · rw [if_pos ((identity_directory hid).mpr hkind), if_pos hkind]
    refine ⟨⟨hrec.expected,hrec.nodup⟩,⟨hkeep,fun q hq => List.mem_cons_of_mem _ (hpend ▸ hq)⟩,
      by rw [hpend]; rfl,by simp [hm],by simp [hm],fun _ => hnew,fun _ _ _ _ => ?_⟩
    exact ⟨_,List.mem_cons_self⟩
  · have hnode : ¬ node.isDirectory = true := fun hd => hkind ((identity_directory hid).mp hd)
    rw [if_neg hnode, if_neg hkind]
    refine ⟨hrec,⟨hkeep,fun q hq => hpend ▸ hq⟩,hpend,by simp [hm],by simp [hm],fun _ => hnew,
      fun _ y hy hk => ?_⟩
    rw [hx] at hy
    cases hy
    exact absurd hk hkind

/-- The work that the scan of a directory adds. -/
def Pushed (upper : UpperTree) (lower : LowerTree) (dir : Path) (isOpaque : Bool)
    (q : Pending) : Prop :=
  ∃ n x, isMarker n = false ∧ upper.get (n :: dir) = some x ∧ x.kind = .directory ∧
    q = (n :: dir,isOpaque,(lower.get (n :: dir)).any SnapshotNodeIdentity.isDirectory)

/-- What holds while the names of a directory are scanned; `rest` are the names to come. -/
structure Midway (h : Host) (upper : UpperTree) (lower : LowerTree) (dir : Path)
    (names : List Text) (isOpaque : Bool) (s t : Scan) (rest : List Text) : Prop where
  recorded : Recorded h upper lower t
  grows : Grows s t
  work : ∀ q ∈ t.pending, q ∈ s.pending ∨ Pushed upper lower dir isOpaque q
  listed : ∀ n ∈ rest, n ∈ names
  distinct : rest.Nodup
  nodup : (t.pending.map Prod.fst).Nodup
  fresh : ∀ n ∈ rest, (n :: dir) ∉ t.pending.map Prod.fst

variable {facts : List (Path × Fact)} {t t' : Scan} {rest : List Text}

theorem scan_name_ok (S : Setting h upper lower) (F : FactsOk h upper facts)
    (P : PendOk upper lower (dir,inherited,lowerDirectory))
    (L : Listing upper dir names visible)
    (M : Midway h upper lower dir names isOpaque s t (name :: rest))
    (hok : scanName h lower facts dir visible isOpaque lowerDirectory t name = .ok t') :
    Midway h upper lower dir names isOpaque s t' rest ∧
      NameDone h upper lower dir visible isOpaque name t' ∧ Grows t t' := by
  simp only [scanName, factAt, bind_ok, ok_or_ok] at hok
  obtain ⟨fact,hfact,hok⟩ := hok
  obtain ⟨x,hx⟩ := F _ _ (Assoc.mem_of_lookup hfact)
  have hname := M.listed name List.mem_cons_self
  obtain ⟨hnew,hrest⟩ := List.nodup_cons.mp M.distinct
  split at hok
  · rename_i hm
    have hmarker : Recorded h upper lower t' ∧ Grows t t' ∧ t'.pending = t.pending ∧
        NameDone h upper lower dir visible isOpaque name t' :=
      scan_marker_ok S P L hname hm M.recorded hok
    obtain ⟨hrec,hgrow,hpend,hdone⟩ := hmarker
    refine ⟨⟨hrec,⟨fun y hy => hgrow.changes y (M.grows.changes y hy),
      fun q hq => hgrow.pending q (M.grows.pending q hq)⟩,?_,fun n hn =>
      M.listed n (List.mem_cons_of_mem _ hn),hrest,?_,?_⟩,hdone,hgrow⟩
    · rw [hpend]
      exact M.work
    · rw [hpend]
      exact M.nodup
    · rw [hpend]
      exact fun n hn => M.fresh n (List.mem_cons_of_mem _ hn)
  · rename_i hm
    rw [Bool.not_eq_true] at hm
    obtain ⟨hrec,hgrow,hpend,hdone⟩ := scan_visible_ok S P L hname hm hx.node hx.identity
      M.recorded hok
    refine ⟨⟨hrec,⟨fun y hy => hgrow.changes y (M.grows.changes y hy),
      fun q hq => hgrow.pending q (M.grows.pending q hq)⟩,?_,fun n hn =>
      M.listed n (List.mem_cons_of_mem _ hn),hrest,?_,?_⟩,hdone,hgrow⟩
    · intro q hq
      rw [hpend, List.mem_append] at hq
      rcases hq with hq | hq
      · split at hq
        · rename_i hkind
          exact .inr ⟨name,x,hm,hx.node,hkind,List.mem_singleton.mp hq⟩
        · cases hq
      · exact M.work q hq
    · rw [hpend]
      split
      · simpa using ⟨by simpa using M.fresh name List.mem_cons_self,M.nodup⟩
      · exact M.nodup
    · intro n hn
      rw [hpend]
      have hold := M.fresh n (List.mem_cons_of_mem _ hn)
      have hne : n ≠ name := fun heq => hnew (heq ▸ hn)
      split
      · simpa [hne] using hold
      · exact hold

theorem scan_names_ok (S : Setting h upper lower) (F : FactsOk h upper facts)
    (P : PendOk upper lower (dir,inherited,lowerDirectory))
    (L : Listing upper dir names visible) (hs : Recorded h upper lower s)
    (hnodup : (s.pending.map Prod.fst).Nodup)
    (hfresh : ∀ n ∈ names, (n :: dir) ∉ s.pending.map Prod.fst)
    (hok : names.foldlM (scanName h lower facts dir visible isOpaque lowerDirectory) s = .ok t) :
    Midway h upper lower dir names isOpaque s t [] ∧
      ∀ name ∈ names, NameDone h upper lower dir visible isOpaque name t := by
  have hloop := foldlM_each _ (fun t rest => Midway h upper lower dir names isOpaque s t rest)
    (fun name t => NameDone h upper lower dir visible isOpaque name t)
    (fun t name rest t' hM hstep => by
      obtain ⟨hM',hdone,hgrow⟩ := scan_name_ok S F P L hM hstep
      exact ⟨hM',hdone,fun y hy => hy.mono hgrow.changes hgrow.pending⟩)
    names ⟨hs,.refl s,fun q hq => .inl hq,fun _ hn => hn,L.nodup,hnodup,hfresh⟩ hok
  exact ⟨hloop.1,hloop.2.1⟩

/-- Where the lower is not exposed, every lower name that is not visible is deleted. -/
theorem hide_entries_ok (S : Setting h upper lower)
    (P : PendOk upper lower (dir,inherited,lowerDirectory))
    (L : Listing upper dir names visible) (hclosed : ∀ n, exposed upper (n :: dir) = false)
    {entries : List (Text × SnapshotNodeIdentity)}
    (hentries : ∀ e ∈ entries, lower.get (e.1 :: dir) = some e.2) (hs : Recorded h upper lower s) :
    Recorded h upper lower (entries.foldl (hideEntry dir visible) s) ∧
      (entries.foldl (hideEntry dir visible) s).pending = s.pending ∧
      (∀ x ∈ s.changes, x ∈ (entries.foldl (hideEntry dir visible) s).changes) ∧
      ∀ e ∈ entries, e.1 ∉ visible →
        (e.1 :: dir,deletion (e.1 :: dir) e.2) ∈ (entries.foldl (hideEntry dir visible) s).changes := by
  induction entries generalizing s with
  | nil => exact ⟨hs,rfl,fun _ h => h,by simp⟩
  | cons e entries ih =>
    have hrest : ∀ e ∈ entries, lower.get (e.1 :: dir) = some e.2 := fun e' he' =>
      hentries e' (List.mem_cons_of_mem _ he')
    rw [List.foldl_cons]
    by_cases hv : e.1 ∈ visible
    · have hstep : hideEntry dir visible s e = s := by simp [hideEntry, hv]
      rw [hstep]
      obtain ⟨hrec,hpend,hkeep,hall⟩ := ih hrest hs
      refine ⟨hrec,hpend,hkeep,fun e' he' hne => ?_⟩
      rcases List.mem_cons.mp he' with rfl | he'
      · exact absurd hv hne
      · exact hall e' he' hne
    · have hstep : hideEntry dir visible s e
          = record s (e.1 :: dir) (deletion (e.1 :: dir) e.2) := by simp [hideEntry, hv]
      rw [hstep]
      have hexpected := expected_deletion (h := h) P.directory (hentries e List.mem_cons_self)
        (L.not_shown P.visible hv) (hclosed e.1)
      obtain ⟨hrec₁,hmem⟩ := record_recorded S hs hexpected
      obtain ⟨hrec,hpend,hkeep,hall⟩ := ih hrest hrec₁
      refine ⟨hrec,hpend,fun x hx => hkeep x ((hmem x).mpr (.inl hx)),fun e' he' hne => ?_⟩
      rcases List.mem_cons.mp he' with rfl | he'
      · exact hkeep _ ((hmem _).mpr (.inr rfl))
      · exact hall e' he' hne

theorem Listing.of_fact {f : Fact} (hf : FactOk h upper dir f x) (hdir : x.kind = .directory) :
    Listing upper dir f.children (f.children.filter fun name => !isMarker name) where
  all := fun n => by
    rw [(hf.children hdir).mem_iff, List.mem_map]
    constructor
    · rintro ⟨⟨m,y⟩,hmem,rfl⟩
      exact ⟨y,Tree.mem_children.mp hmem⟩
    · rintro ⟨y,hy⟩
      exact ⟨(n,y),Tree.mem_children.mpr hy,rfl⟩
  seen := fun n => by simp
  nodup := (hf.children hdir).nodup_iff.mpr Tree.children_nodup

/-- All that is expected in a directory has been recorded, and its subdirectories are work. -/
structure DirDone (h : Host) (upper : UpperTree) (lower : LowerTree) (dir : Path) (s s' : Scan) :
    Prop where
  recorded : Recorded h upper lower s'
  changes : ∀ x ∈ s.changes, x ∈ s'.changes
  complete : ∀ n c, Expected h.hash h.owner upper lower (n :: dir) c → (n :: dir,c) ∈ s'.changes
  kept : ∀ q ∈ s.pending, q ∈ s'.pending
  pushed : ∀ n x, shown upper (n :: dir) = true → upper.get (n :: dir) = some x →
    x.kind = .directory → n :: dir ∈ s'.pending.map Prod.fst
  work : ∀ q ∈ s'.pending, q ∈ s.pending ∨ (PendOk upper lower q ∧ ∃ n, q.1 = n :: dir)
  nodup : (s'.pending.map Prod.fst).Nodup

theorem marker_append (n : Text) : isMarker (wh ++ n) = true := by simp [isMarker]

theorem drop_marker (n : Text) : (wh ++ n).drop 4 = n := by
  have hlen : wh.length = 4 := by decide
  rw [← hlen, List.drop_left]

/-- A whiteout of a plain name is not the opaque marker. -/
theorem whiteout_ne_opq (hn : isMarker n = false) : wh ++ n ≠ opq := by
  intro heq
  have hsplit : opq = wh ++ txt ".wh..opq" := by decide
  rw [hsplit, List.append_cancel_left_eq] at heq
  rw [heq] at hn
  exact absurd hn (by decide)

/-- Whether the lower is exposed at a name of a scanned directory. -/
theorem exposed_child (P : PendOk upper lower (dir,inherited,lowerDirectory))
    (L : Listing upper dir names visible) :
    exposed upper (n :: dir) = (!(inherited || names.contains opq) && !names.contains (wh ++ n)) := by
  have hnone (m : Text) : (upper.get (m :: dir)).isNone = !names.contains m := by
    rw [Bool.eq_iff_iff, Option.isNone_iff_eq_none, Bool.not_eq_true', ← Bool.not_eq_true,
      List.contains_iff_mem, L.all]
    constructor
    · rintro hm ⟨x,hx⟩
      rw [hm] at hx
      cases hx
    · intro hm
      by_contra hne
      exact hm (Option.ne_none_iff_exists'.mp hne)
  obtain ⟨x,hx,hkind⟩ := P.directory
  have hin : exposed upper dir = !inherited := P.inherited
  have hdir : (upper.get dir).all (fun x => decide (x.kind = .directory)) = true := by
    simp [show upper.get dir = some x from hx, hkind]
  rw [exposed, hin, hdir, hnone, hnone, Bool.not_or, Bool.and_true]

theorem scan_opaque_ok (S : Setting h upper lower)
    (P : PendOk upper lower (dir,inherited,lowerDirectory)) (L : Listing upper dir names visible)
    (hclosed : ∀ n, exposed upper (n :: dir) = false) (hs : Recorded h upper lower s)
    (hok : scanOpaque h limits lower dir visible s = .ok s') :
    Recorded h upper lower s' ∧ s'.pending = s.pending ∧ (∀ x ∈ s.changes, x ∈ s'.changes) ∧
      ∀ n b, lower.get (n :: dir) = some b → n ∉ visible →
        (n :: dir,deletion (n :: dir) b) ∈ s'.changes := by
  simp only [scanOpaque, bind_ok, require_ok, pure_ok] at hok
  obtain ⟨⟨entries,meters⟩,hentries,-,-,-,-,rfl⟩ := hok
  have hall : entries = lower.children dir := by
    simp only [directoryEntries] at hentries
    split at hentries
    · cases hentries
    · cases hentries
      rfl
  subst hall
  obtain ⟨hrec,hpend,hkeep,hnew⟩ := hide_entries_ok (s := {s with meters := {meters with
      lowerDirectoryEntries := meters.lowerDirectoryEntries+(lower.children dir).length}}) S P L
    hclosed (fun e he => Tree.mem_children.mp he) ⟨hs.expected,hs.nodup⟩
  exact ⟨hrec,hpend,hkeep,fun n b hb hv => hnew (n,b) (Tree.mem_children.mpr hb) hv⟩

theorem scan_directory_ok (S : Setting h upper lower) (F : FactsOk h upper facts)
    (P : PendOk upper lower (dir,inherited,lowerDirectory)) (hs : Recorded h upper lower s)
    (hnodup : (s.pending.map Prod.fst).Nodup)
    (hfresh : ∀ n, (n :: dir) ∉ s.pending.map Prod.fst)
    (hok : scanDirectory h limits lower facts s (dir,inherited,lowerDirectory) = .ok s') :
    DirDone h upper lower dir s s' := by
  simp only [scanDirectory, factAt, bind_ok, ok_or_ok, require_ok] at hok
  obtain ⟨fact,hfact,t,hnames,u,hu,-,-,hend⟩ := hok
  obtain ⟨x,hx⟩ := F _ _ (Assoc.mem_of_lookup hfact)
  obtain ⟨y,hy,hkind⟩ := P.directory
  obtain rfl : x = y := Option.some.inj (hx.node.symm.trans hy)
  have L := Listing.of_fact hx hkind
  obtain ⟨M,hdone⟩ := scan_names_ok S F P L hs hnodup (fun n _ => hfresh n) hnames
  have hexposed (n : Text) := exposed_child (n := n) P L
  generalize hclosed : (inherited || fact.children.contains opq) = isOpaque at *
  -- the opaque pass, if there is one
  have hpass : Recorded h upper lower u ∧ u.pending = t.pending ∧
      (∀ x ∈ t.changes, x ∈ u.changes) ∧ (isOpaque = true → lowerDirectory = true → ∀ n b,
        lower.get (n :: dir) = some b → n ∉ fact.children.filter (fun name => !isMarker name) →
        (n :: dir,deletion (n :: dir) b) ∈ u.changes) := by
    unfold scanHidden at hu
    split at hu
    · rename_i hboth
      rw [Bool.and_eq_true] at hboth
      obtain ⟨hrec,hpend,hkeep,hnew⟩ := scan_opaque_ok S P L
        (fun n => by rw [hexposed, hboth.1]; rfl) M.recorded hu
      exact ⟨hrec,hpend,hkeep,fun _ _ => hnew⟩
    · rename_i hboth
      rw [pure_ok] at hu
      subst hu
      exact ⟨M.recorded,rfl,fun _ h => h,fun ho hl => absurd (by simp [ho, hl]) hboth⟩
  obtain ⟨hrec,hpend,hkeep,hhidden⟩ := hpass
  have hcertain : s'.changes = u.changes ∧ s'.pending = u.pending := by
    simp only [ensureCertain] at hend
    split at hend
    · cases hend
    · cases hend
      exact ⟨rfl,rfl⟩
  refine ⟨⟨by rw [hcertain.1]; exact hrec.expected,by rw [hcertain.1]; exact hrec.nodup⟩,
    fun z hz => by rw [hcertain.1]; exact hkeep z (M.grows.changes z hz),?_,
    fun q hq => by rw [hcertain.2, hpend]; exact M.grows.pending q hq,?_,?_,
    by rw [hcertain.2, hpend]; exact M.nodup⟩
  · -- everything expected here is recorded
    intro n c hc
    rw [hcertain.1]
    by_cases hshown : shown upper (n :: dir) = true
    · obtain ⟨hn,hm⟩ := (L.seen n).mp ((L.shown_iff P.visible).mp hshown)
      exact hkeep _ ((hdone n hn).change hm c hc)
    cases hc with
    | visible _ u' hshown' => exact absurd hshown' hshown
    | deleted _ _ base z hbase hgone hz hdir =>
      rw [Bool.not_eq_true] at hshown
      have hhide : exposed upper (n :: dir) = false := by
        by_contra hexp
        rw [Bool.not_eq_false] at hexp
        simp [merged, hshown, hexp, hbase] at hgone
      have hplain := S.plain _ _ hbase n List.mem_cons_self
      obtain ⟨d,hd,hdd⟩ := Tree.parent_dir hbase
      have hlower : lowerDirectory = true := by
        have := P.lower
        simp only at this
        simp [this, hd, hdd]
      by_cases ho : isOpaque = true
      · refine hhidden ho hlower n base hbase fun hv => ?_
        rw [(L.shown_iff P.visible).mpr hv] at hshown
        cases hshown
      · rw [Bool.not_eq_true] at ho
        rw [hexposed, ho] at hhide
        have hmem : wh ++ n ∈ fact.children := by simpa using hhide
        have hrecd := (hdone _ hmem).whiteout (marker_append n) (whiteout_ne_opq hplain) base
        rw [drop_marker] at hrecd
        exact hkeep _ (hrecd hbase)
  · intro n z hshown hz hdir
    rw [hcertain.2, hpend, List.mem_map]
    obtain ⟨hn,hm⟩ := (L.seen n).mp ((L.shown_iff P.visible).mp hshown)
    obtain ⟨l,hl⟩ := (hdone n hn).pushed hm z hz hdir
    exact ⟨_,hl,rfl⟩
  · intro q hq
    rw [hcertain.2, hpend] at hq
    refine (M.work q hq).imp id ?_
    rintro ⟨n,z,hm,hz,hdir,rfl⟩
    have hn : n ∈ fact.children := (L.all n).mpr ⟨z,hz⟩
    have hvis := (L.seen n).mpr ⟨hn,hm⟩
    refine ⟨⟨(L.shown_iff P.visible).mpr hvis,⟨z,hz,hdir⟩,?_,rfl⟩,n,rfl⟩
    have hclear : fact.children.contains (wh ++ n) = false := by
      rw [← Bool.not_eq_true, List.contains_iff_mem]
      intro hmem
      have htarget := (hdone _ hmem).target (marker_append n) (whiteout_ne_opq hm)
      rw [drop_marker] at htarget
      exact htarget hvis
    rw [hexposed, hclear]
    simp

end Scorpio.UpperScan
