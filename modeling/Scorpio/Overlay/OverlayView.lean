import Scorpio.Overlay.UpperDiff

/-!
# The merged view of an overlay

What the mount shows: a visible upper node, or else the lower node if nothing in
the upper hides it. A whiteout hides its target, an opaque directory hides every
lower child, and what is hidden stays hidden below. The lower sees nothing
through an upper node that is not a directory. The diff that is expected of a
scan is stated with this view alone.
-/

set_option autoImplicit false

namespace Scorpio.UpperScan

open ByteText Fallible PageCodec DirectoryTree

/-- What the mount shows of one node. -/
structure ViewNode where
  kind : FileKind
  mode : ℕ
  owner : MountOwner
  content : Option (ℕ × Text)
  deriving DecidableEq, Repr

def UpperNodeIdentity.view : UpperNodeIdentity → ViewNode
  | .directory mode uid gid => ⟨.directory,mode,⟨uid,gid⟩,none⟩
  | .regular mode uid gid size digest => ⟨.regular,mode,⟨uid,gid⟩,some (size,digest)⟩
  | .symlink mode uid gid size digest => ⟨.symlink,mode,⟨uid,gid⟩,some (size,digest)⟩

def SnapshotNodeIdentity.fileKind : SnapshotNodeIdentity → FileKind
  | .directory _ => .directory
  | .regular _ _ | .executable _ _ => .regular
  | .symlink _ _ => .symlink

/-- Every lower node is shown with the mount's owner. -/
def SnapshotNodeIdentity.view (owner : MountOwner) (b : SnapshotNodeIdentity) : ViewNode :=
  ⟨b.fileKind,b.mode,owner,b.content⟩

theorem matches_iff {owner : MountOwner} {u : UpperNodeIdentity} {b : SnapshotNodeIdentity} :
    u.matches owner b = true ↔ u.view = b.view owner := by
  by_cases hown : u.owner = owner
  · subst hown
    cases u <;> cases b <;>
      simp [UpperNodeIdentity.matches, UpperNodeIdentity.owner, UpperNodeIdentity.view,
        SnapshotNodeIdentity.view, SnapshotNodeIdentity.fileKind, SnapshotNodeIdentity.mode,
        SnapshotNodeIdentity.content]
    · exact decide_eq_true_iff
    all_goals exact fun _ => ⟨fun h => ⟨h.1.symm,h.2.symm⟩,fun h => ⟨h.1.symm,h.2.symm⟩⟩
  · have hview : u.view.owner = u.owner := by cases u <;> rfl
    refine iff_of_false (by simp [UpperNodeIdentity.matches, hown]) fun heq => hown ?_
    rw [← hview, heq]
    rfl

/-! ## The view -/

section View

variable (hash : Bytes → Digest) (owner : MountOwner) (upper : UpperTree) (lower : LowerTree)

/-- The identity of a node whose body can be read. -/
def nodeIdentity (n : UpperNode) : Option UpperNodeIdentity :=
  match n.kind, n.body with
  | .directory, _ => some (.directory (n.mode%4096) n.uid n.gid)
  | .regular, .ok body =>
    some (.regular (n.mode%4096) n.uid n.gid n.size.toNat (digest (hash body)))
  | .symlink, .ok body =>
    some (.symlink (n.mode%4096) n.uid n.gid n.size.toNat (digest (hash body)))
  | _, _ => none

def upperAt (p : Path) : Option UpperNodeIdentity := (upper.get p).bind (nodeIdentity hash)

def shown (p : Path) : Bool := (upper.get p).isSome && p.all fun n => !isMarker n

/-- Nothing in the upper hides the lower at this path. -/
def exposed : Path → Bool
  | [] => true
  | n :: dir => exposed dir && (upper.get dir).all (fun x => x.kind = .directory) &&
      (upper.get (opq :: dir)).isNone && (upper.get ((wh ++ n) :: dir)).isNone

def merged (p : Path) : Option ViewNode :=
  if shown upper p then (upperAt hash upper p).map UpperNodeIdentity.view
  else if exposed upper p then (lower.get p).map (SnapshotNodeIdentity.view owner)
  else none

def lowerView (p : Path) : Option ViewNode := (lower.get p).map (SnapshotNodeIdentity.view owner)

/-- A visible upper node that is not the lower node of its path, or a lower node that is gone
from a directory of both trees. -/
inductive Expected : Path → UpperChange → Prop
  | visible (p : Path) (u : UpperNodeIdentity) (hshown : shown upper p = true)
      (hu : upperAt hash upper p = some u)
      (hdiff : (lower.get p).map (SnapshotNodeIdentity.view owner) ≠ some u.view) :
      Expected p (visibleChange p (lower.get p) u)
  | deleted (n : Text) (dir : Path) (base : SnapshotNodeIdentity) (x : UpperNode)
      (hbase : lower.get (n :: dir) = some base) (hgone : merged hash owner upper lower (n :: dir) = none)
      (hx : upper.get dir = some x) (hdir : x.kind = .directory) :
      Expected (n :: dir) (deletion (n :: dir) base)

end View

variable {hash : Bytes → Digest} {owner : MountOwner} {upper : UpperTree} {lower : LowerTree}

theorem shown_cons {n : Text} {dir : Path} : shown upper (n :: dir) = true ↔
    (∃ x, upper.get (n :: dir) = some x) ∧ isMarker n = false ∧ shown upper dir = true := by
  simp only [shown, Bool.and_eq_true, List.all_cons, Bool.not_eq_true', Option.isSome_iff_exists]
  constructor
  · rintro ⟨⟨x,hx⟩,hn,hdir⟩
    obtain ⟨b,hb,-⟩ := Tree.parent_dir hx
    exact ⟨⟨x,hx⟩,hn,⟨b,hb⟩,hdir⟩
  · rintro ⟨hx,hn,-,hdir⟩
    exact ⟨hx,hn,hdir⟩

/-- Each path has at most one expected change. -/
theorem Expected.functional {p : Path} {c c' : UpperChange}
    (hids : ∀ q, shown upper q = true → (upperAt hash upper q).isSome)
    (h : Expected hash owner upper lower p c) (h' : Expected hash owner upper lower p c') :
    c = c' := by
  have hvisible {q : Path} (hs : shown upper q = true) :
      merged hash owner upper lower q ≠ none := by
    obtain ⟨u,hu⟩ := Option.isSome_iff_exists.mp (hids q hs)
    simp [merged, hs, hu]
  cases h with
  | visible p u hs hu hd =>
    cases h' with
    | visible p' u' hs' hu' hd' =>
      obtain rfl := Option.some.inj (hu.symm.trans hu')
      rfl
    | deleted n dir base x hb hg hx hdir => exact absurd hg (hvisible hs)
  | deleted n dir base x hb hg hx hdir =>
    cases h' with
    | visible p' u' hs' hu' hd' => exact absurd hg (hvisible hs')
    | deleted n' dir' base' x' hb' hg' hx' hdir' =>
      obtain rfl := Option.some.inj (hb.symm.trans hb')
      rfl

theorem upper_none_of_not_shown {p : Path} (hs : shown upper p = false)
    (hp : ∀ n ∈ p, isMarker n = false) : upper.get p = none := by
  by_contra hne
  obtain ⟨x,hx⟩ := Option.ne_none_iff_exists'.mp hne
  have hall : (p.all fun n => !isMarker n) = true := by simpa using hp
  simp [shown, hx, hall] at hs

theorem not_directory_view {x : UpperNode} {u : UpperNodeIdentity}
    (hu : nodeIdentity hash x = some u) : u.view.kind = x.kind := by
  unfold nodeIdentity at hu
  cases hkind : x.kind <;> cases hbody : x.body <;> simp only [hkind, hbody] at hu <;> cases hu <;>
    rfl

/-- If nothing is expected, the lower is exposed wherever the upper shows no node. -/
theorem exposed_of_no_expected (hids : ∀ q, shown upper q = true → (upperAt hash upper q).isSome)
    (hL : ∀ p b, lower.get p = some b → ∀ n ∈ p, isMarker n = false)
    (hnone : ∀ p c, ¬ Expected hash owner upper lower p c) {p : Path} {b : SnapshotNodeIdentity}
    (hb : lower.get p = some b) (hs : shown upper p = false) : exposed upper p = true := by
  induction p generalizing b with
  | nil => rfl
  | cons n dir ih =>
    obtain ⟨d,hd,hdir⟩ := Tree.parent_dir hb
    by_cases hsd : shown upper dir = true
    · obtain ⟨u,hu⟩ := Option.isSome_iff_exists.mp (hids dir hsd)
      obtain ⟨x,hx,hid⟩ := Option.bind_eq_some_iff.mp hu
      by_contra hexp
      rw [Bool.not_eq_true] at hexp
      by_cases hkind : x.kind = .directory
      · refine hnone _ _ (.deleted n dir b x hb ?_ hx hkind)
        simp [merged, hs, hexp]
      · refine hnone _ _ (.visible dir u hsd hu fun heq => hkind ?_)
        have hview : d.view owner = u.view := by simpa [hd] using heq
        rw [← not_directory_view hid, ← hview]
        cases d <;> first | rfl | cases hdir
    · rw [Bool.not_eq_true] at hsd
      have hgone := upper_none_of_not_shown hsd (hL dir d hd)
      have hbelow (m : Text) : upper.get (m :: dir) = none := by
        by_contra hne
        obtain ⟨x,hx⟩ := Option.ne_none_iff_exists'.mp hne
        obtain ⟨y,hy,-⟩ := Tree.parent_dir hx
        rw [hgone] at hy
        cases hy
      simp [exposed, ih hd hsd, hgone, hbelow]

/-- Nothing is expected of an overlay that shows the lower, and something of every other. -/
theorem no_expected_iff (hids : ∀ q, shown upper q = true → (upperAt hash upper q).isSome)
    (hL : ∀ p b, lower.get p = some b → ∀ n ∈ p, isMarker n = false) :
    (∀ p c, ¬ Expected hash owner upper lower p c) ↔
      ∀ p, merged hash owner upper lower p = lowerView owner lower p := by
  constructor
  · intro hnone p
    by_cases hs : shown upper p = true
    · obtain ⟨u,hu⟩ := Option.isSome_iff_exists.mp (hids p hs)
      by_contra hne
      refine hnone p _ (.visible p u hs hu fun heq => hne ?_)
      rw [merged, if_pos hs, hu, lowerView, heq, Option.map_some]
    · rw [Bool.not_eq_true] at hs
      cases hb : lower.get p with
      | none => simp [merged, lowerView, hs, hb]
      | some b => simp [merged, lowerView, hs, hb, exposed_of_no_expected hids hL hnone hb hs]
  · intro heq p c hc
    cases hc with
    | visible p u hs hu hd =>
      have hp := heq p
      rw [merged, if_pos hs, hu, lowerView] at hp
      exact hd hp.symm
    | deleted n dir base x hb hg hx hdir =>
      have hp := heq (n :: dir)
      rw [hg, lowerView, hb] at hp
      cases hp

/-!
## What the collection of the upper finds

A collection that succeeds has a fact for every node of the upper tree, and each
fact says what the tree has at its path: the identity of the node, and the names
of its children if it is a directory.
-/

variable {h : Host} {limits : DiffLimits}

theorem identify_ok {n : UpperNode} {m m' : DiffMeters} {u : UpperNodeIdentity}
    (hok : identify h limits n m = .ok (u,m')) : nodeIdentity h.hash n = some u := by
  unfold identify at hok
  cases hkind : n.kind <;> simp only [hkind] at hok
  · cases hok
    simp [nodeIdentity, hkind]
  · simp only [regular, bind_ok, require_ok, map_error_ok, pure_ok, Prod.mk.injEq] at hok
    obtain ⟨-,-,-,-,-,-,body,hbody,-,-,-,-,rfl,-⟩ := hok
    simp [nodeIdentity, hkind, hbody]
  · simp only [symlink, bind_ok, require_ok, map_error_ok, pure_ok, Prod.mk.injEq] at hok
    obtain ⟨-,-,-,-,-,-,body,hbody,-,-,rfl,-⟩ := hok
    simp [nodeIdentity, hkind, hbody]
  · cases hok

variable {dir : Path} {s s' : Scanned}

/-- A listing is the names of the directory, in some order. -/
theorem names_perm {remaining : ℕ} {out : List Text} (hok : names h upper dir remaining = .ok out) :
    out.Perm ((upper.children dir).map Prod.fst) := by
  simp only [names, bind_ok, require_ok, pure_ok] at hok
  obtain ⟨l,hl,-,-,rfl⟩ := hok
  refine (List.perm_insertionSort _ _).trans (List.Perm.of_eq ?_)
  have hinv := foldlM_invariant (takeName h remaining)
    (fun out rest => out ++ rest = (upper.children dir).map Prod.fst) ?_ _ (List.nil_append _) hl
  · simpa using hinv
  · intro s x rest s' hs hstep
    simp only [takeName, bind_ok, require_ok, ok_or_ok, pure_ok] at hstep
    obtain ⟨-,-,name,hname,-,-,rfl⟩ := hstep
    rw [← hs, (fromUtf8_some hname).1]
    simp

/-- The fact says what the tree has at its path. -/
structure FactOk (h : Host) (upper : UpperTree) (p : Path) (f : Fact) (x : UpperNode) : Prop where
  node : upper.get p = some x
  identity : nodeIdentity h.hash x = some f.identity
  children : x.kind = .directory → f.children.Perm ((upper.children p).map Prod.fst)

def FactsOk (h : Host) (upper : UpperTree) (facts : List (Path × Fact)) : Prop :=
  ∀ p f, (p,f) ∈ facts → ∃ x, FactOk h upper p f x

/-- The children of one directory may still be missing. -/
def FactsOpen (h : Host) (upper : UpperTree) (dir : Path) (facts : List (Path × Fact)) : Prop :=
  ∀ p f, (p,f) ∈ facts → ∃ x, upper.get p = some x ∧ nodeIdentity h.hash x = some f.identity ∧
    (p ≠ dir → x.kind = .directory → f.children.Perm ((upper.children p).map Prod.fst))

theorem collect_child_ok {recurse : Path → Scanned → Result Scanned} {name : Text}
    (hrec : ∀ p s s', FactsOpen h upper p s.facts → recurse p s = .ok s' →
      FactsOk h upper s'.facts) (hs : FactsOk h upper s.facts)
    (hok : collectChild h limits upper recurse dir s name = .ok s') :
    FactsOk h upper s'.facts := by
  simp only [collectChild, bind_ok, require_ok, ok_or_ok] at hok
  obtain ⟨-,-,-,-,n,hn,-,-,⟨identity,meters⟩,hid,hok⟩ := hok
  have hopen : FactsOpen h upper (name :: dir)
      (Assoc.insert s.facts (name :: dir) ⟨identity,[]⟩) := by
    intro p f hf
    rcases Assoc.mem_insert.mp hf with ⟨hmem,-⟩ | heq
    · obtain ⟨x,hx⟩ := hs p f hmem
      exact ⟨x,hx.node,hx.identity,fun _ => hx.children⟩
    · cases heq
      exact ⟨n,hn,identify_ok hid,fun hne => absurd rfl hne⟩
  dsimp only at hok
  split at hok
  · exact hrec _ _ _ hopen hok
  · rename_i hkind
    rw [pure_ok] at hok
    subst hok
    intro p f hf
    obtain ⟨x,hx,hxid,hchildren⟩ := hopen p f hf
    refine ⟨x,hx,hxid,fun hdir => ?_⟩
    by_cases hp : p = name :: dir
    · subst hp
      rw [hn] at hx
      cases hx
      exact absurd hdir hkind
    · exact hchildren hp hdir

theorem collect_directory_ok {levels : ℕ} (hs : FactsOpen h upper dir s.facts)
    (hok : collectDirectory h limits upper levels dir s = .ok s') : FactsOk h upper s'.facts := by
  induction levels generalizing dir s s' with
  | zero => cases hok
  | succ levels ih =>
    simp only [collectDirectory, bind_ok, ok_or_ok] at hok
    obtain ⟨n,hn,-,-,meters,-,children,hchildren,hok⟩ := hok
    refine foldlM_invariant _ (fun s _ => FactsOk h upper s.facts) ?_ _ ?_ hok
    · intro s name _ s' hs hstep
      exact collect_child_ok (fun p s s' hp hrun => ih hp hrun) hs hstep
    · intro p f hf
      dsimp only at hf
      rcases Assoc.mem_modify.mp hf with ⟨hmem,hne⟩ | ⟨f',hmem,heq⟩
      · obtain ⟨x,hx,hid,hc⟩ := hs p f hmem
        exact ⟨x,hx,hid,hc hne⟩
      · cases heq
        obtain ⟨x,hx,hid,-⟩ := hs dir f' hmem
        exact ⟨x,hx,hid,fun _ => names_perm hchildren⟩

theorem collect_ok (hok : collect h limits upper = .ok s) :
    FactsOk h upper s.facts := by
  simp only [collect, bind_ok, ok_or_ok, pure_ok] at hok
  obtain ⟨n,hn,-,-,t,ht,rfl⟩ := hok
  have hopen : FactsOpen h upper [] [([],⟨.directory (n.mode%4096) n.uid n.gid,[]⟩)] := by
    intro p f hf
    obtain ⟨rfl,rfl⟩ := Prod.mk.inj (List.mem_singleton.mp hf)
    obtain ⟨a,ha,hdir⟩ := Tree.get_root (t := upper)
    rw [hn] at ha
    cases ha
    exact ⟨n,hn,by simp [nodeIdentity, of_decide_eq_true hdir],fun hne => absurd rfl hne⟩
  have hfacts : FactsOk h upper t.facts := collect_directory_ok hopen ht
  exact hfacts

/-- Everything below the directory has a fact. -/
def Covers (upper : UpperTree) (dir : Path) (facts : List (Path × Fact)) : Prop :=
  ∀ q n x, upper.get (q ++ n :: dir) = some x → q ++ n :: dir ∈ Assoc.keys facts

theorem mem_keys_insert {β : Type} {m : List (Path × β)} {k k' : Path} {v : β} :
    k' ∈ Assoc.keys (Assoc.insert m k v) ↔ k' ∈ Assoc.keys m ∨ k' = k := by
  constructor
  · intro hk
    obtain ⟨w,hw⟩ := Assoc.exists_of_mem_keys hk
    rcases Assoc.mem_insert.mp hw with ⟨hmem,-⟩ | heq
    · exact .inl (Assoc.mem_keys_of_mem hmem)
    · exact .inr (Prod.mk.inj heq).1
  · intro hk
    by_cases heq : k' = k
    · exact Assoc.mem_keys_of_mem (Assoc.mem_insert.mpr (.inr (by rw [heq])))
    · obtain ⟨w,hw⟩ := Assoc.exists_of_mem_keys (hk.resolve_right heq)
      exact Assoc.mem_keys_of_mem (Assoc.mem_insert.mpr (.inl ⟨hw,heq⟩))

theorem collect_child_all {recurse : Path → Scanned → Result Scanned} {name : Text}
    (hrec : ∀ p s s', recurse p s = .ok s' →
      Assoc.keys s.facts ⊆ Assoc.keys s'.facts ∧ Covers upper p s'.facts)
    (hok : collectChild h limits upper recurse dir s name = .ok s') :
    Assoc.keys s.facts ⊆ Assoc.keys s'.facts ∧ name :: dir ∈ Assoc.keys s'.facts ∧
      Covers upper (name :: dir) s'.facts := by
  simp only [collectChild, bind_ok, require_ok, ok_or_ok] at hok
  obtain ⟨-,-,-,-,n,hn,-,-,⟨identity,meters⟩,-,hok⟩ := hok
  dsimp only at hok
  split at hok
  · obtain ⟨hkeys,hcovers⟩ := hrec _ _ _ hok
    exact ⟨fun k hk => hkeys (mem_keys_insert.mpr (.inl hk)),
      hkeys (mem_keys_insert.mpr (.inr rfl)),hcovers⟩
  · rename_i hkind
    rw [pure_ok] at hok
    subst hok
    refine ⟨fun k hk => mem_keys_insert.mpr (.inl hk),mem_keys_insert.mpr (.inr rfl),?_⟩
    intro q m x hx
    obtain ⟨y,hy,hdir⟩ := Tree.ancestor_dir q hx
    rw [hn] at hy
    cases hy
    exact absurd (of_decide_eq_true hdir) hkind

theorem collect_directory_all {levels : ℕ}
    (hok : collectDirectory h limits upper levels dir s = .ok s') :
    Assoc.keys s.facts ⊆ Assoc.keys s'.facts ∧ Covers upper dir s'.facts := by
  induction levels generalizing dir s s' with
  | zero => cases hok
  | succ levels ih =>
    simp only [collectDirectory, bind_ok, ok_or_ok] at hok
    obtain ⟨n,hn,-,-,meters,-,children,hchildren,hok⟩ := hok
    obtain ⟨hkeys,hall,-⟩ := foldlM_each _
      (fun t _ => Assoc.keys s.facts ⊆ Assoc.keys t.facts)
      (fun name t => name :: dir ∈ Assoc.keys t.facts ∧ Covers upper (name :: dir) t.facts)
      (fun t name _ t' hkeys hstep => by
        obtain ⟨hmono,hname,hcovers⟩ := collect_child_all (fun p s s' hrun => ih hrun) hstep
        exact ⟨fun k hk => hmono (hkeys hk),⟨hname,hcovers⟩,fun m hm =>
          ⟨hmono hm.1,fun q x y hy => hmono (hm.2 q x y hy)⟩⟩)
      children (by simp [Assoc.keys_modify]) hok
    refine ⟨hkeys,fun q m x hx => ?_⟩
    -- the name below the directory on the way to the node
    rcases List.eq_nil_or_concat q with rfl | ⟨q',m',rfl⟩
    · have hm : m ∈ children := (names_perm hchildren).mem_iff.mpr
        (List.mem_map.mpr ⟨(m,x),Tree.mem_children.mpr hx,rfl⟩)
      exact (hall m hm).1
    · rw [List.concat_eq_append, List.append_assoc, List.singleton_append] at hx ⊢
      obtain ⟨y,hy,-⟩ := Tree.ancestor_dir q' hx
      have hm : m ∈ children := (names_perm hchildren).mem_iff.mpr
        (List.mem_map.mpr ⟨(m,y),Tree.mem_children.mpr hy,rfl⟩)
      exact (hall m hm).2 q' m' x hx

theorem collect_all (hok : collect h limits upper = .ok s) {p : Path} {x : UpperNode}
    (hx : upper.get p = some x) : p ∈ Assoc.keys s.facts := by
  simp only [collect, bind_ok, ok_or_ok, pure_ok] at hok
  obtain ⟨n,hn,-,-,t,ht,rfl⟩ := hok
  obtain ⟨hkeys,hcovers⟩ := collect_directory_all ht
  rcases List.eq_nil_or_concat p with rfl | ⟨q,m,rfl⟩
  · exact hkeys (by simp [Assoc.keys])
  · rw [List.concat_eq_append] at hx ⊢
    exact hcovers q m x hx

/-- Every node of the upper has an identity once it has been collected. -/
theorem collect_ids (hok : collect h limits upper = .ok s) {p : Path} {x : UpperNode}
    (hx : upper.get p = some x) : (upperAt h.hash upper p).isSome := by
  obtain ⟨f,hf⟩ := Assoc.exists_of_mem_keys (collect_all hok hx)
  obtain ⟨y,hy⟩ := collect_ok hok p f hf
  simp [upperAt, hy.node, hy.identity]

end Scorpio.UpperScan
