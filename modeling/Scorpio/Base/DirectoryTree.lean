import Scorpio.Base.Assoc

/-!
# Directory trees

A file system below one root: a finite map from paths to nodes in which every
node but the root lies in a directory. A path lists its names from the node up
to the root, so its tail is the directory and the root is the empty path. What a
node is, and which nodes are directories, is left open.
-/

set_option autoImplicit false

namespace Scorpio.DirectoryTree

structure Tree (ν α : Type) (isDir : α → Bool) where
  rows : List (List ν × α)
  nodup : (Assoc.keys rows).Nodup
  root : ∃ a, ([],a) ∈ rows ∧ isDir a = true
  closed : ∀ n dir a, (n :: dir,a) ∈ rows → ∃ b, (dir,b) ∈ rows ∧ isDir b = true

namespace Tree

variable {ν α : Type} [DecidableEq ν] {isDir : α → Bool}

def get (t : Tree ν α isDir) (p : List ν) : Option α := t.rows.lookup p

/-- The nodes in a directory, in the order of the rows. -/
def children (t : Tree ν α isDir) (dir : List ν) : List (ν × α) :=
  t.rows.filterMap fun row => match row.1 with
    | [] => none
    | n :: above => if above = dir then some (n,row.2) else none

variable {t : Tree ν α isDir} {p dir : List ν} {n : ν} {a b : α}

theorem get_eq_some : t.get p = some a ↔ (p,a) ∈ t.rows := Assoc.lookup_iff t.nodup

theorem get_root : ∃ a, t.get [] = some a ∧ isDir a = true := by
  obtain ⟨a,ha,hdir⟩ := t.root
  exact ⟨a,get_eq_some.mpr ha,hdir⟩

/-- Everything lies in a directory. -/
theorem parent_dir (h : t.get (n :: dir) = some a) : ∃ b, t.get dir = some b ∧ isDir b = true := by
  obtain ⟨b,hb,hdir⟩ := t.closed n dir a (get_eq_some.mp h)
  exact ⟨b,get_eq_some.mpr hb,hdir⟩

/-- Everything above a node is a directory. -/
theorem ancestor_dir (q : List ν) (h : t.get (q ++ n :: p) = some a) :
    ∃ b, t.get p = some b ∧ isDir b = true := by
  induction q generalizing a with
  | nil => exact parent_dir h
  | cons m q ih =>
    obtain ⟨b,hb,-⟩ := parent_dir h
    exact ih hb

theorem mem_children : (n,a) ∈ t.children dir ↔ t.get (n :: dir) = some a := by
  rw [children, List.mem_filterMap, get_eq_some]
  constructor
  · rintro ⟨⟨q,e⟩,hmem,hname⟩
    cases q with
    | nil => simp at hname
    | cons m above =>
      simp only [Option.ite_none_right_eq_some, Option.some.injEq, Prod.mk.injEq] at hname
      obtain ⟨rfl,rfl,rfl⟩ := hname
      exact hmem
  · intro h
    exact ⟨_,h,by simp⟩

theorem children_nodup : (Assoc.keys (t.children dir)).Nodup := by
  refine List.pairwise_map.mpr (List.Pairwise.filterMap _ ?_ (List.pairwise_map.mp t.nodup))
  rintro ⟨p,e⟩ ⟨q,e'⟩ hne x hx y hy
  cases p with
  | nil => simp at hx
  | cons m above =>
    cases q with
    | nil => simp at hy
    | cons m' above' =>
      simp only [Option.ite_none_right_eq_some, Option.some.injEq] at hx hy
      obtain ⟨rfl,rfl⟩ := hx
      obtain ⟨rfl,rfl⟩ := hy
      rintro hname
      exact hne (by simp_all)

/-! ## Changing one node -/

def hasDir (t : Tree ν α isDir) (p : List ν) : Bool := (t.get p).any isDir

/-- A node may be put at a path in a directory, and no directory may become anything else. -/
def accepts (t : Tree ν α isDir) (a : α) : List ν → Bool
  | [] => isDir a
  | n :: dir => t.hasDir dir && (isDir a || !t.hasDir (n :: dir))

omit [DecidableEq ν] in
theorem dir_of_rows_mem {rows rows' : List (List ν × α)} {dir : List ν}
    (hkeep : ∀ b, isDir b = true → (dir,b) ∈ rows → ∃ b', (dir,b') ∈ rows' ∧ isDir b' = true)
    (h : ∃ b, (dir,b) ∈ rows ∧ isDir b = true) : ∃ b, (dir,b) ∈ rows' ∧ isDir b = true := by
  obtain ⟨b,hb,hdir⟩ := h
  exact hkeep b hdir hb

theorem hasDir_iff : t.hasDir p = true ↔ ∃ b, (p,b) ∈ t.rows ∧ isDir b = true := by
  simp [hasDir, Option.any_eq_true, get_eq_some]

theorem insert_dir (h : t.accepts a p = true) (b : α) (hdir : isDir b = true)
    (hb : (dir,b) ∈ t.rows) : ∃ b', (dir,b') ∈ Assoc.insert t.rows p a ∧ isDir b' = true := by
  by_cases hp : dir = p
  · subst hp
    refine ⟨a,Assoc.mem_insert.mpr (.inr rfl),?_⟩
    cases dir with
    | nil => exact h
    | cons n dir =>
      simp only [accepts, Bool.and_eq_true, Bool.or_eq_true, Bool.not_eq_true'] at h
      refine h.2.resolve_right fun hno => ?_
      rw [hasDir_iff.mpr ⟨b,hb,hdir⟩] at hno
      cases hno
  · exact ⟨b,Assoc.mem_insert.mpr (.inl ⟨hb,hp⟩),hdir⟩

/-- The tree with a node at a path; where none may be put, the tree itself. -/
def put (t : Tree ν α isDir) (p : List ν) (a : α) : Tree ν α isDir :=
  if h : t.accepts a p = true then
    { rows := Assoc.insert t.rows p a
      nodup := Assoc.keys_insert_nodup t.nodup
      root := dir_of_rows_mem (insert_dir h) t.root
      closed := by
        intro n dir b hb
        rcases Assoc.mem_insert.mp hb with ⟨hb,-⟩ | heq
        · exact dir_of_rows_mem (insert_dir h) (t.closed n dir b hb)
        · cases heq
          simp only [accepts, Bool.and_eq_true] at h
          exact dir_of_rows_mem (insert_dir (by simpa [accepts] using h)) (hasDir_iff.mp h.1) }
  else t

/-- The tree without a node; a directory stays. -/
def remove (t : Tree ν α isDir) (p : List ν) : Tree ν α isDir :=
  if h : t.hasDir p = true then t
  else
    have hkeep : ∀ dir b, isDir b = true → (dir,b) ∈ t.rows →
        ∃ b', (dir,b') ∈ Assoc.erase t.rows p ∧ isDir b' = true := by
      intro dir b hdir hb
      refine ⟨b,Assoc.mem_erase.mpr ⟨hb,?_⟩,hdir⟩
      rintro rfl
      exact h (hasDir_iff.mpr ⟨b,hb,hdir⟩)
    { rows := Assoc.erase t.rows p
      nodup := Assoc.keys_erase_nodup t.nodup
      root := dir_of_rows_mem (hkeep []) t.root
      closed := fun n dir b hb => dir_of_rows_mem (hkeep dir)
        (t.closed n dir b (Assoc.mem_erase.mp hb).1) }

theorem get_put (h : t.accepts a p = true) (q : List ν) :
    (t.put p a).get q = if q = p then some a else t.get q := by
  rw [put, dif_pos h]
  exact Assoc.lookup_insert t.nodup q

theorem get_remove (h : t.hasDir p = false) (q : List ν) :
    (t.remove p).get q = if q = p then none else t.get q := by
  rw [remove, dif_neg (by simp [h])]
  exact Assoc.lookup_erase t.nodup q

/-- The root is a directory, and every other row lies in one. -/
def wellFormed (isDir : α → Bool) (rows : List (List ν × α)) : Bool :=
  (rows.any fun row => row.1 = [] && isDir row.2) && rows.all fun row => match row.1 with
    | [] => true
    | _ :: dir => rows.any fun row' => row'.1 = dir && isDir row'.2

/-- A tree from rows that have been checked. -/
def ofRows (isDir : α → Bool) (rows : List (List ν × α)) (hnodup : (Assoc.keys rows).Nodup)
    (hcheck : wellFormed isDir rows = true) : Tree ν α isDir where
  rows := rows
  nodup := hnodup
  root := by
    simp only [wellFormed, Bool.and_eq_true, List.any_eq_true, decide_eq_true_eq] at hcheck
    obtain ⟨⟨⟨p,a⟩,hmem,rfl,hdir⟩,-⟩ := hcheck
    exact ⟨a,hmem,hdir⟩
  closed := by
    intro n dir a hrow
    rw [wellFormed, Bool.and_eq_true, List.all_eq_true] at hcheck
    have habove := hcheck.2 _ hrow
    simp only [List.any_eq_true, Bool.and_eq_true, decide_eq_true_eq] at habove
    obtain ⟨⟨p,b⟩,hmem,rfl,hdir⟩ := habove
    exact ⟨b,hmem,hdir⟩

/-!
## Walks

What lies below a directory, as a list of rows, and how a walk meets it: each
entry of the directory comes with everything below that entry. A file has nothing
below it.
-/

/-- A path that leads strictly below a directory. -/
def Below (dir p : List ν) : Prop := ∃ n q, p = q ++ n :: dir

/-- The rows strictly below a directory. -/
def below (t : Tree ν α isDir) (dir : List ν) : List (List ν × α) :=
  t.rows.filter fun row => dir <:+ row.1 ∧ row.1 ≠ dir

omit [DecidableEq ν] in
theorem below_iff : Below dir p ↔ dir <:+ p ∧ p ≠ dir := by
  constructor
  · rintro ⟨n,q,rfl⟩
    refine ⟨⟨q ++ [n],by simp⟩,fun heq => ?_⟩
    have hlen := congrArg List.length heq
    simp only [List.length_append, List.length_cons] at hlen
    omega
  · rintro ⟨⟨q,rfl⟩,hne⟩
    rcases List.eq_nil_or_concat q with rfl | ⟨q,n,rfl⟩
    · exact absurd rfl hne
    · exact ⟨n,q,by simp⟩

theorem mem_below : (p,a) ∈ t.below dir ↔ t.get p = some a ∧ Below dir p := by
  rw [below, List.mem_filter, get_eq_some, below_iff]
  simp

theorem below_nodup : (t.below dir).Nodup := by
  have hrows : t.rows.Nodup := List.Nodup.of_map _ t.nodup
  exact hrows.filter _

theorem below_of_leaf (h : t.get p = some a) (hleaf : isDir a = false) : t.below p = [] := by
  rw [List.eq_nil_iff_forall_not_mem]
  rintro ⟨q,b⟩ hmem
  obtain ⟨hget,n,r,rfl⟩ := mem_below.mp hmem
  obtain ⟨c,hc,hdir⟩ := ancestor_dir r hget
  rw [h] at hc
  cases hc
  rw [hleaf] at hdir
  cases hdir

/-- An entry of a directory with everything below it. -/
def branch (t : Tree ν α isDir) (dir : List ν) (entry : ν × α) : List (List ν × α) :=
  (entry.1 :: dir,entry.2) :: t.below (entry.1 :: dir)

theorem mem_branch {b : α} : (p,b) ∈ t.branch dir (n,a) ↔
    p = n :: dir ∧ b = a ∨ t.get p = some b ∧ Below (n :: dir) p := by
  rw [branch, List.mem_cons, mem_below, Prod.mk.injEq]

omit [DecidableEq ν] in
theorem below_cons : Below dir p ↔ ∃ n, p = n :: dir ∨ Below (n :: dir) p := by
  constructor
  · rintro ⟨n,q,rfl⟩
    refine ⟨n,?_⟩
    rcases List.eq_nil_or_concat q with rfl | ⟨q,m,rfl⟩
    · exact .inl rfl
    · exact .inr ⟨m,q,by simp⟩
  · rintro ⟨n,rfl | ⟨m,q,rfl⟩⟩
    · exact ⟨n,[],rfl⟩
    · exact ⟨n,q ++ [m],by simp⟩

omit [DecidableEq ν] in
/-- The entry on the way down is determined. -/
theorem entry_unique {m n : ν} (hm : p = m :: dir ∨ Below (m :: dir) p)
    (hn : p = n :: dir ∨ Below (n :: dir) p) : m = n := by
  have hsuffix : ∀ k, p = k :: dir ∨ Below (k :: dir) p → (k :: dir) <:+ p := by
    rintro k (rfl | hk)
    · exact List.suffix_refl _
    · exact (below_iff.mp hk).1
  have heq := List.suffix_of_suffix_length_le (hsuffix m hm) (hsuffix n hn) (by simp)
  exact (List.cons.inj (heq.eq_of_length (by simp))).1

/-- A walk through the entries of a directory meets every row below it once. -/
theorem walk_perm : ((t.children dir).flatMap (t.branch dir)).Perm (t.below dir) := by
  have hmem : ∀ row, row ∈ (t.children dir).flatMap (t.branch dir) ↔ row ∈ t.below dir := by
    rintro ⟨p,b⟩
    rw [List.mem_flatMap, mem_below, below_cons]
    constructor
    · rintro ⟨⟨n,a⟩,hchild,hbranch⟩
      rcases mem_branch.mp hbranch with ⟨rfl,rfl⟩ | ⟨hget,hbelow⟩
      · exact ⟨mem_children.mp hchild,n,.inl rfl⟩
      · exact ⟨hget,n,.inr hbelow⟩
    · rintro ⟨hget,n,rfl | hbelow⟩
      · exact ⟨(n,b),mem_children.mpr hget,mem_branch.mpr (.inl ⟨rfl,rfl⟩)⟩
      · obtain ⟨m,q,rfl⟩ := hbelow
        obtain ⟨c,hc,-⟩ := ancestor_dir q hget
        exact ⟨(n,c),mem_children.mpr hc,mem_branch.mpr (.inr ⟨hget,m,q,rfl⟩)⟩
  refine (List.perm_ext_iff_of_nodup ?_ below_nodup).mpr hmem
  rw [List.nodup_flatMap]
  constructor
  · rintro ⟨n,a⟩ -
    refine List.nodup_cons.mpr ⟨fun hself => ?_,below_nodup⟩
    exact (below_iff.mp (mem_below.mp hself).2).2 rfl
  · have hnames : (Assoc.keys (t.children dir)).Nodup := children_nodup
    refine (List.pairwise_map.mp hnames).imp ?_
    rintro ⟨m,a⟩ ⟨n,b⟩ hne ⟨p,c⟩ hm hn
    have hfirst : p = m :: dir ∨ Below (m :: dir) p :=
      (mem_branch.mp hm).imp (fun h => h.1) fun h => h.2
    have hsecond : p = n :: dir ∨ Below (n :: dir) p :=
      (mem_branch.mp hn).imp (fun h => h.1) fun h => h.2
    exact hne (entry_unique hfirst hsecond)

end Tree

end Scorpio.DirectoryTree
