import Scorpio.Snapshot.Incremental
import Scorpio.Snapshot.RadixTree

/-!
# Partial subtrees

A directory that is still being read has collected a part of its subtree.
`Covers` relates the part, the nodes that are missing, and the whole. The
second half shows that the paths which a parent copies from a finished child
are the child's paths below its name.
-/

set_option autoImplicit false

namespace Scorpio.PartialTree

open ByteText PageCodec ForestSum LogicalTree ClosureValidator RadixTree Incremental

/-! ## Partial subtrees -/

/-- With the subtrees of `nodes`, what was collected is the whole subtree of `root`. -/
def Covers (G : Graph) (nodes : List Node) (root : Text) (files : Multiset SnapshotFile)
    (ids : List Text) (total : ℕ) : Prop :=
  ∀ rest, Sums (expand G) nodes rest → ∃ f, PageFacts G [] root f ∧
    f.files = files + rest.files ∧ (∀ i, i ∈ f.pages ↔ i ∈ ids ∨ i ∈ rest.pages) ∧
    f.entries = total + rest.entries

section Covers

variable {G : Graph} {nodes nodes' : List Node} {root : Text} {files files' : Multiset SnapshotFile}
  {ids ids' : List Text} {total total' : ℕ}

theorem covers_fresh (G : Graph) (root : Text) : Covers G [.page [] root] root 0 [] 0 := by
  intro rest hrest
  exact ⟨rest,hrest,by simp,by simp,by simp⟩

/-- Nodes are replaced by others that miss exactly the facts `k`, and `k` is collected. -/
theorem Covers.collect (h : Covers G nodes root files ids total) (k : Facts)
    (hnodes : ∀ rest, Sums (expand G) nodes' rest → Sums (expand G) nodes (k + rest))
    (hfiles : files' = files + k.files) (hids : ∀ i, i ∈ ids' ↔ i ∈ ids ∨ i ∈ k.pages)
    (htotal : total' = total + k.entries) : Covers G nodes' root files' ids' total' := by
  intro rest hrest
  obtain ⟨f,hf,hff,hfi,hfe⟩ := h _ (hnodes rest hrest)
  refine ⟨f,hf,?_,?_,?_⟩
  · rw [hff, hfiles, Facts.add_files, add_assoc]
  · intro i
    rw [hfi, hids, Facts.add_pages, Multiset.mem_add, or_assoc]
  · rw [hfe, htotal, Facts.add_entries, add_assoc]

theorem Covers.perm (h : Covers G nodes root files ids total) (hp : nodes'.Perm nodes) :
    Covers G nodes' root files ids total :=
  h.collect 0 (fun rest hrest => by simpa using sums_perm hp hrest) (by simp) (by simp) (by simp)

/-- One page is read: its entries are collected and its successors take its place. -/
theorem Covers.expand {x : Node} {own : Facts} {kids : List Node}
    (h : Covers G (x :: nodes) root files ids total) (hx : LogicalTree.expand G x = some (own,kids))
    (hfiles : files' = files + own.files) (hids : ∀ i, i ∈ ids' ↔ i ∈ ids ∨ i ∈ own.pages)
    (htotal : total' = total + own.entries) : Covers G (kids ++ nodes) root files' ids' total' := by
  refine h.collect own (fun rest hrest => ?_) hfiles hids htotal
  obtain ⟨f,g,hf,hg,rfl⟩ := sums_append_cases hrest
  rw [← add_assoc]
  exact .cons hx hf hg

/-- One whole subtree is collected. -/
theorem Covers.fill {x : Node} {k : Facts} (h : Covers G (x :: nodes) root files ids total)
    (hx : Sums (LogicalTree.expand G) [x] k) (hfiles : files' = files + k.files)
    (hids : ∀ i, i ∈ ids' ↔ i ∈ ids ∨ i ∈ k.pages) (htotal : total' = total + k.entries) :
    Covers G nodes root files' ids' total' :=
  h.collect k (fun _ hrest => sums_append hx hrest) hfiles hids htotal

end Covers

/-! ## Paths of collected files -/

/-- Every entry of the graph has a name that is one path component. -/
def NamesValid (G : Graph) : Prop := ∀ id page, G id = some page → ∀ e ∈ page.entries, ValidName e.name

def Relative (path : Text) : Prop := path.head? ≠ some slash

theorem relative_of_name {name : Text} (h : ValidName name) : Relative name := by
  intro hhead
  exact h.2.1 (List.mem_of_head? hhead)

theorem relative_join {p q : Text} (hp : Relative p) (hq : Relative q) :
    Relative (joinPath p q) := by
  cases p with
  | nil => simpa using hq
  | cons a p =>
    by_cases hne : q = []
    · simpa [hne] using hp
    · simpa [joinPath, hne, Relative] using hp

def nodeBase : Node → Text
  | .page base _ => base
  | .dir path _ => path

theorem sums_files_relative {G : Graph} (hG : NamesValid G) {xs : List Node} {f : Facts}
    (hs : Sums (expand G) xs f) (hxs : ∀ x ∈ xs, Relative (nodeBase x)) :
    ∀ file ∈ f.files, Relative file.relPath := by
  induction hs with
  | nil => simp
  | @cons x xs kids own below rest hx _ _ ihkids ihxs =>
    have hbase := hxs x List.mem_cons_self
    have hown : (∀ y ∈ kids, Relative (nodeBase y)) ∧ ∀ file ∈ own.files, Relative file.relPath := by
      cases x with
      | dir path root =>
        cases hx
        exact ⟨by simpa [nodeBase] using hbase,by simp [dirFact]⟩
      | page base id =>
        obtain ⟨page,hpage,hpair⟩ := Option.map_eq_some_iff.mp hx
        cases hpair
        constructor
        · intro y hy
          rcases List.mem_append.mp hy with hy | hy
          · obtain ⟨e,he,hy⟩ := List.mem_flatMap.mp hy
            cases hk : fsKind e.kind with
            | some kind => simp [entryNodes, hk] at hy
            | none =>
              have hy : y = .dir (joinPath base e.name) (digest e.childRoot) := by
                simpa [entryNodes, hk] using hy
              rw [hy]
              exact relative_join hbase (relative_of_name (hG id page hpage e he))
          · obtain ⟨ch,_,rfl⟩ := List.mem_map.mp hy
            exact hbase
        · intro file hfile
          obtain ⟨e,he,hpath,_⟩ := entry_files_mem hfile
          rw [hpath]
          exact relative_join hbase (relative_of_name (hG id page hpage e he))
    intro file hfile
    rcases Multiset.mem_add.mp hfile with hfile | hfile
    · rcases Multiset.mem_add.mp hfile with hfile | hfile
      · exact hown.2 file hfile
      · exact ihkids hown.1 file hfile
    · exact ihxs (fun y hy => hxs y (List.mem_cons_of_mem _ hy)) file hfile

theorem trim_start_of_relative {path : Text} (h : Relative path) : trimStart path = path := by
  cases path with
  | nil => rfl
  | cons a p =>
    have ha : a ≠ slash := by
      rintro rfl
      exact h rfl
    simp [trimStart, ha]

theorem with_prefix_eq_join {rel base : Text} (hbase : ValidName base) (hrel : Relative rel) :
    withPrefix rel base = joinPath base rel := by
  simp [withPrefix, joinPath, trim_start_of_relative (relative_of_name hbase),
    trim_start_of_relative hrel, hbase.1]

/-- What a parent copies from a finished child is the child's subtree below its name. -/
theorem prefixed_files {G : Graph} (hG : NamesValid G) {root base : Text} {f : Facts}
    {files : List SnapshotFile} (hbase : ValidName base) (hf : PageFacts G [] root f)
    (hfiles : ↑files = f.files) :
    (↑(files.map fun x => { x with relPath := withPrefix x.relPath base }) :
      Multiset SnapshotFile) = (Facts.relocate base f).files := by
  rw [Facts.relocate_files, ← hfiles, Multiset.map_coe]
  congr 1
  refine List.map_congr_left fun x hx => ?_
  have hrel : Relative x.relPath := by
    refine sums_files_relative hG hf (by simp [nodeBase, Relative]) x ?_
    rw [← hfiles]
    exact hx
  rw [with_prefix_eq_join hbase hrel]

end Scorpio.PartialTree
