import Scorpio.Base.Fallible
import Scorpio.Base.LossyText
import Scorpio.Base.SortedSearch

/-!
# Lookup and listing of a mounted directory

`lookup`, `readdir` and `readdirplus` of `snapshot::fuse` on a loaded directory, whose index
is sealed. A listing is resumed at the offset of the entry that was consumed last. A lookup
converts the name before it searches the index, so bytes that are no UTF-8 can find a child
whose name holds the replacement character. The metadata lease is alive throughout.
-/

set_option autoImplicit false

namespace Scorpio.FuseDirectory

open ByteText Fallible LossyText SortedSearch

/-- The children of a directory in byte order; a slice has less than 2⁶³ pairs. -/
structure DirectoryEntries where
  list : List (Text × ℕ)
  sorted : (list.map Prod.fst).Pairwise (· < ·)
  strings : ∀ e ∈ list, validUtf8 e.1 = true
  fits : list.length+2 < 2^63

inductive FixedDirectoryIndex where
  | building (entries : DirectoryEntries)
  | ready (entries : DirectoryEntries)

inductive Errno where
  | enoent
  | enotdir
  | eio
  deriving DecidableEq

namespace FixedDirectoryIndex

def get (name : Text) : FixedDirectoryIndex → Option ℕ
  | .building m => m.list.lookup name
  | .ready m =>
    let names := m.list.map Prod.fst
    match m.list[narrow names name names.length 0 names.length]? with
    | some e => if e.1 = name then some e.2 else none
    | none => none

/-- `seal`. -/
def close : FixedDirectoryIndex → FixedDirectoryIndex
  | .building m => .ready m
  | .ready m => .ready m

def snapshot : FixedDirectoryIndex → Except Errno DirectoryEntries
  | .building _ => .error .eio
  | .ready m => .ok m

end FixedDirectoryIndex

inductive FileType where
  | directory
  | symlink
  | regularFile
  deriving DecidableEq

structure DirNode where
  children : FixedDirectoryIndex
  parent : ℕ

inductive Node where
  | dir (d : DirNode)
  | file (symlink : Bool)

def entryKind : Node → FileType
  | .dir _ => .directory
  | .file symlink => if symlink then .symlink else .regularFile

abbrev Nodes := ℕ → Option Node

def nodeAttr (nodes : Nodes) (inode : ℕ) : Except Errno (ℕ × FileType) :=
  match nodes inode with
  | some node => .ok (inode,entryKind node)
  | none => .error .enoent

def lookup (nodes : Nodes) (parent : ℕ) (name : Bytes) : Except Errno (ℕ × FileType) :=
  let child := match nodes parent with
    | some (.dir d) => d.children.get (utf8Lossy name)
    | _ => none
  match child with
  | some inode => nodeAttr nodes inode
  | none => .error .enoent

structure ListEntry where
  inode : ℕ
  kind : Option FileType
  name : Text
  offset : ℤ

structure DirectoryListing where
  entries : List (Text × ℕ)
  inode : ℕ
  parent : ℕ
  next : ℕ

/-- `as i64` of a 64-bit word. -/
def asI64 (n : ℕ) : ℤ := if n%2^64 < 2^63 then (n%2^64 : ℕ) else (n%2^64 : ℕ)-2^64

/-- `DirectoryListing::next`. -/
def DirectoryListing.advance (l : DirectoryListing) : Option (ListEntry × DirectoryListing) :=
  let shown : Option (ℕ × Text × Option FileType) := match l.next with
    | 0 => some (l.inode,txt ".",some .directory)
    | 1 => some (l.parent,txt "..",some .directory)
    | index+2 => (l.entries[index]?).map fun e => (e.2,e.1,none)
  shown.map fun (inode,name,kind) => (⟨inode,kind,name,asI64 (l.next+1)⟩,{l with next := l.next+1})

def listing (nodes : Nodes) (inode : ℕ) (offset : ℤ) : Except Errno DirectoryListing :=
  match nodes inode with
  | some (.dir d) => d.children.snapshot.map fun m =>
      ⟨m.list,inode,d.parent,min (max offset 0).toNat (m.list.length+2)⟩
  | _ => .error .enotdir

/-- The part of both reply shapes that the kernel lists. -/
structure DirectoryEntry where
  inode : ℕ
  kind : FileType
  name : Text
  offset : ℤ

def reply (nodes : Nodes) (plus : Bool) (e : ListEntry) : Except Errno DirectoryEntry :=
  if plus then
    (nodeAttr nodes e.inode).map fun attr => ⟨e.inode,e.kind.getD attr.2,e.name,e.offset⟩
  else .ok ⟨e.inode,e.kind.getD ((nodes e.inode).elim .regularFile entryKind),e.name,e.offset⟩

/-- The first entries of the stream of a listing. -/
def stream (nodes : Nodes) (plus : Bool) : ℕ → DirectoryListing → Except Errno (List DirectoryEntry)
  | 0, _ => .ok []
  | n+1, l => match l.advance with
    | none => .ok []
    | some (e,l) => do
      let entry ← reply nodes plus e
      let rest ← stream nodes plus n l
      return entry :: rest

def readdir (nodes : Nodes) (inode : ℕ) (offset : ℤ) (n : ℕ) : Except Errno (List DirectoryEntry) :=
  listing nodes inode offset >>= stream nodes false n

def readdirplus (nodes : Nodes) (inode offset n : ℕ) : Except Errno (List DirectoryEntry) :=
  listing nodes inode (asI64 offset) >>= stream nodes true n

/-- The first entries of either reply; the kernel passes the offset as it got it. -/
def consumed (nodes : Nodes) (inode : ℕ) (plus : Bool) (offset : ℤ) (n : ℕ) :
    Except Errno (List DirectoryEntry) :=
  if plus then readdirplus nodes inode offset.toNat n else readdir nodes inode offset n

/-- The offset of the entry consumed last. -/
def lastOffset (got : List DirectoryEntry) (offset : ℤ) : ℤ := got.foldl (fun _ e => e.offset) offset

/-- Calls of either kind that consume some entries each and go on after the last one. -/
def resumed (nodes : Nodes) (inode : ℕ) : ℤ → List (Bool × ℕ) → Except Errno (List DirectoryEntry)
  | _, [] => .ok []
  | offset, (plus,n) :: calls => do
    let got ← consumed nodes inode plus offset n
    let rest ← resumed nodes inode (lastOffset got offset) calls
    return got ++ rest

/-- A complete listing has an entry. -/
def Listed (nodes : Nodes) (inode : ℕ) (plus : Bool) (name : Bytes) (child : ℕ) : Prop :=
  ∃ n got, resumed nodes inode 0 [(plus,n)] = .ok got ∧ ∃ e ∈ got, e.name = name ∧ e.inode = child

/-- A loaded directory is sealed, and every inode that it names has a node. -/
structure Loaded (nodes : Nodes) (inode : ℕ) (m : DirectoryEntries) (parent : ℕ) : Prop where
  node : nodes inode = some (.dir ⟨(FixedDirectoryIndex.building m).close,parent⟩)
  parent : (nodes parent).isSome
  children : ∀ e ∈ m.list, (nodes e.2).isSome

def shown (inode : ℕ) (m : DirectoryEntries) (parent : ℕ) : List (Text × ℕ) :=
  (txt ".",inode) :: (txt "..",parent) :: m.list

/-! ## The index -/

theorem get_ready (m : DirectoryEntries) (name : Text) (i : ℕ) :
    (FixedDirectoryIndex.ready m).get name = some i ↔ (name,i) ∈ m.list := by
  have hget : ∀ {k : ℕ} {e}, m.list[k]? = some e → (m.list.map Prod.fst)[k]? = some e.1 := by
    intro k e he
    rw [List.getElem?_map, he, Option.map_some]
  unfold FixedDirectoryIndex.get
  dsimp only
  constructor
  · intro h
    split at h
    · rename_i e he
      split at h
      · rename_i hname
        cases h
        exact hname ▸ List.mem_of_getElem? he
      · cases h
    · cases h
  · intro h
    obtain ⟨k,hk⟩ := List.getElem?_of_mem h
    have hlt := (List.getElem?_eq_some_iff.mp (hget hk)).1
    rw [narrow_member m.sorted (hget hk) (Nat.zero_le k) (by omega) (by omega) (Nat.le_succ _), hk]
    exact if_pos rfl

/-! ## Streams -/

section Streams

variable {nodes : Nodes} {inode parent : ℕ} {m : DirectoryEntries} {plus : Bool}

theorem as_i64 {n : ℕ} (h : n < 2^63) : asI64 n = n := by
  unfold asI64
  rw [Nat.mod_eq_of_lt (by omega), if_pos h]

theorem shown_node (h : Loaded nodes inode m parent) {p : Text × ℕ}
    (hp : p ∈ shown inode m parent) : (nodes p.2).isSome := by
  rcases List.mem_cons.mp hp with rfl | hp
  · rw [h.node]
    rfl
  · rcases List.mem_cons.mp hp with rfl | hp
    · exact h.parent
    · exact h.children p hp

theorem reply_ok {e : ListEntry} (h : (nodes e.inode).isSome) : ∃ kind,
    reply nodes plus e = .ok ⟨e.inode,kind,e.name,e.offset⟩ := by
  obtain ⟨node,hnode⟩ := Option.isSome_iff_exists.mp h
  cases plus with
  | false => exact ⟨_,rfl⟩
  | true => exact ⟨e.kind.getD (entryKind node),by simp [reply, nodeAttr, hnode, Except.map]⟩

theorem advance_shown (k : ℕ) : ∃ kind, (⟨m.list,inode,parent,k⟩ : DirectoryListing).advance =
    ((shown inode m parent)[k]?).map fun p =>
      (⟨p.2,kind,p.1,asI64 (k+1)⟩,⟨m.list,inode,parent,k+1⟩) := by
  match k with
  | 0 => exact ⟨_,rfl⟩
  | 1 => exact ⟨_,rfl⟩
  | k+2 =>
    refine ⟨none,?_⟩
    simp only [DirectoryListing.advance, shown, List.getElem?_cons_succ, Option.map_map]
    rfl

/-- A stream from the `k`-th entry on. -/
theorem stream_shown (h : Loaded nodes inode m parent) (n k : ℕ) :
    ∃ got, stream nodes plus n ⟨m.list,inode,parent,k⟩ = .ok got ∧
      got.map (fun e => (e.name,e.inode)) = ((shown inode m parent).drop k).take n ∧
      lastOffset got k = (k+got.length : ℕ) := by
  induction n generalizing k with
  | zero => exact ⟨[],rfl,by simp,rfl⟩
  | succ n ih =>
    obtain ⟨kind,hadvance⟩ := @advance_shown inode parent m k
    unfold stream
    rw [hadvance]
    cases hp : (shown inode m parent)[k]? with
    | none =>
      have hend := List.drop_eq_nil_of_le (List.getElem?_eq_none_iff.mp hp)
      exact ⟨[],rfl,by simp [hend],rfl⟩
    | some p =>
      obtain ⟨hlt,hget⟩ := List.getElem?_eq_some_iff.mp hp
      obtain ⟨got,hgot,hmap,hlast⟩ := ih (k+1)
      obtain ⟨kind',hreply⟩ := @reply_ok nodes plus ⟨p.2,kind,p.1,asI64 (k+1)⟩
        (shown_node h (List.mem_of_getElem? hp))
      have hfits : k+1 < 2^63 := by
        have hlen := m.fits
        simp only [shown, List.length_cons] at hlt
        omega
      refine ⟨_ :: got,by simp only [Option.map_some, hreply, ok_bind, hgot]; rfl,?_,?_⟩
      · rw [List.map_cons, hmap, List.drop_eq_getElem_cons hlt, hget, List.take_succ_cons]
      · rw [lastOffset, List.foldl_cons, as_i64 hfits, List.length_cons, Nat.add_comm got.length,
          ← Nat.add_assoc]
        exact hlast

theorem consumed_eq (h : Loaded nodes inode m parent) {k : ℕ} (hk : k ≤ m.list.length+2) (n : ℕ) :
    consumed nodes inode plus k n = stream nodes plus n ⟨m.list,inode,parent,k⟩ := by
  have hlisting : listing nodes inode k = .ok ⟨m.list,inode,parent,k⟩ := by
    unfold listing
    rw [h.node]
    simp [FixedDirectoryIndex.close, FixedDirectoryIndex.snapshot, Except.map, hk]
  have hfits := m.fits
  cases plus with
  | false => rw [consumed, if_neg (by simp), readdir, hlisting, ok_bind]
  | true => rw [consumed, if_pos rfl, readdirplus, Int.toNat_natCast, as_i64 (by omega), hlisting, ok_bind]

/-- Whatever the sizes of the replies, nothing is left out or repeated. -/
theorem resumed_shown (h : Loaded nodes inode m parent) (calls : List (Bool × ℕ)) {k : ℕ}
    (hk : k ≤ m.list.length+2) :
    ∃ got, resumed nodes inode k calls = .ok got ∧ got.map (fun e => (e.name,e.inode)) =
      ((shown inode m parent).drop k).take (calls.map Prod.snd).sum := by
  induction calls generalizing k with
  | nil => exact ⟨[],rfl,by simp⟩
  | cons call calls ih =>
    obtain ⟨plus,n⟩ := call
    obtain ⟨got,hgot,hmap,hlast⟩ := @stream_shown nodes inode parent m plus h n k
    have hlen : got.length = min n ((shown inode m parent).length-k) := by
      rw [← List.length_map (f := fun e : DirectoryEntry => (e.name,e.inode)), hmap,
        List.length_take, List.length_drop]
    have hshown : (shown inode m parent).length = m.list.length+2 := rfl
    obtain ⟨rest,hrest,hmap'⟩ := ih (k := k+got.length) (by omega)
    have hdrop : (shown inode m parent).drop (k+got.length) = (shown inode m parent).drop (k+n) := by
      by_cases hn : n ≤ (shown inode m parent).length-k
      · rw [hlen, Nat.min_eq_left hn]
      · rw [List.drop_eq_nil_of_le (by omega), List.drop_eq_nil_of_le (by omega)]
    refine ⟨got ++ rest,?_,?_⟩
    · rw [resumed, consumed_eq h hk, hgot, ok_bind, hlast, hrest]
      rfl
    · rw [List.map_append, hmap, hmap', hdrop, List.map_cons, List.sum_cons, List.take_add,
        List.drop_drop]

end Streams

/-! ## Names -/

section Names

variable {nodes : Nodes} {inode parent : ℕ} {m : DirectoryEntries} {plus : Bool} {name : Bytes} {i : ℕ}

theorem listed_iff (h : Loaded nodes inode m parent) :
    Listed nodes inode plus name i ↔ (name,i) ∈ shown inode m parent := by
  have hall : ∀ n, ∃ got, resumed nodes inode 0 [(plus,n)] = .ok got ∧
      got.map (fun e => (e.name,e.inode)) = (shown inode m parent).take n := by
    intro n
    simpa using resumed_shown h [(plus,n)] (k := 0) (Nat.zero_le _)
  constructor
  · rintro ⟨n,got,hgot,e,he,rfl,rfl⟩
    obtain ⟨got',hgot',hmap⟩ := hall n
    rw [hgot] at hgot'
    cases hgot'
    exact List.mem_of_mem_take (hmap ▸ List.mem_map_of_mem he)
  · intro hmem
    obtain ⟨got,hgot,hmap⟩ := hall (shown inode m parent).length
    rw [← List.take_length (l := shown inode m parent), ← hmap] at hmem
    obtain ⟨e,he,heq⟩ := List.mem_map.mp hmem
    cases heq
    exact ⟨_,got,hgot,e,he,rfl,rfl⟩

theorem lookup_iff (h : Loaded nodes inode m parent) :
    (∃ kind, lookup nodes inode name = .ok (i,kind)) ↔ (utf8Lossy name,i) ∈ m.list := by
  rw [← get_ready]
  unfold lookup
  rw [h.node]
  dsimp only [FixedDirectoryIndex.close]
  cases hget : (FixedDirectoryIndex.ready m).get (utf8Lossy name) with
  | none => simp
  | some j =>
    obtain ⟨node,hnode⟩ := Option.isSome_iff_exists.mp (h.children _ ((get_ready m _ j).mp hget))
    simp [nodeAttr, hnode]

/-- A lookup of a name other than those of the directory and its parent agrees with both listings
exactly if the name is UTF-8 or what it is converted to is no child; and calls that resume where
they stopped list the directory, its parent and the children in order. -/
theorem lookup_agrees_iff (h : Loaded nodes inode m parent) :
    (∀ plus name, name ≠ txt "." → name ≠ txt ".." →
      ((∀ i, (∃ kind, lookup nodes inode name = .ok (i,kind)) ↔ Listed nodes inode plus name i) ↔
        (validUtf8 name = true ∨ utf8Lossy name ∉ m.list.map Prod.fst))) ∧
    ∀ calls, ∃ got, resumed nodes inode 0 calls = .ok got ∧ got.map (fun e => (e.name,e.inode)) =
      (shown inode m parent).take (calls.map Prod.snd).sum := by
  refine ⟨fun plus name hself hparent => ?_,fun calls => ?_⟩
  · have hlisted : ∀ i, Listed nodes inode plus name i ↔ (name,i) ∈ m.list := by
      intro i
      rw [listed_iff h, shown, List.mem_cons, List.mem_cons]
      simp [hself, hparent]
    simp only [lookup_iff h, hlisted]
    by_cases hvalid : validUtf8 name = true
    · simp [hvalid, lossy_valid name hvalid]
    · have hnone : ∀ i, (name,i) ∉ m.list := fun i hi => hvalid (m.strings _ hi)
      simp [hvalid, hnone]
  · simpa using resumed_shown h calls (k := 0) (Nat.zero_le _)

end Names

namespace Sample

def entries : DirectoryEntries where
  list := [(replacement,2)]
  sorted := List.pairwise_singleton _ _
  strings := by decide
  fits := by decide

def nodes : Nodes
  | 1 => some (.dir ⟨(FixedDirectoryIndex.building entries).close,1⟩)
  | 2 => some (.file false)
  | _ => none

theorem loaded : Loaded nodes 1 entries 1 := ⟨rfl,rfl,by decide⟩

theorem lookup_agrees_ascii :
    (∀ i, (∃ kind, lookup nodes 1 (txt "a") = .ok (i,kind)) ↔ Listed nodes 1 true (txt "a") i) ∧
      ∃ got, resumed nodes 1 0 [(true,1),(false,9)] = .ok got ∧
        got.map (fun e => (e.name,e.inode)) = [(txt ".",1),(txt "..",1),(replacement,2)] := by
  obtain ⟨hnames,hcalls⟩ := lookup_agrees_iff loaded
  exact ⟨(hnames true (txt "a") (by decide) (by decide)).mpr (.inl (by decide)),hcalls _⟩

theorem unlisted_name_found : Loaded nodes 1 entries 1 ∧
    lookup nodes 1 [0xFF] = .ok (2,.regularFile) ∧ ∀ plus i, ¬ Listed nodes 1 plus [0xFF] i := by
  refine ⟨loaded,by rfl,fun plus i hlisted => ?_⟩
  rw [listed_iff loaded] at hlisted
  have hnot : ∀ p ∈ shown 1 entries 1, p.1 ≠ [0xFF] := by decide
  exact hnot _ hlisted rfl

end Sample

end Scorpio.FuseDirectory
