import Scorpio.Snapshot.Catalogue

/-!
# Outcomes of a path in a closure

What a closure says about a path: a file, a directory, a path below a file or a
symlink, or nothing. A walk that has come to a directory by the names of a path
meets exactly these outcomes at the next name.
-/

set_option autoImplicit false

namespace Scorpio.Membership

open ByteText PageCodec LogicalTree ClosureValidator RadixTree AcceptedTree Catalogue

inductive Outcome where
  | file (file : SnapshotFile)
  | notFile
  | notDirectory
  | symlinkTraversal
  | pathNotFound
  deriving DecidableEq, Repr

inductive Truth (closure : ValidatedSnapshotClosure) (path : Text) : Outcome → Prop
  | file (f : SnapshotFile) (hf : f ∈ closure.files) (hpath : f.relPath = path) :
    Truth closure path (.file f)
  | directory (d : SnapshotDirectory) (hd : d ∈ closure.directories) (hpath : d.relPath = path) :
    Truth closure path .notFile
  | symlink (f : SnapshotFile) (hf : f ∈ closure.files) (hkind : f.fsKind = txt "symlink")
    (hbelow : f.relPath ++ [slash] <+: path) : Truth closure path .symlinkTraversal
  | blocked (f : SnapshotFile) (hf : f ∈ closure.files) (hkind : f.fsKind ≠ txt "symlink")
    (hbelow : f.relPath ++ [slash] <+: path) : Truth closure path .notDirectory
  | absent (hfiles : ∀ f ∈ closure.files, f.relPath ≠ path ∧ ¬f.relPath ++ [slash] <+: path)
    (hdirs : ∀ d ∈ closure.directories, d.relPath ≠ path) : Truth closure path .pathNotFound

/-! ## Uniqueness -/

section Unique

variable {c : Codec} {closure : ValidatedSnapshotClosure}

variable {f : SnapshotFile}

theorem file_mem_listed (hf : f ∈ closure.files) :
    f.relPath ∈ listed closure :=
  List.mem_append_right _ (List.mem_map_of_mem hf)

theorem directory_mem_listed {d : SnapshotDirectory} (hd : d ∈ closure.directories) :
    d.relPath ∈ listed closure :=
  List.mem_append_left _ (List.mem_map_of_mem hd)

variable (L : Listing c closure)

include L

theorem file_not_directory (hf : f ∈ closure.files) {d : SnapshotDirectory}
    (hd : d ∈ closure.directories) : d.relPath ≠ f.relPath := by
  obtain ⟨_,_,hcross⟩ := List.nodup_append.mp L.distinct
  exact hcross _ (List.mem_map_of_mem hd) _ (List.mem_map_of_mem hf)

theorem file_unique {g : SnapshotFile} (hf : f ∈ closure.files) (hg : g ∈ closure.files)
    (h : f.relPath = g.relPath) : f = g := by
  obtain ⟨_,hnodup,_⟩ := List.nodup_append.mp L.distinct
  exact List.inj_on_of_nodup_map hnodup hf hg h

/-- No listed path is below a file. -/
theorem listed_not_below (hf : f ∈ closure.files) {p : Text} (hp : p ∈ listed closure) :
    ¬f.relPath ++ [slash] <+: p := by
  intro hbelow
  obtain ⟨_,d,hd,heq⟩ := L.below p hp _ hbelow
  exact file_not_directory L hf hd heq

theorem below_unique {g : SnapshotFile} (hf : f ∈ closure.files) (hg : g ∈ closure.files)
    {path : Text} (hf' : f.relPath ++ [slash] <+: path) (hg' : g.relPath ++ [slash] <+: path) :
    f = g := by
  have hbefore : ∀ f ∈ closure.files, ∀ g ∈ closure.files, f.relPath ++ [slash] <+: path →
      g.relPath ++ [slash] <+: path → ¬f.relPath.length < g.relPath.length := by
    intro f hf g hg hf' hg' hlt
    have hg'' : g.relPath <+: path := (List.prefix_append _ _).trans hg'
    refine listed_not_below L hf (file_mem_listed hg)
      (List.prefix_of_prefix_length_le hf' hg'' ?_)
    simpa using hlt
  refine file_unique L hf hg ?_
  have h₁ : f.relPath <+: path := (List.prefix_append _ _).trans hf'
  have h₂ : g.relPath <+: path := (List.prefix_append _ _).trans hg'
  have hle := Nat.le_of_not_lt (hbefore g hg f hf hg' hf')
  have hge := Nat.le_of_not_lt (hbefore f hf g hg hf' hg')
  exact (List.prefix_of_prefix_length_le h₁ h₂ hle).eq_of_length (le_antisymm hle hge)

/-- A path has one outcome. -/
theorem truth_unique {path : Text} {o o' : Outcome} (h : Truth closure path o)
    (h' : Truth closure path o') : o = o' := by
  cases h with
  | file f hf hpath =>
    subst hpath
    cases h' with
    | file g hg hpath => rw [file_unique L hf hg hpath.symm]
    | directory d hd hpath => exact absurd hpath (file_not_directory L hf hd)
    | symlink g hg _ hbelow => exact absurd hbelow (listed_not_below L hg (file_mem_listed hf))
    | blocked g hg _ hbelow => exact absurd hbelow (listed_not_below L hg (file_mem_listed hf))
    | absent hfiles _ => exact absurd rfl (hfiles f hf).1
  | directory d hd hpath =>
    subst hpath
    cases h' with
    | file g hg hpath => exact absurd hpath.symm (file_not_directory L hg hd)
    | directory d' hd' hpath => rfl
    | symlink g hg _ hbelow =>
      exact absurd hbelow (listed_not_below L hg (directory_mem_listed hd))
    | blocked g hg _ hbelow =>
      exact absurd hbelow (listed_not_below L hg (directory_mem_listed hd))
    | absent _ hdirs => exact absurd rfl (hdirs d hd)
  | symlink f hf hkind hbelow =>
    cases h' with
    | file g hg hpath =>
      exact absurd (hpath ▸ hbelow) (listed_not_below L hf (file_mem_listed hg))
    | directory d hd hpath =>
      exact absurd (hpath ▸ hbelow) (listed_not_below L hf (directory_mem_listed hd))
    | symlink => rfl
    | blocked g hg hkind' hbelow' =>
      exact absurd (below_unique L hf hg hbelow hbelow' ▸ hkind) hkind'
    | absent hfiles _ => exact absurd hbelow (hfiles f hf).2
  | blocked f hf hkind hbelow =>
    cases h' with
    | file g hg hpath =>
      exact absurd (hpath ▸ hbelow) (listed_not_below L hf (file_mem_listed hg))
    | directory d hd hpath =>
      exact absurd (hpath ▸ hbelow) (listed_not_below L hf (directory_mem_listed hd))
    | symlink g hg hkind' hbelow' =>
      exact absurd (below_unique L hg hf hbelow' hbelow ▸ hkind') hkind
    | blocked => rfl
    | absent hfiles _ => exact absurd hbelow (hfiles f hf).2
  | absent hfiles hdirs =>
    cases h' with
    | file g hg hpath => exact absurd hpath (hfiles g hg).1
    | directory d hd hpath => exact absurd hpath (hdirs d hd)
    | symlink g hg _ hbelow => exact absurd hbelow (hfiles g hg).2
    | blocked g hg _ hbelow => exact absurd hbelow (hfiles g hg).2
    | absent => rfl

end Unique

/-! ## Paths by their names -/

def pathText (parts : List Text) : Text := [slash].intercalate parts

@[simp] theorem path_text_nil : pathText [] = [] := rfl

@[simp] theorem path_text_singleton (part : Text) : pathText [part] = part := by
  simp [pathText, List.intercalate]

variable {parts : List Text}

theorem path_text_append {rest : List Text} (hparts : parts ≠ []) (hrest : rest ≠ []) :
    pathText (parts ++ rest) = pathText parts ++ slash :: pathText rest := by
  induction parts with
  | nil => exact absurd rfl hparts
  | cons part parts ih =>
    cases parts with
    | nil =>
      obtain ⟨next,rest,rfl⟩ := List.exists_cons_of_ne_nil hrest
      simp [pathText, List.intercalate_cons_cons]
    | cons next parts =>
      have hstep := ih (List.cons_ne_nil _ _)
      simp only [pathText, List.cons_append, List.intercalate_cons_cons] at hstep ⊢
      rw [hstep]
      simp

theorem path_text_components (path : Text) : pathText (pathComponents path) = path :=
  List.intercalate_splitOn slash

theorem components_path_text (hne : parts ≠ []) (hparts : ∀ part ∈ parts, ValidName part) :
    pathComponents (pathText parts) = parts :=
  List.splitOn_intercalate slash (fun part hpart => (hparts part hpart).2.1) hne

theorem path_text_eq_nil (hparts : ∀ part ∈ parts, ValidName part) (h : pathText parts = []) :
    parts = [] := by
  by_contra hne
  have hcomponents := components_path_text hne hparts
  rw [h] at hcomponents
  have hnil : ([] : Text) ∈ parts := by
    rw [← hcomponents]
    simp [pathComponents]
  exact (hparts [] hnil).1 rfl

theorem join_path_text (hparts : ∀ part ∈ parts, ValidName part) {name : Text}
    (hname : ValidName name) : joinPath (pathText parts) name = pathText (parts ++ [name]) := by
  by_cases hne : parts = []
  · simp [hne]
  · have htext : pathText parts ≠ [] := fun h => hne (path_text_eq_nil hparts h)
    rw [path_text_append hne (List.cons_ne_nil _ _), path_text_singleton,
      join_of_ne_nil htext hname.1]

section Names

variable {c : Codec} {closure : ValidatedSnapshotClosure} (L : Listing c closure)

include L

/-- A listed path is made of valid names. -/
theorem listed_parts {p : Text} (hp : p ∈ listed closure) :
    ∃ parts, p = pathText parts ∧ ∀ part ∈ parts, ValidName part := by
  induction hn : p.length using Nat.strong_induction_on generalizing p with
  | _ n ih =>
    by_cases hne : p = []
    · exact ⟨[],hne,by simp⟩
    obtain ⟨d,hd,name,hname,rfl⟩ := L.named p hp hne
    obtain ⟨parts,hparts,hvalid⟩ := ih d.relPath.length (hn ▸ join_length_lt hname.1)
      (directory_mem_listed hd) rfl
    refine ⟨parts ++ [name],?_,?_⟩
    · rw [hparts, join_path_text hvalid hname]
    · intro part hpart
      rcases List.mem_append.mp hpart with hpart | hpart
      · exact hvalid part hpart
      · rw [List.mem_singleton.mp hpart]
        exact hname

/-- Where a walk along the names of a path stands. -/
structure At (closure : ValidatedSnapshotClosure) (d : SnapshotDirectory) (done : List Text) :
    Prop where
  listed : d ∈ closure.directories
  path : d.relPath = pathText done
  valid : ∀ part ∈ done, ValidName part

omit L in
theorem at_root (h : ⟨[],closure.descriptor.metadataRoot⟩ ∈ closure.directories) :
    At closure ⟨[],closure.descriptor.metadataRoot⟩ [] := ⟨h,rfl,by simp⟩

/-- A listed path that begins with the names so far and one more begins with a listed path of
these names. -/
theorem listed_start {p : Text} (hp : p ∈ listed closure) {done more : List Text} {name : Text}
    (h : p = pathText (done ++ name :: more)) : pathText (done ++ [name]) ∈ listed closure := by
  by_cases hmore : more = []
  · rwa [← hmore, ← h]
  · have hsplit : p = pathText (done ++ [name]) ++ slash :: pathText more := by
      rw [h, ← path_text_append (by simp) hmore, List.append_assoc, List.singleton_append]
    obtain ⟨_,d,hd,heq⟩ := L.below p hp (pathText (done ++ [name])) ⟨pathText more,by simp [hsplit]⟩
    exact heq ▸ directory_mem_listed hd

/-- Without an entry of the next name the path is absent. -/
theorem truth_absent {d : SnapshotDirectory} {done rest : List Text} {name : Text}
    (hat : At closure d done) {es : List Entry}
    (hdir : DirectoryOf c closure d es) (hnone : ∀ e ∈ es, e.name ≠ name) {path : Text}
    (hpath : pathComponents path = done ++ name :: rest) (hne : path ≠ []) :
    Truth closure path .pathNotFound := by
  have hnext : ∀ more, pathText (done ++ name :: more) ∈ listed closure → ValidName name → False := by
    intro more hmem hvalid
    have hstart := listed_start L hmem rfl
    rw [← join_path_text hat.valid hvalid, ← hat.path] at hstart
    obtain ⟨e,he,heq⟩ := hdir.complete name hvalid hstart
    exact hnone e he heq
  -- the names of a listed path on the way to `path` begin those of `path`
  have hway : ∀ p ∈ listed closure, p ≠ [] → p = path ∨ p ++ [slash] <+: path →
      ∃ parts, p = pathText parts ∧ parts <+: done ++ name :: rest ∧
        (∀ part ∈ parts, ValidName part) ∧ (p = path → parts = done ++ name :: rest) := by
    intro p hp hpne hcases
    obtain ⟨parts,hparts,hvalid⟩ := listed_parts L hp
    have hcomponents : pathComponents p = parts := by
      rw [hparts]
      refine components_path_text ?_ hvalid
      rintro rfl
      exact hpne hparts
    rcases hcases with rfl | ⟨tail,htail⟩
    · exact ⟨parts,hparts,by rw [← hpath, hcomponents],hvalid,fun _ => by rw [← hpath, hcomponents]⟩
    · have htail : p ++ slash :: tail = path := by simpa using htail
      rw [← htail, path_components_append, hcomponents] at hpath
      refine ⟨parts,hparts,⟨_,hpath⟩,hvalid,fun heq => ?_⟩
      have hlen := congrArg List.length htail
      rw [heq] at hlen
      simp at hlen
  have hlong : ∀ p ∈ listed closure, ∀ parts, p = pathText parts →
      parts <+: done ++ name :: rest → (∀ part ∈ parts, ValidName part) →
      parts <+: done := by
    intro p hp parts hparts hbegins hvalid
    rcases le_or_gt parts.length done.length with hle | hgt
    · exact List.prefix_of_prefix_length_le hbegins (List.prefix_append _ _) hle
    · exfalso
      obtain ⟨more,rfl⟩ := List.prefix_of_prefix_length_le (List.prefix_append done _) hbegins hgt.le
      rw [List.prefix_append_right_inj] at hbegins
      cases more with
      | nil => simp at hgt
      | cons first more =>
        obtain ⟨rfl,_⟩ := List.cons_prefix_cons.mp hbegins
        exact hnext more (hparts ▸ hp) (hvalid first (by simp))
  constructor
  · intro f hf
    have hfne : f.relPath ≠ [] := fun h => file_not_directory L hf L.root h.symm
    have hmem := file_mem_listed hf
    constructor
    · intro heq
      obtain ⟨parts,hparts,hbegins,hvalid,hall⟩ := hway _ hmem hfne (.inl heq)
      have hshort := (hlong _ hmem parts hparts hbegins hvalid).length_le
      rw [hall heq] at hshort
      simp at hshort
    · intro hbelow
      obtain ⟨parts,hparts,hbegins,hvalid,_⟩ := hway _ hmem hfne (.inr hbelow)
      obtain ⟨more,hmore⟩ := hlong _ hmem parts hparts hbegins hvalid
      by_cases hend : more = []
      · rw [hend, List.append_nil] at hmore
        exact file_not_directory L hf hat.listed (by rw [hat.path, hparts, hmore])
      · refine listed_not_below L hf (directory_mem_listed hat.listed) ⟨pathText more,?_⟩
        have hpne : parts ≠ [] := by
          rintro rfl
          exact hfne hparts
        rw [hat.path, ← hmore, path_text_append hpne hend, ← hparts]
        simp
  · intro x hx heq
    have hmem := directory_mem_listed hx
    obtain ⟨parts,hparts,hbegins,hvalid,hall⟩ := hway _ hmem (heq ▸ hne) (.inl heq)
    have hshort := (hlong _ hmem parts hparts hbegins hvalid).length_le
    rw [hall heq] at hshort
    simp at hshort

end Names

section Entries

variable {c : Codec} {closure : ValidatedSnapshotClosure} {d : SnapshotDirectory} {done : List Text}
  {es : List Entry} {e : Entry}

/-- The walk goes on into a directory entry. -/
theorem At.descend (hat : At closure d done) (hdir : DirectoryOf c closure d es) (he : e ∈ es)
    (hname : ValidName e.name) (hkind : e.kind = .directory) :
    At closure ⟨pathText (done ++ [e.name]),digest e.childRoot⟩ (done ++ [e.name]) := by
  have hlisted := hdir.directories e he hkind
  rw [hat.path, join_path_text hat.valid hname] at hlisted
  refine ⟨hlisted,rfl,fun part hpart => ?_⟩
  rcases List.mem_append.mp hpart with hpart | hpart
  · exact hat.valid part hpart
  · rw [List.mem_singleton.mp hpart]
    exact hname

/-- The file of an entry. -/
theorem At.file (hat : At closure d done) (hdir : DirectoryOf c closure d es) (he : e ∈ es)
    (hname : ValidName e.name) {kind : Text} (hkind : fsKind e.kind = some kind) :
    ⟨pathText (done ++ [e.name]),kind,e.size,digest e.contentId⟩ ∈ closure.files := by
  have hlisted := hdir.files e he kind hkind
  rwa [hat.path, join_path_text hat.valid hname] at hlisted

/-- A path with names left is below the entry of the next name. -/
theorem below_entry {path : Text} {name : Text} {rest : List Text}
    (hpath : pathComponents path = done ++ name :: rest) (hrest : rest ≠ []) :
    pathText (done ++ [name]) ++ [slash] <+: path := by
  refine ⟨pathText rest,?_⟩
  rw [← path_text_components path, hpath, List.append_assoc, List.singleton_append,
    ← path_text_append (by simp) hrest, List.append_assoc, List.singleton_append]

end Entries

end Scorpio.Membership
