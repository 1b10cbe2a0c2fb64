import Scorpio.Base.TwoRuns
import Scorpio.Snapshot.RadixProof

/-!
# Two closure proofs side by side

Two runs of the closure validator at the same point of the walk, over page
graphs that agree on the pages they share. Every step of the walk keeps them
abreast. The second run either may fail where the first succeeds, or works on
the same pages with at least the room of the first and then cannot fail.
-/

set_option autoImplicit false

namespace Scorpio.AbreastWalk

open ByteText Fallible TwoRuns PageCodec LogicalTree ClosureValidator

/-- No reading of the clock is at or past the deadline. -/
def Unexpired (now : ℕ → ℕ) (deadline : Option ℕ) : Prop := ∀ d, deadline = some d → ∀ n, now n < d

/-- The second run works on the same pages, has spent the same, and has at least the room of the
first. -/
structure Ample (now' : ℕ → ℕ) (v v' : Validator) : Prop where
  bytes : v'.bytes = v.bytes
  decoded : v'.decoded = v.decoded
  spent : v'.logicalBytes = v.logicalBytes
  radixEntries : v.maxRadixEntries ≤ v'.maxRadixEntries
  logicalEntries : v.maxLogicalEntries ≤ v'.maxLogicalEntries
  logicalBytes : v.maxLogicalBytes ≤ v'.maxLogicalBytes
  unexpired : Unexpired now' v'.deadline

/-- Two runs at the same point of the walk; the second has ample room, or may fail. -/
structure Abreast (mayFail : Prop) (now' : ℕ → ℕ) (G G' : Graph) (v v' : Validator) : Prop where
  decoded : v.decoded = G
  decoded' : v'.decoded = G'
  entries : v'.entries = v.entries
  reached : v'.reached = v.reached
  paths : v'.paths = v.paths
  contentSizes : v'.contentSizes = v.contentSizes
  directories : v'.directories = v.directories
  files : v'.files = v.files
  supplied : ∀ id ∈ v.reached, (∃ page, G id = some page) ∧ ∃ page, G' id = some page
  ample : mayFail ∨ Ample now' v v'

/-- The graphs of both suppliers agree on the pages they share. -/
def Compatible (G G' : Graph) : Prop :=
  ∀ id page page', G id = some page → G' id = some page' → page = page'

section Steps

variable {c : Codec} {mayFail : Prop} {now now' : ℕ → ℕ} {G G' : Graph} {v v' : Validator}

theorem check_deadline_clock {w : Validator} (h : checkDeadline now v = .ok w) :
    ∃ k, w = { v with clock := k } := by
  unfold checkDeadline at h
  split at h
  · cases h
    exact ⟨v.clock,rfl⟩
  · split at h
    · cases h
    · cases h
      exact ⟨v.clock+1,rfl⟩

theorem check_deadline_unexpired (h : Unexpired now v.deadline) :
    ∃ k, checkDeadline now v = .ok { v with clock := k } := by
  unfold checkDeadline
  split
  · exact ⟨v.clock,rfl⟩
  · rename_i d hd
    rw [if_neg (not_le.mpr (h d hd v.clock))]
    exact ⟨v.clock+1,rfl⟩

theorem Abreast.charge (h : Abreast mayFail now' G G' v v') (k k' : ℕ) {n n' : ℕ}
    (hn : mayFail ∨ n' = n) :
    Abreast mayFail now' G G' { v with clock := k, logicalBytes := n }
      { v' with clock := k', logicalBytes := n' } := by
  refine {h with ample := ?_}
  rcases h.ample with hp | ha
  · exact .inl hp
  · exact hn.imp_right fun hn => {ha with spent := hn}

theorem check_deadline_abreast (h : Abreast mayFail now' G G' v v') :
    Coupled mayFail (Abreast mayFail now' G G') (checkDeadline now v) (checkDeadline now' v') := by
  have hspent : mayFail ∨ v'.logicalBytes = v.logicalBytes := h.ample.imp_right Ample.spent
  rcases h.ample with hp | ha
  · refine coupled_of_ok hp fun w w' hw hw' => ?_
    obtain ⟨k,rfl⟩ := check_deadline_clock hw
    obtain ⟨k',rfl⟩ := check_deadline_clock hw'
    exact h.charge k k' hspent
  · obtain ⟨k',hk'⟩ := check_deadline_unexpired ha.unexpired
    intro w hw
    obtain ⟨k,rfl⟩ := check_deadline_clock hw
    exact .inl ⟨_,hk',h.charge k k' hspent⟩

theorem admit_allocation_abreast (h : Abreast mayFail now' G G' v v') {n n' : ℕ}
    (hn : mayFail ∨ n' = n) :
    Coupled mayFail (Abreast mayFail now' G G') (admitAllocation now v n)
      (admitAllocation now' v' n') := by
  refine (check_deadline_abreast h).bind fun w w' hw => ?_
  by_cases hp : mayFail
  · refine coupled_of_ok hp fun r r' hr hr' => ?_
    obtain ⟨total,_,hr⟩ := bind_ok.mp hr
    obtain ⟨total',_,hr'⟩ := bind_ok.mp hr'
    obtain ⟨_,_,hr⟩ := bind_ok.mp hr
    obtain ⟨_,_,hr'⟩ := bind_ok.mp hr'
    cases hr
    cases hr'
    exact hw.charge w.clock w'.clock (.inl hp)
  · have ha := hw.ample.resolve_left hp
    rw [hn.resolve_left hp, ha.spent]
    refine (coupled_same _).bind ?_
    rintro total _ rfl
    refine (coupled_require fun hle => .inr ?_).bind fun _ _ _ => ?_
    · simp only [decide_eq_true_eq] at hle ⊢
      exact hle.trans ha.logicalBytes
    · exact coupled_ok (hw.charge w.clock w'.clock (.inr rfl))

theorem admit_logical_path_abreast (h : Abreast mayFail now' G G' v v') (path : Text) :
    Coupled mayFail (Abreast mayFail now' G G') (admitLogicalPath now v path)
      (admitLogicalPath now' v' path) := by
  refine (check_deadline_abreast h).bind fun w w' hw => ?_
  refine (coupled_require fun hroom => hw.ample.imp_right fun ha => ?_).bind fun _ _ _ => ?_
  · simp only [decide_eq_true_eq] at hroom ⊢
    rw [hw.paths]
    exact hroom.trans_le ha.logicalEntries
  · exact admit_allocation_abreast hw (.inr rfl)

/-! ## Radix pages -/

/-- Two visits of a page collect the same entries. -/
def SameVisit (mayFail : Prop) (now' : ℕ → ℕ) (G G' : Graph) (r r' : List Entry × Validator) :
    Prop :=
  r.1 = r'.1 ∧ Abreast mayFail now' G G' r.2 r'.2

theorem radix_children_abreast {visit visit' : Validator → Text → Result (List Entry × Validator)}
    (hvisit : ∀ v v' id, Abreast mayFail now' G G' v v' →
      Coupled mayFail (SameVisit mayFail now' G G') (visit v id) (visit' v' id))
    (acc : List Entry) (children : List BranchChild) (h : Abreast mayFail now' G G' v v') :
    Coupled mayFail (SameVisit mayFail now' G G') (radixChildren now visit v acc children)
      (radixChildren now' visit' v' acc children) := by
  induction children generalizing v v' acc with
  | nil => exact coupled_ok ⟨rfl,h⟩
  | cons ch rest ih =>
    refine (hvisit v v' (childId ch) h).bind ?_
    rintro ⟨es,w⟩ ⟨_,w'⟩ ⟨rfl,hw⟩
    refine (coupled_require .inr).bind fun _ _ _ => ?_
    refine (coupled_require fun hroom => hw.ample.imp_right fun ha => ?_).bind fun _ _ _ => ?_
    · simp only [Option.any_eq_true_iff_get, decide_eq_true_eq] at hroom ⊢
      exact hroom.imp fun _ hle => hle.trans ha.radixEntries
    refine (coupled_same _).bind ?_
    rintro allocation _ rfl
    refine (admit_allocation_abreast hw (.inr rfl)).bind fun u u' hu => ?_
    exact ih (acc ++ es) hu

theorem Abreast.remember (h : Abreast mayFail now' G G' v v') (id : Text) (es : List Entry) :
    Abreast mayFail now' G G' { v with entries := Function.update v.entries id (some es) }
      { v' with entries := Function.update v'.entries id (some es) } :=
  {h with
    entries := by rw [h.entries]
    ample := h.ample.imp_right fun ha => {ha with}}

theorem Abreast.mark (h : Abreast mayFail now' G G' v v') {id : Text} {page page' : Page}
    (hpage : G id = some page) (hpage' : G' id = some page') :
    Abreast mayFail now' G G' { v with reached := insert id v.reached }
      { v' with reached := insert id v'.reached } :=
  {h with
    reached := by rw [h.reached]
    supplied i hi := by
      rcases Finset.mem_insert.mp hi with rfl | hi
      · exact ⟨⟨page,hpage⟩,page',hpage'⟩
      · exact h.supplied i hi
    ample := h.ample.imp_right fun ha => {ha with}}

theorem finish_radix_abreast (h : Abreast mayFail now' G G' v v') (id : Text) (es : List Entry) :
    Coupled mayFail (SameVisit mayFail now' G G') (finishRadix c now v id es)
      (finishRadix c now' v' id es) := by
  refine (coupled_require fun hroom => h.ample.imp_right fun ha => ?_).bind fun _ _ _ => ?_
  · simp only [decide_eq_true_eq] at hroom ⊢
    exact hroom.trans ha.radixEntries
  refine (coupled_same _).bind ?_
  rintro allocation _ rfl
  refine (admit_allocation_abreast h (.inr rfl)).bind fun w w' hw => ?_
  refine (coupled_same _).bind ?_
  rintro rebuilt _ rfl
  refine (coupled_require fun hsame => hw.ample.imp_right fun ha => ?_).bind fun _ _ _ => ?_
  · rw [ha.bytes]
    exact hsame
  · exact coupled_ok ⟨rfl,hw.remember id _⟩

/-- A page the first run finds is the page the second run finds. -/
theorem look_up_abreast (hG : Compatible G G') (h : Abreast mayFail now' G G' v v') (id : Text)
    {e e' : SnapshotError} :
    Coupled mayFail (fun page page' => page = page' ∧ G id = some page ∧ G' id = some page')
      (okOr (v.decoded id) e) (okOr (v'.decoded id) e') := by
  refine coupled_ok_or fun page hpage => ?_
  rw [h.decoded] at hpage
  rw [h.decoded']
  cases hpage' : G' id with
  | some page' => exact .inl ⟨page',rfl,hG id page page' hpage hpage',hpage,rfl⟩
  | none =>
    rcases h.ample with hp | ha
    · exact .inr ⟨hp,rfl⟩
    · have hsame : G' = G := by rw [← h.decoded', ha.decoded, h.decoded]
      rw [hsame, hpage] at hpage'
      cases hpage'

theorem radix_entries_abreast (hG : Compatible G G') (remaining : ℕ) (active : Finset Text)
    (id : Text) (h : Abreast mayFail now' G G' v v') :
    Coupled mayFail (SameVisit mayFail now' G G') (radixEntries c now remaining active v id)
      (radixEntries c now' remaining active v' id) := by
  induction remaining generalizing active v v' id with
  | zero => exact (check_deadline_abreast h).bind fun _ _ _ => coupled_error _ _
  | succ remaining ih =>
    refine (check_deadline_abreast h).bind fun w w' hw => ?_
    rw [hw.entries]
    cases w.entries id with
    | some entries => exact coupled_ok ⟨rfl,hw⟩
    | none =>
      refine (coupled_require .inr).bind fun _ _ _ => ?_
      have hcharge : mayFail ∨ ((w'.bytes.get id).elim 0 fun b =>
          saturatingAdd (saturatingMul b.length 4) 256) = ((w.bytes.get id).elim 0 fun b =>
          saturatingAdd (saturatingMul b.length 4) 256) :=
        hw.ample.imp_right fun ha => by rw [ha.bytes]
      refine (admit_allocation_abreast hw hcharge).bind fun u u' hu => ?_
      refine (look_up_abreast hG hu id).bind ?_
      rintro page _ ⟨rfl,hpage,hpage'⟩
      refine (radix_children_abreast (fun v v' id h => ih _ id h) _ _
        (hu.mark hpage hpage')).bind ?_
      rintro ⟨es,r⟩ ⟨_,r'⟩ ⟨rfl,hr⟩
      exact finish_radix_abreast hr id es

/-! ## Directories -/

theorem Abreast.addFile (h : Abreast mayFail now' G G' v v') (path id : Text) (size : ℕ)
    (file : SnapshotFile) :
    Abreast mayFail now' G G'
      { v with
        paths := insert path v.paths
        contentSizes := Function.update v.contentSizes id (some size)
        files := v.files ++ [file] }
      { v' with
        paths := insert path v'.paths
        contentSizes := Function.update v'.contentSizes id (some size)
        files := v'.files ++ [file] } :=
  {h with
    paths := by rw [h.paths]
    contentSizes := by rw [h.contentSizes]
    files := by rw [h.files]
    ample := h.ample.imp_right fun ha => {ha with}}

theorem Abreast.addDirectory (h : Abreast mayFail now' G G' v v') (path : Text)
    (directory : SnapshotDirectory) :
    Abreast mayFail now' G G'
      { v with
        paths := insert path v.paths
        directories := v.directories ++ [directory] }
      { v' with
        paths := insert path v'.paths
        directories := v'.directories ++ [directory] } :=
  {h with
    paths := by rw [h.paths]
    directories := by rw [h.directories]
    ample := h.ample.imp_right fun ha => {ha with}}

theorem walk_file_abreast (h : Abreast mayFail now' G G' v v') (path kind : Text) (e : Entry) :
    Coupled mayFail (Abreast mayFail now' G G') (walkFile now v path kind e)
      (walkFile now' v' path kind e) := by
  refine (admit_logical_path_abreast h path).bind fun w w' hw => ?_
  refine (coupled_require .inr).bind fun _ _ _ => ?_
  rw [hw.paths, hw.contentSizes]
  refine (coupled_require .inr).bind fun _ _ _ => ?_
  refine (coupled_require .inr).bind fun _ _ _ => ?_
  have hnext := hw.addFile path (digest e.contentId) e.size ⟨path,kind,e.size,digest e.contentId⟩
  rw [hw.paths, hw.contentSizes] at hnext
  exact coupled_ok hnext

theorem enter_directory_abreast (scope : Text) (active : Finset Text)
    (h : Abreast mayFail now' G G' v v') (relPath root : Text) :
    Coupled mayFail (Abreast mayFail now' G G') (enterDirectory c now scope active v relPath root)
      (enterDirectory c now' scope active v' relPath root) := by
  refine (admit_logical_path_abreast h relPath).bind fun w w' hw => ?_
  refine (coupled_same _).bind fun _ _ _ => ?_
  refine (coupled_require .inr).bind fun _ _ _ => ?_
  rw [hw.paths]
  refine (coupled_require .inr).bind fun _ _ _ => ?_
  have hnext := hw.addDirectory relPath ⟨relPath,root⟩
  rw [hw.paths] at hnext
  exact coupled_ok hnext

theorem walk_directory_abreast (hG : Compatible G G') (scope : Text) (fuel : ℕ)
    (active : Finset Text) (relPath root : Text) (h : Abreast mayFail now' G G' v v') :
    Coupled mayFail (Abreast mayFail now' G G')
      (walkDirectory c now scope fuel active v relPath root)
      (walkDirectory c now' scope fuel active v' relPath root) := by
  induction fuel generalizing active v v' relPath root with
  | zero => exact (enter_directory_abreast scope active h relPath root).bind fun _ _ _ =>
      coupled_error _ _
  | succ fuel ih =>
    refine (enter_directory_abreast scope active h relPath root).bind fun w w' hw => ?_
    refine (radix_entries_abreast hG _ ∅ root hw).bind ?_
    rintro ⟨es,u⟩ ⟨_,u'⟩ ⟨rfl,hu⟩
    refine coupled_foldlM es (fun s t e _ hs => ?_) hu
    refine (coupled_same _).bind ?_
    rintro name _ rfl
    refine (coupled_same _).bind fun _ _ _ => ?_
    cases fsKind e.kind with
    | none => exact ih _ _ _ hs
    | some kind => exact walk_file_abreast hs _ kind e

end Steps

end Scorpio.AbreastWalk
