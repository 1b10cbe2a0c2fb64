import Scorpio.Snapshot.ProvenFile
import Scorpio.Snapshot.RadixTree

/-!
# A name in a selected page

What `prove_component` takes from one answer: the page with the expected id, or
an error that says nothing about the path. And what it reads from that page: if
the page is the canonical encoding of a list of entries, then an entry found is
the entry of the name, a child selected has every entry of the name, and a name
that is missed has no entry.
-/

set_option autoImplicit false

namespace Scorpio.ProvenFile

open ByteText Fallible PageCodec RadixTree

/-- `Page::build` puts an entry beside the children of a branch only under the branch's own name. -/
def TerminalNamed (c : Codec) : Prop :=
  ∀ es b common e children, c.buildPage es = .ok b →
    c.decodePage b = .ok (.branch common (some e) children) → e.name = common

/-! ## One page -/

/-- An error that says nothing about a path. -/
def Ordinary (e : SnapshotError) : Prop :=
  e.code = .integrityError ∨ e.code = .limitExceeded ∨ e.code = .digestMismatch ∨
    e.code = .scopeInvalid ∨ e.code = .snapshotNotReady

theorem ordinary_integrity (message : Text) : Ordinary (integrity message) := .inl rfl

section Pages

variable {r : SnapshotReader}

theorem read_u16_errors (bytes : Bytes) (offset : ℕ) :
    ErrorsIn Ordinary (readU16 bytes offset) := by
  unfold readU16
  split
  · exact errors_ok _
  · exact errors_error (ordinary_integrity _)

theorem check_child_counts_errors (payload : Bytes) (count offset sum : ℕ) :
    ErrorsIn Ordinary (checkChildCounts payload count offset sum) := by
  induction count generalizing offset sum with
  | zero => exact errors_ok ()
  | succ count ih =>
    unfold checkChildCounts
    split
    · exact errors_error (ordinary_integrity _)
    · dsimp only
      split
      · exact ih _ _
      · exact errors_error (ordinary_integrity _)

theorem preflight_errors (c : Codec) (bytes : Bytes) :
    ErrorsIn Ordinary (preflight c bytes) := by
  refine (read_u16_errors _ _).bind fun commonLen _ => ?_
  refine (errors_ok_or (ordinary_integrity _)).bind fun terminal _ => ?_
  have hcount : ∀ offset, ErrorsIn Ordinary (do
      let count ← readU16 bytes 6
      require (count ≤ 256) (integrity "branch has more than 256 children")
      checkChildCounts (bytes.drop 20) count offset terminal.toNat) := fun offset =>
    (read_u16_errors _ _).bind fun count _ =>
      (errors_require (ordinary_integrity _)).bind fun _ _ => check_child_counts_errors _ _ _ _
  dsimp only
  split
  · exact (errors_map_error fun _ => ordinary_integrity _).bind fun offset _ => hcount offset
  · exact hcount _

theorem decode_page_errors (c : Codec) (bytes : Bytes) :
    ErrorsIn Ordinary (decodePage c bytes) := by
  unfold decodePage
  have hcodec : ErrorsIn Ordinary
      ((c.decodePage bytes).mapError fun e => integrity ("invalid metadata page: " ++ e)) :=
    errors_map_error fun _ => ordinary_integrity _
  split
  · exact (preflight_errors c bytes).bind fun _ _ => hcodec
  · exact hcodec

theorem receive_page_errors (expected : Digest) (chain : List (Digest × Bytes))
    (target : Option Bytes) (page : Digest × Bytes) :
    ErrorsIn Ordinary (receivePage r expected chain target page) := by
  refine (errors_require (ordinary_integrity _)).bind fun _ _ => ?_
  split
  · split
    · exact errors_error (ordinary_integrity _)
    · exact errors_ok _
  · split
    · refine (errors_require (ordinary_integrity _)).bind fun _ _ => ?_
      exact (decode_page_errors _ _).bind fun _ _ => errors_ok _
    · exact errors_error (ordinary_integrity _)

theorem select_page_errors (expected : Digest) (chain : List (Digest × Bytes))
    (selected : Option (Bytes × UInt8)) (pages : List (Digest × Bytes)) :
    ErrorsIn Ordinary (selectPage r expected chain selected pages) := by
  refine (errors_foldlM (fun target page => receive_page_errors expected chain target page) _ _).bind
    fun target _ => ?_
  refine (errors_ok_or (ordinary_integrity _)).bind fun bytes _ => ?_
  refine (decode_page_errors _ _).bind fun page _ => ErrorsIn.bind ?_ fun _ _ => errors_ok _
  unfold checkChild
  split
  · exact errors_map_error fun _ => ordinary_integrity _
  · exact errors_ok ()

theorem receive_page_target {expected : Digest} {chain : List (Digest × Bytes)}
    {target target' : Option Bytes} {page : Digest × Bytes}
    (h : receivePage r expected chain target page = .ok target') :
    target' = target ∨ (target' = some page.2 ∧ r.codec.pageId page.2 = expected) := by
  obtain ⟨_,hid,h⟩ := bind_ok.mp h
  have hid := of_decide_eq_true (require_ok.mp hid)
  split at h
  · rename_i hexpected
    split at h
    · cases h
    · cases h
      exact .inr ⟨rfl,hid.trans hexpected⟩
  · split at h
    · obtain ⟨_,_,h⟩ := bind_ok.mp h
      obtain ⟨_,_,h⟩ := bind_ok.mp h
      cases h
      exact .inl rfl
    · cases h

/-- The selected page was answered, has the expected id, and is decoded. -/
theorem select_page_ok {expected : Digest} {chain : List (Digest × Bytes)}
    {selected : Option (Bytes × UInt8)} {pages : List (Digest × Bytes)} {bytes : Bytes} {page : Page}
    (h : selectPage r expected chain selected pages = .ok (bytes,page)) :
    (∃ id, (id,bytes) ∈ pages) ∧ r.codec.pageId bytes = expected ∧
      decodePage r.codec bytes = .ok page := by
  obtain ⟨target,hfold,h⟩ := bind_ok.mp h
  obtain ⟨bytes',htarget,h⟩ := bind_ok.mp h
  obtain ⟨page',hpage,h⟩ := bind_ok.mp h
  obtain ⟨_,_,h⟩ := bind_ok.mp h
  cases h
  have htarget : target = some bytes := by simpa using htarget
  let I : Option Bytes → List (Digest × Bytes) → Prop := fun target rest =>
    (∃ done, pages = done ++ rest) ∧ ∀ b, target = some b →
      (∃ id, (id,b) ∈ pages) ∧ r.codec.pageId b = expected
  have hend : I target [] := by
    refine foldlM_invariant (receivePage r expected chain) I ?_ pages ⟨⟨[],rfl⟩,by rintro b ⟨⟩⟩ hfold
    rintro s x rest s' ⟨⟨done,hdone⟩,hs⟩ hstep
    refine ⟨⟨done ++ [x],by simp [hdone]⟩,fun b hb => ?_⟩
    rcases receive_page_target hstep with rfl | ⟨rfl,hid⟩
    · exact hs b hb
    · cases hb
      exact ⟨⟨x.1,by simp [hdone]⟩,hid⟩
  obtain ⟨hmem,hid⟩ := hend.2 bytes htarget
  exact ⟨hmem,hid,hpage⟩

end Pages

/-! ## A name in a canonical page -/

section Names

variable {r : SnapshotReader} (R : RadixPartition r.codec) (hterminal : TerminalNamed r.codec)
  {part : List Entry} {b : Bytes} {name : Bytes}

theorem label_at {common name : Bytes} {label : UInt8} (h : common ++ [label] <+: name) :
    common <+: name ∧ common.length < name.length ∧ name[common.length]? = some label := by
  obtain ⟨rest,rfl⟩ := h
  refine ⟨⟨[label] ++ rest,by simp⟩,?_,by simp⟩
  simp only [List.length_append, List.length_singleton]
  omega

/-- The entries of a canonical branch: the entry of its own name, and the entries of its children,
each under its label. -/
structure Splits (c : Codec) (part : List Entry) (common : Bytes) (terminal : Option Entry)
    (pairs : List (BranchChild × List Entry)) : Prop where
  own : ∀ e, terminal = some e → e ∈ part ∧ e.name = common
  labels : (pairs.map fun p => p.1.label).Nodup
  child : ∀ p ∈ pairs, ChildOf c common p.1 p.2 ∧ p.2 ⊆ part
  cover : ∀ e ∈ part, terminal = some e ∨ ∃ p ∈ pairs, e ∈ p.2

include R hterminal in
theorem canonical_branch {common : Bytes} {terminal : Option Entry} {children : List BranchChild}
    (hbuild : r.codec.buildPage part = .ok b)
    (hdecode : r.codec.decodePage b = .ok (.branch common terminal children)) :
    ∃ pairs, pairs.map (·.1) = children ∧ Splits r.codec part common terminal pairs := by
  rcases R.page part b hbuild with ⟨hleaf,_⟩ | ⟨common',terminal',children',hbr,hperm,_,hlabels,hch⟩
  · rw [hleaf] at hdecode
    cases hdecode
  rw [hbr] at hdecode
  cases hdecode
  obtain ⟨hlen,hzip⟩ := List.forall₂_iff_zip.mp hch
  have hfst : (children.zip (R.parts part)).map (·.1) = children := List.map_fst_zip hlen.le
  have hsnd : (children.zip (R.parts part)).map (·.2) = R.parts part := List.map_snd_zip hlen.ge
  refine ⟨children.zip (R.parts part),hfst,?_,?_,?_,?_⟩
  · intro e he
    subst he
    refine ⟨hperm.mem_iff.mpr (by simp),hterminal part b common e children hbuild hbr⟩
  · rw [← hfst, List.map_map] at hlabels
    exact hlabels
  · rintro ⟨ch,sub⟩ hp
    refine ⟨hzip hp,fun e he => hperm.mem_iff.mpr (List.mem_append_right _ ?_)⟩
    have hsub : sub ∈ R.parts part := hsnd ▸ List.mem_map_of_mem hp
    exact List.mem_flatten.mpr ⟨sub,hsub,he⟩
  · intro e he
    rcases List.mem_append.mp (hperm.mem_iff.mp he) with he | he
    · exact .inl (by simpa using he)
    · obtain ⟨sub,hsub,he⟩ := List.mem_flatten.mp he
      rw [← hsnd] at hsub
      obtain ⟨p,hp,rfl⟩ := List.mem_map.mp hsub
      exact .inr ⟨p,hp,he⟩

/-- What a page says about a name, for the entries `part` it stands for. -/
def Says (c : Codec) (name : Bytes) (part : List Entry) (page : Page) :
    Result (Entry ⊕ BranchChild) → Prop
  | .ok (.inl e) => e ∈ part ∧ e.name = name
  | .ok (.inr ch) => ch ∈ page.children ∧ ∃ sub, (∃ b, c.buildPage sub = .ok b ∧
      ch.childPageId = c.pageId b) ∧ sub ⊆ part ∧ ∀ e ∈ part, e.name = name → e ∈ sub
  | .error e => Ordinary e ∨ (e.code = .pathNotFound ∧ ∀ e ∈ part, e.name ≠ name)

theorem Says.entry {c : Codec} {page : Page} {e : Entry} (he : e ∈ part) (hname : e.name = name) :
    Says c name part page (.ok (.inl e)) := ⟨he,hname⟩

theorem Says.absent {c : Codec} {page : Page} {message : Text} (h : ∀ e ∈ part, e.name ≠ name) :
    Says c name part page (.error (notFound message)) := .inr ⟨rfl,h⟩

include R in
theorem inspect_leaf {entries : List Entry} (hbuild : r.codec.buildPage part = .ok b)
    (hdecode : r.codec.decodePage b = .ok (.leaf entries)) :
    Says r.codec name part (.leaf entries) (inspect r name b (.leaf entries)) := by
  rcases R.page part b hbuild with ⟨hleaf,_⟩ | ⟨_,_,_,hbr,_⟩
  swap
  · rw [hbr] at hdecode
    cases hdecode
  rw [hleaf] at hdecode
  cases hdecode
  rw [inspect, hbuild]
  simp only [Except.mapError, ok_bind, require, decide_true, if_true]
  cases hfind : part.find? (·.name = name) with
  | none =>
    refine Says.absent fun e he heq => ?_
    exact List.find?_eq_none.mp hfind e he (decide_eq_true heq)
  | some e =>
    exact Says.entry (List.mem_of_find?_eq_some hfind) (by simpa using List.find?_some hfind)

include R hterminal in
theorem inspect_branch {common : Bytes} {terminal : Option Entry} {children : List BranchChild}
    (hbuild : r.codec.buildPage part = .ok b)
    (hdecode : r.codec.decodePage b = .ok (.branch common terminal children)) :
    Says r.codec name part (.branch common terminal children)
      (inspect r name b (.branch common terminal children)) := by
  obtain ⟨pairs,rfl,hsplits⟩ := canonical_branch R hterminal hbuild hdecode
  have hbelow : ∀ p ∈ pairs, ∀ e ∈ p.2, e.name = name →
      common <+: name ∧ common.length < name.length ∧ name[common.length]? = some p.1.label :=
    fun p hp e he heq => label_at (heq ▸ (hsplits.child p hp).1.label e he)
  rw [inspect]
  by_cases hcommon : name = common
  · rw [if_pos hcommon]
    cases terminal with
    | none =>
      refine Says.absent fun e he heq => ?_
      rcases hsplits.cover e he with hnone | ⟨p,hp,hin⟩
      · cases hnone
      · exact absurd (hcommon ▸ (hbelow p hp e hin heq).2.1) (lt_irrefl _)
    | some e =>
      obtain ⟨he,hname⟩ := hsplits.own e rfl
      exact Says.entry he (hname.trans hcommon.symm)
  -- from here on an entry of this name can only stand below a child
  have hchild : ∀ e ∈ part, e.name = name → ∃ p ∈ pairs, e ∈ p.2 := by
    intro e he heq
    rcases hsplits.cover e he with hterm | hp
    · exact absurd (heq.symm.trans (hsplits.own e hterm).2) hcommon
    · exact hp
  rw [if_neg hcommon]
  split
  · rename_i houtside
    refine Says.absent fun e he heq => ?_
    obtain ⟨p,hp,hin⟩ := hchild e he heq
    obtain ⟨hstart,hlen,_⟩ := hbelow p hp e hin heq
    rcases houtside with hout | hout
    · exact hout hstart
    · omega
  · cases hfind : (pairs.map (·.1)).find? fun ch => name[common.length]? = some ch.label with
    | none =>
      refine Says.absent fun e he heq => ?_
      obtain ⟨p,hp,hin⟩ := hchild e he heq
      have hmiss := List.find?_eq_none.mp hfind p.1 (List.mem_map_of_mem hp)
      exact hmiss (decide_eq_true (hbelow p hp e hin heq).2.2)
    | some ch =>
      have hmem := List.mem_of_find?_eq_some hfind
      have hlabel : name[common.length]? = some ch.label := by simpa using List.find?_some hfind
      obtain ⟨p,hp,rfl⟩ := List.mem_map.mp hmem
      refine ⟨hmem,p.2,(hsplits.child p hp).1.page,(hsplits.child p hp).2,fun e he heq => ?_⟩
      obtain ⟨p',hp',hin⟩ := hchild e he heq
      have hsame : p'.1.label = p.1.label :=
        Option.some.inj ((hbelow p' hp' e hin heq).2.2.symm.trans hlabel)
      rwa [← List.inj_on_of_nodup_map hsplits.labels hp' hp hsame]

include R hterminal in
/-- A canonical page says about a name what its entries say. -/
theorem inspect_says {page : Page} (hbuild : r.codec.buildPage part = .ok b)
    (hdecode : r.codec.decodePage b = .ok page) :
    Says r.codec name part page (inspect r name b page) := by
  cases page with
  | leaf entries => exact inspect_leaf R hbuild hdecode
  | branch common terminal children => exact inspect_branch R hterminal hbuild hdecode

end Names

end Scorpio.ProvenFile
