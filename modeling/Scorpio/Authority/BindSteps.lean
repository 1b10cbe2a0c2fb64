import Scorpio.Authority.BindDirectory

/-!
# The steps of one binding call

A call relies on others to leave the directory alone while it holds the lock,
and guarantees the same to them. It writes only under the lock, and puts a
record in place only where it has found none and no content.
-/

set_option autoImplicit false

namespace Scorpio.Authority

open ByteText PageCodec Dialogues RelyGuarantee Retention

/-- Something that no binding may adopt. -/
def Populated (content : List Entry) : Prop :=
  ∃ entry ∈ content, entry.name ≠ authorityLock ∧ entry.name ≠ authorityTmp ∧
    ¬(entry.isDir = true ∧ entry.isEmpty = true)

section Terms

variable {κ : Type} [DecidableEq κ]

/-- What call `k` can count on: a record stays, content stays, and nothing moves under its lock. -/
structure Rely (k : κ) (d d' : Directory κ) : Prop where
  authority : ∀ bytes, d.authority = some bytes → d'.authority = some bytes
  content : d'.content = d.content
  locked : d.holder = some k →
    d'.holder = some k ∧ d'.authority = d.authority ∧ d'.temporaries = d.temporaries

/-- What every step does: a record stays, content stays, and a new record needs an unpopulated
directory. -/
structure Always (d d' : Directory κ) : Prop where
  authority : ∀ bytes, d.authority = some bytes → d'.authority = some bytes
  content : d'.content = d.content
  adopted : d.authority = none → d'.authority ≠ none → ¬Populated d.content

structure Guarantee (k : κ) (d d' : Directory κ) : Prop extends Always d d' where
  unlocked : d.holder ≠ some k → (d'.holder = d.holder ∨ d.holder = none) ∧
    d'.authority = d.authority ∧ d'.temporaries = d.temporaries

def terms (k : κ) : Terms Answer (Directory κ) where
  effect := effect k
  rely := Rely k
  guarantee := Guarantee k
  refl d := ⟨fun _ h => h,rfl,fun h => ⟨h,rfl,rfl⟩⟩
  trans d d' d'' h h' := by
    refine ⟨fun bytes hb => h'.authority bytes (h.authority bytes hb),h'.content.trans h.content,
      fun hk => ?_⟩
    obtain ⟨hk',ha,ht⟩ := h.locked hk
    obtain ⟨hk'',ha',ht'⟩ := h'.locked hk'
    exact ⟨hk'',ha'.trans ha,ht'.trans ht⟩

variable {k : κ} {d d' : Directory κ}

omit [DecidableEq κ] in
theorem Guarantee.refl (k : κ) (d : Directory κ) : Guarantee k d d :=
  ⟨⟨fun _ h => h,rfl,fun h h' => absurd h h'⟩,fun _ => ⟨.inl rfl,rfl,rfl⟩⟩

/-! ## What a call knows -/

def Held (k : κ) (d : Directory κ) : Prop := d.holder = some k

/-- The call has found no record under its lock. -/
def Unbound (k : κ) (d : Directory κ) : Prop := Held k d ∧ d.authority = none

def Adoptable (k : κ) (d : Directory κ) : Prop := Unbound k d ∧ ¬Populated d.content

def Drafted (k : κ) (name : Text) (data : Bytes) (d : Directory κ) : Prop :=
  Adoptable k d ∧ d.temporaries name = some data

/-- The record in the directory is this binding. -/
def BoundTo (format : Format CacheBinding) (binding : CacheBinding) (d : Directory κ) : Prop :=
  ∃ bytes, d.authority = some bytes ∧ format.decode bytes = .ok binding

theorem stable_true : Stable (terms k) fun _ => True := fun _ _ _ _ => trivial

theorem stable_held : Stable (terms k) (Held k) := fun _ _ h hk => (h.locked hk).1

theorem stable_unbound : Stable (terms k) (Unbound k) := fun _ _ h hk =>
  ⟨(h.locked hk.1).1,(h.locked hk.1).2.1.trans hk.2⟩

theorem stable_adoptable : Stable (terms k) (Adoptable k) := fun d d' h hk =>
  ⟨stable_unbound d d' h hk.1,by rw [h.content]; exact hk.2⟩

theorem stable_drafted {name : Text} {data : Bytes} : Stable (terms k) (Drafted k name data) :=
  fun d d' h hk => ⟨stable_adoptable d d' h hk.1,by rw [(h.locked hk.1.1.1).2.2]; exact hk.2⟩

theorem stable_bound {format : Format CacheBinding} {binding : CacheBinding} :
    Stable (terms k) (BoundTo format binding) := fun _ _ h hk => by
  obtain ⟨bytes,hb,hdec⟩ := hk
  exact ⟨bytes,h.authority bytes hb,hdec⟩

theorem stable_and {P Q : Directory κ → Prop} (hP : Stable (terms k) P) (hQ : Stable (terms k) Q) :
    Stable (terms k) fun d => P d ∧ Q d := fun d d' h hk => ⟨hP d d' h hk.1,hQ d d' h hk.2⟩

end Terms

/-! ## The steps of a call -/

section Steps

variable {κ : Type} [DecidableEq κ] {k : κ} {P E : Directory κ → Prop}

/-- An operation whose I/O error is returned. -/
theorem runs_or_io {α : Type} {m : Call (Except IoError α)} {Q : α → Directory κ → Prop}
    (hE : Stable (terms k) E) (hQ : ∀ a, Stable (terms k) (Q a))
    (h : Runs (terms k) P m (fun r d => match r with | .ok a => Q a d | .error _ => E d) E) :
    Runs (terms k) P (orIo m) Q E := by
  refine h.bind hE fun r => ?_
  cases r with
  | ok a => exact runs_pure (hQ a) fun _ hq => hq
  | error e => exact runs_fail hE fun _ hd => hd

/-- An operation that leaves the directory as it is. -/
theorem runs_look (op : Op) (hP : Stable (terms k) P)
    (h : ∀ d r d', effect k op d r d' → d' = d) : Runs (terms k) P (ask op) (fun _ => P) E :=
  runs_call hP (fun _ => hP) fun d r d' hd he => by
    rw [h d r d' he]
    exact ⟨Guarantee.refl k d,hd⟩

theorem runs_look_io {m : Call (Except IoError Unit)} (hP : Stable (terms k) P)
    (hE : Stable (terms k) E) (hPE : ∀ d, P d → E d)
    (hm : Runs (terms k) P m (fun _ => P) E) : Runs (terms k) P (orIo m) (fun _ => P) E :=
  runs_or_io hE (fun _ => hP) (hm.mono (fun _ h => h) (fun r d h => by
    cases r with
    | ok a => exact h
    | error e => exact hPE d h) fun _ h => h)

theorem runs_lock : Runs (terms k) (fun _ => True) (orIo (ask .lock)) (fun _ => Held k)
    fun _ => True := by
  refine runs_or_io stable_true (fun _ => stable_held) (runs_call stable_true (fun r => ?_) ?_)
  · cases r with
    | ok a => exact stable_held
    | error e => exact stable_true
  · rintro d r d' _ (⟨⟨e,rfl⟩,rfl⟩ | ⟨rfl,hfree,rfl⟩)
    · exact ⟨Guarantee.refl k d',trivial⟩
    · refine ⟨⟨⟨fun _ h => h,rfl,fun h h' => absurd h h'⟩,fun _ => ⟨.inr hfree,rfl,rfl⟩⟩,rfl⟩

/-! ## Looking for content -/

/-- An entry that does not keep a directory from being bound. -/
def Harmless (entry : Entry) : Prop :=
  entry.name = authorityLock ∨ entry.name = authorityTmp ∨
    (entry.isDir = true ∧ entry.isEmpty = true)

theorem not_populated {content : List Entry} (h : ∀ entry ∈ content, Harmless entry) :
    ¬Populated content := by
  rintro ⟨entry,hentry,hlock,htmp,hfull⟩
  rcases h entry hentry with h | h | h
  · exact hlock h
  · exact htmp h
  · exact hfull h

/-- What is still to be looked at covers every entry that is not known to be harmless. -/
def Pending (items : List (Except IoError Listed)) (content : List Entry) : Prop :=
  (∃ e, .error e ∈ items) ∨ ∀ entry ∈ content, Harmless entry ∨
    ∃ item : Listed, .ok item ∈ items ∧ item.name = entry.name ∧
      (item.isDir = .ok entry.isDir ∨ ∃ e, item.isDir = .error e)

theorem Pending.tail {item : Listed} {items : List (Except IoError Listed)} {content : List Entry}
    (h : Pending (.ok item :: items) content)
    (hitem : ∀ entry ∈ content, item.name = entry.name →
      (item.isDir = .ok entry.isDir ∨ ∃ e, item.isDir = .error e) → Harmless entry) :
    Pending items content := by
  rcases h with ⟨e,he⟩ | h
  · rcases List.mem_cons.mp he with he | he
    · cases he
    · exact .inl ⟨e,he⟩
  · refine .inr fun entry hentry => ?_
    rcases h entry hentry with hharm | ⟨found,hfound,hname,hdir⟩
    · exact .inl hharm
    · rcases List.mem_cons.mp hfound with hfound | hfound
      · cases hfound
        exact .inl (hitem entry hentry hname hdir)
      · exact .inr ⟨found,hfound,hname,hdir⟩

theorem stable_pending {items : List (Except IoError Listed)} :
    Stable (terms k) fun d => Unbound k d ∧ Pending items d.content :=
  stable_and stable_unbound fun d d' h hd => by
    rw [h.content]
    exact hd

/-- Is the subdirectory empty? -/
theorem runs_child_empty (name : Text) (items : List (Except IoError Listed)) :
    Runs (terms k) (fun d => Unbound k d ∧ Pending items d.content)
      (orIo (ask (.childEmpty name)))
      (fun isEmpty d => (Unbound k d ∧ Pending items d.content) ∧
        ∀ entry ∈ d.content, entry.name = name → entry.isEmpty = isEmpty) (Held k) := by
  have hstable : ∀ isEmpty, Stable (terms k) fun d => (Unbound k d ∧ Pending items d.content) ∧
      ∀ entry ∈ d.content, entry.name = name → entry.isEmpty = isEmpty := fun isEmpty =>
    stable_and stable_pending fun d d' h hd => by
      rw [h.content]
      exact hd
  refine runs_or_io stable_held hstable (runs_call stable_pending (fun r => ?_) ?_)
  · cases r with
    | ok isEmpty => exact hstable isEmpty
    | error e => exact stable_held
  · rintro d r d' hd ⟨rfl,hempty⟩
    refine ⟨Guarantee.refl k d',?_⟩
    cases r with
    | ok isEmpty => exact ⟨hd,hempty isEmpty rfl⟩
    | error e => exact hd.1.1

theorem runs_check_entries (items : List (Except IoError Listed)) :
    Runs (terms k) (fun d => Unbound k d ∧ Pending items d.content) (checkEntries items)
      (fun _ => Adoptable k) (Held k) := by
  induction items with
  | nil =>
    refine runs_pure stable_pending fun d hd => ⟨hd.1,not_populated fun entry hentry => ?_⟩
    rcases hd.2 with ⟨e,he⟩ | hall
    · cases he
    · rcases hall entry hentry with hharm | ⟨_,hmem,_⟩
      · exact hharm
      · cases hmem
  | cons item items ih =>
    cases item with
    | error e => exact runs_fail stable_pending fun d hd => hd.1.1
    | ok item =>
      by_cases hname : item.name = authorityLock ∨ item.name = authorityTmp
      · have hrun : checkEntries (.ok item :: items) = checkEntries items := if_pos hname
        rw [hrun]
        refine ih.mono (fun d hd => ⟨hd.1,hd.2.tail fun entry _ hsame _ => ?_⟩) (fun _ _ h => h)
          fun _ h => h
        exact hname.elim (fun h => .inl (hsame ▸ h)) fun h => .inr (.inl (hsame ▸ h))
      · have hrun : checkEntries (.ok item :: items) = (do
            let isDir ← lift (item.isDir.mapError ioError)
            if isDir then do
              let isEmpty ← orIo (ask (.childEmpty item.name))
              if isEmpty then checkEntries items else fail populated
            else fail populated) := if_neg hname
        rw [hrun]
        cases hdir : item.isDir with
        | error e => exact runs_fail stable_pending fun d hd => hd.1.1
        | ok isDir =>
          cases isDir with
          | false => exact runs_fail stable_pending fun d hd => hd.1.1
          | true =>
            change Runs (terms k) _ (orIo (ask (.childEmpty item.name)) >>= fun isEmpty =>
              if isEmpty = true then checkEntries items else fail populated) _ _
            refine (runs_child_empty item.name (.ok item :: items)).bind stable_held fun isEmpty => ?_
            cases isEmpty with
            | false =>
              refine (runs_fail stable_held fun _ h => h).mono (fun d hd => hd.1.1.1) (fun _ _ h => h)
                fun _ h => h
            | true =>
              refine ih.mono (fun d hd => ⟨hd.1.1,hd.1.2.tail fun entry hentry hsame hkind => ?_⟩)
                (fun _ _ h => h) fun _ h => h
              rw [hdir] at hkind
              rcases hkind with hkind | ⟨e,he⟩
              · exact .inr (.inr ⟨(Except.ok.inj hkind).symm,hd.2 entry hentry hsame.symm⟩)
              · cases he

theorem runs_read_dir : Runs (terms k) (Unbound k) (orIo (ask .readDir))
    (fun items d => Unbound k d ∧ Pending items d.content) (Held k) := by
  refine runs_or_io stable_held (fun _ => stable_pending) (runs_call stable_unbound (fun r => ?_) ?_)
  · cases r with
    | ok items => exact stable_pending
    | error e => exact stable_held
  · rintro d r d' hd ⟨rfl,hlists⟩
    refine ⟨Guarantee.refl k d',?_⟩
    cases r with
    | ok items => exact ⟨hd,(hlists items rfl).imp_right fun h entry hentry => .inr (h entry hentry)⟩
    | error e => exact hd.1

/-! ## Writing the record -/

omit [DecidableEq κ] in
theorem guarantee_temporary {d : Directory κ} (h : Held k d) (name : Text) (data : Option Bytes) :
    Guarantee k d (d.setTemporary name data) :=
  ⟨⟨fun _ h => h,rfl,fun h h' => absurd h h'⟩,fun hother => absurd h hother⟩

theorem runs_open_truncate (name : Text) :
    Runs (terms k) (Adoptable k) (orIo (ask (.openTruncate name))) (fun _ => Drafted k name [])
      (Held k) := by
  refine runs_or_io stable_held (fun _ => stable_drafted) (runs_call stable_adoptable (fun r => ?_) ?_)
  · cases r with
    | ok _ => exact stable_drafted
    | error e => exact stable_held
  · intro d r d' hd he
    cases r with
    | ok _ =>
      obtain rfl : d' = d.setTemporary name (some []) := he
      exact ⟨guarantee_temporary hd.1.1 _ _,hd,Function.update_self ..⟩
    | error e =>
      rcases he with rfl | rfl
      · exact ⟨Guarantee.refl k d',hd.1.1⟩
      · exact ⟨guarantee_temporary hd.1.1 _ _,hd.1.1⟩

theorem runs_write (name : Text) (old data : Bytes) :
    Runs (terms k) (Drafted k name old) (orIo (ask (.write name data)))
      (fun n => Drafted k name (old ++ data.take n)) (Held k) := by
  refine runs_or_io stable_held (fun _ => stable_drafted) (runs_call stable_drafted (fun r => ?_) ?_)
  · cases r with
    | ok n => exact stable_drafted
    | error e => exact stable_held
  · intro d r d' hd he
    cases r with
    | ok n =>
      obtain ⟨_,found,hfound,rfl⟩ := he
      rw [hd.2] at hfound
      cases hfound
      exact ⟨guarantee_temporary hd.1.1.1 _ _,hd.1,Function.update_self ..⟩
    | error e =>
      obtain rfl : d' = d := he
      exact ⟨Guarantee.refl k d',hd.1.1.1⟩

theorem runs_write_all (name : Text) (turns : ℕ) (old data : Bytes) :
    Runs (terms k) (Drafted k name old) (writeAll name turns data)
      (fun _ => Drafted k name (old ++ data)) (Held k) := by
  induction turns generalizing old data with
  | zero =>
    cases data with
    | nil => exact runs_pure stable_drafted fun d hd => by rwa [List.append_nil]
    | cons b data => exact runs_fail stable_drafted fun d hd => hd.1.1.1
  | succ turns ih =>
    cases data with
    | nil => exact runs_pure stable_drafted fun d hd => by rwa [List.append_nil]
    | cons b data =>
      refine (runs_write name old (b :: data)).bind stable_held fun n => ?_
      by_cases hn : n = 0
      · rw [if_pos hn]
        exact runs_fail stable_drafted fun d hd => hd.1.1.1
      · rw [if_neg hn]
        have hrest := ih (old ++ (b :: data).take n) ((b :: data).drop n)
        rwa [List.append_assoc, List.take_append_drop] at hrest

/-- The record is in place and the call holds the lock. -/
def Placed (k : κ) (data : Bytes) (d : Directory κ) : Prop := Held k d ∧ d.authority = some data

theorem stable_placed {data : Bytes} : Stable (terms k) (Placed k data) :=
  stable_and stable_held fun _ _ h hd => h.authority _ hd

theorem runs_rename (name : Text) (data : Bytes) :
    Runs (terms k) (Drafted k name data) (orIo (ask (.rename name))) (fun _ => Placed k data)
      (Held k) := by
  refine runs_or_io stable_held (fun _ => stable_placed) (runs_call stable_drafted (fun r => ?_) ?_)
  · cases r with
    | ok _ => exact stable_placed
    | error e => exact stable_held
  · intro d r d' hd he
    cases r with
    | ok _ =>
      obtain ⟨found,hfound,rfl⟩ := he
      rw [hd.2] at hfound
      cases hfound
      refine ⟨⟨⟨fun bytes hb => ?_,rfl,fun _ _ => hd.1.2⟩,fun hother => ?_⟩,hd.1.1.1,rfl⟩
      · rw [hd.1.1.2] at hb
        cases hb
      · exact absurd hd.1.1.1 hother
    | error e =>
      obtain rfl : d' = d := he
      exact ⟨Guarantee.refl k d',hd.1.1.1⟩

theorem runs_write_authority (temp : Text) (data : Bytes) :
    Runs (terms k) (Adoptable k) (writeAuthority temp data) (fun _ => Placed k data) (Held k) := by
  refine (runs_open_truncate temp).bind stable_held fun _ => ?_
  refine (runs_write_all temp data.length [] data).bind stable_held fun _ => ?_
  rw [List.nil_append]
  refine (runs_look_io stable_drafted stable_held (fun d hd => hd.1.1.1)
    (runs_look (.syncFile temp) stable_drafted fun _ _ _ h => h)).bind stable_held fun _ => ?_
  refine (runs_rename temp data).bind stable_held fun _ => ?_
  exact runs_look_io stable_placed stable_held (fun d hd => hd.1)
    (runs_look .syncDir stable_placed fun _ _ _ h => h)

theorem runs_drop_admission (temp : Text) (hP : Stable (terms k) P) (hheld : ∀ d, P d → Held k d)
    (htemp : ∀ d, P d → P (d.setTemporary temp none)) :
    Runs (terms k) P (ask (.dropAdmission temp)) (fun _ => P) P :=
  runs_call hP (fun _ => hP) fun d r d' hd he => by
    rcases he with rfl | rfl
    · exact ⟨guarantee_temporary (hheld d hd) _ _,htemp d hd⟩
    · exact ⟨Guarantee.refl k d',hd⟩

theorem runs_adopt (data : Bytes) :
    Runs (terms k) (Unbound k) (adopt data) (fun _ => Placed k data) (Held k) := by
  refine runs_read_dir.bind stable_held fun items => ?_
  refine (runs_check_entries items).bind stable_held fun _ => ?_
  refine (runs_look (.beginWrite data.length) stable_adoptable fun _ _ _ h => h).bind stable_held
    fun r => ?_
  refine (runs_lift (Q := fun _ => Adoptable k) stable_adoptable (fun _ _ _ h => h)
    fun d hd => hd.1.1).bind stable_held fun temp => ?_
  cases temp with
  | none => exact runs_write_authority authorityTmp data
  | some temp =>
    exact runs_ensuring (fun _ => stable_placed) stable_held (runs_write_authority temp data)
      (fun _ => runs_drop_admission temp stable_placed (fun d hd => hd.1) fun d hd => hd)
      (runs_drop_admission temp stable_held (fun d hd => hd) fun d hd => hd)

/-! ## The call -/

variable {format : Format CacheBinding}

theorem compare_stored_ok {binding : CacheBinding} {bytes : Bytes} {u : Unit}
    (h : compareStored format binding bytes = .ok u) : format.decode bytes = .ok binding := by
  unfold compareStored at h
  split at h
  · cases h
  · rename_i stored hdec
    split at h
    · rename_i hsame
      rw [hdec, hsame]
    · cases h

theorem runs_read_authority :
    Runs (terms k) (Held k) (ask .readAuthority)
      (fun r d => match r with
        | .ok bytes => Placed k bytes d
        | .error e => if e.kind = .notFound then Unbound k d else Held k d) (Held k) := by
  refine runs_call stable_held (fun r => ?_) ?_
  · cases r with
    | ok bytes => exact stable_placed
    | error e =>
      by_cases he : e.kind = .notFound
      · simpa only [if_pos he] using stable_unbound
      · simpa only [if_neg he] using stable_held
  · rintro d r d' hd ⟨rfl,hr⟩
    refine ⟨Guarantee.refl k d',?_⟩
    cases r with
    | ok bytes => exact ⟨hd,hr⟩
    | error e =>
      by_cases he : e.kind = .notFound
      · simpa only [if_pos he] using ⟨hd,hr he⟩
      · simpa only [if_neg he] using hd

theorem runs_under_lock (binding : CacheBinding) :
    Runs (terms k) (Held k) (underLock format binding)
      (fun _ d => Held k d ∧ BoundTo format binding d) (Held k) := by
  refine runs_read_authority.bind stable_held fun r => ?_
  cases r with
  | ok bytes =>
    exact runs_lift stable_placed (fun u d hu hd => ⟨hd.1,bytes,hd.2,compare_stored_ok hu⟩)
      fun d hd => hd.1
  | error e =>
    by_cases he : e.kind = .notFound
    · simp only [if_pos he]
      exact (runs_adopt (format.encode binding)).mono (fun _ h => h)
        (fun _ d hd => ⟨hd.1,_,hd.2,format.round binding⟩) fun _ h => h
    · simp only [if_neg he]
      exact runs_fail stable_held fun _ h => h

theorem guarantee_release (d : Directory κ) : Guarantee k d (d.release k) := by
  unfold Directory.release
  split
  · rename_i hk
    exact ⟨⟨fun _ h => h,rfl,fun h h' => absurd h h'⟩,fun hother => absurd hk hother⟩
  · exact Guarantee.refl k d

theorem bound_release {binding : CacheBinding} {d : Directory κ} (h : BoundTo format binding d) :
    BoundTo format binding (d.release k) := by
  unfold Directory.release
  split <;> exact h

theorem runs_unlock {P P' : Directory κ → Prop} (hP : Stable (terms k) P)
    (hP' : Stable (terms k) P') (h : ∀ d, P d → P' (d.release k)) :
    Runs (terms k) P (ask .unlock) (fun _ => P') P' :=
  runs_call hP (fun _ => hP') fun d r d' hd he => by
    obtain rfl : d' = d.release k := he
    exact ⟨guarantee_release d,h d hd⟩

/-- A call from any state of the directory keeps its guarantee, and leaves its own binding there
if it returns without an error. -/
theorem runs_bind_directory (binding : CacheBinding) :
    Runs (terms k) (fun _ => True) (bindDirectory format binding)
      (fun _ => BoundTo format binding) fun _ => True := by
  refine (runs_look .ioGuard stable_true fun _ _ _ h => h).bind stable_true fun r => ?_
  refine (runs_lift (Q := fun _ _ => True) stable_true (fun _ _ _ h => h) fun _ h => h).bind
    stable_true fun _ => ?_
  refine (runs_look_io stable_true stable_true (fun _ h => h)
    (runs_look .createDirAll stable_true fun _ _ _ h => h)).bind stable_true fun _ => ?_
  refine (runs_look_io stable_true stable_true (fun _ h => h)
    (runs_look .openLock stable_true fun _ _ _ h => h)).bind stable_true fun _ => ?_
  refine runs_lock.bind stable_true fun _ => ?_
  exact runs_ensuring (fun _ => stable_bound) stable_true (runs_under_lock binding)
    (fun _ => runs_unlock (stable_and stable_held stable_bound) stable_bound
      fun d hd => bound_release hd.2)
    (runs_unlock stable_held stable_true fun _ _ => trivial)

end Steps

end Scorpio.Authority
