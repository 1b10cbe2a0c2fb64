import Scorpio.Retention.Disk

/-!
# Single file steps

What one call can do to the disk: it puts a node at a path, drops one, or shifts a
file from one path to another. Wherever a call is cut, the disk is the one before
the call or the one after such a step.
-/

set_option autoImplicit false

namespace Scorpio.Retention

open ByteText DirectoryTree CrashLogic

def Puts (p : Path) (n : Node) (d d' : Disk) : Prop :=
  ∀ q, d'.get q = if q = p then some n else d.get q

def Drops (p : Path) (d d' : Disk) : Prop := ∀ q, d'.get q = if q = p then none else d.get q

def Shifts (src dst : Path) (n : Node) (d d' : Disk) : Prop :=
  ∀ q, d'.get q = if q = src then none else if q = dst then some n else d.get q

section Disks

variable {d d' : Disk} {p q src dst : Path} {n : Node}

theorem has_dir_iff {d : Disk} : d.hasDir p = true ↔ d.get p = some .directory := by
  simp only [Tree.hasDir, Option.any_eq_true]
  constructor
  · rintro ⟨n,hn,hdir⟩
    cases n <;> first | exact hn | cases hdir
  · intro h
    exact ⟨_,h,rfl⟩

theorem Puts.other (hp : Puts p n d d') (hq : q ≠ p) : d'.get q = d.get q := by
  rw [hp q, if_neg hq]

theorem Drops.here (hp : Drops p d d') : d'.get p = none := by rw [hp p, if_pos rfl]

theorem Drops.other (hp : Drops p d d') (hq : q ≠ p) : d'.get q = d.get q := by
  rw [hp q, if_neg hq]

theorem Shifts.other (hp : Shifts src dst n d d') (hsrc : q ≠ src) (hdst : q ≠ dst) :
    d'.get q = d.get q := by
  rw [hp q, if_neg hsrc, if_neg hdst]

theorem accepts_file {bytes : Bytes} (hacc : d.accepts (.regular bytes) p = true) :
    d.get p ≠ some .directory := by
  intro hget
  cases p with
  | nil => cases hacc
  | cons name dir =>
    simp only [Tree.accepts, Bool.and_eq_true, Bool.or_eq_true, Bool.not_eq_true'] at hacc
    rcases hacc.2 with hdir | hno
    · cases hdir
    · rw [has_dir_iff.mpr hget] at hno
      cases hno

theorem put_file (d : Disk) (p : Path) (bytes : Bytes) : d.put p (.regular bytes) = d ∨
    d.get p ≠ some .directory ∧ Puts p (.regular bytes) d (d.put p (.regular bytes)) := by
  by_cases hacc : d.accepts (.regular bytes) p = true
  · exact .inr ⟨accepts_file hacc,fun q => Tree.get_put hacc q⟩
  · left
    rw [Tree.put, dif_neg hacc]

end Disks

/-! ## Calls -/

section Calls

variable (h : Host) {s t : Machine} {p src dst : Path}

theorem passes_act {f : Machine → Except IoError Machine} (hp : Passes (act h f) s t) : t = s ∨ t = {s with tick := s.tick+1} ∨
    ∃ m', f s = .ok m' ∧ t = {m' with tick := s.tick+1} := by
  unfold Passes act at hp
  cases hf : h.fault s.tick with
  | some e =>
    rw [hf] at hp
    simp only [Option.elim_some, List.mem_singleton] at hp
    tauto
  | none =>
    rw [hf] at hp
    cases hs : f s with
    | error e =>
      simp only [Option.elim_none, hs, List.mem_singleton] at hp
      tauto
    | ok m' =>
      simp only [Option.elim_none, hs, List.mem_singleton] at hp
      exact hp.imp_right fun hp => .inr ⟨m',rfl,hp⟩

/-- Cut anywhere, a call has changed the disk by one step or not at all. -/
theorem passes_act_disk {f : Machine → Except IoError Machine} (ht : Passes (act h f) s t) :
    t.disk = s.disk ∨ ∃ m', f s = .ok m' ∧ t.disk = m'.disk := by
  rcases passes_act h ht with rfl | rfl | ⟨m',hm',rfl⟩
  · exact .inl rfl
  · exact .inl rfl
  · exact .inr ⟨m',hm',rfl⟩

theorem renamed_ok {m' : Machine} {src dst : Path} (hne : src ≠ dst)
    (hm' : renamed s src dst = .ok m') : ∃ bytes, s.disk.get src = some (.regular bytes) ∧
    s.disk.get dst ≠ some .directory ∧ s.disk.accepts (.regular bytes) dst = true ∧
    m' = s.move src dst bytes := by
  unfold renamed at hm'
  cases hget : s.disk.get src with
  | none => simp [hget] at hm'
  | some n =>
    cases n with
    | directory => simp [hget] at hm'
    | special => simp [hget] at hm'
    | regular bytes =>
      simp only [hget, if_neg hne] at hm'
      split_ifs at hm' with hdir hacc
      cases hm'
      exact ⟨bytes,rfl,fun hd => hdir (has_dir_iff.mpr hd),hacc,rfl⟩

theorem new_entry_puts {n : Node} {m' : Machine} (hm' : newEntry s p n = .ok m') :
    Puts p n s.disk m'.disk := by
  unfold newEntry at hm'
  split_ifs at hm' with hacc
  cases hm'
  exact fun q => Tree.get_put hacc q

theorem open_create_new_steps (ht : Passes (openCreateNew h p) s t) :
    t.disk = s.disk ∨ s.disk.get p = none ∧ Puts p (.regular []) s.disk t.disk := by
  refine (passes_act_disk h ht).imp_right ?_
  rintro ⟨m',hm',hdisk⟩
  rw [hdisk]
  cases hget : s.disk.get p with
  | some n => simp [hget] at hm'
  | none =>
    rw [hget] at hm'
    exact ⟨rfl,new_entry_puts hm'⟩

theorem write_all_steps {bytes : Bytes} (ht : Passes (writeAll h p bytes) s t) :
    t.disk = s.disk ∨ s.disk.get p ≠ some .directory ∧
      ∃ part, part <+: bytes ∧ Puts p (.regular (written s p ++ part)) s.disk t.disk := by
  have hfill : ∀ part, part <+: bytes → (s.fill p (written s p ++ part)).disk = s.disk ∨
      s.disk.get p ≠ some .directory ∧ ∃ found, found <+: bytes ∧
        Puts p (.regular (written s p ++ found)) s.disk (s.fill p (written s p ++ part)).disk := by
    intro part hpart
    refine (put_file s.disk p (written s p ++ part)).imp_right ?_
    rintro ⟨hdir,hputs⟩
    exact ⟨hdir,part,hpart,hputs⟩
  have htorn := hfill _ (List.take_prefix (h.torn s.tick) bytes)
  have hwhole := hfill bytes (List.prefix_refl bytes)
  unfold Passes writeAll at ht
  cases hf : h.fault s.tick with
  | some e =>
    simp only [hf, List.mem_cons, List.not_mem_nil, or_false] at ht
    rcases ht with (rfl | rfl) | rfl
    · exact .inl rfl
    · exact htorn
    · exact htorn
  | none =>
    simp only [hf, List.mem_cons, List.not_mem_nil, or_false] at ht
    rcases ht with (rfl | rfl) | rfl
    · exact .inl rfl
    · exact htorn
    · exact hwhole

theorem sync_file_steps (ht : Passes (syncFile h p) s t) : t.disk = s.disk := by
  rcases passes_act_disk h ht with hsame | ⟨m',hm',hdisk⟩
  · exact hsame
  · rw [hdisk]
    split at hm' <;> cases hm'
    rfl

theorem sync_directory_steps (ht : Passes (syncDirectory h p) s t) : t.disk = s.disk := by
  rcases passes_act_disk h ht with hsame | ⟨m',hm',hdisk⟩
  · exact hsame
  · rw [hdisk]
    split at hm' <;> cases hm'
    rfl

theorem remove_file_steps (ht : Passes (removeFile h p) s t) : t.disk = s.disk ∨
    (∃ n, s.disk.get p = some n ∧ n ≠ .directory) ∧ Drops p s.disk t.disk := by
  refine (passes_act_disk h ht).imp_right ?_
  rintro ⟨m',hm',hdisk⟩
  rw [hdisk]
  have hdrops : s.disk.get p ≠ some .directory → Drops p s.disk (s.unlink p).disk := by
    intro hno q
    exact Tree.get_remove (Bool.eq_false_iff.mpr fun hdir => hno (has_dir_iff.mp hdir)) q
  cases hget : s.disk.get p with
  | none => simp [hget] at hm'
  | some n =>
    cases n with
    | directory => simp [hget] at hm'
    | regular bytes =>
      simp only [hget] at hm'
      cases hm'
      exact ⟨⟨_,rfl,by simp⟩,hdrops (by simp [hget])⟩
    | special =>
      simp only [hget] at hm'
      cases hm'
      exact ⟨⟨_,rfl,by simp⟩,hdrops (by simp [hget])⟩

theorem rename_steps (hne : src ≠ dst) (ht : Passes (rename h src dst) s t) : t.disk = s.disk ∨
    ∃ bytes, s.disk.get src = some (.regular bytes) ∧ s.disk.get dst ≠ some .directory ∧
      Shifts src dst (.regular bytes) s.disk t.disk := by
  refine (passes_act_disk h ht).imp_right ?_
  rintro ⟨m',hm',hdisk⟩
  obtain ⟨bytes,hget,hdir,hacc,rfl⟩ := renamed_ok hne hm'
  refine ⟨bytes,hget,hdir,fun q => ?_⟩
  rw [hdisk]
  show ((s.disk.put dst (.regular bytes)).remove src).get q = _
  have hleaf : (s.disk.put dst (.regular bytes)).hasDir src = false := by
    rw [Tree.hasDir, Tree.get_put hacc, if_neg hne, hget]
    rfl
  rw [Tree.get_remove hleaf, Tree.get_put hacc]

end Calls

end Scorpio.Retention
