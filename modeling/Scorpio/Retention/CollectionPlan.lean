import Scorpio.Retention.Candidates

/-!
# A plan for one pass

What has been established when a collection starts to remove files: the inventory
is complete, every owner is accounted for, every file has a class, and the selected
files are distinct files that nobody needs. Nothing that can be reached from an
owner that is not retired is among them.
-/

set_option autoImplicit false

namespace Scorpio.Retention

open Fallible Queries

/-- The intents among the files. -/
def intentsAmong (scope : Path) (files : List (Path × ℕ)) (control : List Path) : List Path :=
  (Assoc.keys files).filter fun path => isIntent scope path ∧ path ∉ control

/-- Everything that a pass found out before it removes anything. -/
structure Planned (h : Host) (scope : Path) (d : Disk) (plan : CollectionPlan)
    (owners : List RetentionOwner) (p : Protection) (control : List Path) (o : Orphans)
    (stale : List Path) : Prop where
  policy : Answers (policy h scope) d plan.limits
  survey : Surveyed plan.limits d scope plan.inventory
  placed : ∀ owner ∈ owners, Placed scope owner
  complete : ∀ sid id n, canonicalHex sid = true → d.get (ownerRoot scope sid id) = some n →
    ∃ owner ∈ owners, owner.root = ownerRoot scope sid id
  shields : Shields h d owners p
  directories : ∀ q ∈ plan.inventory.directories, validDirectory scope q (ownerRoots owners) = .ok true
  controls : Controls scope plan.inventory.files control
  orphans : OrphansOf h plan.limits scope owners d plan.inventory
    (intentsAmong scope plan.inventory.files control) o
  finals : Finals scope owners p control o plan.inventory.files stale
  candidates : plan.candidates = stale.map (fun q => [q]) ++
    if control = [] then o.groups else control.map fun q => [q]
  chosen : ∃ taken, taken.Sublist plan.candidates ∧
    Chosen plan.limits plan.inventory taken plan.selected

section Planning

variable (h : Host) {scope : Path} {d : Disk} {plan : CollectionPlan}

theorem check_directories_ok {owners : List RetentionOwner} {paths : List Path} {u u' : Unit}
    (hok : paths.foldlM (checkDirectoryLayout scope owners) u = .ok u') :
    ∀ q ∈ paths, validDirectory scope q (ownerRoots owners) = .ok true := by
  induction paths generalizing u with
  | nil => exact fun _ hq => absurd hq List.not_mem_nil
  | cons path paths ih =>
    rw [List.foldlM_cons] at hok
    obtain ⟨v,hv,hok⟩ := bind_ok.mp hok
    obtain ⟨valid,hvalid,hv⟩ := bind_ok.mp hv
    rw [require_ok.mp hv] at hvalid
    intro q hq
    rcases List.mem_cons.mp hq with rfl | hq
    · exact hvalid
    · exact ih hok q hq

theorem answers_plan (ha : Answers (planCollection h scope) d plan) :
    ∃ owners p control o stale, Planned h scope d plan owners p control o stale := by
  obtain ⟨_,-,ha⟩ := answers_bind ha
  obtain ⟨_,-,ha⟩ := answers_bind ha
  obtain ⟨_,-,ha⟩ := answers_bind ha
  obtain ⟨_,-,ha⟩ := answers_bind ha
  obtain ⟨limits,hlimits,ha⟩ := answers_bind ha
  obtain ⟨_,-,ha⟩ := answers_bind ha
  obtain ⟨now,-,ha⟩ := answers_bind ha
  obtain ⟨i,hi,ha⟩ := answers_bind ha
  obtain ⟨owners,howners,ha⟩ := answers_bind ha
  obtain ⟨b,-,ha⟩ := answers_bind ha
  obtain ⟨p,hp,ha⟩ := answers_bind ha
  obtain ⟨dirs,hdirs,ha⟩ := answers_bind ha
  obtain ⟨c,hc,ha⟩ := answers_bind ha
  obtain ⟨o,ho,ha⟩ := answers_bind ha
  obtain ⟨f,hf,ha⟩ := answers_bind ha
  obtain ⟨s,hs,ha⟩ := answers_bind ha
  obtain ⟨_,-,ha⟩ := answers_bind ha
  obtain ⟨_,-,ha⟩ := answers_bind ha
  obtain rfl := answers_pure.mp ha
  have hsurvey := answers_scan h hi
  obtain ⟨hplaced,hcomplete⟩ := answers_discover h _ _ howners
  have hshields := answers_protect_owners h hsurvey hplaced (shields_nil h b) hp
  rw [List.nil_append] at hshields
  obtain ⟨control,hcontrol,hcontrols⟩ := answers_control_temporaries h hc
  rw [List.nil_append] at hcontrol
  have hplaces : ∀ path ∈ intentsAmong scope i.files c.1, isIntent scope path = true := by
    intro path hpath
    have hboth := (List.mem_filter.mp hpath).2
    simp only [decide_eq_true_eq] at hboth
    exact hboth.1
  have hempty : OrphansOf h limits scope owners d i [] ⟨[],[]⟩ :=
    ⟨nofun,nofun,nofun,List.nodup_nil,List.Perm.refl _⟩
  have horphans := answers_collect_intents h hsurvey hplaces hempty ho
  rw [List.nil_append, hcontrol] at horphans
  obtain ⟨stale,hstale,hfinals⟩ := answers_final_candidates h hsurvey.nodup hf
  rw [List.nil_append] at hstale
  rw [hcontrol] at hfinals
  have hstart : Chosen limits i [] ⟨[],0⟩ := ⟨rfl,rfl,Nat.zero_le _,Nat.zero_le _⟩
  obtain ⟨taken,htaken,hchosen⟩ := selection_chosen hstart (answers_admit_each h hs)
  refine ⟨owners,p,control,o.1,stale,hlimits,hsurvey,hplaced,hcomplete,hshields,
    check_directories_ok (answers_admit_each h hdirs),hcontrols,horphans,hfinals,?_,taken,htaken,
    hchosen⟩
  dsimp only
  rw [hstale, hcontrol]

end Planning

/-! ## Candidates -/

section Planned

variable {h : Host} {scope : Path} {d : Disk} {plan : CollectionPlan}
  {owners : List RetentionOwner} {p : Protection} {control : List Path} {o : Orphans}
  {stale : List Path} (hp : Planned h scope d plan owners p control o stale)

theorem flatten_singletons (xs : List Path) : (xs.map fun q => [q]).flatten = xs := by
  induction xs with
  | nil => rfl
  | cons x xs ih => rw [List.map_cons, List.flatten_cons, ih, List.singleton_append]

include hp

theorem Planned.keys_nodup : (Assoc.keys plan.inventory.files).Nodup := hp.survey.nodup

theorem Planned.stale_nil (hcontrol : control ≠ []) : stale = [] := by
  rw [List.eq_nil_iff_forall_not_mem]
  intro q hq
  have hkey := hp.finals.sublist.subset hq
  exact hcontrol ((hp.finals.stale_iff q hkey).mp hq).alone

/-- The candidates of a pass without control temporaries. -/
theorem Planned.candidates_free (hcontrol : control = []) : plan.candidates.flatten.Perm
    (stale ++ (o.temporaries ++ intentsAmong scope plan.inventory.files control)) := by
  rw [hp.candidates, if_pos hcontrol, List.flatten_append, flatten_singletons]
  exact hp.orphans.groups.append_left _

/-- Control temporaries go first, and alone. -/
theorem Planned.candidates_control (hcontrol : control ≠ []) : plan.candidates.flatten = control := by
  rw [hp.candidates, if_neg hcontrol, hp.stale_nil hcontrol, List.map_nil, List.nil_append,
    flatten_singletons]

theorem Planned.temporary_not_intent {q : Path} (hq : q ∈ o.temporaries) :
    isIntent scope q = false := by
  obtain ⟨path,maximum,hintent,-⟩ := hp.orphans.temporaries q hq
  exact hintent.temporary_place

theorem Planned.candidates_nodup : plan.candidates.flatten.Nodup := by
  by_cases hcontrol : control = []
  · refine (hp.candidates_free hcontrol).nodup_iff.mpr ?_
    refine List.Nodup.append (hp.keys_nodup.sublist hp.finals.sublist) ?_ ?_
    · refine List.Nodup.append hp.orphans.nodup (hp.keys_nodup.filter _) ?_
      intro q hq hin
      have hno := hp.temporary_not_intent hq
      have hyes := (List.mem_filter.mp hin).2
      simp only [decide_eq_true_eq] at hyes
      rw [hno] at hyes
      exact absurd hyes.1 Bool.false_ne_true
    · intro q hq hother
      have hstale := (hp.finals.stale_iff q (hp.finals.sublist.subset hq)).mp hq
      apply hstale.unhandled
      rcases List.mem_append.mp hother with hother | hother
      · exact .inr (.inl hother)
      · have hyes := (List.mem_filter.mp hother).2
        simp only [decide_eq_true_eq] at hyes
        exact .inr (.inr hyes.1)
  · rw [hp.candidates_control hcontrol]
    exact hp.keys_nodup.sublist hp.controls.sublist

theorem Planned.candidates_listed : plan.candidates.flatten ⊆ Assoc.keys plan.inventory.files := by
  intro q hq
  by_cases hcontrol : control = []
  · have hq := (hp.candidates_free hcontrol).subset hq
    rcases List.mem_append.mp hq with hq | hq
    · exact hp.finals.sublist.subset hq
    · rcases List.mem_append.mp hq with hq | hq
      · exact hp.orphans.listed hq
      · exact (List.mem_filter.mp hq).1
  · rw [hp.candidates_control hcontrol] at hq
    exact hp.controls.sublist.subset hq

theorem Planned.small_file {q : Path} {n maximum : ℕ} (hfile : (q,n) ∈ plan.inventory.files)
    (hn : n ≤ maximum) : SmallFile d q maximum := by
  obtain ⟨⟨bytes,hget,rfl⟩,-⟩ := (hp.survey.file q n).mp hfile
  exact ⟨bytes,hget,hn⟩

theorem Planned.candidate_disposable {q : Path} (hq : q ∈ plan.candidates.flatten) :
    Disposable h plan.limits scope owners d q := by
  by_cases hcontrol : control = []
  · have hq := (hp.candidates_free hcontrol).subset hq
    rcases List.mem_append.mp hq with hq | hq
    · have hstale := (hp.finals.stale_iff q (hp.finals.sublist.subset hq)).mp hq
      exact unprotected_disposable h hp.shields hstale.unprotected
    · rcases List.mem_append.mp hq with hq | hq
      · obtain ⟨path,maximum,hintent,hsmall⟩ := hp.orphans.temporaries q hq
        exact .temporary hintent hsmall
      · obtain ⟨declares,hintent⟩ := hp.orphans.intents q hq
        exact .intent hintent
  · rw [hp.candidates_control hcontrol] at hq
    obtain ⟨hyes,n,hn,hfile⟩ := hp.controls.small q hq
    exact .control hyes (hp.small_file hfile hn)

/-- Every file of the scope has a class. -/
theorem Planned.classified {q : Path} (hq : q ∈ Assoc.keys plan.inventory.files) :
    Disposable h plan.limits scope owners d q ∨
      validFinalFile scope q (ownerRoots owners) = .ok true := by
  rcases hp.finals.classed q hq with (hin | hin | hin) | hvalid
  · obtain ⟨hyes,n,hn,hfile⟩ := hp.controls.small q hin
    exact .inl (.control hyes (hp.small_file hfile hn))
  · obtain ⟨path,maximum,hintent,hsmall⟩ := hp.orphans.temporaries q hin
    exact .inl (.temporary hintent hsmall)
  · by_cases hctl : q ∈ control
    · obtain ⟨hyes,n,hn,hfile⟩ := hp.controls.small q hctl
      exact .inl (.control hyes (hp.small_file hfile hn))
    · obtain ⟨declares,hintent⟩ := hp.orphans.intents q
        (List.mem_filter.mpr ⟨hq,by simp [hin, hctl]⟩)
      exact .inl (.intent hintent)
  · exact .inr hvalid

/-! ## The selection -/

theorem Planned.selected_sublist : plan.selected.paths.Sublist plan.candidates.flatten := by
  obtain ⟨taken,htaken,hchosen⟩ := hp.chosen
  rw [hchosen.paths]
  exact htaken.flatten

theorem Planned.selected_nodup : plan.selected.paths.Nodup :=
  hp.candidates_nodup.sublist hp.selected_sublist

theorem Planned.selected_disposable {q : Path} (hq : q ∈ plan.selected.paths) :
    Disposable h plan.limits scope owners d q :=
  hp.candidate_disposable (hp.selected_sublist.subset hq)

theorem Planned.selected_listed {q : Path} (hq : q ∈ plan.selected.paths) :
    q ∈ Assoc.keys plan.inventory.files :=
  hp.candidates_listed (hp.selected_sublist.subset hq)

theorem Planned.selected_few : plan.selected.paths.length ≤ plan.limits.maxDeleteEntries := by
  obtain ⟨taken,-,hchosen⟩ := hp.chosen
  have hlen := (List.subperm_of_subset hp.selected_nodup fun q hq => hp.selected_listed hq).length_le
  have hkeys : (Assoc.keys plan.inventory.files).length = plan.inventory.files.length :=
    List.length_map _
  have hfew := hp.survey.few_files
  have hentries := hchosen.entries
  omega

end Planned

end Scorpio.Retention
