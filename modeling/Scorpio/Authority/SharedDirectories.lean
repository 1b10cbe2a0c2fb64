import Scorpio.Authority.BindSteps
import Scorpio.Authority.CacheDomains
import Scorpio.Snapshot.RadixTree
import Mathlib.Logic.Equiv.List

/-!
# One authority for a cache directory

Every run of any number of calls on one directory, with calls cut off anywhere.
A record that is there stays, a call that returns without an error has its own
binding there, and a populated directory without a record never gets one. Whoever
shares a cache directory has the same authority: by its name, since the name
stands for the fields, and by its record, since at most one is ever readable there.
-/

set_option autoImplicit false

namespace Scorpio.Authority

open ByteText PageCodec Dialogues RelyGuarantee Retention

section Runs

variable {κ : Type} [DecidableEq κ] {format : Format CacheBinding}

/-- What a call promises when it returns. -/
def Promise (format : Format CacheBinding) (binding : CacheBinding) (r : Result Unit × Unit)
    (d : Directory κ) : Prop :=
  r.1 = .ok () → BoundTo format binding d

omit [DecidableEq κ] in
/-- What one call guarantees is what the others rely on. -/
theorem Guarantee.rely {k j : κ} {d d' : Directory κ} (hne : k ≠ j) (h : Guarantee k d d') :
    Rely j d d' := by
  refine ⟨h.authority,h.content,fun hj => ?_⟩
  have hother : d.holder ≠ some k := by
    rw [hj]
    exact fun h => hne (Option.some.inj h).symm
  obtain ⟨hholder,ha,ht⟩ := h.unlocked hother
  refine ⟨?_,ha,ht⟩
  rcases hholder with hholder | hnone
  · rw [hholder, hj]
  · rw [hj] at hnone
    cases hnone

def harmony (format : Format CacheBinding) :
    Harmony (bindings format κ) (Promise format) where
  terms := terms
  effect _ := rfl
  safe k binding d := (runs_bind_directory binding d trivial).mono fun r d h hr => by
    unfold Outcome at h
    rw [hr] at h
    exact h
  others k j d d' hne h := h.rely hne
  crash k j d hne := (guarantee_release d).rely hne
  always := Always
  always_refl d := ⟨fun _ h => h,rfl,fun h h' => absurd h h'⟩
  always_trans d d' d'' h h' := by
    refine ⟨fun bytes hb => h'.authority bytes (h.authority bytes hb),h'.content.trans h.content,
      fun hnone hsome => ?_⟩
    by_cases hmid : d'.authority = none
    · exact h.content ▸ h'.adopted hmid hsome
    · exact h.adopted hnone hmid
  always_act k d d' h := h.toAlways
  always_crash k d := (guarantee_release d).toAlways

/-- The binding that can be read from the directory. -/
def readable (format : Format CacheBinding) (d : Directory κ) : Option CacheBinding :=
  d.authority.bind fun bytes => (format.decode bytes).toOption

omit [DecidableEq κ] in
theorem readable_eq_some {binding : CacheBinding} {d : Directory κ} :
    readable format d = some binding ↔ BoundTo format binding d := by
  simp only [readable, BoundTo, Option.bind_eq_some_iff]
  refine exists_congr fun bytes => and_congr_right fun _ => ?_
  cases format.decode bytes <;> simp [Except.toOption]

/-- A directory on which nobody has called yet. -/
def untouched (d : Directory κ) : Pool Answer (Directory κ) κ CacheBinding (Result Unit × Unit) :=
  ⟨d,fun _ => none⟩

/-- A state some calls can have brought about, with calls in progress, returned or cut off. -/
def Reached (format : Format CacheBinding) (d : Directory κ)
    (p : Pool Answer (Directory κ) κ CacheBinding (Result Unit × Unit)) : Prop :=
  Relation.ReflTransGen (Step (bindings format κ)) (untouched d) p

variable {d : Directory κ} {p p' : Pool Answer (Directory κ) κ CacheBinding (Result Unit × Unit)}

theorem reached_harmonious (h : Reached format d p) :
    Harmonious (harmony format) p ∧ Always d p.shared :=
  run_harmonious (harmony format) nofun h

/-- A binding that was readable stays the only one. -/
theorem readable_kept (h : Relation.ReflTransGen (Step (bindings format κ)) p p')
    (hsafe : Harmonious (harmony format) p) {binding : CacheBinding}
    (hread : readable format p.shared = some binding) :
    readable format p'.shared = some binding := by
  rw [readable_eq_some] at hread ⊢
  obtain ⟨bytes,hb,hdec⟩ := hread
  exact ⟨bytes,(run_harmonious (harmony format) hsafe h).2.authority bytes hb,hdec⟩

/-- A call that has returned without an error has its own binding there. -/
theorem returned_bound (h : Reached format d p) {k : κ} {binding : CacheBinding}
    (hk : p.calls k = some (binding,some (.done (.ok (),())))) :
    readable format p.shared = some binding :=
  readable_eq_some.mpr (returned_promise (harmony format) (reached_harmonious h).1 hk rfl)

/-- A populated directory without a record never gets one. -/
theorem populated_never_bound (h : Reached format d p) (hnone : d.authority = none)
    (hpopulated : Populated d.content) : p.shared.authority = none := by
  by_contra hsome
  exact (reached_harmonious h).2.adopted hnone hsome hpopulated

end Runs

/-! ## Callers that share a directory -/

open Fallible Framing ClosureValidator

section Shared

variable {κ : Type} [DecidableEq κ] {format : Format CacheBinding} {d : Directory κ}

/-- A call that has returned without an error. -/
def Returned (p : Pool Answer (Directory κ) κ CacheBinding (Result Unit × Unit)) (k : κ)
    (binding : CacheBinding) : Prop :=
  p.calls k = some (binding,some (.done (.ok (),())))

/-- At most one binding is ever readable, and only its own callers return without an error. -/
structure Exclusive (format : Format CacheBinding) (d : Directory κ)
    (p : Pool Answer (Directory κ) κ CacheBinding (Result Unit × Unit)) : Prop where
  kept : ∀ p', Relation.ReflTransGen (Step (bindings format κ)) p p' → ∀ binding,
    readable format p.shared = some binding → readable format p'.shared = some binding
  own : ∀ k binding, Returned p k binding → readable format p.shared = some binding
  others : ∀ k binding binding' r, readable format p.shared = some binding → binding' ≠ binding →
    p.calls k = some (binding',some (.done (r,()))) → ∃ e, r = .error e
  populated : d.authority = none → Populated d.content →
    p.shared.authority = none ∧ ∀ k binding, ¬Returned p k binding

theorem reached_exclusive {p : Pool Answer (Directory κ) κ CacheBinding (Result Unit × Unit)}
    (h : Reached format d p) : Exclusive format d p where
  kept p' hrun binding hread := readable_kept hrun (reached_harmonious h).1 hread
  own k binding hk := returned_bound h hk
  others k binding binding' r hread hne hk := by
    cases r with
    | error e => exact ⟨e,rfl⟩
    | ok _ =>
      rw [returned_bound h hk] at hread
      exact absurd (Option.some.inj hread) hne
  populated hnone hpopulated := by
    have hnever := populated_never_bound h hnone hpopulated
    refine ⟨hnever,fun k binding hk => ?_⟩
    have hread := returned_bound h hk
    rw [readable, hnever] at hread
    cases hread

/-- The record a context binds a scope or a view directory with. -/
def Binds (c : AuthorizedSnapshotContext) (binding : CacheBinding) : Prop :=
  binding = scopeBinding c ∨ binding = viewBinding c

theorem Binds.names {c c' : AuthorizedSnapshotContext} {binding : CacheBinding}
    (h : Binds c binding) (h' : Binds c' binding) :
    c.domain = c'.domain ∧ c.descriptor.scope = c'.descriptor.scope := by
  rcases h with rfl | rfl <;> rcases h' with h' | h' <;> injection h' with _ hdomain hscope <;>
    exact ⟨hdomain,hscope⟩

/-- One call by itself, with what is left of it. -/
def alone (d : Directory Unit) (binding : CacheBinding) (left : Dialogue Answer (Result Unit × Unit)) :
    Pool Answer (Directory Unit) Unit CacheBinding (Result Unit × Unit) :=
  ⟨d,fun _ => some (binding,some left)⟩

theorem set_alone {d : Directory Unit} {binding : CacheBinding}
    (p : Pool Answer (Directory Unit) Unit CacheBinding (Result Unit × Unit))
    (left : Dialogue Answer (Result Unit × Unit)) :
    p.set d () (binding,some left) = alone d binding left := by
  simp only [Pool.set, alone, Pool.mk.injEq, true_and]
  exact funext fun k => Function.update_self ..

theorem reached_started (format : Format CacheBinding) (d : Directory Unit)
    (binding : CacheBinding) :
    Reached format d (alone d binding (bindDirectory format binding ())) := by
  rw [← set_alone (untouched d)]
  exact .tail .refl (.start () binding rfl)

theorem reached_alone {d d' d'' : Directory Unit} {binding : CacheBinding} (i : Op)
    {f : Answer i → Dialogue Answer (Result Unit × Unit)}
    (h : Reached format d (alone d' binding (.ask i f))) (r : Answer i)
    (he : effect () i d' r d'') : Reached format d (alone d'' binding (f r)) := by
  rw [← set_alone (alone d' binding (.ask i f))]
  exact h.tail (.act () binding i f r d'' rfl he)

/-- The owner of a record can bind its directory again. -/
theorem bound_again (format : Format CacheBinding) (binding : CacheBinding) :
    Reached format (⟨some (format.encode binding),fun _ => none,[],none⟩ : Directory Unit)
      (alone ⟨some (format.encode binding),fun _ => none,[],none⟩ binding (.done (.ok (),()))) := by
  have hsame : compareStored format binding (format.encode binding) = .ok () := by
    simp [compareStored, format.round]
  have hstart := reached_started format ⟨some (format.encode binding),fun _ => none,[],none⟩ binding
  have hguard := reached_alone .ioGuard hstart (.ok ()) rfl
  have hcreate := reached_alone .createDirAll hguard (.ok ()) rfl
  have hopen := reached_alone .openLock hcreate (.ok ()) rfl
  have hlock := reached_alone .lock hopen (.ok ()) (.inr ⟨rfl,rfl,rfl⟩)
  have hread := reached_alone .readAuthority hlock (.ok (format.encode binding)) ⟨rfl,rfl⟩
  have hunlock : Reached format _
      (alone ⟨some (format.encode binding),fun _ => none,[],none⟩ binding
        (.done (compareStored format binding (format.encode binding),()))) :=
    reached_alone .unlock hread () rfl
  rwa [hsame] at hunlock

end Shared

theorem cache_directories_exclusive (format : Format CacheBinding) :
    (∀ (κ : Type) [DecidableEq κ] (d : Directory κ)
      (p : Pool Answer (Directory κ) κ CacheBinding (Result Unit × Unit)), Reached format d p →
        Exclusive format d p) ∧
    (∀ (x : Externals) (known : Set Bytes), Set.InjOn x.sha256 known →
      (∀ tag fields fields', tag ++ framed 8 fields ∈ known → tag ++ framed 8 fields' ∈ known →
        (∀ f ∈ fields ++ fields', f.length ≤ usizeMax) →
        hashFields x tag fields = hashFields x tag fields' → fields = fields') ∧
      ∀ r r' c c', newContext x r = .ok c → newContext x r' = .ok c' → Hashes x known r c →
        Hashes x known r' c' →
        (∀ root root' dir, CacheDir x c root dir → CacheDir x c' root' dir →
          SameAuthority x r r' c c') ∧
        ∀ (κ : Type) [DecidableEq κ] (d : Directory κ)
          (p : Pool Answer (Directory κ) κ CacheBinding (Result Unit × Unit)), Reached format d p →
          ∀ k k' binding binding', Binds c binding → Binds c' binding' → Returned p k binding →
            Returned p k' binding' → SameAuthority x r r' c c') := by
  refine ⟨fun κ _ d p h => reached_exclusive h,fun x known hsha => ⟨?_,?_⟩⟩
  · intro tag fields fields' hknown hknown' hfit h
    exact hash_fields_inj hsha hknown hknown' (fun f hf => hfit f (List.mem_append_left _ hf))
      (fun f hf => hfit f (List.mem_append_right _ hf)) h
  · intro r r' c c' hnew hnew' hhash hhash'
    refine ⟨fun root root' dir => shared_dir_authority hsha hnew hnew' hhash hhash',?_⟩
    intro κ _ d p hreached k k' binding binding' hb hb' hk hk'
    have hsame : binding = binding' :=
      Option.some.inj ((returned_bound hreached hk).symm.trans (returned_bound hreached hk'))
    obtain ⟨hdomain,hscope⟩ := hb.names (hsame ▸ hb')
    exact same_authority hsha hnew hnew' hhash hhash' hdomain hscope

namespace Sample

open RadixTree.Sample

/-- The parser of a deployment that serves everything below one host. -/
def parseUrl (s : Text) : Option Url :=
  if txt "http://a" <+: s then
    some ⟨txt "http",true,[],false,false,false,s.drop 8,fun path => txt "http://a" ++ path⟩
  else none

/-- The hash is the length, which is enough for the two texts that are hashed. -/
def externals : Externals := ⟨codec,parseUrl,fun b => digestOf [UInt8.ofNat b.length]⟩

def descriptor : Descriptor :=
  ⟨1,2,[1],digest (digestOf [5]),"/",1,1,1,digest (digestOf [4]),digest (digestOf [6])⟩

def first : Resolved := ⟨"http://a","partition","/",descriptor,"1","3"⟩

/-- The same deployment with a slash, at a later publication. -/
def second : Resolved := ⟨"http://a/","partition","/",descriptor,"1","4"⟩

def domain : Text := hashFields externals domainTag (authorityFields "http://a" first 1)

def known : Set Bytes :=
  {domainTag ++ framed 8 (authorityFields "http://a" first 1),scopeTag ++ framed 8 ["/"]}

theorem known_inj : Set.InjOn externals.sha256 known := by
  rintro _ (rfl | rfl) _ (rfl | rfl) h
  · rfl
  · exact absurd h (by decide +kernel)
  · exact absurd h (by decide +kernel)
  · rfl

theorem first_context : newContext externals first = .ok ⟨descriptor,1,3,domain⟩ := rfl

theorem second_context : newContext externals second = .ok ⟨descriptor,1,4,domain⟩ := rfl

theorem fields_fit : ∀ f ∈ authorityFields "http://a" first 1, f.length ≤ usizeMax := by
  decide +kernel

theorem first_hashes : Hashes externals known first ⟨descriptor,1,3,domain⟩ := by
  refine ⟨fun url h => ?_,.inr rfl,by decide +kernel⟩
  obtain rfl : txt "http://a" = url := Except.ok.inj h
  exact ⟨.inl rfl,fields_fit⟩

theorem second_hashes : Hashes externals known second ⟨descriptor,1,4,domain⟩ := by
  refine ⟨fun url h => ?_,.inr rfl,by decide +kernel⟩
  obtain rfl : txt "http://a" = url := Except.ok.inj h
  exact ⟨.inl rfl,fields_fit⟩

/-- Records as numbers, and numbers in unary. -/
@[reducible] def numbered : Encodable CacheBinding :=
  Encodable.ofLeftInverse
    (fun b => (b.revision,b.domain.map UInt8.toNat,b.scope.map UInt8.toNat,
      b.snapshotId.map (List.map UInt8.toNat)))
    (fun t => ⟨t.1,t.2.1.map UInt8.ofNat,t.2.2.1.map UInt8.ofNat,
      t.2.2.2.map (List.map UInt8.ofNat)⟩)
    (fun b => by
      rcases b with ⟨_,_,_,_ | _⟩ <;> simp [Function.comp_def])

def format : Format CacheBinding where
  encode b := List.replicate (numbered.encode b) 0
  decode bytes := okOr (numbered.decode bytes.length) "malformed"
  round b := by simp [numbered.encodek, okOr]

end Sample

open Sample in
theorem cache_directories_exclusive_sample :
    ∃ c c' p, newContext externals first = .ok c ∧ newContext externals second = .ok c' ∧
      Reached Sample.format
        (⟨some (Sample.format.encode (scopeBinding c)),fun _ => none,[],none⟩ : Directory Unit) p ∧
      Returned p () (scopeBinding c) ∧ readable Sample.format p.shared = some (scopeBinding c) ∧
      scopeCacheDir externals c [] = scopeCacheDir externals c' [] ∧
      SameAuthority externals first second c c' := by
  obtain ⟨hruns,hcontexts⟩ := cache_directories_exclusive Sample.format
  have hreached := bound_again Sample.format (scopeBinding ⟨descriptor,1,3,domain⟩)
  have hauthority := ((hcontexts externals known known_inj).2 first second _ _ first_context
    second_context first_hashes second_hashes).1 [] []
      (scopeCacheDir externals ⟨descriptor,1,3,domain⟩ []) (.inl rfl) (.inl rfl)
  exact ⟨_,_,_,first_context,second_context,hreached,rfl,(hruns Unit _ _ hreached).own () _ rfl,rfl,
    hauthority⟩

end Scorpio.Authority
