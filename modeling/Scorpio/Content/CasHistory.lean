import Scorpio.Base.Traces
import Scorpio.Content.CasReadSound

/-!
# Histories of range reads

Any number of reads run at once and share the cache. One event lets one read
take one step: the operating system answers as it likes, a hash is computed, or
a critical section of the cache runs. Between two of them the cache may drop an
entry. The bytes that were hashed are recorded, so that freedom from collisions
can be assumed of them alone.
-/

set_option autoImplicit false

namespace Scorpio.CasRead

open ByteText PageCodec Dialogues IndexCache Slices Traces

/-- A call of one of the three entry points of `cas_index`. -/
inductive Request where
  | strict (path digest : Text) (size offset len : ℕ)
  | indexed (path domain digest : Text) (size offset len : ℕ)
  | indexedInto (path domain digest : Text) (size offset len : ℕ) (capacity scratch : ℕ)
  deriving DecidableEq

namespace Request

def digest : Request → Text
  | .strict _ d _ _ _ => d
  | .indexed _ _ d _ _ _ => d
  | .indexedInto _ _ d _ _ _ _ _ => d

def size : Request → ℕ
  | .strict _ _ n _ _ => n
  | .indexed _ _ _ n _ _ => n
  | .indexedInto _ _ _ n _ _ _ _ => n

def offset : Request → ℕ
  | .strict _ _ _ a _ => a
  | .indexed _ _ _ _ a _ => a
  | .indexedInto _ _ _ _ a _ _ _ => a

def len : Request → ℕ
  | .strict _ _ _ _ l => l
  | .indexed _ _ _ _ _ l => l
  | .indexedInto _ _ _ _ _ l _ _ => l

/-- The call's own output: none for an object that is not in the store. -/
def task : Request → Read (Option Bytes)
  | .strict path digest size offset len => readStrict path digest size offset len
  | .indexed path domain digest size offset len => readIndexed path domain digest size offset len
  | .indexedInto path domain digest size offset len _ scratch => do
    let found ← readIndexedInto path domain digest size offset len scratch
    let w ← state
    pure (if found then some w.output.bytes else none)

/-- Owned calls bring an empty admitted buffer; the others allocate their own. -/
def start : Request → Work
  | .indexedInto _ _ _ _ _ _ capacity _ => ⟨⟨true,capacity,[]⟩,{}⟩
  | _ => ⟨⟨false,0,[]⟩,{}⟩

end Request

abbrev Outcome := Except Failure (Option Bytes) × Work

inductive Call where
  | idle
  | running (q : Request) (m : Dialogue Answer Outcome)
  | returned (q : Request) (r : Outcome)

structure State where
  cache : Cache
  calls : ℕ → Call
  hashed : List Bytes

inductive Event where
  | call (t : ℕ) (q : Request)
  | system (t : ℕ) (reply : (op : Op) → Answer op)
  | hash (t : ℕ)
  | cache (t : ℕ)
  | evict

def Op.external : Op → Bool
  | .sha256 _ | .cacheGet .. | .cacheReserve _ | .cachePublish _ | .cacheDrop _ => false
  | _ => true

/-- One critical section of the cache, and its answer. -/
def Cache.perform (c : Cache) : (op : Op) → Option (Answer op × Cache)
  | .cacheGet domain digest size => some (c.get domain digest size)
  | .cacheReserve bytes => some (c.reserve bytes)
  | .cachePublish fact => some ((),c.publish fact)
  | .cacheDrop r => some ((),c.dropOwner r)
  | _ => none

def resume (q : Request) : Dialogue Answer Outcome → Call
  | .done r => .returned q r
  | m => .running q m

def State.set (s : State) (t : ℕ) (c : Call) : State := {s with calls := Function.update s.calls t c}

def step (sha : Bytes → Digest) (s : State) : Event → Option State
  | .call t q =>
    match s.calls t with
    | .running _ _ => none
    | _ => some (s.set t (resume q (q.task q.start)))
  | .system t reply =>
    match s.calls t with
    | .running q (.ask op k) => guarded (op.external = true) (s.set t (resume q (k (reply op))))
    | _ => none
  | .hash t =>
    match s.calls t with
    | .running q (.ask (.sha256 b) k) =>
      some {s.set t (resume q (k (sha b))) with hashed := b :: s.hashed}
    | _ => none
  | .cache t =>
    match s.calls t with
    | .running q (.ask op k) =>
      (Cache.perform s.cache op).map fun r => {s.set t (resume q (k r.1)) with cache := r.2}
    | _ => none
  | .evict => s.cache.evictOldest.map fun c => {s with cache := c}

/-- `base` is what the empty cache itself is charged. -/
def begin (limit base : ℕ) : State := ⟨IndexCache.new limit base,fun _ => .idle,[]⟩

/-! ## Every read keeps its contract -/

section Invariant

variable {sha : Bytes → Digest} {W : Set Bytes}

/-- A successful outcome is the requested range of some content. -/
def Exact (sha : Bytes → Digest) (W : Set Bytes) (q : Request) (r : Outcome) : Prop :=
  ∀ a, r.1 = .ok a → ∀ out, a = some out →
    ∃ c, Range sha W q.digest q.size q.offset q.len c out

theorem task_exact (hsha : Set.InjOn sha W) (q : Request) :
    Meets (terms sha W) (q.task q.start) (Exact sha W q) := by
  cases q with
  | strict path digest size offset len => exact ensures_read_strict
  | indexed path domain digest size offset len => exact ensures_read_indexed hsha
  | indexedInto path domain digest size offset len capacity scratch =>
    show Ensures (terms sha W)
      (readIndexedInto path domain digest size offset len scratch >>= fun found =>
        state >>= fun w => pure (if found then some w.output.bytes else none))
      ⟨⟨true,capacity,[]⟩,{}⟩ fun a _ => ∀ out, a = some out →
        ∃ c, Range sha W digest size offset len c out
    refine Ensures.bind (ensures_read_indexed_into hsha rfl) fun found t h => ?_
    refine ensures_state_bind (ensures_pure fun out hout => ?_)
    cases found with
    | false => cases hout
    | true =>
      cases hout
      exact h rfl

def CallOk (sha : Bytes → Digest) (W : Set Bytes) : Call → Prop
  | .idle => True
  | .running q m => Meets (terms sha W) m (Exact sha W q)
  | .returned q r => Exact sha W q r

theorem resume_ok {q : Request} {m : Dialogue Answer Outcome}
    (h : Meets (terms sha W) m (Exact sha W q)) : CallOk sha W (resume q m) := by
  cases m with
  | done r => exact h
  | ask op k => exact h

structure Sound (sha : Bytes → Digest) (W : Set Bytes) (s : State) : Prop where
  facts : ∀ f ∈ s.cache.facts, ∃ c, Describes sha W f c
  calls : ∀ t, CallOk sha W (s.calls t)

theorem Sound.set {s : State} {t : ℕ} {c : Call} (h : Sound sha W s) (hc : CallOk sha W c) :
    ∀ u, CallOk sha W ((s.set t c).calls u) := by
  intro u
  by_cases hu : u = t
  · subst hu
    simpa [State.set] using hc
  · simpa [State.set, Function.update_of_ne hu] using h.calls u

/-- The operating system may give every answer. -/
theorem external_answers {op : Op} (h : op.external = true) (r : Answer op) :
    (terms sha W).answers op r := by
  cases op <;> first | exact trivial | cases h

/-- The cache answers a question as the contract says, and keeps its facts. -/
theorem perform_sound {c c' : Cache} {op : Op} {r : Answer op}
    (hfacts : ∀ f ∈ c.facts, ∃ x, Describes sha W f x) (hasks : (terms sha W).asks op)
    (h : Cache.perform c op = some (r,c')) :
    (terms sha W).answers op r ∧ ∀ f ∈ c'.facts, ∃ x, Describes sha W f x := by
  cases op with
  | cacheGet domain digest size =>
    have hget : c.get domain digest size = (r,c') := Option.some.inj h
    have hanswer := congrArg Prod.fst hget
    have hcache := congrArg Prod.snd hget
    dsimp only at hanswer hcache
    refine ⟨?_,by simpa [← hcache] using hfacts⟩
    cases r with
    | none => trivial
    | some f =>
      obtain ⟨hf,hmatch⟩ := Cache.get_fact hanswer
      exact ⟨hmatch,hfacts f hf⟩
  | cacheReserve bytes =>
    have hcache : (c.reserve bytes).2 = c' := congrArg Prod.snd (Option.some.inj h)
    exact ⟨trivial,fun f hf => hfacts f (Cache.facts_reserve (hcache ▸ hf))⟩
  | cachePublish fact =>
    cases h
    refine ⟨trivial,fun f hf => ?_⟩
    rcases Cache.facts_publish hf with rfl | hf
    · exact hasks
    · exact hfacts f hf
  | cacheDrop r =>
    cases h
    exact ⟨trivial,by simpa using hfacts⟩
  | _ => cases h

theorem step_sound (hsha : Set.InjOn sha W) {s s' : State} {e : Event}
    (hstep : step sha s e = some s') (hW : ∀ b ∈ s'.hashed, b ∈ W) (h : Sound sha W s) :
    Sound sha W s' := by
  cases e with
  | call t q =>
    simp only [step] at hstep
    split at hstep
    · cases hstep
    · cases hstep
      exact ⟨h.facts,h.set (resume_ok (task_exact hsha q))⟩
  | system t reply =>
    simp only [step] at hstep
    split at hstep
    · rename_i q op k hcall
      obtain ⟨hop,rfl⟩ := guarded_eq_some.mp hstep
      have hok := h.calls t
      rw [hcall] at hok
      exact ⟨h.facts,h.set (resume_ok (hok.2 _ (external_answers hop _)))⟩
    · cases hstep
  | hash t =>
    simp only [step] at hstep
    split at hstep
    · rename_i q b k hcall
      cases hstep
      have hok := h.calls t
      rw [hcall] at hok
      exact ⟨h.facts,h.set (resume_ok (hok.2 _ ⟨rfl,hW b List.mem_cons_self⟩))⟩
    · cases hstep
  | cache t =>
    simp only [step] at hstep
    split at hstep
    · rename_i q op k hcall
      obtain ⟨⟨r,c⟩,hperform,rfl⟩ := Option.map_eq_some_iff.mp hstep
      have hok := h.calls t
      rw [hcall] at hok
      obtain ⟨hanswer,hfacts⟩ := perform_sound h.facts hok.1 hperform
      exact ⟨hfacts,h.set (resume_ok (hok.2 _ hanswer))⟩
    · cases hstep
  | evict =>
    obtain ⟨c,hevict,rfl⟩ := Option.map_eq_some_iff.mp hstep
    exact ⟨fun f hf => h.facts f (Cache.facts_evict hevict hf),h.calls⟩

theorem step_hashed {s s' : State} {e : Event} (hstep : step sha s e = some s') :
    ∀ b ∈ s.hashed, b ∈ s'.hashed := by
  cases e with
  | call t q =>
    simp only [step] at hstep
    split at hstep <;> cases hstep
    all_goals exact fun _ h => h
  | system t reply =>
    simp only [step] at hstep
    split at hstep
    · obtain ⟨-,rfl⟩ := guarded_eq_some.mp hstep
      exact fun _ h => h
    · cases hstep
  | hash t =>
    simp only [step] at hstep
    split at hstep
    · cases hstep
      exact fun _ h => List.mem_cons_of_mem _ h
    · cases hstep
  | cache t =>
    simp only [step] at hstep
    split at hstep
    · obtain ⟨r,-,rfl⟩ := Option.map_eq_some_iff.mp hstep
      exact fun _ h => h
    · cases hstep
  | evict =>
    obtain ⟨c,-,rfl⟩ := Option.map_eq_some_iff.mp hstep
    exact fun _ h => h

theorem run_sound (hsha : Set.InjOn sha W) {limit base : ℕ} {events : List Event} {s : State}
    (hrun : run (step sha) (begin limit base) events = some s) (hW : ∀ b ∈ s.hashed, b ∈ W) :
    Sound sha W s := by
  have hinv : (∀ b ∈ s.hashed, b ∈ W) → Sound sha W s :=
    run_invariant (fun s => (∀ b ∈ s.hashed, b ∈ W) → Sound sha W s)
      (fun _ => ⟨by simp [begin],fun t => show CallOk sha W .idle from trivial⟩)
      (fun u e v hu hv hvW => step_sound hsha hv hvW
        (hu fun b hb => hvW b (step_hashed hv b hb))) hrun
  exact hinv hW

end Invariant

/-- `c` is the only content with this digest. -/
def IsContent (sha : Bytes → Digest) (W : Set Bytes) (digest : Text) (c : Bytes) : Prop :=
  c ∈ W ∧ PageCodec.digest (sha c) = digest ∧
    ∀ c' ∈ W, PageCodec.digest (sha c') = digest → c' = c

/-- In every history a cached fact holds the chunk digests of the one content with its digest,
and a successful read returns the requested range of the one content with its digest. -/
theorem indexed_reads_exact (sha : Bytes → Digest) (W : Set Bytes) (hsha : Set.InjOn sha W)
    (limit base : ℕ) (events : List Event) (s : State)
    (hrun : run (step sha) (begin limit base) events = some s) (hW : ∀ b ∈ s.hashed, b ∈ W) :
    (∀ f ∈ s.cache.facts, ∃ c, IsContent sha W (PageCodec.digest f.digest) c ∧ c.length = f.size ∧
      f.chunks = (List.range ((f.size+chunkSize-1)/chunkSize)).map fun i =>
        sha ((c.drop (i*chunkSize)).take chunkSize)) ∧
    ∀ t q w out, s.calls t = .returned q (.ok (some out),w) →
      ∃ c, IsContent sha W q.digest c ∧ c.length = q.size ∧
        out = (c.take (min (q.offset+q.len) q.size)).drop q.offset := by
  have hsound := run_sound hsha hrun hW
  have hunique {c : Bytes} {text : Text} (hc : c ∈ W) (hd : PageCodec.digest (sha c) = text) :
      IsContent sha W text c :=
    ⟨hc,hd,fun c' hc' hd' => hsha hc' hc (digest_injective (hd'.trans hd.symm))⟩
  refine ⟨fun f hf => ?_,fun t q w out hcall => ?_⟩
  · obtain ⟨c,hc⟩ := hsound.facts f hf
    refine ⟨c,hunique hc.known (by rw [hc.digest]),hc.size,?_⟩
    have hcount := hc.count
    rw [hc.size] at hcount
    apply List.ext_getElem?
    intro i
    rw [List.getElem?_map]
    by_cases hi : i < f.chunks.length
    · rw [List.getElem?_range (hcount ▸ hi), List.getElem?_eq_getElem hi]
      obtain ⟨hd,-⟩ := hc.chunk i _ (List.getElem?_eq_getElem hi)
      rw [hd, Option.map_some, piece, slice, List.drop_take, Nat.succ_mul, Nat.add_sub_cancel_left]
    · rw [List.getElem?_eq_none (by omega), List.getElem?_eq_none (by simp; omega)]
      rfl
  · have hexact := hsound.calls t
    rw [hcall] at hexact
    obtain ⟨c,hc⟩ := hexact _ rfl out rfl
    exact ⟨c,hunique hc.known hc.digest,hc.size,hc.bytes⟩

/-! ## A read that builds facts and a read that uses them -/

namespace Sample

/-- Short byte strings stand for their own digest. -/
def hash (b : Bytes) : Digest := ⟨(b ++ List.replicate 32 0).take 32,padded_length b⟩

def reply (file : Bytes) : (op : Op) → Answer op
  | .ioGuard _ => .ok ()
  | .openFile _ => .ok ()
  | .metadata => .ok ⟨true,3⟩
  | .seek _ => .ok ()
  | .read len => .ok ⟨file.take len,by simp⟩
  | .canonicalize path => .ok path
  | .tryReserve n => some ⟨n,le_rfl⟩
  | .sha256 b => hash b
  | .cacheGet .. => none
  | .cacheReserve _ => none
  | .cachePublish _ => ()
  | .cacheDrop _ => ()

def request : Request :=
  .indexed (txt "/cas/o") (txt "/cas") (PageCodec.digest (hash [7,8,9])) 3 1 5

/-- The first call scans the file and publishes its facts. The second one is answered byte by
byte, after the file was replaced and put back. -/
def history : List Event :=
  let os (t : ℕ) (b : Bytes) : Event := .system t (reply b)
  [.call 0 request,os 0 [],os 0 [],os 0 [],os 0 [],os 0 [],.cache 0,.cache 0,os 0 [],
    os 0 [7,8,9],os 0 [],.hash 0,.hash 0,os 0 [],.cache 0,
    .call 1 request,os 1 [],os 1 [],os 1 [],os 1 [],os 1 [],.cache 1,os 1 [],os 1 [],
    os 1 [7],os 1 [8],os 1 [9],.hash 1,os 1 [],.cache 1]

def result : Call → Option (Request × Bytes × Bool)
  | .returned q (.ok (some out),w) => some (q,out,w.meters.indexHit)
  | _ => none

theorem result_some {x : Call} {q : Request} {out : Bytes} {hit : Bool}
    (h : result x = some (q,out,hit)) :
    ∃ w, x = .returned q (.ok (some out),w) ∧ w.meters.indexHit = hit := by
  unfold result at h
  split at h
  · cases h
    exact ⟨_,rfl,rfl⟩
  · cases h

end Sample

theorem indexed_reads_exact_shared : ∃ s w, run (step Sample.hash) (begin 4096 0) Sample.history
      = some s ∧ s.calls 1 = .returned Sample.request (.ok (some [8,9]),w) ∧
    w.meters.indexHit = true ∧ s.cache.facts.length = 1 ∧
    ∃ c, IsContent Sample.hash {b | b ∈ s.hashed} Sample.request.digest c ∧ c.length = 3 ∧
      [8,9] = (c.take (min (1+5) 3)).drop 1 := by
  have hrun : (run (step Sample.hash) (begin 4096 0) Sample.history).map (fun s =>
      (Sample.result (s.calls 1),s.hashed,s.cache.facts.length)) =
      some (some (Sample.request,[8,9],true),[[7,8,9],[7,8,9],[7,8,9]],1) := by
    decide +kernel
  obtain ⟨s,hs,heq⟩ := Option.map_eq_some_iff.mp hrun
  simp only [Prod.mk.injEq] at heq
  obtain ⟨hresult,hhashed,hfacts⟩ := heq
  obtain ⟨w,hcall,hhit⟩ := Sample.result_some hresult
  have hinj : Set.InjOn Sample.hash {b | b ∈ s.hashed} := by
    rw [hhashed]
    intro a ha b hb _
    simp at ha hb
    rw [ha, hb]
  exact ⟨s,w,hs,hcall,hhit,hfacts,(indexed_reads_exact Sample.hash _ hinj 4096 0 Sample.history s hs
    (fun _ hb => hb)).2 1 Sample.request w [8,9] hcall⟩

end Scorpio.CasRead
