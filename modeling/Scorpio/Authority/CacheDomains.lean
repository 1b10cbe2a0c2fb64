import Scorpio.Base.Framing
import Scorpio.Retention.Records

/-!
# Cache domains

The rest of `snapshot::auth`: the context that `resolve` authorises, and the
cache directories that belong to it. The domain of a context is the hash of its
framed authority fields, and a scope is hashed in the same way, so a directory
name stands for all of them at once.

The `url` crate is the record `Url`: what the checks read of a parsed URL, and
its text after the path was replaced.
-/

set_option autoImplicit false

namespace Scorpio.Authority

open ByteText Fallible Framing PageCodec ClosureValidator Retention

structure Url where
  scheme : Text
  hasHost : Bool
  username : Text
  hasPassword : Bool
  hasQuery : Bool
  hasFragment : Bool
  path : Text
  withPath : Text → Text

/-- The external crates: the codec, the URL parser and SHA-256. -/
structure Externals where
  codec : Codec
  parseUrl : Text → Option Url
  sha256 : Bytes → Digest

structure AuthorizedSnapshotContext where
  descriptor : Descriptor
  authorizationEpoch : ℕ
  publicationSequence : ℕ
  domain : Text

/-- What `resolve` was asked and has answered. -/
structure Resolved where
  deployment : Text
  credentialPartition : Text
  requestedScope : Text
  descriptor : Descriptor
  authorizationEpoch : Text
  publicationSequence : Text

section Context

variable (x : Externals)

def hashFields (domain : Bytes) (fields : List Bytes) : Text :=
  hexEncode (x.sha256 (domain ++ framed 8 fields)).val

def domainTag : Bytes := txt "mega.scorpio.cache-domain.v1" ++ [0]

def scopeTag : Bytes := txt "mega.scorpio.scope.v1" ++ [0]

def validateDescriptor (d : Descriptor) : Result Unit := do
  require (d.schemaVersion = x.codec.schemaVersion ∧ d.metadataCodec = x.codec.metadataCodec ∧
      d.materializationPolicy = x.codec.materializationPolicyGitRawV1 ∧
      d.fsSemantics = x.codec.fsSemanticsLinuxCodeV1 ∧
      d.accessProjection = x.codec.accessProjectionExactFull)
    (integrity "unsupported serving descriptor profile")
  let uuid ← okOr (x.codec.parseUuid d.instanceId) (integrity "invalid descriptor instance UUID")
  require (uuid.any (· ≠ 0) ∧ x.codec.uuidText uuid = d.instanceId)
    (integrity "instance UUID must be non-nil and canonical")
  let namespaceViewId ← parseDigest d.namespaceViewId
  let metadataRoot ← parseDigest d.metadataRoot
  let snapshot ← (x.codec.snapshotId ⟨uuid,namespaceViewId,d.scope,metadataRoot⟩).mapError fun e =>
    integrity ("invalid serving descriptor: " ++ e)
  require (d.snapshotId = digest snapshot)
    ⟨.digestMismatch,"snapshot_id does not match canonical descriptor"⟩

def isDigit (b : UInt8) : Bool := 48 ≤ b && b ≤ 57

def decimalValue (value : Text) : ℕ := value.foldl (fun n b => 10*n+(b.toNat-48)) 0

def decimal (value field : Text) : Result ℕ := do
  require (¬(value = [] ∨ ¬value.all isDigit ∨ (1 < value.length ∧ value.head? = some 48)))
    ⟨.scopeForbidden,"invalid " ++ field ++ " in resolve"⟩
  require (decimalValue value ≤ usizeMax)
    ⟨.scopeForbidden,"out-of-range " ++ field ++ " in resolve"⟩
  require (decimalValue value ≤ i64Max) (limit (field ++ " exceeds the protocol counter limit"))
  pure (decimalValue value)

def trimEnd (path : Text) : Text := (path.reverse.dropWhile (· = slash)).reverse

/-- The text of the deployment URL that is hashed. -/
def deploymentUrl (deployment : Text) : Result Text := do
  let url ← okOr (x.parseUrl deployment) ⟨.scopeInvalid,"invalid deployment URL"⟩
  require ((url.scheme = txt "http" ∨ url.scheme = txt "https") ∧ url.hasHost ∧ url.username = [] ∧
      ¬url.hasPassword ∧ ¬url.hasQuery ∧ ¬url.hasFragment)
    ⟨.scopeInvalid,"deployment URL must be HTTP(S) without credentials, query or fragment"⟩
  pure (url.withPath (trimEnd url.path))

def authorityFields (url : Text) (r : Resolved) (epoch : ℕ) : List Bytes :=
  [url,r.descriptor.instanceId,r.credentialPartition,beBytes 8 epoch,
    beBytes 2 r.descriptor.schemaVersion,beBytes 2 r.descriptor.metadataCodec,
    beBytes 2 r.descriptor.materializationPolicy,beBytes 2 r.descriptor.fsSemantics,
    beBytes 2 r.descriptor.accessProjection]

/-- `AuthorizedSnapshotContext::new`. -/
def newContext (r : Resolved) : Result AuthorizedSnapshotContext := do
  Incremental.validateScope x.codec r.requestedScope
  Incremental.validateScope x.codec r.descriptor.scope
  require (r.descriptor.scope = r.requestedScope)
    ⟨.scopeForbidden,"resolve returned a different scope"⟩
  validateDescriptor x r.descriptor
  let epoch ← decimal r.authorizationEpoch "authorization_epoch"
  let sequence ← decimal r.publicationSequence "publication_sequence"
  let url ← deploymentUrl x r.deployment
  pure ⟨r.descriptor,epoch,sequence,hashFields x domainTag (authorityFields url r epoch)⟩

def scopeCacheDir (c : AuthorizedSnapshotContext) (root : Path) : Path :=
  hashFields x scopeTag [c.descriptor.scope] :: c.domain :: txt "snapshots" :: root

def viewCacheDir (c : AuthorizedSnapshotContext) (root : Path) : Result Path := do
  let id ← parseDigest c.descriptor.snapshotId
  pure (hexEncode id.val :: scopeCacheDir x c root)

/-- The scope or a view directory of a context. -/
def CacheDir (c : AuthorizedSnapshotContext) (root dir : Path) : Prop :=
  dir = scopeCacheDir x c root ∨ viewCacheDir x c root = .ok dir

/-- The record of `bind_scope_cache`. -/
def scopeBinding (c : AuthorizedSnapshotContext) : CacheBinding :=
  ⟨1,c.domain,c.descriptor.scope,none⟩

/-- The record of `bind_view_cache`. -/
def viewBinding (c : AuthorizedSnapshotContext) : CacheBinding :=
  ⟨1,c.domain,c.descriptor.scope,some c.descriptor.snapshotId⟩

end Context

/-! ## Names stand for their fields -/

section Names

variable {x : Externals}

theorem hash_fields_inj {known : Set Bytes} (hsha : Set.InjOn x.sha256 known) {tag : Bytes}
    {fields fields' : List Bytes} (hknown : tag ++ framed 8 fields ∈ known)
    (hknown' : tag ++ framed 8 fields' ∈ known) (hfit : ∀ f ∈ fields, f.length ≤ usizeMax)
    (hfit' : ∀ f ∈ fields', f.length ≤ usizeMax)
    (h : hashFields x tag fields = hashFields x tag fields') : fields = fields' := by
  have hsame := hsha hknown hknown' (Subtype.ext (hex_encode_injective h))
  have hlt : ∀ n ≤ usizeMax, n < 256^8 := fun n hn => lt_of_le_of_lt hn (by decide)
  exact framed_inj (fun f hf => hlt _ (hfit f hf)) (fun f hf => hlt _ (hfit' f hf)) (by decide)
    (List.append_cancel_left hsame)

@[simp] theorem hash_fields_length (tag : Bytes) (fields : List Bytes) :
    (hashFields x tag fields).length = 64 := by
  rw [hashFields, hex_encode_length, (x.sha256 _).property]

theorem view_cache_dir_ok {c : AuthorizedSnapshotContext} {root dir : Path}
    (h : viewCacheDir x c root = .ok dir) :
    ∃ id, c.descriptor.snapshotId = digest id ∧ dir = hexEncode id.val :: scopeCacheDir x c root := by
  obtain ⟨id,hid,h⟩ := bind_ok.mp h
  cases h
  exact ⟨id,parse_digest_ok hid,rfl⟩

/-- One directory belongs to one domain and one scope. -/
theorem cache_dir_names {c c' : AuthorizedSnapshotContext} {root root' dir : Path}
    (hlen : c.domain.length = 64) (hlen' : c'.domain.length = 64) (h : CacheDir x c root dir)
    (h' : CacheDir x c' root' dir) :
    c.domain = c'.domain ∧
      hashFields x scopeTag [c.descriptor.scope] = hashFields x scopeTag [c'.descriptor.scope] := by
  have hplain : ∀ name : Text, name.length = 64 → name ≠ txt "snapshots" := by
    rintro _ hname rfl
    exact absurd hname (by decide)
  rcases h with rfl | h <;> rcases h' with h' | h'
  · obtain ⟨hscope,hrest⟩ := List.cons.inj h'
    exact ⟨(List.cons.inj hrest).1,hscope⟩
  · obtain ⟨_,_,hdir⟩ := view_cache_dir_ok h'
    obtain ⟨_,hrest⟩ := List.cons.inj hdir
    exact absurd (List.cons.inj (List.cons.inj hrest).2).1.symm (hplain _ hlen')
  · obtain ⟨_,_,hdir⟩ := view_cache_dir_ok h
    rw [hdir] at h'
    obtain ⟨_,hrest⟩ := List.cons.inj h'
    exact absurd (List.cons.inj (List.cons.inj hrest).2).1 (hplain _ hlen)
  · obtain ⟨_,_,hdir⟩ := view_cache_dir_ok h
    obtain ⟨_,_,hdir'⟩ := view_cache_dir_ok h'
    rw [hdir] at hdir'
    obtain ⟨_,hrest⟩ := List.cons.inj hdir'
    obtain ⟨hscope,hrest⟩ := List.cons.inj hrest
    exact ⟨(List.cons.inj hrest).1,hscope⟩

/-- What an authorised context is made of. -/
structure Made (x : Externals) (r : Resolved) (c : AuthorizedSnapshotContext) (url : Text) :
    Prop where
  descriptor : c.descriptor = r.descriptor
  deployment : deploymentUrl x r.deployment = .ok url
  epoch : c.authorizationEpoch ≤ i64Max
  domain : c.domain = hashFields x domainTag (authorityFields url r c.authorizationEpoch)
  profile : r.descriptor.schemaVersion = x.codec.schemaVersion ∧
    r.descriptor.metadataCodec = x.codec.metadataCodec ∧
    r.descriptor.materializationPolicy = x.codec.materializationPolicyGitRawV1 ∧
    r.descriptor.fsSemantics = x.codec.fsSemanticsLinuxCodeV1 ∧
    r.descriptor.accessProjection = x.codec.accessProjectionExactFull

theorem decimal_le {value field : Text} {n : ℕ} (h : decimal value field = .ok n) : n ≤ i64Max := by
  obtain ⟨_,_,h⟩ := bind_ok.mp h
  obtain ⟨_,_,h⟩ := bind_ok.mp h
  obtain ⟨_,hle,h⟩ := bind_ok.mp h
  cases h
  simpa using hle

theorem new_context_made {r : Resolved} {c : AuthorizedSnapshotContext}
    (h : newContext x r = .ok c) : ∃ url, Made x r c url := by
  obtain ⟨_,_,h⟩ := bind_ok.mp h
  obtain ⟨_,_,h⟩ := bind_ok.mp h
  obtain ⟨_,_,h⟩ := bind_ok.mp h
  obtain ⟨_,hdescriptor,h⟩ := bind_ok.mp h
  obtain ⟨epoch,hepoch,h⟩ := bind_ok.mp h
  obtain ⟨_,_,h⟩ := bind_ok.mp h
  obtain ⟨url,hurl,h⟩ := bind_ok.mp h
  cases h
  obtain ⟨_,hprofile,_⟩ := bind_ok.mp hdescriptor
  exact ⟨url,rfl,hurl,decimal_le hepoch,rfl,by simpa using hprofile⟩

/-- Two contexts with the same authority: deployment, instance, credential, generation, profile
and scope. -/
structure SameAuthority (x : Externals) (r r' : Resolved) (c c' : AuthorizedSnapshotContext) :
    Prop where
  deployment : deploymentUrl x r.deployment = deploymentUrl x r'.deployment
  instanceId : r.descriptor.instanceId = r'.descriptor.instanceId
  credential : r.credentialPartition = r'.credentialPartition
  epoch : c.authorizationEpoch = c'.authorizationEpoch
  schemaVersion : r.descriptor.schemaVersion = r'.descriptor.schemaVersion
  metadataCodec : r.descriptor.metadataCodec = r'.descriptor.metadataCodec
  materializationPolicy : r.descriptor.materializationPolicy = r'.descriptor.materializationPolicy
  fsSemantics : r.descriptor.fsSemantics = r'.descriptor.fsSemantics
  accessProjection : r.descriptor.accessProjection = r'.descriptor.accessProjection
  scope : r.descriptor.scope = r'.descriptor.scope

/-- SHA-256 does not collide on what two contexts hash, and their texts fit into memory. -/
structure Hashes (x : Externals) (known : Set Bytes) (r : Resolved) (c : AuthorizedSnapshotContext) :
    Prop where
  domain : ∀ url, deploymentUrl x r.deployment = .ok url →
    domainTag ++ framed 8 (authorityFields url r c.authorizationEpoch) ∈ known ∧
      ∀ f ∈ authorityFields url r c.authorizationEpoch, f.length ≤ usizeMax
  scope : scopeTag ++ framed 8 [r.descriptor.scope] ∈ known ∧ r.descriptor.scope.length ≤ usizeMax

variable {r r' : Resolved} {c c' : AuthorizedSnapshotContext} {known : Set Bytes}

/-- Equal domains and equal scopes mean equal authority. -/
theorem same_authority (hsha : Set.InjOn x.sha256 known) (hnew : newContext x r = .ok c)
    (hnew' : newContext x r' = .ok c') (hhash : Hashes x known r c) (hhash' : Hashes x known r' c')
    (hdomain : c.domain = c'.domain) (hscope : c.descriptor.scope = c'.descriptor.scope) :
    SameAuthority x r r' c c' := by
  obtain ⟨url,made⟩ := new_context_made hnew
  obtain ⟨url',made'⟩ := new_context_made hnew'
  rw [made.domain, made'.domain] at hdomain
  have hfields := hash_fields_inj hsha (hhash.domain url made.deployment).1 (hhash'.domain url' made'.deployment).1
    (hhash.domain url made.deployment).2 (hhash'.domain url' made'.deployment).2 hdomain
  simp only [authorityFields, List.cons.injEq, and_true] at hfields
  obtain ⟨rfl,hinstance,hcredential,hepoch,_⟩ := hfields
  have hlt : ∀ n ≤ i64Max, n < 256^8 := fun n hn => lt_of_le_of_lt hn (by decide)
  obtain ⟨h₁,h₂,h₃,h₄,h₅⟩ := made.profile
  obtain ⟨h₁',h₂',h₃',h₄',h₅'⟩ := made'.profile
  exact ⟨made.deployment.trans made'.deployment.symm,hinstance,hcredential,
    be_bytes_inj (hlt _ made.epoch) (hlt _ made'.epoch) hepoch,h₁.trans h₁'.symm,h₂.trans h₂'.symm,
    h₃.trans h₃'.symm,h₄.trans h₄'.symm,h₅.trans h₅'.symm,
    made.descriptor ▸ made'.descriptor ▸ hscope⟩

/-- Contexts that share a cache directory have the same authority. -/
theorem shared_dir_authority (hsha : Set.InjOn x.sha256 known) (hnew : newContext x r = .ok c)
    (hnew' : newContext x r' = .ok c') (hhash : Hashes x known r c) (hhash' : Hashes x known r' c')
    {root root' dir : Path} (hdir : CacheDir x c root dir) (hdir' : CacheDir x c' root' dir) :
    SameAuthority x r r' c c' := by
  obtain ⟨url,made⟩ := new_context_made hnew
  obtain ⟨url',made'⟩ := new_context_made hnew'
  obtain ⟨hdomain,hscope⟩ := cache_dir_names (by rw [made.domain, hash_fields_length])
    (by rw [made'.domain, hash_fields_length]) hdir hdir'
  rw [made.descriptor, made'.descriptor] at hscope
  have hfields := hash_fields_inj hsha hhash.scope.1 hhash'.scope.1 (by simpa using hhash.scope.2)
    (by simpa using hhash'.scope.2) hscope
  refine same_authority hsha hnew hnew' hhash hhash' hdomain ?_
  rw [made.descriptor, made'.descriptor]
  exact (List.cons.inj hfields).1

end Names

end Scorpio.Authority
