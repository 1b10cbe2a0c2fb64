import Scorpio.Base.ByteText
import Scorpio.Base.Fallible

/-!
# Errors, digests and the page codec

`snapshot::types`, the digest texts of `snapshot::frames`, and the interface of
the external crates `mst2_codec` and `uuid`. The codec is a parameter: a record
of the functions the snapshot code calls. What a result needs to know about
them is stated as a hypothesis on that record.
-/

set_option autoImplicit false

namespace Scorpio.PageCodec

open ByteText Fallible

inductive SnapshotErrorCode where
  | scopeInvalid
  | invalidRequest
  | limitExceeded
  | unauthenticated
  | scopeForbidden
  | viewNotFound
  | snapshotNotReady
  | metadataNotReady
  | snapshotGone
  | pathNotFound
  | notDirectory
  | unsupportedEntry
  | leaseUnknown
  | leaseExpired
  | cursorInvalid
  | cursorStale
  | proofBudgetExceeded
  | digestMismatch
  | integrityError
  | objectUnavailable
  | rangeNotSupported
  | symlinkTraversal
  | durableViewConflict
  | temporaryUnavailable
  | internal
  deriving DecidableEq, Repr

structure SnapshotError where
  code : SnapshotErrorCode
  message : Text
  deriving DecidableEq, Repr

abbrev Result (α : Type) := Except SnapshotError α

def integrity (message : Text) : SnapshotError := ⟨.integrityError,message⟩

def limit (message : Text) : SnapshotError := ⟨.limitExceeded,message⟩

def usizeMax : ℕ := 2^64-1

def i64Max : ℕ := 2^63-1

def saturatingAdd (a b : ℕ) : ℕ := min (a+b) usizeMax

def saturatingMul (a b : ℕ) : ℕ := min (a*b) usizeMax

def checkedAdd (a b : ℕ) : Option ℕ := if a+b ≤ usizeMax then some (a+b) else none

@[simp] theorem checked_add_some {a b n : ℕ} :
    checkedAdd a b = some n ↔ a+b ≤ usizeMax ∧ a+b = n := by
  simp [checkedAdd]

/-! ## Digest texts -/

abbrev Digest := {b : Bytes // b.length = 32}

instance digestLawful : LawfulBEq Digest := inferInstance

theorem padded_length (b : Bytes) : ((b ++ List.replicate 32 0).take 32).length = 32 := by simp

def digest (id : Digest) : Text := txt "sha256:" ++ hexEncode id.val

def parseDigest (s : Text) : Result Digest :=
  if txt "sha256:" <+: s then
    if h : (s.drop 7).length = 64 ∧ (s.drop 7).all isLowerHex = true then
      .ok ⟨hexDecode (s.drop 7),(hex_encode_decode _ 32 h.1 h.2).2⟩
    else .error ⟨.digestMismatch,"digest must contain exactly 64 lowercase hex digits"⟩
  else .error ⟨.digestMismatch,"digest must start with sha256:"⟩

theorem txt_sha256_length : (txt "sha256:").length = 7 := by decide

theorem digest_injective : Function.Injective digest := fun _ _ h =>
  Subtype.ext (hex_encode_injective (List.append_cancel_left h))

@[simp] theorem digest_inj {a b : Digest} : digest a = digest b ↔ a = b := digest_injective.eq_iff

theorem drop_digest (id : Digest) : (digest id).drop 7 = hexEncode id.val := by
  rw [digest, ← txt_sha256_length, List.drop_left]

@[simp] theorem parse_digest_digest (id : Digest) : parseDigest (digest id) = .ok id := by
  have hhead : txt "sha256:" <+: digest id := List.prefix_append _ _
  have hlen : ((digest id).drop 7).length = 64 := by
    rw [drop_digest, hex_encode_length, id.property]
  have hall : ((digest id).drop 7).all isLowerHex = true := by
    rw [drop_digest]
    exact hex_encode_lower _
  rw [parseDigest, if_pos hhead, dif_pos ⟨hlen,hall⟩]
  congr
  rw [drop_digest, hex_decode_encode]

/-- Only the canonical text of a digest parses. -/
theorem parse_digest_ok {s : Text} {id : Digest} (h : parseDigest s = .ok id) : s = digest id := by
  unfold parseDigest at h
  split at h
  · rename_i hhead
    split at h
    · rename_i hs
      cases h
      obtain ⟨rest,rfl⟩ := hhead
      have hrest : (txt "sha256:" ++ rest).drop 7 = rest := by
        rw [← txt_sha256_length, List.drop_left]
      simp only [hrest] at hs
      simp only [digest, hrest, (hex_encode_decode rest 32 hs.1 hs.2).1]
    · cases h
  · cases h

/-! ## Pages -/

inductive EntryKind where
  | regular
  | executable
  | symlink
  | directory
  deriving DecidableEq, Repr

structure Entry where
  name : Bytes
  kind : EntryKind
  size : ℕ
  contentId : Digest
  childRoot : Digest
  deriving DecidableEq, Repr

structure BranchChild where
  label : UInt8
  subtreeEntries : ℕ
  childPageId : Digest
  deriving DecidableEq, Repr

inductive Page where
  | leaf (entries : List Entry)
  | branch (common : Bytes) (terminal : Option Entry) (children : List BranchChild)
  deriving DecidableEq, Repr

namespace Page

/-- The entries the page itself holds. -/
def entries : Page → List Entry
  | leaf entries => entries
  | branch _ terminal _ => terminal.toList

def children : Page → List BranchChild
  | leaf _ => []
  | branch _ _ children => children

end Page

structure ServingDescriptor where
  instanceUuid : Bytes
  namespaceViewId : Digest
  scope : Text
  metadataRoot : Digest
  deriving DecidableEq, Repr

structure Codec where
  pageId : Bytes → Digest
  decodePage : Bytes → Except Text Page
  buildPage : List Entry → Except Text Bytes
  /-- `Entry::decode` from an offset; the result is the offset after the entry. -/
  decodeEntry : Bytes → ℕ → Except Text ℕ
  pageMaxBytes : ℕ
  validateScope : Text → Except Text Unit
  decodeDescriptor : Bytes → Except Text ServingDescriptor
  encodeDescriptor : ServingDescriptor → Except Text Bytes
  snapshotId : ServingDescriptor → Except Text Digest
  schemaVersion : ℕ
  metadataCodec : ℕ
  materializationPolicyGitRawV1 : ℕ
  fsSemanticsLinuxCodeV1 : ℕ
  accessProjectionExactFull : ℕ
  parseUuid : Text → Option Bytes
  uuidText : Bytes → Text

def maxDepth : ℕ := 255

def readU16 (bytes : Bytes) (offset : ℕ) : Result ℕ :=
  match bytes[offset]?, bytes[offset+1]? with
  | some a, some b => .ok (a.toNat+256*b.toNat)
  | _, _ => .error (integrity "truncated metadata page")

def fromLeBytes : Bytes → ℕ
  | [] => 0
  | b :: rest => b.toNat+256*fromLeBytes rest

/-- The declared child counts of a branch, 41 bytes a child, must add up below `i64::MAX`. -/
def checkChildCounts (payload : Bytes) : ℕ → ℕ → ℕ → Result Unit
  | 0, _, _ => .ok ()
  | count+1, offset, sum =>
    if payload.length < offset+9 then .error (integrity "truncated branch child count")
    else
      let total := sum+fromLeBytes ((payload.drop (offset+1)).take 8)
      if total ≤ i64Max then checkChildCounts payload count (offset+41) total
      else .error (integrity "branch entry count overflow")

/-- The arithmetic preflight of `decode_page` on a branch. -/
def preflight (c : Codec) (bytes : Bytes) : Result Unit := do
  let payload := bytes.drop 20
  let commonLen ← readU16 payload 0
  let terminal ← okOr payload[2+commonLen]? (integrity "truncated branch terminal flag")
  let offset ← if terminal = 1 then (c.decodeEntry payload (3+commonLen)).mapError integrity
    else .ok (3+commonLen)
  let count ← readU16 bytes 6
  require (count ≤ 256) (integrity "branch has more than 256 children")
  checkChildCounts payload count offset terminal.toNat

def decodePage (c : Codec) (bytes : Bytes) : Result Page := do
  if 20 ≤ bytes.length ∧ bytes[4]? = some 1 then preflight c bytes
  (c.decodePage bytes).mapError fun e => integrity ("invalid metadata page: " ++ e)

theorem decode_page_ok {c : Codec} {bytes : Bytes} {page : Page}
    (h : decodePage c bytes = .ok page) : c.decodePage bytes = .ok page := by
  unfold decodePage at h
  split at h
  · obtain ⟨_,_,hpage⟩ := bind_ok.mp h
    exact map_error_ok.mp hpage
  · exact map_error_ok.mp h

end Scorpio.PageCodec
