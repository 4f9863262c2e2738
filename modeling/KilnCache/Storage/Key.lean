import KilnCache.Errors

/-! # Namespaces, keys and object paths

The two halves of the cache protocol, the check on keys, the content hash, and the path of an object
below the store root (`internal/storage/key.go`). Paths are lists of components relative to the root,
so `[]` is the root itself. SHA-256 is a parameter (`Hash`): no property of the store depends on
which function it is. -/

namespace KilnCache

/-- Byte strings. -/
abbrev Bytes := List UInt8

/-- A path below the store root. -/
abbrev Path := List String

instance (p : Path) (ps : List Path) : Decidable (p ∈ ps) := List.instDecidableMemOfLawfulBEq p ps

/-- The two namespaces; the invalid strings of the Go type have no value here. -/
inductive Namespace where
  /-- Content-addressed objects: the key is the hash of the content. -/
  | cas
  /-- Action cache entries: the key is the hash of the action. -/
  | ac
  deriving DecidableEq, Repr

namespace Namespace

/-- The directory name, and the path segment of a URL. -/
def string : Namespace → String
  | .cas => "cas"
  | .ac => "ac"

/-- Whether the key determines the bytes. -/
def contentAddressed : Namespace → Bool
  | .cas => true
  | .ac => false

/-- Namespaces are told apart by their names. -/
theorem string_injective : Function.Injective string := by
  intro a b h
  cases a <;> cases b <;> first | rfl | exact absurd h (by decide)

/-- No namespace directory is the temp directory. -/
theorem string_ne_tmp (ns : Namespace) : ns.string ≠ "tmp" := by
  cases ns <;> decide

end Namespace

/-- The length of a lowercase hex SHA-256 digest. -/
def hashLen : Nat := 64

/-- A lowercase hex digit. -/
def isHexDigit (c : Char) : Bool := ('0' ≤ c && c ≤ '9') || ('a' ≤ c && c ≤ 'f')

/-- `ValidateKey`: exactly 64 lowercase hex characters. -/
def validateKey (s : String) : Option Err :=
  if s.utf8ByteSize ≠ hashLen then some (.badKeyLength s.utf8ByteSize)
  else match s.toList.findIdx? fun c => !isHexDigit c with
    | none => none
    -- the bytes before the first bad character are hex digits, so its index is the one of its byte
    | some i => some (.badKeyByte i ((String.utf8EncodeChar (s.toList.getD i ' ')).headD 0))

/-- Every complaint of `validateKey` is `ErrBadKey`. -/
theorem validateKey_is {s : String} {err : Err} (h : validateKey s = some err) (t : Sentinel) :
    err.is t = decide (t = .badKey) := by
  unfold validateKey at h
  split at h
  · cases h; rfl
  · split at h
    · cases h
    · cases h; rfl

/-- A bad key is no shortage of replicas. -/
theorem validateKey_isInsufficient {s : String} {err : Err} (h : validateKey s = some err) :
    err.isInsufficient = false := by
  unfold validateKey at h
  split at h
  · cases h; rfl
  · split at h
    · cases h
    · cases h; rfl

/-- The `i`-th two-character piece of a key. -/
def shard (i : Nat) (key : String) : String := String.ofList ((key.toList.drop (i * 2)).take 2)

/-- The directory of an object: two levels of one hex byte each. -/
def shardDir (ns : Namespace) (key : String) : Path := [ns.string, shard 0 key, shard 1 key]

/-- The path of an object. -/
def objectPath (ns : Namespace) (key : String) : Path := shardDir ns key ++ [key]

/-- An object lies in its shard directory. -/
@[simp] theorem objectPath_dropLast (ns : Namespace) (key : String) :
    (objectPath ns key).dropLast = shardDir ns key := by
  simp [objectPath]

/-- No object lies above the shard directory of another. -/
theorem not_objectPath_isPrefix_shardDir (ns ns' : Namespace) (key key' : String) :
    ¬ objectPath ns key <+: shardDir ns' key' := by
  intro h
  have hlen := h.length_le
  simp [objectPath, shardDir] at hlen

/-- Different objects have different paths. -/
theorem objectPath_injective {ns ns' : Namespace} {key key' : String}
    (h : objectPath ns key = objectPath ns' key') : ns = ns' ∧ key = key' := by
  simp only [objectPath, shardDir, List.cons_append, List.nil_append, List.cons.injEq] at h
  exact ⟨Namespace.string_injective h.1, h.2.2.2.1⟩

/-- The temp directory. -/
def tmpDir : Path := ["tmp"]

/-- The path of the temp file with inode `i`: `os.CreateTemp` adds a unique suffix to `incoming-`. -/
def tmpPath (i : Nat) : Path := tmpDir ++ ["incoming-" ++ toString i]

/-- No object lives where a temp file does. -/
theorem objectPath_ne_tmpPath (ns : Namespace) (key : String) (i : Nat) :
    objectPath ns key ≠ tmpPath i := by
  intro h
  simp only [objectPath, shardDir, tmpPath, tmpDir, List.cons_append, List.nil_append,
    List.cons.injEq] at h
  exact Namespace.string_ne_tmp ns h.1

/-! ## The content hash -/

/-- A hash function on byte strings, SHA-256 in the program. -/
structure Hash where
  /-- The digest. -/
  sum : Bytes → Bytes

/-- One lowercase hex digit. -/
def hexDigit (n : UInt8) : Char :=
  if n < 10 then Char.ofNat (48 + n.toNat) else Char.ofNat (87 + n.toNat)

/-- `hex.EncodeToString`. -/
def hexEncode (b : Bytes) : String :=
  String.ofList (b.flatMap fun x => [hexDigit (x / 16), hexDigit (x % 16)])

/-- The digest of a byte string in lowercase hex. -/
def Hash.hex (sha : Hash) (b : Bytes) : String := hexEncode (sha.sum b)

/-- A hash that sees only the length. -/
def Hash.length : Hash := ⟨fun b => List.replicate 32 b.length.toUInt8⟩

/-- A well-formed key. -/
def key01 : String := "0101010101010101010101010101010101010101010101010101010101010101"

end KilnCache
