import Mathlib

/-! # Errors

Go's `error` is an open interface; the values that reach the modelled functions are the sentinels of
`internal/storage`, `internal/protocol`, `internal/cluster`, `context` and `io`, the structured errors that
unwrap to them, contexts added by `fmt.Errorf("…: %w")`, and texts of the operating system or of
`net/http` that wrap none of these. `Err.is` is `errors.Is`, following `Unwrap`; `Err.error` is the
text of `Error()`, which one classification of the HTTP layer reads (`isBodyReadError`). -/

namespace KilnCache

/-! ## Texts -/

/-- `unicode.IsSpace`, the characters `strings.TrimSpace` removes. -/
def isSpace (c : Char) : Bool :=
  c = ' ' || c = '\t' || c = '\n' || c = '\r' || c.toNat = 0x0b || c.toNat = 0x0c ||
    c.toNat = 0x85 || c.toNat = 0xa0 || c.toNat = 0x1680 ||
    (0x2000 ≤ c.toNat && c.toNat ≤ 0x200a) || c.toNat = 0x2028 || c.toNat = 0x2029 ||
    c.toNat = 0x202f || c.toNat = 0x205f || c.toNat = 0x3000

/-- `strings.TrimSpace`. -/
def trimSpace (s : String) : String :=
  String.ofList ((s.toList.dropWhile isSpace).reverse.dropWhile isSpace).reverse

/-- Two hex digits of a byte. -/
def hexPair (n : Nat) : String := String.ofList [Nat.digitChar (n / 16), Nat.digitChar (n % 16)]

/-- `%q` of `string(b)`, the character whose code is the byte `b`. -/
def quoteByte (b : UInt8) : String :=
  let n := b.toNat
  let text :=
    if n = 0x22 then "\\\""
    else if n = 0x5c then "\\\\"
    else if (0x20 ≤ n ∧ n < 0x7f) ∨ (0xa1 ≤ n ∧ n ≠ 0xad) then (Char.ofNat n).toString
    else if n = 0x07 then "\\a"
    else if n = 0x08 then "\\b"
    else if n = 0x0c then "\\f"
    else if n = 0x0a then "\\n"
    else if n = 0x0d then "\\r"
    else if n = 0x09 then "\\t"
    else if n = 0x0b then "\\v"
    else if n < 0x20 ∨ n = 0x7f then "\\x" ++ hexPair n
    else "\\u00" ++ hexPair n
  "\"" ++ text ++ "\""

/-! ## Values -/

/-- The comparable error values the code matches on with `errors.Is`. -/
inductive Sentinel where
  | notFound
  | digestMismatch
  | tooLarge
  | closed
  | shortWrite
  | badKey
  | overQuota
  | insufficientReplicas
  | peerNotFound
  | canceled
  | deadlineExceeded
  | eof
  deriving DecidableEq, Repr

/-- Errors. -/
inductive Err where
  /-- `storage.ErrNotFound`. -/
  | notFound
  /-- `storage.ErrClosed`. -/
  | closed
  /-- `protocol.ErrOverQuota`. -/
  | overQuota
  /-- `cluster.ErrPeerNotFound`. -/
  | peerNotFound
  /-- `context.Canceled`. -/
  | canceled
  /-- `context.DeadlineExceeded`. -/
  | deadlineExceeded
  /-- `io.EOF`. -/
  | eof
  /-- `io.ErrUnexpectedEOF`. -/
  | unexpectedEOF
  /-- `io.ErrShortWrite`. -/
  | ioShortWrite
  /-- `storage.DigestMismatchError`. -/
  | digestMismatch (want got : String) (size : Int)
  /-- `storage.TooLargeError`. -/
  | tooLarge (size limit : Int)
  /-- `storage.ErrShortWrite` with the declared and the received length. -/
  | shortWrite (declared received : Int)
  /-- `storage.ErrBadKey` for a key of the wrong length. -/
  | badKeyLength (length : Nat)
  /-- `storage.ErrBadKey` for a byte that is not lowercase hex. -/
  | badKeyByte (index : Nat) (byte : UInt8)
  /-- `cluster.InsufficientReplicasError`. -/
  | insufficientReplicas (key : String) (wanted got : Nat) (holders : List String)
      (causes : List Err)
  /-- `cluster.PeerError` for an HTTP status. -/
  | peerStatus (peer op : String) (status : Nat) (body : String)
  /-- `cluster.PeerError` for a request that got no response. -/
  | peerFailed (peer op : String) (err : Err)
  /-- `fmt.Errorf("context: %w", err)`. -/
  | wrap (context : String) (err : Err)
  /-- An error of the operating system or of `net/http`. -/
  | other (text : String)

namespace Err

mutual
/-- Equality of errors is decidable: the constructors agree, and so do their arguments. -/
def decEq (a b : Err) : Decidable (a = b) :=
  if h : a.ctorIdx = b.ctorIdx then
    match a, b, h with
    | .notFound, .notFound, _ | .closed, .closed, _ | .overQuota, .overQuota, _
    | .peerNotFound, .peerNotFound, _ | .canceled, .canceled, _
    | .deadlineExceeded, .deadlineExceeded, _ | .eof, .eof, _ | .unexpectedEOF, .unexpectedEOF, _
    | .ioShortWrite, .ioShortWrite, _ => isTrue rfl
    | .digestMismatch .., .digestMismatch .., _ =>
      decidable_of_iff' _ (digestMismatch.injEq ..).to_iff
    | .tooLarge .., .tooLarge .., _ => decidable_of_iff' _ (tooLarge.injEq ..).to_iff
    | .shortWrite .., .shortWrite .., _ => decidable_of_iff' _ (shortWrite.injEq ..).to_iff
    | .badKeyLength .., .badKeyLength .., _ => decidable_of_iff' _ (badKeyLength.injEq ..).to_iff
    | .badKeyByte .., .badKeyByte .., _ => decidable_of_iff' _ (badKeyByte.injEq ..).to_iff
    | .peerStatus .., .peerStatus .., _ => decidable_of_iff' _ (peerStatus.injEq ..).to_iff
    | .other .., .other .., _ => decidable_of_iff' _ (other.injEq ..).to_iff
    | .insufficientReplicas _ _ _ _ es, .insufficientReplicas _ _ _ _ es', _ =>
      have := decEqList es es'
      decidable_of_iff' _ (insufficientReplicas.injEq ..).to_iff
    | .peerFailed _ _ e, .peerFailed _ _ e', _ =>
      have := decEq e e'
      decidable_of_iff' _ (peerFailed.injEq ..).to_iff
    | .wrap _ e, .wrap _ e', _ =>
      have := decEq e e'
      decidable_of_iff' _ (wrap.injEq ..).to_iff
  else isFalse fun heq => h (congrArg Err.ctorIdx heq)

/-- The causes of an error, one by one. -/
def decEqList : (as bs : List Err) → Decidable (as = bs)
  | [], [] => isTrue rfl
  | [], _ :: _ | _ :: _, [] => isFalse nofun
  | a :: as, b :: bs =>
    have := decEq a b
    have := decEqList as bs
    decidable_of_iff' _ (List.cons.injEq ..).to_iff
end

instance : DecidableEq Err := decEq

/-- `errors.Is`. -/
def is : Err → Sentinel → Bool
  | .notFound, t => t = .notFound
  | .closed, t => t = .closed
  | .overQuota, t => t = .overQuota
  | .peerNotFound, t => t = .peerNotFound
  | .canceled, t => t = .canceled
  | .deadlineExceeded, t => t = .deadlineExceeded
  | .eof, t => t = .eof
  | .unexpectedEOF, _ => false
  | .ioShortWrite, _ => false
  | .digestMismatch .., t => t = .digestMismatch
  | .tooLarge .., t => t = .tooLarge
  | .shortWrite .., t => t = .shortWrite
  | .badKeyLength _, t => t = .badKey
  | .badKeyByte .., t => t = .badKey
  -- `Unwrap` answers with the sentinel, not with the causes
  | .insufficientReplicas .., t => t = .insufficientReplicas
  | .peerStatus .., _ => false
  | .peerFailed _ _ err, t => err.is t
  | .wrap _ err, t => err.is t
  | .other _, _ => false

/-- `short` of `internal/cluster`: the first twelve characters of a key. -/
def short (key : String) : String := String.ofList (key.toList.take 12)

mutual
/-- The text of `Error()`. -/
def error : Err → String
  | .notFound => "object not found"
  | .closed => "store is closed"
  | .overQuota => "node is over its storage high-water mark"
  | .peerNotFound => "peer does not have the object"
  | .canceled => "context canceled"
  | .deadlineExceeded => "context deadline exceeded"
  | .eof => "EOF"
  | .unexpectedEOF => "unexpected EOF"
  | .ioShortWrite => "short write"
  | .digestMismatch want got size =>
    "digest mismatch: key " ++ want ++ " but content hashes to " ++ got ++ " (" ++
      toString size ++ " bytes)"
  | .tooLarge size limit =>
    "object too large: " ++ toString size ++ " bytes exceeds the per-object limit of " ++
      toString limit
  | .shortWrite declared received =>
    "body shorter than declared content length: declared " ++ toString declared ++
      ", received " ++ toString received
  | .badKeyLength length =>
    "invalid key: expected 64 hex characters, got " ++ toString length
  | .badKeyByte index byte =>
    "invalid key: byte " ++ toString index ++ " is " ++ quoteByte byte ++
      ", expected lowercase hex"
  | .insufficientReplicas key wanted got holders causes =>
    "could not write the required number of copies: wrote " ++ toString got ++ " of " ++
      toString wanted ++ " copies of " ++ short key ++ " (holders [" ++
      " ".intercalate holders ++ "]): " ++ errorJoin causes
  | .peerStatus peer op status body =>
    "peer " ++ peer ++ ": " ++ op ++ ": status " ++ toString status ++ ": " ++ trimSpace body
  | .peerFailed peer op err => "peer " ++ peer ++ ": " ++ op ++ ": " ++ err.error
  | .wrap context err => context ++ ": " ++ err.error
  | .other text => text

/-- The text of `errors.Join`. -/
def errorJoin : List Err → String
  | [] => ""
  | [err] => err.error
  | err :: errs => err.error ++ "\n" ++ errorJoin errs
end

/-- Whether an error is itself an `InsufficientReplicasError`. -/
def isInsufficient : Err → Bool
  | .insufficientReplicas .. => true
  | _ => false

/-- `fmt.Errorf("…: %w", err)` is what `err` is. -/
@[simp] theorem is_wrap (context : String) (err : Err) (t : Sentinel) :
    (Err.wrap context err).is t = err.is t := rfl

end Err

/-- `strings.Contains`. -/
def contains (text part : String) : Bool := decide (part.toList <:+: text.toList)

end KilnCache
