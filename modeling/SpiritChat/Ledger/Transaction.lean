import SpiritChat.Lib.Exec
import SpiritChat.Ledger.Hash

/-! # Username claims

The chain's only transaction type: a signed claim that binds a public key to a `@username`. -/

namespace SpiritChat
open Lib

/-- The errors of the ledger (`error.rs`). -/
inductive LedgerError where
  | invalidUsername (reason : String)
  | signatureInvalid
  | tooManyTransactions (actual max : ℕ)
  | blockTooLarge (actual max : ℕ)
  | txCommitmentMismatch
  | proofOfWorkInvalid
  | difficultyMismatch (height : ℕ)
  | unknownParent (parent : Hash32)
  | heightMismatch (parent actual : ℕ)
  | timestampTooOld
  | timestampTooFarInFuture
  | anchorInvalid
  | usernameAlreadyClaimed (username : String)
  | duplicateClaimInBlock (username : String)
  | unknownBlock (hash : Hash32)
  | heightNotFound (height : ℕ)
  | storage (reason : String)
deriving DecidableEq

/-- The outcome of a ledger call. -/
abbrev Ledger (α : Type) := Exec LedgerError α

def minUsernameLen : ℕ := 5

def maxUsernameLen : ℕ := 32

/-- The UTF-8 bytes of a string. -/
def utf8 (s : String) : List UInt8 := s.toByteArray.data.toList

theorem utf8_inj {s t : String} (h : utf8 s = utf8 t) : s = t := by
  refine String.toByteArray_inj.mp (ByteArray.ext ?_)
  exact Array.toList_inj.mp h

/-- `char::is_whitespace` -/
def isWhitespace (c : Char) : Bool :=
  (0x9 ≤ c.toNat && c.toNat ≤ 0xd) || c.toNat == 0x20 || c.toNat == 0x85 || c.toNat == 0xa0 || c.toNat == 0x1680 ||
    (0x2000 ≤ c.toNat && c.toNat ≤ 0x200a) || c.toNat == 0x2028 || c.toNat == 0x2029 || c.toNat == 0x202f ||
    c.toNat == 0x205f || c.toNat == 0x3000

/-- `str::trim` -/
def trim (s : String) : String :=
  String.ofList ((s.toList.dropWhile isWhitespace).reverse.dropWhile isWhitespace).reverse

section
variable [Primitives]

/-- `str::to_lowercase` -/
def toLowercase (s : String) : String :=
  if s.toList.all Char.isAscii then String.ofList (s.toList.map Char.toLower) else Primitives.unicodeLowercase s

def normalizeUsername (username : String) : String := toLowercase (trim username)

/-- The bytes a username is made of. -/
def isUsernameByte (b : UInt8) : Bool := (97 ≤ b && b ≤ 122) || (48 ≤ b && b ≤ 57) || b == 95

omit [Primitives] in
def validateUsernameFormat (username : String) : Ledger Unit :=
  if (utf8 username).length < minUsernameLen then
    .error (.err (.invalidUsername "shorter than the 5-character minimum"))
  else if (utf8 username).length > maxUsernameLen then
    .error (.err (.invalidUsername "longer than the 32-character maximum"))
  else if !(utf8 username).all isUsernameByte then
    .error (.err (.invalidUsername "must be lowercase letters, digits, or '_' only"))
  else .ok ()

def claimDomainTag : List UInt8 := utf8 "spiritchat-ledger-claim-v1"

/-- A signed claim of a username. -/
structure Transaction where
  version : UInt8
  username : String
  ownerPublicKey : Bytes 32
  claimedAtHeightHint : UInt64
  anchorBlockHash : Hash32
  nonce : Bytes 8
  signature : List UInt8
deriving DecidableEq

namespace Transaction

def signingPreimage (username : String) (ownerPublicKey : Bytes 32) (claimedAtHeightHint : UInt64)
    (anchorBlockHash : Hash32) (nonce : Bytes 8) : List UInt8 :=
  claimDomainTag ++ leBytes 2 (utf8 username).length ++ utf8 username ++ ownerPublicKey.toList ++
    leBytes 8 claimedAtHeightHint.toNat ++ anchorBlockHash.asBytes ++ nonce.toList

/-- The bytes a transaction's id is hashed from. -/
def canonicalBytes (tx : Transaction) : List UInt8 :=
  signingPreimage tx.username tx.ownerPublicKey tx.claimedAtHeightHint tx.anchorBlockHash tx.nonce ++ tx.signature

def signatureArray (tx : Transaction) : Ledger (Bytes 64) :=
  if h : tx.signature.length = 64 then .ok ⟨tx.signature, h⟩ else .error (.err .signatureInvalid)

def id (tx : Transaction) : Hash32 := Hash32.of tx.canonicalBytes

/-- Everything about a transaction that needs no chain: its username's form and its signature. -/
def verifySelfContained (tx : Transaction) : Ledger Unit := do
  validateUsernameFormat tx.username
  if tx.username ≠ normalizeUsername tx.username then
    .error (.err (.invalidUsername "not already normalized"))
  else if !Primitives.isPublicKey tx.ownerPublicKey then .error (.err .signatureInvalid)
  else
    let preimage := signingPreimage tx.username tx.ownerPublicKey tx.claimedAtHeightHint tx.anchorBlockHash tx.nonce
    let signature ← tx.signatureArray
    if Primitives.verifySignature tx.ownerPublicKey preimage signature then .ok ()
    else .error (.err .signatureInvalid)

end Transaction
end
end SpiritChat
