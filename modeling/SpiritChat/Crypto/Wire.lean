import SpiritChat.Crypto.RatchetBytes
import SpiritChat.Crypto.X3dh
import SpiritChat.Lib.Checked

/-! # Wire formats

The decoders of `crypto-core`, with the panics of their slices, sums and allocations. `PrekeyStore` and
`DoubleRatchet` have decoders without them already, which those here are compared with. -/

namespace SpiritChat
open Lib

/-- `try_into` of a slice to an array -/
def tryIntoArray (n : ℕ) (bytes : List UInt8) : Option (Bytes n) :=
  if h : bytes.length = n then some ⟨bytes, h⟩ else none

/-- A key of 32 bytes. -/
def readKey (bytes : List UInt8) : Exec CryptoError (Bytes 32) :=
  Exec.ofOption (tryIntoArray 32 bytes) (.invalidKeyLength 32 bytes.length)

namespace Checked

/-- The loop of `varint::decode`, from byte `i` on. The shift is a `u32` that stays below 71. -/
def varintDecodeFrom : List UInt8 → ℕ → ℕ → ℕ → Exec CryptoError (ℕ × ℕ)
  | [], _, _, _ => .error (.err (.decode "truncated varint"))
  | byte :: input, i, shift, value =>
    if 64 ≤ shift then .error (.err (.decode "varint too long"))
    else do
      let bits ← shlU64 (byte.toNat % 0x80) shift
      let value := value ||| bits
      if byte.toNat < 0x80 then .ok (value, i + 1) else varintDecodeFrom input (i + 1) (shift + 7) value

def varintDecode (input : List UInt8) : Exec CryptoError (ℕ × ℕ) := varintDecodeFrom input 0 0 0

end Checked

/-! ### Messages -/

/-- The header and how many bytes it took. The counters are cut off at 32 bits. -/
def MessageHeader.decodeWithLen (input : List UInt8) : Exec CryptoError (MessageHeader × ℕ) :=
  if input.length < 32 then .error (.err (.decode "header shorter than a public key"))
  else do
    let dhPublic ← Exec.expect (tryIntoArray 32 (← slice input 0 32))
    let (previousChainLength, consumed) ← Checked.varintDecode (← sliceFrom input 32)
    let start ← addUsize 32 consumed
    let (messageNumber, consumed2) ← Checked.varintDecode (← sliceFrom input start)
    let len ← addUsize start consumed2
    return ({ dhPublic, previousChainLength := previousChainLength % 2 ^ 32, messageNumber := messageNumber % 2 ^ 32 }, len)

namespace Envelope

/-- `envelope::encode` -/
def encode (header : MessageHeader) (ciphertext : List UInt8) : List UInt8 := header.encode ++ ciphertext

/-- `envelope::decode` -/
def decode (input : List UInt8) : Exec CryptoError (MessageHeader × List UInt8) := do
  let (header, consumed) ← MessageHeader.decodeWithLen input
  let ciphertext ← Exec.ofOption (getRange input consumed input.length) (.decode "message envelope missing ciphertext")
  return (header, ciphertext)

end Envelope

/-! ### Handshakes and cards -/

/-- The flag and the bytes of an optional one-time prekey. -/
def writeOneTimePrekey : Option (Bytes 32) → List UInt8
  | some otp => 1 :: otp.toList
  | none => [0]

/-- The one-time prekey whose flag is at `at_`, with what is said if its bytes end early. -/
def readOneTimePrekey (at_ : ℕ) (truncated : String) (input : List UInt8) : Exec CryptoError (Option (Bytes 32)) := do
  let flag ← Exec.expect input[at_]?
  if flag = 0 then return none
  else if flag = 1 then do
    let bytes ← Exec.ofOption (getRange input (at_ + 1) (at_ + 33)) (.decode truncated)
    let otp ← readKey bytes
    return some otp
  else .error (.err (.decode "invalid one-time-prekey flag byte"))

/-- `input[start..stop].try_into().unwrap()` -/
def readArray (n : ℕ) (input : List UInt8) (start : ℕ) : Exec CryptoError (Bytes n) := do
  let bytes ← slice input start (start + n)
  Exec.expect (tryIntoArray n bytes)

/-- `x25519_public_from_bytes` of a slice -/
def readX25519Public (input : List UInt8) (start : ℕ) : Exec CryptoError (Bytes 32) := do
  let bytes ← slice input start (start + 32)
  readKey bytes

section
variable [Primitives]

/-- A key is its 32 bytes; the curve says which are the key of anyone. -/
def IdentityPublicKey.fromBytes (bytes : List UInt8) : Exec CryptoError IdentityPublicKey := do
  let array ← readKey bytes
  if Primitives.isPublicKey array then return ⟨array⟩ else .error (.err (.decode "invalid Ed25519 public key"))

namespace InitialMessage

omit [Primitives] in
def toBytes (m : InitialMessage) : List UInt8 :=
  m.initiatorIdentity.bytes.toList ++ (m.initiatorAgreementKey.publicKey.toList ++
    (m.initiatorAgreementKey.signature.toList ++ (m.ephemeralKey.toList ++ writeOneTimePrekey m.usedOneTimePrekey)))

def fromBytes (input : List UInt8) : Exec CryptoError InitialMessage :=
  if input.length < 32 + 32 + 64 + 32 + 1 then .error (.err (.decode "initial message too short"))
  else do
    let initiatorIdentity ← IdentityPublicKey.fromBytes (← slice input 0 32)
    let agreementPublic ← readX25519Public input 32
    let agreementSignature ← readArray 64 input 64
    let ephemeralKey ← readX25519Public input 128
    let usedOneTimePrekey ← readOneTimePrekey 160 "truncated one-time prekey reference" input
    return { initiatorIdentity
             initiatorAgreementKey := { publicKey := agreementPublic, signature := agreementSignature }
             ephemeralKey, usedOneTimePrekey }

end InitialMessage

namespace PrekeyBundle

omit [Primitives] in
def toBytes (b : PrekeyBundle) : List UInt8 :=
  b.identity.bytes.toList ++ (b.identityAgreementKey.publicKey.toList ++ (b.identityAgreementKey.signature.toList ++
    (b.signedPrekey.publicKey.toList ++ (b.signedPrekey.signature.toList ++ writeOneTimePrekey b.oneTimePrekey))))

def fromBytes (input : List UInt8) : Exec CryptoError PrekeyBundle :=
  if input.length < 32 + 32 + 64 + 32 + 64 + 1 then .error (.err (.decode "contact card too short"))
  else do
    let identity ← IdentityPublicKey.fromBytes (← slice input 0 32)
    let agreementPublic ← readX25519Public input 32
    let agreementSignature ← readArray 64 input 64
    let spkPublic ← readX25519Public input 128
    let spkSignature ← readArray 64 input 160
    let oneTimePrekey ← readOneTimePrekey 224 "truncated one-time prekey" input
    return { identity
             identityAgreementKey := { publicKey := agreementPublic, signature := agreementSignature }
             signedPrekey := { publicKey := spkPublic, signature := spkSignature }
             oneTimePrekey }

end PrekeyBundle
end

/-! ### Stored keys -/

namespace Checked

/-- The loop of `read_secret_list`, which goes round `count` times. -/
def readSecrets : ℕ → List UInt8 → ℕ → Exec CryptoError (List (Bytes 32) × ℕ)
  | 0, _, offset => .ok ([], offset)
  | count + 1, input, offset => do
    let stop ← addUsize offset 32
    let bytes ← Exec.ofOption (getRange input offset stop) (.decode "truncated one-time prekey list")
    let secret ← readKey bytes
    let (secrets, offset) ← readSecrets count input stop
    return (secret :: secrets, offset)

/-- `read_secret_list`, with room made for as many secrets as there are said to be. -/
def readSecretList (input : List UInt8) : Exec CryptoError (List (Bytes 32) × ℕ) := do
  let (count, offset) ← varintDecode input
  withCapacity 32 count
  readSecrets count input offset

/-- `PrekeyStore::from_bytes` -/
def prekeyStoreFromBytes (input : List UInt8) : Exec CryptoError PrekeyStore :=
  if input.length < 32 + 64 then .error (.err (.decode "prekey store bytes too short"))
  else do
    let signedPrekeySecret ← readKey (← slice input 0 32)
    let signedPrekeySignature ← readArray 64 input 32
    let offset := 96
    let (availableOneTimeSecrets, consumed) ← readSecretList (← sliceFrom input offset)
    let offset ← addUsize offset consumed
    let (pendingOneTimeSecrets, _) ← readSecretList (← sliceFrom input offset)
    return { signedPrekeySecret, signedPrekeySignature, availableOneTimeSecrets, pendingOneTimeSecrets }

/-! ### Stored ratchets -/

/-- A step of a reader that has no effect on the offset. -/
def step {α : Type} (x : Exec CryptoError α) : StateT ℕ (Exec CryptoError) α := fun offset => do
  let a ← x
  return (a, offset)

def readFixed : Reader (Fault CryptoError) (Bytes 32) := fun input offset => do
  let stop ← addUsize offset 32
  let bytes ← Exec.ofOption (getRange input offset stop) (.decode "truncated ratchet state")
  let array ← Exec.expect (tryIntoArray 32 bytes)
  return (array, stop)

def readFlag : Reader (Fault CryptoError) Bool := fun input offset => do
  let byte ← Exec.ofOption input[offset]? (.decode "truncated ratchet state")
  let offset ← addUsize offset 1
  if byte = 0 then return (false, offset)
  else if byte = 1 then return (true, offset)
  else .error (.err (.decode "invalid optional-field flag byte"))

def readOptionalPublicKey : Reader (Fault CryptoError) (Option (Bytes 32)) := fun input => do
  let flag ← readFlag input
  if flag then do
    let bytes ← readFixed input
    return some bytes
  else return none

def readOptionalChainKey : Reader (Fault CryptoError) (Option (ChainKey (Bytes 32))) := fun input => do
  let flag ← readFlag input
  if flag then do
    let bytes ← readFixed input
    return some ⟨bytes⟩
  else return none

def readVarintU32 : Reader (Fault CryptoError) ℕ := fun input offset => do
  let remaining ← Exec.ofOption (getRange input offset input.length) (.decode "truncated ratchet state")
  let (value, consumed) ← varintDecode remaining
  let offset ← addUsize offset consumed
  return (value % 2 ^ 32, offset)

/-- The loop over the skipped keys, which goes round `count` times. -/
def readEntries : ℕ → Reader (Fault CryptoError) (List SkippedEntry)
  | 0 => fun _ => return []
  | count + 1 => fun input => do
    let dhPublic ← readFixed input
    let messageNumber ← readVarintU32 input
    let key ← readFixed input
    let entries ← readEntries count input
    return ((dhPublic, messageNumber), ⟨key⟩) :: entries

/-- `DoubleRatchet::from_bytes`. An entry of the skipped keys takes 68 bytes. -/
def readRatchet [X25519] : Reader (Fault CryptoError) (DoubleRatchet (Bytes 32)) := fun input => do
  let dhSelf ← readFixed input
  let dhRemote ← readOptionalPublicKey input
  let rootKey ← readFixed input
  let sendingChain ← readOptionalChainKey input
  let receivingChain ← readOptionalChainKey input
  let sendCount ← readVarintU32 input
  let recvCount ← readVarintU32 input
  let previousSendingChainLength ← readVarintU32 input
  let skippedCount ← readVarintU32 input
  step (withCapacity 68 skippedCount)
  let skippedEntries ← readEntries skippedCount input
  return { dhSelf, dhSelfPublic := X25519.publicKey dhSelf, dhRemote, rootKey, sendingChain, receivingChain, sendCount
           recvCount, previousSendingChainLength, skipped := SkippedKeyStore.fromEntries skippedEntries }

def doubleRatchetFromBytes [X25519] (input : List UInt8) : Exec CryptoError (DoubleRatchet (Bytes 32)) :=
  (readRatchet input).run' 0

end Checked
end SpiritChat
