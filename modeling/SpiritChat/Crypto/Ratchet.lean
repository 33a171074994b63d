import Mathlib.Data.List.AList
import SpiritChat.Crypto.Header

/-! # The Double Ratchet

The state of one end of a conversation and its two operations. `Key` stands for the 32 bytes of a symmetric
key; the curve, the key derivation and the cipher are third-party crates. A fresh secret and a nonce that the
source draws from the operating system are arguments here. -/

namespace SpiritChat

/-- `x25519_dalek`, on the bytes of its keys. -/
class X25519 where
  /-- `PublicKey::from` -/
  publicKey : Bytes 32 → Bytes 32
  /-- `StaticSecret::diffie_hellman` -/
  diffieHellman : Bytes 32 → Bytes 32 → Bytes 32

/-- HKDF-SHA256, HMAC-SHA256 and ChaCha20-Poly1305. -/
class SymmetricPrimitives (Key : Type) where
  /-- HKDF of a salt and an input, expanded under an info to the halves of 64 bytes -/
  hkdf : Key → Bytes 32 → List UInt8 → Key × Key
  hmac : Key → List UInt8 → Key
  /-- the cipher's `encrypt` of a nonce, a plaintext and its associated data -/
  chachaEncrypt : Key → Bytes 12 → List UInt8 → List UInt8 → Option (List UInt8)
  /-- the cipher's `decrypt` -/
  chachaDecrypt : Key → Bytes 12 → List UInt8 → List UInt8 → Option (List UInt8)

/-- The key of a chain, which message keys are drawn from. -/
structure ChainKey (Key : Type) where
  bytes : Key
deriving DecidableEq

/-- The key of one message. -/
structure MessageKey (Key : Type) where
  bytes : Key
deriving DecidableEq

def maxSkippedKeys : ℕ := 2000

/-- The keys of messages that were skipped, by ratchet key and message number. -/
abbrev SkippedKeyStore (Key : Type) := AList fun _ : Bytes 32 × ℕ => MessageKey Key

instance {Key : Type} [DecidableEq Key] : DecidableEq (SkippedKeyStore Key) :=
  fun s s' => decidable_of_iff (s.entries = s'.entries) AList.ext_iff.symm

/-- One end's state of a session. -/
structure DoubleRatchet (Key : Type) where
  dhSelf : Bytes 32
  dhSelfPublic : Bytes 32
  dhRemote : Option (Bytes 32)
  rootKey : Key
  sendingChain : Option (ChainKey Key)
  receivingChain : Option (ChainKey Key)
  sendCount : ℕ
  recvCount : ℕ
  previousSendingChainLength : ℕ
  skipped : SkippedKeyStore Key
deriving DecidableEq

/-- `+= 1` on a `u32` -/
def u32Succ (n : ℕ) : ℕ := (n + 1) % 2 ^ 32

section
variable {Key : Type}

namespace SkippedKeyStore

/-- `keys.len()` -/
def len (s : SkippedKeyStore Key) : ℕ := s.entries.length

/-- `SkippedKeyStore::insert` -/
def add (s : SkippedKeyStore Key) (dhPublic : Bytes 32) (messageNumber : ℕ) (key : MessageKey Key) :
    Except CryptoError (SkippedKeyStore Key) :=
  if maxSkippedKeys ≤ s.len then .error .tooManySkippedKeys
  else .ok (AList.insert (dhPublic, messageNumber) key s)

end SkippedKeyStore

/-- `full_associated_data` -/
def fullAssociatedData (callerAad : List UInt8) (header : MessageHeader) : List UInt8 := callerAad ++ header.encode

variable [X25519] [SymmetricPrimitives Key]

/-- `root_kdf::derive` -/
def rootKdf (rootKey : Key) (dhOutput : Bytes 32) : Key × ChainKey Key :=
  -- b"SpiritChat-DR-RootKDF-v1"
  let info := [0x53, 0x70, 0x69, 0x72, 0x69, 0x74, 0x43, 0x68, 0x61, 0x74, 0x2d, 0x44, 0x52, 0x2d, 0x52, 0x6f, 0x6f,
    0x74, 0x4b, 0x44, 0x46, 0x2d, 0x76, 0x31]
  let (newRootKey, newChainKey) := SymmetricPrimitives.hkdf rootKey dhOutput info
  (newRootKey, ⟨newChainKey⟩)

/-- The message key of this step of the chain and the next chain key. -/
def ChainKey.ratchet (c : ChainKey Key) : MessageKey Key × ChainKey Key :=
  (⟨SymmetricPrimitives.hmac c.bytes [0x01]⟩, ⟨SymmetricPrimitives.hmac c.bytes [0x02]⟩)

namespace Aead

def nonceLen : ℕ := 12

/-- `aead::encrypt`: the nonce goes in front of the ciphertext. -/
def encrypt (nonce : Bytes 12) (key : MessageKey Key) (plaintext associatedData : List UInt8) :
    Except CryptoError (List UInt8) :=
  match SymmetricPrimitives.chachaEncrypt key.bytes nonce plaintext associatedData with
  | none => .error .decryptionFailed
  | some ciphertext => .ok (nonce.toList ++ ciphertext)

/-- `aead::decrypt` -/
def decrypt (key : MessageKey Key) (input associatedData : List UInt8) : Except CryptoError (List UInt8) :=
  if h : nonceLen ≤ input.length then
    match SymmetricPrimitives.chachaDecrypt key.bytes ⟨input.take nonceLen, List.length_take_of_le h⟩ (input.drop nonceLen)
        associatedData with
    | none => .error .decryptionFailed
    | some plaintext => .ok plaintext
  else .error (.decode "ciphertext shorter than a nonce")

end Aead

namespace DoubleRatchet

/-- `init_initiator`, with the secret that it draws. -/
def initInitiator (dhSelf : Bytes 32) (sharedSecret : Key) (remoteRatchetPublic : Bytes 32) : DoubleRatchet Key :=
  let (rootKey, sendingChain) := rootKdf sharedSecret (X25519.diffieHellman dhSelf remoteRatchetPublic)
  { dhSelf, dhSelfPublic := X25519.publicKey dhSelf, dhRemote := some remoteRatchetPublic, rootKey
    sendingChain := some sendingChain, receivingChain := none, sendCount := 0, recvCount := 0
    previousSendingChainLength := 0, skipped := ∅ }

omit [SymmetricPrimitives Key] in
/-- `init_responder` -/
def initResponder (sharedSecret : Key) (myRatchetSecret : Bytes 32) : DoubleRatchet Key where
  dhSelf := myRatchetSecret
  dhSelfPublic := X25519.publicKey myRatchetSecret
  dhRemote := none
  rootKey := sharedSecret
  sendingChain := none
  receivingChain := none
  sendCount := 0
  recvCount := 0
  previousSendingChainLength := 0
  skipped := ∅

omit [X25519] in
/-- Encrypts a message and advances the sending chain, also when the cipher fails. -/
def encrypt (r : DoubleRatchet Key) (nonce : Bytes 12) (plaintext associatedData : List UInt8) :
    DoubleRatchet Key × Except CryptoError (MessageHeader × List UInt8) :=
  match r.sendingChain with
  | none => (r, .error .messageKeyUnavailable)
  | some chain =>
    let (messageKey, nextChain) := chain.ratchet
    let header : MessageHeader :=
      { dhPublic := r.dhSelfPublic, previousChainLength := r.previousSendingChainLength, messageNumber := r.sendCount }
    let r' := { r with sendingChain := some nextChain, sendCount := u32Succ r.sendCount }
    match Aead.encrypt nonce messageKey plaintext (fullAssociatedData associatedData header) with
    | .error e => (r', .error e)
    | .ok ciphertext => (r', .ok (header, ciphertext))

omit [X25519] in
/-- The loop of `skip_message_keys`, which goes round `until - recv_count` times. -/
def skipLoop (remoteKey : Bytes 32) : ℕ → ChainKey Key → ℕ → SkippedKeyStore Key →
    Except CryptoError (ChainKey Key × ℕ × SkippedKeyStore Key)
  | 0, chain, recvCount, skipped => .ok (chain, recvCount, skipped)
  | rounds + 1, chain, recvCount, skipped => do
    let (messageKey, nextChain) := chain.ratchet
    let skipped ← skipped.add remoteKey recvCount messageKey
    skipLoop remoteKey rounds nextChain (recvCount + 1) skipped

omit [X25519] in
def skipMessageKeys (r : DoubleRatchet Key) (upTo : ℕ) : Except CryptoError (DoubleRatchet Key) :=
  match r.dhRemote, r.receivingChain with
  | some remoteKey, some chain => do
    let (chain, recvCount, skipped) ← skipLoop remoteKey (upTo - r.recvCount) chain r.recvCount r.skipped
    return { r with receivingChain := some chain, recvCount, skipped }
  | _, _ => .ok r

/-- A new receiving chain from the old secret, and a new sending chain from a fresh one. -/
def dhRatchetStep (r : DoubleRatchet Key) (fresh remoteKey : Bytes 32) : DoubleRatchet Key :=
  let (rootAfterRecv, receivingChain) := rootKdf r.rootKey (X25519.diffieHellman r.dhSelf remoteKey)
  let (rootAfterSend, sendingChain) := rootKdf rootAfterRecv (X25519.diffieHellman fresh remoteKey)
  { r with
    dhSelf := fresh, dhSelfPublic := X25519.publicKey fresh, dhRemote := some remoteKey, rootKey := rootAfterSend
    sendingChain := some sendingChain, receivingChain := some receivingChain, sendCount := 0, recvCount := 0
    previousSendingChainLength := r.sendCount }

/-- The message key that `decrypt` uses for a header, and the working state that goes with it. -/
def receivingKey (r : DoubleRatchet Key) (fresh : Bytes 32) (header : MessageHeader) :
    Except CryptoError (MessageKey Key × DoubleRatchet Key) :=
  match r.skipped.lookup (header.dhPublic, header.messageNumber) with
  | some messageKey =>
    .ok (messageKey, { r with skipped := r.skipped.erase (header.dhPublic, header.messageNumber) })
  | none => do
    let working ←
      if r.dhRemote ≠ some header.dhPublic then do
        let working ← r.skipMessageKeys header.previousChainLength
        pure (working.dhRatchetStep fresh header.dhPublic)
      else pure r
    let working ← working.skipMessageKeys header.messageNumber
    match working.receivingChain with
    | none => .error .messageKeyUnavailable
    | some chain =>
      let (messageKey, nextChain) := chain.ratchet
      return (messageKey, { working with receivingChain := some nextChain, recvCount := u32Succ working.recvCount })

/-- Decrypts a message. The state changes only if the cipher accepts the message. -/
def decrypt (r : DoubleRatchet Key) (fresh : Bytes 32) (header : MessageHeader)
    (ciphertext associatedData : List UInt8) : DoubleRatchet Key × Except CryptoError (List UInt8) :=
  let attempt : Except CryptoError (DoubleRatchet Key × List UInt8) := do
    let (messageKey, working) ← r.receivingKey fresh header
    let plaintext ← Aead.decrypt messageKey ciphertext (fullAssociatedData associatedData header)
    return (working, plaintext)
  match attempt with
  | .error e => (r, .error e)
  | .ok (working, plaintext) => (working, .ok plaintext)

end DoubleRatchet
end
end SpiritChat
