import SpiritChat.Crypto.Prekeys

/-! # The X3DH handshake -/

namespace SpiritChat

/-- The extract and expand of `derive_shared_secret`, under a salt of zeros and the info of X3DH. -/
class X3dhKdf (Key : Type) where
  hkdf : List UInt8 → Key

/-- What the initiator sends with its first message. -/
structure InitialMessage where
  initiatorIdentity : IdentityPublicKey
  initiatorAgreementKey : SignedAgreementKeyPublic
  ephemeralKey : Bytes 32
  usedOneTimePrekey : Option (Bytes 32)
deriving DecidableEq

/-- The initiator's end of a handshake. -/
structure HandshakeResult (Key : Type) where
  sharedSecret : Key
  initialMessage : InitialMessage

variable {Key : Type} [X25519] [Ed25519] [X3dhKdf Key]

omit [X25519] [Ed25519] in
def deriveSharedSecret (dh1 dh2 dh3 : Bytes 32) (dh4 : Option (Bytes 32)) : Key :=
  X3dhKdf.hkdf (List.replicate 32 0xff ++ dh1.toList ++ dh2.toList ++ dh3.toList ++ (dh4.map Bytes.toList).getD [])

/-- `initiate`, with the ephemeral secret that it draws. -/
def x3dhInitiate (ephemeralSecret : Bytes 32) (myIdentity : IdentityKeyPair) (myAgreement : AgreementKeyPair)
    (theirBundle : PrekeyBundle) : Except CryptoError (HandshakeResult Key) := do
  theirBundle.verify
  let dh1 := X25519.diffieHellman myAgreement.secret theirBundle.signedPrekey.publicKey
  let dh2 := X25519.diffieHellman ephemeralSecret theirBundle.identityAgreementKey.publicKey
  let dh3 := X25519.diffieHellman ephemeralSecret theirBundle.signedPrekey.publicKey
  let dh4 := theirBundle.oneTimePrekey.map (X25519.diffieHellman ephemeralSecret)
  return {
    sharedSecret := deriveSharedSecret dh1 dh2 dh3 dh4
    initialMessage := {
      initiatorIdentity := myIdentity.publicKey
      initiatorAgreementKey := myAgreement.signWith myIdentity
      ephemeralKey := X25519.publicKey ephemeralSecret
      usedOneTimePrekey := theirBundle.oneTimePrekey } }

/-- `respond`. The one-time prekey stays consumed whatever comes of the secret. -/
def x3dhRespond (myAgreement : AgreementKeyPair) (store : PrekeyStore) (message : InitialMessage) :
    PrekeyStore × Except CryptoError Key :=
  let secret (oneTimeSecret : Option (Bytes 32)) : Key :=
    let dh1 := X25519.diffieHellman store.signedPrekeySecret message.initiatorAgreementKey.publicKey
    let dh2 := X25519.diffieHellman myAgreement.secret message.ephemeralKey
    let dh3 := X25519.diffieHellman store.signedPrekeySecret message.ephemeralKey
    deriveSharedSecret dh1 dh2 dh3 (oneTimeSecret.map (X25519.diffieHellman · message.ephemeralKey))
  match message.initiatorAgreementKey.verify message.initiatorIdentity with
  | .error e => (store, .error e)
  | .ok () =>
    match message.usedOneTimePrekey with
    | none => (store, .ok (secret none))
    | some publicKey =>
      match store.takeOneTimeSecret publicKey with
      | none => (store, .error .prekeyExhausted)
      | some (oneTimeSecret, store') => (store', .ok (secret (some oneTimeSecret)))

end SpiritChat
