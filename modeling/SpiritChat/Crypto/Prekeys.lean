import SpiritChat.Crypto.Ratchet

/-! # Identities and prekeys

An account signs with its identity key. Its prekey store holds the secrets behind the contact cards that it hands
out: the signed prekey, and one-time prekeys that are either still available or pending in a card. -/

namespace SpiritChat
open Lib

/-- `ed25519_dalek`: a signing key is its seed. -/
class Ed25519 where
  verifyingKey : Bytes 32 → Bytes 32
  sign : Bytes 32 → List UInt8 → Bytes 64
  verify : Bytes 32 → List UInt8 → Bytes 64 → Bool

/-- An Ed25519 key pair, by its seed. -/
structure IdentityKeyPair where
  signingKey : Bytes 32
deriving DecidableEq

/-- An Ed25519 public key. -/
structure IdentityPublicKey where
  bytes : Bytes 32
deriving DecidableEq

/-- An X25519 key pair, by its secret. -/
structure AgreementKeyPair where
  secret : Bytes 32
deriving DecidableEq

/-- An agreement key under the signature of an identity. -/
structure SignedAgreementKeyPublic where
  publicKey : Bytes 32
  signature : Bytes 64
deriving DecidableEq

/-- A prekey under the signature of an identity. -/
structure SignedPrekeyPublic where
  publicKey : Bytes 32
  signature : Bytes 64
deriving DecidableEq

/-- What is inside a contact card. -/
structure PrekeyBundle where
  identity : IdentityPublicKey
  identityAgreementKey : SignedAgreementKeyPublic
  signedPrekey : SignedPrekeyPublic
  oneTimePrekey : Option (Bytes 32)
deriving DecidableEq

/-- The secrets of an account that handshakes are answered with. -/
structure PrekeyStore where
  signedPrekeySecret : Bytes 32
  signedPrekeySignature : Bytes 64
  availableOneTimeSecrets : List (Bytes 32)
  pendingOneTimeSecrets : List (Bytes 32)
deriving DecidableEq

/-- The bytes that are signed for an agreement key. -/
def agreementSigningMessage (publicKey : Bytes 32) : List UInt8 :=
  -- b"SpiritChat-AgreementKey-v1"
  [0x53, 0x70, 0x69, 0x72, 0x69, 0x74, 0x43, 0x68, 0x61, 0x74, 0x2d, 0x41, 0x67, 0x72, 0x65, 0x65, 0x6d, 0x65, 0x6e,
    0x74, 0x4b, 0x65, 0x79, 0x2d, 0x76, 0x31] ++ publicKey.toList

/-- The bytes that are signed for a signed prekey. -/
def signedPrekeyMessage (publicKey : Bytes 32) : List UInt8 :=
  -- b"SpiritChat-SignedPrekey-v1"
  [0x53, 0x70, 0x69, 0x72, 0x69, 0x74, 0x43, 0x68, 0x61, 0x74, 0x2d, 0x53, 0x69, 0x67, 0x6e, 0x65, 0x64, 0x50, 0x72,
    0x65, 0x6b, 0x65, 0x79, 0x2d, 0x76, 0x31] ++ publicKey.toList

section
variable [Ed25519]

def IdentityKeyPair.publicKey (k : IdentityKeyPair) : IdentityPublicKey := ⟨Ed25519.verifyingKey k.signingKey⟩

def IdentityKeyPair.sign (k : IdentityKeyPair) (message : List UInt8) : Bytes 64 := Ed25519.sign k.signingKey message

def IdentityPublicKey.verify (k : IdentityPublicKey) (message : List UInt8) (signature : Bytes 64) :
    Except CryptoError Unit :=
  if Ed25519.verify k.bytes message signature then .ok () else .error .signatureInvalid

def AgreementKeyPair.publicKey [X25519] (a : AgreementKeyPair) : Bytes 32 := X25519.publicKey a.secret

def AgreementKeyPair.signWith [X25519] (a : AgreementKeyPair) (identity : IdentityKeyPair) : SignedAgreementKeyPublic where
  publicKey := a.publicKey
  signature := identity.sign (agreementSigningMessage a.publicKey)

def SignedAgreementKeyPublic.verify (a : SignedAgreementKeyPublic) (identity : IdentityPublicKey) :
    Except CryptoError Unit :=
  identity.verify (agreementSigningMessage a.publicKey) a.signature

def PrekeyBundle.verify (b : PrekeyBundle) : Except CryptoError Unit := do
  b.identityAgreementKey.verify b.identity
  b.identity.verify (signedPrekeyMessage b.signedPrekey.publicKey) b.signedPrekey.signature

/-- `sign_prekey` -/
def signPrekey (identity : IdentityKeyPair) (prekeyPublic : Bytes 32) : Bytes 64 :=
  identity.sign (signedPrekeyMessage prekeyPublic)

end

namespace PrekeyStore

/-- `generate`, with the secrets that it draws. -/
def generate [Ed25519] [X25519] (identity : IdentityKeyPair) (signedPrekeySecret : Bytes 32)
    (oneTimeSecrets : List (Bytes 32)) : PrekeyStore where
  signedPrekeySecret := signedPrekeySecret
  signedPrekeySignature := signPrekey identity (X25519.publicKey signedPrekeySecret)
  availableOneTimeSecrets := oneTimeSecrets
  pendingOneTimeSecrets := []

section
variable [X25519]

/-- The bundle to hand out. `pop` takes the last available secret and leaves it pending. -/
def publicBundle (s : PrekeyStore) (identity : IdentityPublicKey) (identityAgreementKey : SignedAgreementKeyPublic) :
    PrekeyStore × PrekeyBundle :=
  let bundle (oneTimePrekey : Option (Bytes 32)) : PrekeyBundle :=
    { identity, identityAgreementKey
      signedPrekey := { publicKey := X25519.publicKey s.signedPrekeySecret, signature := s.signedPrekeySignature }
      oneTimePrekey }
  match s.availableOneTimeSecrets.getLast? with
  | none => (s, bundle none)
  | some secret =>
    ({ s with
        availableOneTimeSecrets := s.availableOneTimeSecrets.dropLast
        pendingOneTimeSecrets := s.pendingOneTimeSecrets ++ [secret] }, bundle (some (X25519.publicKey secret)))

/-- The first pending secret behind `publicKey`, which it takes out. Keys are canonical: `x25519_dalek` compares them as
points, and here they are equal if their bytes are. -/
def takeOneTimeSecret (s : PrekeyStore) (publicKey : Bytes 32) : Option (Bytes 32 × PrekeyStore) :=
  match s.pendingOneTimeSecrets.findIdx? (X25519.publicKey · = publicKey) with
  | none => none
  | some index =>
    (s.pendingOneTimeSecrets[index]?).map fun secret =>
      (secret, { s with pendingOneTimeSecrets := s.pendingOneTimeSecrets.eraseIdx index })

end
end PrekeyStore
end SpiritChat
