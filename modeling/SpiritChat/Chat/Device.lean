import Mathlib.Data.List.FinRange
import SpiritChat.Lib.Program
import SpiritChat.Lib.Table
import SpiritChat.Crypto.X3dh
import SpiritChat.P2p.ChainSync
import SpiritChat.P2p.Mailbox

/-! # A device and what its chat code asks of it

The files of `ChatStore`, the bookkeeping that `ChatManager` keeps under its lock, the prekey store in memory, and
what goes out to the node and to the app. A handler of `ChatManager` is a program over these operations, each of
which is atomic. A write to a file is taken to succeed. -/

namespace SpiritChat
open Lib

/-- A contact's live ratchet. The ratchet is kept as such, not as its bytes. -/
structure Session (Key : Type) where
  peerId : PeerId
  peerPublicKey : List UInt8
  ratchet : DoubleRatchet Key

/-- A message that was not handed to the transport yet. The UUIDs of a device are numbered in the order in which
it draws them. -/
structure OutboxItem where
  localId : ℕ
  peerId : PeerId
  peerPublicKey : List UInt8
  plaintext : List UInt8
deriving DecidableEq

/-- The step of sending that is under way with a peer. -/
inductive PeerSendState where
  | dialing
  | fetchingCard
  | sendingEnvelope
deriving DecidableEq

/-- A header and a ciphertext. -/
abbrev RatchetMessage := MessageHeader × List UInt8

/-- The bytes of an envelope, after the framing and its parts were read. -/
inductive Envelope where
  /-- An initial message that can be read. If the message after it cannot be, it is one that does not open: the handshake
  is answered before the message is looked at. -/
  | handshake (initialMessage : InitialMessage) (message : RatchetMessage)
  | continuing (message : RatchetMessage)
  /-- a tag that is not known, or an initial message or a later one that cannot be read -/
  | malformed
deriving DecidableEq

/-- Why a message was not delivered. -/
inductive SendFailure where
  | text (reason : String)
  | crypto (e : CryptoError)
  | node
deriving DecidableEq

/-- What the app is told. -/
inductive ChatEvent where
  | messageReceived (peerId : PeerId) (peerPublicKey plaintext : List UInt8)
  | messageSent (peerId : PeerId) (localId : ℕ)
  | messageFailed (peerId : PeerId) (localId : ℕ) (reason : SendFailure)
deriving DecidableEq

/-- What the node is asked for. -/
inductive NodeCommand where
  | dial (peerId : PeerId)
  | fetchBlob (peerId : PeerId) (id : List UInt8)
  | setLocalBlob (id : List UInt8) (card : PrekeyBundle)
  | sendEnvelope (peerId : PeerId) (envelope : Envelope)
  | depositToMailbox (sharedMaterial : List UInt8) (envelope : Envelope)
  | retrieveFromMailbox (sharedMaterial : List UInt8)
deriving DecidableEq

/-- The events of the node that `ChatManager` reacts to. The bytes of a blob come with the card that they decode
to, if they do. -/
inductive NodeEvent where
  | peerConnected (peerId : PeerId)
  | peerDisconnected (peerId : PeerId)
  | dialFailed (peerId : Option PeerId) (reason : String)
  | blobFetched (peerId : PeerId) (id : List UInt8) (card : Option PrekeyBundle)
  | blobFetchFailed (peerId : PeerId) (id : List UInt8) (reason : String)
  | envelopeReceived (fromPeerId : PeerId) (envelope : Envelope)
  | envelopeDelivered (toPeerId : PeerId)
  | envelopeDeliveryFailed (toPeerId : PeerId) (reason : String)
  | mailboxEnvelopeRetrieved (envelope : Envelope)

/-- `p2pPeerIdFromPublicKey`, which refuses what is not a key. -/
class PeerIds where
  ofPublicKey : List UInt8 → Option PeerId

/-- The files of an account, what its manager has in memory, and what went out. -/
structure Device (Key : Type) where
  outbox : List OutboxItem
  sessions : List (Session Key)
  peerStates : Table PeerId PeerSendState
  connectedPeers : List PeerId
  prekeys : PrekeyStore
  nextLocalId : ℕ
  commands : List NodeCommand
  events : List ChatEvent

/-- What a device draws or is told during an operation. -/
structure Env where
  nonce : Bytes 12
  secret : Bytes 32
  /-- the node takes the command -/
  accepts : Bool
  /-- the order in which a loop takes the elements of a set, or a listing the files of a directory -/
  order : (n : ℕ) → Equiv.Perm (Fin n)

def Env.arrange {α : Type} (env : Env) (l : List α) : List α := List.ofFn (l.get ∘ env.order l.length)

theorem Env.arrange_perm {α : Type} (env : Env) (l : List α) : (env.arrange l).Perm l := by
  have h := (env.order l.length).ofFn_comp_perm l.get
  rwa [List.ofFn_get] at h

/-- The operations that the handlers are made of. -/
inductive ChatOp (Key : Type) where
  | loadOutbox
  | saveOutbox (items : List OutboxItem)
  | loadSession (peerId : PeerId)
  | saveSession (session : Session Key)
  | loadAllSessions
  /-- a loop over the set of these peers -/
  | setOf (peerIds : List PeerId)
  | beginState (state : PeerSendState) (peerId : PeerId)
  | transitionState (state : PeerSendState) (peerId : PeerId)
  | endState (peerId : PeerId)
  | state (peerId : PeerId)
  | isConnected (peerId : PeerId)
  | connect (peerId : PeerId)
  | disconnect (peerId : PeerId)
  | command (c : NodeCommand)
  | emit (e : ChatEvent)
  | uuid
  | encrypt (ratchet : DoubleRatchet Key) (plaintext : List UInt8)
  | decrypt (ratchet : DoubleRatchet Key) (message : RatchetMessage)
  | initInitiator (sharedSecret : Key) (remoteRatchetPublic : Bytes 32)
  | initiate (identity : IdentityKeyPair) (agreement : AgreementKeyPair) (card : PrekeyBundle)
  | contactCard (identity : IdentityKeyPair) (agreement : AgreementKeyPair)
  | respond (agreement : AgreementKeyPair) (initialMessage : InitialMessage)
  | signedPrekeySecret

namespace ChatOp
variable {Key : Type}

@[reducible] def Res : ChatOp Key → Type
  | loadOutbox => List OutboxItem
  | loadSession _ => Option (Session Key)
  | loadAllSessions => List (Session Key)
  | setOf _ => List PeerId
  | beginState _ _ => Bool
  | state _ => Option PeerSendState
  | isConnected _ => Bool
  | command _ => Bool
  | uuid => ℕ
  | encrypt _ _ => DoubleRatchet Key × Except CryptoError RatchetMessage
  | decrypt _ _ => DoubleRatchet Key × Except CryptoError (List UInt8)
  | initInitiator _ _ => DoubleRatchet Key
  | initiate _ _ _ => Except CryptoError (HandshakeResult Key)
  | contactCard _ _ => PrekeyBundle
  | respond _ _ => Except CryptoError Key
  | signedPrekeySecret => Bytes 32
  | _ => Unit

end ChatOp

/-- The operations of a device. -/
@[reducible] def chatOps (Key : Type) : Signature := ⟨ChatOp Key, ChatOp.Res⟩

/-- A handler, or a part of one. -/
abbrev Chat (Key α : Type) := Prog (chatOps Key) α

namespace Device
variable {Key : Type}

/-- The file of a peer's session, written anew. -/
def putSession (sessions : List (Session Key)) (session : Session Key) : List (Session Key) :=
  session :: sessions.filter (·.peerId ≠ session.peerId)

variable [X25519] [Ed25519] [SymmetricPrimitives Key] [X3dhKdf Key]

/-- What an operation gives back and leaves behind. -/
def exec (d : Device Key) (env : Env) : (o : ChatOp Key) → o.Res × Device Key
  | .loadOutbox => (d.outbox, d)
  | .saveOutbox items => ((), { d with outbox := items })
  | .loadSession peerId => (d.sessions.find? (·.peerId = peerId), d)
  | .saveSession session => ((), { d with sessions := putSession d.sessions session })
  | .loadAllSessions => (env.arrange d.sessions, d)
  | .setOf peerIds => (env.arrange peerIds.dedup, d)
  | .beginState state peerId =>
    match d.peerStates peerId with
    | some _ => (false, d)
    | none => (true, { d with peerStates := d.peerStates.insert peerId state })
  | .transitionState state peerId => ((), { d with peerStates := d.peerStates.insert peerId state })
  | .endState peerId => ((), { d with peerStates := d.peerStates.remove peerId })
  | .state peerId => (d.peerStates peerId, d)
  | .isConnected peerId => (decide (peerId ∈ d.connectedPeers), d)
  | .connect peerId => ((), { d with connectedPeers := d.connectedPeers.insert peerId })
  | .disconnect peerId => ((), { d with connectedPeers := d.connectedPeers.filter (· ≠ peerId) })
  | .command c => if env.accepts then (true, { d with commands := d.commands ++ [c] }) else (false, d)
  | .emit e => ((), { d with events := d.events ++ [e] })
  | .uuid => (d.nextLocalId, { d with nextLocalId := d.nextLocalId + 1 })
  | .encrypt ratchet plaintext => (ratchet.encrypt env.nonce plaintext [], d)
  | .decrypt ratchet message => (ratchet.decrypt env.secret message.1 message.2 [], d)
  | .initInitiator sharedSecret remoteRatchetPublic => (.initInitiator env.secret sharedSecret remoteRatchetPublic, d)
  | .initiate identity agreement card => (x3dhInitiate env.secret identity agreement card, d)
  | .contactCard identity agreement =>
    let (prekeys, bundle) := d.prekeys.publicBundle identity.publicKey (agreement.signWith identity)
    (bundle, { d with prekeys })
  | .respond agreement initialMessage =>
    let (prekeys, response) := x3dhRespond agreement d.prekeys initialMessage
    (response, { d with prekeys })
  | .signedPrekeySecret => (d.prekeys.signedPrekeySecret, d)

/-- `exec`, with its arguments in the order that programs take. -/
@[reducible] def perform (o : (chatOps Key).Op) (env : Env) (d : Device Key) : (chatOps Key).Res o × Device Key :=
  d.exec env o

end Device
end SpiritChat
