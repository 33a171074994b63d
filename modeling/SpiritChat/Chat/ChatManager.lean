import SpiritChat.Chat.Device

/-! # The chat manager

One handler a method of `ChatManager`. Its steps are the operations of the device, in the order of the source. -/

namespace SpiritChat
open Lib

/-- The long-term keys of a `ChatManager`. -/
structure ChatManager where
  identity : IdentityKeyPair
  agreement : AgreementKeyPair

def contactCardBlobId : List UInt8 :=
  -- "spiritchat-contact-card-v1"
  [0x73, 0x70, 0x69, 0x72, 0x69, 0x74, 0x63, 0x68, 0x61, 0x74, 0x2d, 0x63, 0x6f, 0x6e, 0x74, 0x61, 0x63, 0x74, 0x2d,
    0x63, 0x61, 0x72, 0x64, 0x2d, 0x76, 0x31]

def OutboxItem.failedEvent (item : OutboxItem) (reason : SendFailure) : ChatEvent :=
  .messageFailed item.peerId item.localId reason

def OutboxItem.sentEvent (item : OutboxItem) : ChatEvent := .messageSent item.peerId item.localId

/-- The lookup of `firstOutboxItem`. -/
def firstItem (outbox : List OutboxItem) (peerId : PeerId) : Option OutboxItem := outbox.find? (·.peerId = peerId)

theorem firstItem_peerId {outbox : List OutboxItem} {peerId : PeerId} {item : OutboxItem}
    (h : firstItem outbox peerId = some item) : item.peerId = peerId :=
  of_decide_eq_true (List.find?_some (p := fun item : OutboxItem => decide (item.peerId = peerId)) h)

section
variable {Key : Type}

/-- One operation of the device. -/
abbrev ask (o : ChatOp Key) : Chat Key o.Res := Prog.ask (S := chatOps Key) o

def firstOutboxItem (peerId : PeerId) : Chat Key (Option OutboxItem) := do
  let outbox ← ask .loadOutbox
  return firstItem outbox peerId

def removeOutboxItem (localId : ℕ) : Chat Key Unit := do
  let outbox ← ask .loadOutbox
  ask (.saveOutbox (outbox.filter (·.localId ≠ localId)))

def sendContinuing (item : OutboxItem) (session : Session Key) : Chat Key Unit := do
  match ← ask (.encrypt session.ratchet item.plaintext) with
  | (_, .error e) =>
    ask (.endState item.peerId)
    ask (.emit (item.failedEvent (.crypto e)))
  | (ratchet, .ok ciphertext) =>
    ask (.saveSession ⟨item.peerId, session.peerPublicKey, ratchet⟩)
    let sent ← ask (.command (.sendEnvelope item.peerId (.continuing ciphertext)))
    if sent then pure ()
    else
      ask (.endState item.peerId)
      ask (.emit (item.failedEvent .node))

def attemptSend (peerId : PeerId) : Chat Key Unit := do
  match ← firstOutboxItem peerId with
  | none => pure ()
  | some item =>
    if ← ask (.isConnected peerId) then
      match ← ask (.loadSession peerId) with
      | some session =>
        if ← ask (.beginState .sendingEnvelope peerId) then sendContinuing item session
        else pure ()
      | none =>
        if ← ask (.beginState .fetchingCard peerId) then
          if ← ask (.command (.fetchBlob peerId contactCardBlobId)) then pure ()
          else
            ask (.endState peerId)
            ask (.emit (item.failedEvent .node))
        else pure ()
    else if ← ask (.beginState .dialing peerId) then
      let _ ← ask (.command (.dial peerId))
      pure ()
    else pure ()

/-- Queues a message and starts trying to deliver it. -/
def sendMessage (peerId : PeerId) (peerPublicKey plaintext : List UInt8) : Chat Key ℕ := do
  let localId ← ask .uuid
  let item : OutboxItem := ⟨localId, peerId, peerPublicKey, plaintext⟩
  let outbox ← ask .loadOutbox
  ask (.saveOutbox (outbox ++ [item]))
  attemptSend peerId
  return item.localId

/-- `p2pMailboxSharedMaterial`: the two identity keys in order, after a fixed text. -/
def sharedMaterialFromIdentityKeys (a b : List UInt8) : List UInt8 :=
  -- b"spiritchat-mailbox-shared-material-v1"
  let context := [0x73, 0x70, 0x69, 0x72, 0x69, 0x74, 0x63, 0x68, 0x61, 0x74, 0x2d, 0x6d, 0x61, 0x69, 0x6c, 0x62, 0x6f,
    0x78, 0x2d, 0x73, 0x68, 0x61, 0x72, 0x65, 0x64, 0x2d, 0x6d, 0x61, 0x74, 0x65, 0x72, 0x69, 0x61, 0x6c, 0x2d, 0x76,
    0x31]
  if a ≤ b then context ++ a ++ b else context ++ b ++ a

/-- What a failed attempt ends with. -/
def endWithFailure (peerId : PeerId) (reason : String) : Chat Key Unit := do
  ask (.endState peerId)
  match ← firstOutboxItem peerId with
  | none => pure ()
  | some item => ask (.emit (item.failedEvent (.text reason)))

/-- Tries the sessions in turn until one opens the message, and reports who it is from. -/
def openWith (message : RatchetMessage) : List (Session Key) → Chat Key Unit
  | [] => pure ()
  | session :: sessions => do
    match ← ask (.decrypt session.ratchet message) with
    | (_, .error _) => openWith message sessions
    | (ratchet, .ok plaintext) =>
      ask (.saveSession ⟨session.peerId, session.peerPublicKey, ratchet⟩)
      ask (.emit (.messageReceived session.peerId session.peerPublicKey plaintext))

def handleIncomingContinuing (fromPeerId : PeerId) (message : RatchetMessage) : Chat Key Unit := do
  match ← ask (.loadSession fromPeerId) with
  | none => pure ()
  | some session =>
    match ← ask (.decrypt session.ratchet message) with
    | (_, .error _) => pure ()
    | (ratchet, .ok plaintext) =>
      ask (.saveSession ⟨fromPeerId, session.peerPublicKey, ratchet⟩)
      ask (.emit (.messageReceived fromPeerId session.peerPublicKey plaintext))

def handleRetrievedContinuing (message : RatchetMessage) : Chat Key Unit := do
  let sessions ← ask .loadAllSessions
  openWith message sessions

variable [X25519]

/-- The part of a handshake's acceptance that is the same for a direct and for a retrieved one; `sender` tells the
peer from its identity key. -/
def acceptHandshake (m : ChatManager) (sender : List UInt8 → Option PeerId) (initialMessage : InitialMessage)
    (message : RatchetMessage) : Chat Key Unit := do
  match ← ask (.respond m.agreement initialMessage) with
  | .error _ => pure ()
  | .ok sharedSecret =>
    let peerPublicKey := initialMessage.initiatorIdentity.bytes.toList
    match sender peerPublicKey with
    | none => pure ()
    | some peerId =>
      let signedPrekeySecret ← ask .signedPrekeySecret
      match ← ask (.decrypt (.initResponder sharedSecret signedPrekeySecret) message) with
      | (_, .error _) => pure ()
      | (ratchet, .ok plaintext) =>
        ask (.saveSession ⟨peerId, peerPublicKey, ratchet⟩)
        ask (.emit (.messageReceived peerId peerPublicKey plaintext))

def handleIncomingHandshake (m : ChatManager) (fromPeerId : PeerId) (initialMessage : InitialMessage)
    (message : RatchetMessage) : Chat Key Unit :=
  acceptHandshake m (fun _ => some fromPeerId) initialMessage message

def handleRetrievedHandshake [PeerIds] (m : ChatManager) (initialMessage : InitialMessage) (message : RatchetMessage) :
    Chat Key Unit :=
  acceptHandshake m PeerIds.ofPublicKey initialMessage message

def onEnvelopeReceived (m : ChatManager) (fromPeerId : PeerId) : Envelope → Chat Key Unit
  | .handshake initialMessage message => handleIncomingHandshake m fromPeerId initialMessage message
  | .continuing message => handleIncomingContinuing fromPeerId message
  | .malformed => pure ()

def handleMailboxEnvelopeRetrieved [PeerIds] (m : ChatManager) : Envelope → Chat Key Unit
  | .handshake initialMessage message => handleRetrievedHandshake m initialMessage message
  | .continuing message => handleRetrievedContinuing message
  | .malformed => pure ()

variable [Ed25519]

omit [X25519] in
def mailboxSharedMaterial (m : ChatManager) (peerPublicKey : List UInt8) : List UInt8 :=
  sharedMaterialFromIdentityKeys m.identity.publicKey.bytes.toList peerPublicKey

omit [X25519] in
/-- The state ends with the method, whatever comes of it. -/
def depositContinuing (m : ChatManager) (item : OutboxItem) (session : Session Key) : Chat Key Unit := do
  match ← ask (.encrypt session.ratchet item.plaintext) with
  | (_, .error e) => ask (.emit (item.failedEvent (.crypto e)))
  | (ratchet, .ok ciphertext) =>
    ask (.saveSession ⟨item.peerId, session.peerPublicKey, ratchet⟩)
    let sharedMaterial := mailboxSharedMaterial m session.peerPublicKey
    let deposited ← ask (.command (.depositToMailbox sharedMaterial (.continuing ciphertext)))
    let reason : SendFailure := if deposited then .text "queued for offline delivery" else .node
    ask (.emit (item.failedEvent reason))
  ask (.endState item.peerId)

omit [X25519] in
/-- `card` is what the bytes decode to, if they do. -/
def handleCardFetched (m : ChatManager) (peerId : PeerId) (card : Option PrekeyBundle) : Chat Key Unit := do
  match ← firstOutboxItem peerId with
  | none => ask (.endState peerId)
  | some item =>
    -- `FfiContactCard.parse` verifies what it decodes.
    match card.filter fun card => card.verify matches .ok () with
    | none =>
      ask (.endState peerId)
      ask (.emit (item.failedEvent (.text "Не удалось прочитать карточку собеседника")))
    | some card =>
      match ← ask (.initiate m.identity m.agreement card) with
      | .error e =>
        ask (.endState peerId)
        ask (.emit (item.failedEvent (.crypto e)))
      | .ok handshake =>
        let ratchet ← ask (.initInitiator handshake.sharedSecret card.signedPrekey.publicKey)
        match ← ask (.encrypt ratchet item.plaintext) with
        | (_, .error e) =>
          ask (.endState peerId)
          ask (.emit (item.failedEvent (.crypto e)))
        | (ratchet, .ok ciphertext) =>
          ask (.saveSession ⟨peerId, item.peerPublicKey, ratchet⟩)
          ask (.transitionState .sendingEnvelope peerId)
          if ← ask (.command (.sendEnvelope peerId (.handshake handshake.initialMessage ciphertext))) then pure ()
          else
            ask (.endState peerId)
            ask (.emit (item.failedEvent .node))

def handleP2pEvent [PeerIds] (m : ChatManager) : NodeEvent → Chat Key Unit
  | .peerConnected peerId => do
    ask (.connect peerId)
    if (← ask (.state peerId)) = some .dialing then ask (.endState peerId) else pure ()
    attemptSend peerId
  | .peerDisconnected peerId => ask (.disconnect peerId)
  | .dialFailed none _ => pure ()
  | .dialFailed (some peerId) reason => do
    if (← ask (.state peerId)) = some .dialing then endWithFailure peerId reason else pure ()
  | .blobFetched peerId id card =>
    if id = contactCardBlobId then do
      if (← ask (.state peerId)) = some .fetchingCard then handleCardFetched m peerId card else pure ()
    else pure ()
  | .blobFetchFailed peerId id reason =>
    if id = contactCardBlobId then do
      if (← ask (.state peerId)) = some .fetchingCard then endWithFailure peerId reason else pure ()
    else pure ()
  | .envelopeReceived fromPeerId envelope => onEnvelopeReceived m fromPeerId envelope
  | .envelopeDelivered toPeerId => do
    if (← ask (.state toPeerId)) = some .sendingEnvelope then
      ask (.endState toPeerId)
      match ← firstOutboxItem toPeerId with
      | none => pure ()
      | some item =>
        removeOutboxItem item.localId
        ask (.emit item.sentEvent)
      attemptSend toPeerId
    else pure ()
  | .envelopeDeliveryFailed toPeerId reason => do
    if (← ask (.state toPeerId)) = some .sendingEnvelope then
      match ← firstOutboxItem toPeerId with
      | none => endWithFailure toPeerId reason
      | some item =>
        match ← ask (.loadSession toPeerId) with
        | some session => depositContinuing m item session
        | none => endWithFailure toPeerId reason
    else pure ()
  | .mailboxEnvelopeRetrieved envelope => handleMailboxEnvelopeRetrieved m envelope

omit [X25519] [Ed25519] in
def attemptSendEach : List PeerId → Chat Key Unit
  | [] => pure ()
  | peerId :: peerIds => do
    attemptSend peerId
    attemptSendEach peerIds

omit [X25519] in
/-- `init`. It publishes a card and tries again what is left in the outbox. -/
def startChatManager (m : ChatManager) : Chat Key Unit := do
  let card ← ask (.contactCard m.identity m.agreement)
  let _ ← ask (.command (.setLocalBlob contactCardBlobId card))
  let outbox ← ask .loadOutbox
  let peerIds ← ask (.setOf (outbox.map (·.peerId)))
  attemptSendEach peerIds

omit [X25519] in
def sweep (m : ChatManager) : List (Session Key) → Chat Key Unit
  | [] => pure ()
  | session :: sessions => do
    let _ ← ask (.command (.retrieveFromMailbox (mailboxSharedMaterial m session.peerPublicKey)))
    sweep m sessions

omit [X25519] in
/-- A periodic look for queued mail. -/
def sweepMailboxRetrieval (m : ChatManager) : Chat Key Unit := do
  let sessions ← ask .loadAllSessions
  sweep m sessions

end
end SpiritChat
