import SpiritChat.Theorems.KeyPlaces
import SpiritChat.Theorems.Prekeys
import SpiritChat.Theorems.Sending

/-! # A contact card that many peers fetch

`init` publishes one card for a whole run. Every peer that fetches it names the same one-time prekey in its first
handshake, and the store has that prekey once. -/

namespace SpiritChat
open Lib Prog

/-- How often a store can answer a handshake that names this one-time prekey. -/
def PrekeyStore.pendingFor [X25519] (s : PrekeyStore) (publicKey : Bytes 32) : ℕ :=
  s.pendingOneTimeSecrets.countP (X25519.publicKey · = publicKey)

/-- The cards among the blobs that the node was given. -/
def NodeCommand.card? : NodeCommand → Option PrekeyBundle
  | .setLocalBlob id card => if id = contactCardBlobId then some card else none
  | _ => none

/-- The card that a peer fetches. -/
def Device.published {Key : Type} (d : Device Key) : Option PrekeyBundle := (d.commands.filterMap NodeCommand.card?).getLast?

/-- A peer with its first message, and what it draws for it. -/
structure Peer where
  peerId : PeerId
  identity : IdentityKeyPair
  agreement : AgreementKeyPair
  ephemeralSecret : Bytes 32
  ratchetSecret : Bytes 32
  nonce : Bytes 12
  plaintext : List UInt8

section
variable {Key : Type} [X25519] [Ed25519] [SymmetricPrimitives Key] [X3dhKdf Key]

/-- What `handleCardFetched` makes of a card: the initial message and the first ratchet message. -/
def Peer.firstHandshake (Key : Type) [SymmetricPrimitives Key] [X3dhKdf Key] (p : Peer) (card : PrekeyBundle) :
    Except CryptoError Envelope := do
  let handshake : HandshakeResult Key ← x3dhInitiate p.ephemeralSecret p.identity p.agreement card
  let ratchet := DoubleRatchet.initInitiator p.ratchetSecret handshake.sharedSecret card.signedPrekey.publicKey
  let message ← (ratchet.encrypt p.nonce p.plaintext []).2
  return .handshake handshake.initialMessage message

/-- A first handshake that arrived, with the device before and after it was handled. -/
structure Arrival (Key : Type) where
  peer : Peer
  before : Device Key
  after : Device Key

omit [X25519] [SymmetricPrimitives Key] [X3dhKdf Key] in
/-- There is a session with the peer, and its first message is reported. -/
def Arrival.Accepted (a : Arrival Key) : Prop :=
  (a.after.sessions.find? (·.peerId = a.peer.peerId)).map (·.peerPublicKey) = some a.peer.identity.publicKey.bytes.toList ∧
    a.after.events = a.before.events ++
      [.messageReceived a.peer.peerId a.peer.identity.publicKey.bytes.toList a.peer.plaintext]

omit [X25519] [Ed25519] [SymmetricPrimitives Key] [X3dhKdf Key] in
/-- An operation that makes no card, publishes none, and answers no handshake that names this one-time prekey. -/
def LeavesPrekey (publicKey : Option (Bytes 32)) : ChatOp Key → Prop
  | .contactCard _ _ => False
  | .command (.setLocalBlob _ _) => False
  | .respond _ initialMessage => ∀ key, initialMessage.usedOneTimePrekey = some key → publicKey ≠ some key
  | _ => True

/-- The card that `init` makes. -/
def ChatManager.card (m : ChatManager) (d : Device Key) : PrekeyBundle :=
  (d.prekeys.publicBundle m.identity.publicKey (m.agreement.signWith m.identity)).2

variable [PeerIds]

/-- A run of a device, from the start of its `ChatManager`: peers fetch the card and send their first handshakes,
each peer once, and anything else happens in between. -/
inductive CardRun (m : ChatManager) (d₀ : Device Key) : Device Key → List (Peer × PrekeyBundle) → List (Arrival Key) → Prop
  | start (envs : ℕ → Env) : CardRun m d₀ ((startChatManager m).run Device.perform envs d₀).2 [] []
  | fetch {d fetched arrivals} (h : CardRun m d₀ d fetched arrivals) (p : Peer) {card : PrekeyBundle}
      (hc : d.published = some card) : CardRun m d₀ d ((p, card) :: fetched) arrivals
  | other {d fetched arrivals} (h : CardRun m d₀ d fetched arrivals) (o : ChatOp Key) (env : Env)
      (ho : LeavesPrekey (m.card d₀).oneTimePrekey o) :
      CardRun m d₀ (d.exec env o).2 fetched arrivals
  | arrive {d fetched arrivals} (h : CardRun m d₀ d fetched arrivals) {p : Peer} {card : PrekeyBundle} {envelope : Envelope}
      (hf : (p, card) ∈ fetched) (hp : ∀ a ∈ arrivals, a.peer.peerId ≠ p.peerId)
      (he : p.firstHandshake Key card = .ok envelope) (envs : ℕ → Env) :
      CardRun m d₀ ((handleP2pEvent m (.envelopeReceived p.peerId envelope)).run Device.perform envs d).2 fetched
        (⟨p, d, ((handleP2pEvent m (.envelopeReceived p.peerId envelope)).run Device.perform envs d).2⟩ :: arrivals)

/-! ### What leaves the card alone -/

section
variable {m : ChatManager} {d d₀ : Device Key} {env : Env} {prekey : Option (Bytes 32)} {key : Bytes 32}

omit [X25519] [Ed25519] [SymmetricPrimitives Key] [X3dhKdf Key] [PeerIds] in
theorem leaves_of_sends {o : ChatOp Key} (h : o.Sends) : LeavesPrekey prekey o := by
  cases o with
  | command c => cases c <;> trivial
  | _ => trivial

omit [X25519] [Ed25519] [SymmetricPrimitives Key] [X3dhKdf Key] [PeerIds] in
theorem attemptSendEach_leaves {peerIds : List PeerId} :
    (attemptSendEach peerIds : Chat Key Unit).Only (LeavesPrekey prekey) := by
  induction peerIds with
  | nil => exact only_pure _
  | cons peerId peerIds ih => exact (attemptSend_sends.mono fun _ => leaves_of_sends).bind fun _ => ih

omit [Ed25519] [SymmetricPrimitives Key] [X3dhKdf Key] [PeerIds] in
theorem PrekeyStore.pendingFor_take (key : Bytes 32) {s s' : PrekeyStore} {other secret : Bytes 32}
    (h : s.takeOneTimeSecret other = some (secret, s')) :
    s.pendingFor key = s'.pendingFor key + if other = key then 1 else 0 := by
  obtain ⟨rfl, -, -, hperm⟩ := takeOneTimeSecret_spec h
  unfold pendingFor
  rw [hperm.countP_eq, List.countP_cons]
  simp only [decide_eq_true_eq]

omit [Ed25519] [SymmetricPrimitives Key] [X3dhKdf Key] [PeerIds] in
theorem PrekeyStore.take_eq_none {s : PrekeyStore} : s.takeOneTimeSecret key = none ↔ s.pendingFor key = 0 := by
  have hnone : s.pendingFor key = 0 ↔ s.pendingOneTimeSecrets.findIdx? (X25519.publicKey · = key) = none := by
    unfold pendingFor
    rw [List.countP_eq_zero, List.findIdx?_eq_none_iff]
    exact forall₂_congr fun _ _ => Bool.eq_false_iff.symm
  rw [hnone]
  unfold takeOneTimeSecret
  rcases hi : s.pendingOneTimeSecrets.findIdx? (X25519.publicKey · = key) with _ | index
  · exact ⟨fun _ => rfl, fun _ => rfl⟩
  · obtain ⟨hlt, -⟩ := List.findIdx?_eq_some_iff_getElem.1 hi
    dsimp only
    rw [List.getElem?_eq_getElem hlt]
    exact ⟨fun h => absurd h (by simp), fun h => absurd h (by simp)⟩

/-- What the answers to first handshakes depend on. -/
structure SameCard (d d' : Device Key) (prekey : Option (Bytes 32)) : Prop where
  published : d'.published = d.published
  secret : d'.prekeys.signedPrekeySecret = d.prekeys.signedPrekeySecret
  pending : ∀ key, prekey = some key → d'.prekeys.pendingFor key = d.prekeys.pendingFor key

variable (Key) in
omit [SymmetricPrimitives Key] [PeerIds] in
theorem x3dhRespond_store (agreement : AgreementKeyPair) (s : PrekeyStore) (initialMessage : InitialMessage) :
    (x3dhRespond agreement s initialMessage : _ × Except _ Key).1 = s ∨
      ∃ used secret, initialMessage.usedOneTimePrekey = some used ∧
        s.takeOneTimeSecret used = some (secret, (x3dhRespond agreement s initialMessage : _ × Except _ Key).1) := by
  unfold x3dhRespond
  split
  · exact .inl rfl
  · split
    · exact .inl rfl
    · rename_i used hu
      rcases ht : s.takeOneTimeSecret used with _ | ⟨secret, s'⟩
      · exact .inl rfl
      · exact .inr ⟨used, secret, hu, ht⟩

omit [PeerIds] in
theorem LeavesPrekey.exec {o : ChatOp Key} (h : LeavesPrekey prekey o) : SameCard d (d.exec env o).2 prekey := by
  cases o with
  | contactCard => exact h.elim
  | respond agreement initialMessage =>
    rcases x3dhRespond_store Key agreement d.prekeys initialMessage with hs | ⟨used, secret, hu, ht⟩
    · exact ⟨rfl, congrArg PrekeyStore.signedPrekeySecret hs, fun key _ => congrArg (PrekeyStore.pendingFor · key) hs⟩
    · refine ⟨rfl, (PrekeyStore.takeOneTimeSecret_spec ht).2.2.1, fun key hk => ?_⟩
      have hne : used ≠ key := fun he => h used hu (he ▸ hk)
      have hcount := PrekeyStore.pendingFor_take key ht
      rw [if_neg hne] at hcount
      exact hcount.symm
  | command c =>
    have hcard : c.card? = none := by
      cases c with
      | setLocalBlob => exact h.elim
      | _ => rfl
    unfold Device.exec
    dsimp only
    split
    · refine ⟨?_, rfl, fun _ _ => rfl⟩
      unfold Device.published
      rw [List.filterMap_append, List.filterMap_cons_none hcard, List.filterMap_nil, List.append_nil]
    · exact ⟨rfl, rfl, fun _ _ => rfl⟩
  | beginState state peerId =>
    unfold Device.exec
    dsimp only
    split
    · exact ⟨rfl, rfl, fun _ _ => rfl⟩
    · exact ⟨rfl, rfl, fun _ _ => rfl⟩
  | _ => exact ⟨rfl, rfl, fun _ _ => rfl⟩

/-! ### What the device makes of a handshake -/

variable {p : Peer} {initialMessage : InitialMessage} {message : RatchetMessage} {envs : ℕ → Env}

/-- The device after a handshake that a peer sent directly. -/
def handled (m : ChatManager) (d : Device Key) (envs : ℕ → Env) (peerId : PeerId) (initialMessage : InitialMessage)
    (message : RatchetMessage) : Device Key :=
  ((handleP2pEvent m (.envelopeReceived peerId (.handshake initialMessage message))).run Device.perform envs d).2

theorem handled_refused {peerId : PeerId} {e : CryptoError}
    (h : (x3dhRespond m.agreement d.prekeys initialMessage : _ × Except _ Key).2 = .error e) :
    handled m d envs peerId initialMessage message =
      { d with prekeys := (x3dhRespond m.agreement d.prekeys initialMessage : _ × Except _ Key).1 } := by
  unfold handled handleP2pEvent onEnvelopeReceived handleIncomingHandshake acceptHandshake
  rw [run_ask_bind]
  dsimp only [Device.perform, Device.exec]
  rw [h]
  rfl

theorem handled_accepted {peerId : PeerId} {store : PrekeyStore} {secret : Key} {r : DoubleRatchet Key}
    {plaintext : List UInt8} (h : x3dhRespond m.agreement d.prekeys initialMessage = (store, .ok secret))
    (hd : (DoubleRatchet.initResponder secret store.signedPrekeySecret).decrypt (envs 2).secret message.1 message.2 [] =
      (r, .ok plaintext)) :
    handled m d envs peerId initialMessage message =
      { d with
        prekeys := store
        sessions := Device.putSession d.sessions ⟨peerId, initialMessage.initiatorIdentity.bytes.toList, r⟩
        events := d.events ++ [.messageReceived peerId initialMessage.initiatorIdentity.bytes.toList plaintext] } := by
  unfold handled handleP2pEvent onEnvelopeReceived handleIncomingHandshake acceptHandshake
  rw [run_ask_bind]
  dsimp only [Device.perform, Device.exec]
  rw [h]
  dsimp only
  rw [run_ask_bind, run_ask_bind]
  dsimp only [Device.perform, Device.exec]
  rw [hd]
  rfl

/-! ### Both ends of a first handshake -/

open X25519

/-- What key agreement relies on: Diffie-Hellman commutes and signatures verify. -/
structure WorkingAgreement : Prop where
  dh_comm : ∀ a b, diffieHellman a (publicKey b) = diffieHellman b (publicKey a)
  verify_sign : ∀ secret message, Ed25519.verify (Ed25519.verifyingKey secret) message (Ed25519.sign secret message) = true

namespace WorkingAgreement

omit [PeerIds] [SymmetricPrimitives Key] in
/-- The two sides derive one secret. -/
theorem respond_first (wa : WorkingAgreement) {ephemeral : Bytes 32} {identity : IdentityKeyPair} {mine agreement : AgreementKeyPair}
    {s : PrekeyStore} {card : PrekeyBundle} {handshake : HandshakeResult Key}
    (hi : x3dhInitiate ephemeral identity mine card = .ok handshake)
    (hsigned : card.signedPrekey.publicKey = publicKey s.signedPrekeySecret)
    (hagreement : card.identityAgreementKey.publicKey = publicKey agreement.secret) :
    handshake.initialMessage.initiatorIdentity = identity.publicKey ∧
    ((∀ key, card.oneTimePrekey = some key → 0 < s.pendingFor key) →
      ∃ s', x3dhRespond agreement s handshake.initialMessage = (s', .ok handshake.sharedSecret) ∧
        s'.signedPrekeySecret = s.signedPrekeySecret ∧
        ∀ key, card.oneTimePrekey = some key → s.pendingFor key = s'.pendingFor key + 1) ∧
    ∀ key, card.oneTimePrekey = some key → s.pendingFor key = 0 →
      (x3dhRespond agreement s handshake.initialMessage : _ × Except _ Key) = (s, .error .prekeyExhausted) := by
  unfold x3dhInitiate at hi
  obtain ⟨⟨⟩, -, hi⟩ := except_bind_eq_ok.1 hi
  obtain rfl := Except.ok.inj hi
  have hverify : (mine.signWith identity).verify identity.publicKey = .ok () := by
    unfold SignedAgreementKeyPublic.verify IdentityPublicKey.verify
    exact if_pos (wa.verify_sign _ _)
  refine ⟨rfl, fun hpos => ?_, fun key hk hzero => ?_⟩
  · unfold x3dhRespond
    dsimp only
    rw [hverify]
    dsimp only
    rcases ho : card.oneTimePrekey with _ | key
    · refine ⟨s, ?_, rfl, fun _ h => absurd h (by simp)⟩
      dsimp only [Option.map_none]
      rw [hsigned, hagreement, wa.dh_comm mine.secret, wa.dh_comm ephemeral agreement.secret,
        wa.dh_comm ephemeral s.signedPrekeySecret]
      rfl
    · obtain ⟨⟨secret, s'⟩, ht⟩ := Option.ne_none_iff_exists'.1 fun h =>
        (hpos key ho).ne' (PrekeyStore.take_eq_none.1 h)
      obtain ⟨rfl, -, hsecret, -⟩ := PrekeyStore.takeOneTimeSecret_spec ht
      refine ⟨s', ?_, hsecret, ?_⟩
      · dsimp only [Option.map_some]
        rw [ht]
        dsimp only [Option.map_some]
        rw [hsigned, hagreement, wa.dh_comm mine.secret, wa.dh_comm ephemeral agreement.secret,
          wa.dh_comm ephemeral s.signedPrekeySecret, wa.dh_comm ephemeral secret]
        rfl
      · rintro key ⟨⟩
        rw [PrekeyStore.pendingFor_take _ ht, if_pos rfl]
  · unfold x3dhRespond
    dsimp only
    rw [hverify]
    dsimp only
    rw [hk]
    dsimp only
    rw [PrekeyStore.take_eq_none.2 hzero]

end WorkingAgreement

/-- What a handshake relies on: Diffie-Hellman commutes, signatures verify, and the cipher opens what it sealed. -/
structure WorkingCrypto (Key : Type) [SymmetricPrimitives Key] : Prop where
  dh_comm : ∀ a b, diffieHellman a (publicKey b) = diffieHellman b (publicKey a)
  verify_sign : ∀ secret message, Ed25519.verify (Ed25519.verifyingKey secret) message (Ed25519.sign secret message) = true
  opens : ∀ nonce (k : MessageKey Key) plaintext aad ciphertext, Aead.encrypt nonce k plaintext aad = .ok ciphertext →
    Aead.decrypt k ciphertext aad = .ok plaintext

namespace WorkingCrypto

omit [X3dhKdf Key] [PeerIds] in
theorem agreement (wc : WorkingCrypto Key) : WorkingAgreement := ⟨wc.dh_comm, wc.verify_sign⟩

omit [X3dhKdf Key] [PeerIds] in
/-- The responder opens the initiator's first message. -/
theorem decrypt_first (wc : WorkingCrypto Key) (fresh : Bytes 32) {secret : Key} {ratchetSecret signedPrekeySecret : Bytes 32}
    {nonce : Bytes 12} {plaintext : List UInt8} {r' : DoubleRatchet Key}
    (he : (DoubleRatchet.initInitiator ratchetSecret secret (publicKey signedPrekeySecret)).encrypt nonce plaintext [] =
      (r', .ok message)) :
    ∃ r, (DoubleRatchet.initResponder secret signedPrekeySecret).decrypt fresh message.1 message.2 [] = (r, .ok plaintext) := by
  unfold DoubleRatchet.encrypt DoubleRatchet.initInitiator at he
  dsimp only at he
  split at he
  · exact absurd (congrArg Prod.snd he) (by simp)
  · rename_i ciphertext hseal
    obtain rfl := Except.ok.inj (congrArg Prod.snd he)
    have hstep : ∃ w, (DoubleRatchet.initResponder secret signedPrekeySecret).receivingKey fresh
        ⟨publicKey ratchetSecret, 0, 0⟩ =
        .ok ((rootKdf secret (diffieHellman signedPrekeySecret (publicKey ratchetSecret))).2.ratchet.1, w) := by
      refine ⟨_, DoubleRatchet.receivingKey_next (AList.lookup_empty _) (.inr ⟨?_, _, rfl, rfl⟩) rfl rfl⟩
      exact fun h => absurd h (by simp [DoubleRatchet.initResponder])
    obtain ⟨w, hw⟩ := hstep
    rw [wc.dh_comm] at hw
    exact ⟨w, DoubleRatchet.decrypt_eq hw (wc.opens _ _ _ _ _ hseal)⟩

end WorkingCrypto

/-! ### All arrivals of a run -/

omit [X25519] [Ed25519] [SymmetricPrimitives Key] [X3dhKdf Key] [PeerIds] in
theorem find_putSession {sessions : List (Session Key)} {session : Session Key} :
    (Device.putSession sessions session).find? (·.peerId = session.peerId) = some session := by
  unfold Device.putSession
  exact List.find?_cons_of_pos (decide_eq_true rfl)

omit [SymmetricPrimitives Key] [X3dhKdf Key] [PeerIds] in
theorem card_keys (m : ChatManager) (d : Device Key) :
    (m.card d).signedPrekey.publicKey = publicKey d.prekeys.signedPrekeySecret ∧
      (m.card d).identityAgreementKey.publicKey = publicKey m.agreement.secret := by
  unfold ChatManager.card PrekeyStore.publicBundle
  split
  · exact ⟨rfl, rfl⟩
  · exact ⟨rfl, rfl⟩

omit [SymmetricPrimitives Key] [X3dhKdf Key] [PeerIds] in
/-- Making the card leaves its one-time prekey pending once more. -/
theorem pendingFor_card (m : ChatManager) (d : Device Key) (hk : (m.card d).oneTimePrekey = some key) :
    (d.prekeys.publicBundle m.identity.publicKey (m.agreement.signWith m.identity)).1.pendingFor key =
      d.prekeys.pendingFor key + 1 := by
  unfold ChatManager.card PrekeyStore.publicBundle at hk
  unfold PrekeyStore.publicBundle
  rcases hl : d.prekeys.availableOneTimeSecrets.getLast? with _ | secret
  · rw [hl] at hk
    exact absurd hk (by simp)
  · rw [hl] at hk
    obtain rfl := Option.some.inj hk
    unfold PrekeyStore.pendingFor
    dsimp only
    rw [List.countP_append, List.countP_singleton, if_pos (decide_eq_true rfl)]

/-- What a run knows of its card. -/
structure CardInv (m : ChatManager) (d₀ d : Device Key) (fetched : List (Peer × PrekeyBundle)) (arrivals : List (Arrival Key)) :
    Prop where
  published : ∀ card, d.published = some card → card = m.card d₀
  fetched : ∀ f ∈ fetched, f.2 = m.card d₀
  secret : d.prekeys.signedPrekeySecret = d₀.prekeys.signedPrekeySecret
  pending : ∀ key, (m.card d₀).oneTimePrekey = some key →
    d.prekeys.pendingFor key = d₀.prekeys.pendingFor key + 1 - arrivals.length
  accepted : (∀ a ∈ arrivals, a.Accepted) ↔
    ∀ key, (m.card d₀).oneTimePrekey = some key → arrivals.length ≤ d₀.prekeys.pendingFor key + 1

namespace CardInv
variable {fetched : List (Peer × PrekeyBundle)} {arrivals : List (Arrival Key)} {d' : Device Key}

omit [SymmetricPrimitives Key] [X3dhKdf Key] [PeerIds] in
theorem same (h : CardInv m d₀ d fetched arrivals) (hd : SameCard d d' (m.card d₀).oneTimePrekey) :
    CardInv m d₀ d' fetched arrivals := by
  refine { h with published := ?_, secret := hd.secret.trans h.secret, pending := ?_ }
  · rw [hd.published]
    exact h.published
  · exact fun key hk => (hd.pending key hk).trans (h.pending key hk)

omit [PeerIds] in
theorem start (hd : d₀.published = none) : CardInv m d₀ ((startChatManager m).run Device.perform envs d₀).2 [] [] := by
  have hrest : ∀ d, CardInv m d₀ d [] [] → ∀ envs peerIds,
      CardInv m d₀ ((attemptSendEach peerIds : Chat Key Unit).run Device.perform envs d).2 [] [] :=
    fun d h envs peerIds =>
      attemptSendEach_leaves.run (CardInv m d₀ · [] []) (fun _ _ _ ho hi => hi.same ho.exec) envs h
  unfold startChatManager
  rw [run_ask_bind]
  rw [run_ask_bind]
  refine hrest _ ?_ _ _
  have hcard : CardInv m d₀ (d₀.exec (envs 0) (.contactCard m.identity m.agreement)).2 [] [] := by
    refine ⟨fun card hc => absurd (hd.symm.trans hc) (by simp), fun _ h => absurd h List.not_mem_nil, ?_, ?_, ?_⟩
    · dsimp only [Device.exec]
      unfold PrekeyStore.publicBundle
      split
      · rfl
      · rfl
    · exact fun key hk => pendingFor_card m d₀ hk
    · exact ⟨fun _ _ _ => Nat.zero_le _, fun _ _ h => absurd h List.not_mem_nil⟩
  dsimp only [Device.perform]
  have hmade : (d₀.exec (envs 0) (.contactCard m.identity m.agreement)).1 = m.card d₀ := rfl
  rw [hmade]
  generalize (d₀.exec (envs 0) (.contactCard m.identity m.agreement)).2 = d' at hcard
  unfold Device.exec
  dsimp only
  split
  · refine { hcard with published := fun card hc => ?_ }
    have hblobs : (d'.commands ++ [NodeCommand.setLocalBlob contactCardBlobId (m.card d₀)]).filterMap NodeCommand.card? =
        d'.commands.filterMap NodeCommand.card? ++ [m.card d₀] := by
      rw [List.filterMap_append]
      rfl
    unfold Device.published at hc
    dsimp only at hc
    rw [hblobs, List.getLast?_concat] at hc
    exact (Option.some.inj hc).symm
  · exact hcard

theorem arrive (wc : WorkingCrypto Key) (h : CardInv m d₀ d fetched arrivals) {card : PrekeyBundle} {envelope : Envelope}
    (hf : (p, card) ∈ fetched) (he : p.firstHandshake Key card = .ok envelope) :
    CardInv m d₀ ((handleP2pEvent m (.envelopeReceived p.peerId envelope)).run Device.perform envs d).2 fetched
      (⟨p, d, ((handleP2pEvent m (.envelopeReceived p.peerId envelope)).run Device.perform envs d).2⟩ :: arrivals) := by
  obtain rfl : card = m.card d₀ := h.fetched _ hf
  obtain ⟨handshake, hi, he⟩ := except_bind_eq_ok.1 he
  obtain ⟨message, hm, he⟩ := except_bind_eq_ok.1 he
  obtain rfl := Except.ok.inj he
  obtain ⟨hsigned, hagreement⟩ := card_keys m d₀
  obtain ⟨hidentity, hanswer, hrefuse⟩ := wc.agreement.respond_first (s := d.prekeys) hi (h.secret ▸ hsigned) hagreement
  change CardInv m d₀ (handled m d envs p.peerId handshake.initialMessage message) fetched
    (⟨p, d, handled m d envs p.peerId handshake.initialMessage message⟩ :: arrivals)
  by_cases hpos : ∀ key, (m.card d₀).oneTimePrekey = some key → 0 < d.prekeys.pendingFor key
  · obtain ⟨s', hrespond, hsecret, hcount⟩ := hanswer hpos
    rw [hsigned, ← h.secret, ← hsecret] at hm
    obtain ⟨r, hdecrypt⟩ := wc.decrypt_first (envs 2).secret (Prod.ext rfl hm)
    rw [handled_accepted hrespond hdecrypt, hidentity]
    refine ⟨h.published, h.fetched, hsecret.trans h.secret, fun key hk => ?_, ?_⟩
    · have hbefore := h.pending key hk
      have htaken := hcount key hk
      rw [List.length_cons]
      dsimp only
      omega
    · have hnow : ∀ key, (m.card d₀).oneTimePrekey = some key → arrivals.length + 1 ≤ d₀.prekeys.pendingFor key + 1 := by
        intro key hk
        have hbefore := h.pending key hk
        have hleft := hpos key hk
        omega
      refine ⟨fun _ => hnow, fun _ => List.forall_mem_cons.2 ⟨⟨?_, rfl⟩, ?_⟩⟩
      · rw [← hidentity]
        exact congrArg _ find_putSession
      · exact h.accepted.2 fun key hk => Nat.le_of_succ_le (hnow key hk)
  · push Not at hpos
    obtain ⟨key, hk, hzero⟩ := hpos
    obtain hzero := Nat.le_zero.1 hzero
    have hrespond := hrefuse key hk hzero
    have hsame : handled m d envs p.peerId handshake.initialMessage message = d := by
      rw [handled_refused (congrArg Prod.snd hrespond), hrespond]
    rw [hsame]
    have hover : d₀.prekeys.pendingFor key + 1 ≤ arrivals.length := by
      have hbefore := h.pending key hk
      omega
    refine { h with pending := fun other ho => ?_, accepted := ⟨fun ha => ?_, fun hle => ?_⟩ }
    · obtain rfl := Option.some.inj (hk.symm.trans ho)
      rw [hzero, List.length_cons]
      omega
    · have hnew := (ha _ List.mem_cons_self).2
      exact absurd (congrArg List.length hnew) (by simp)
    · exact absurd (hle key hk) (by rw [List.length_cons]; omega)

end CardInv

/-- The store has the prekey of the card once, next to what was pending before: that many peers are accepted. -/
theorem card_works_iff (wc : WorkingCrypto Key) {fetched : List (Peer × PrekeyBundle)} {arrivals : List (Arrival Key)}
    (hd : d₀.published = none) (h : CardRun m d₀ d fetched arrivals) :
    (∀ a ∈ arrivals, a.Accepted) ↔
      ∀ key, (m.card d₀).oneTimePrekey = some key → arrivals.length ≤ d₀.prekeys.pendingFor key + 1 := by
  suffices hinv : CardInv m d₀ d fetched arrivals from hinv.accepted
  induction h with
  | start envs => exact .start hd
  | fetch _ p hc ih => exact { ih with fetched := List.forall_mem_cons.2 ⟨ih.published _ hc, ih.fetched⟩ }
  | other _ o env ho ih => exact ih.same ho.exec
  | arrive _ hf _ he envs ih => exact ih.arrive wc hf he

end
end

/-! ### Two peers with one card -/

section
attribute [local instance] StandIn.x25519 StandIn.ed25519 StandIn.symmetricPrimitives StandIn.x3dhKdf StandIn.peerIds

namespace CardRace

def manager : ChatManager := ⟨⟨.replicate 32 1⟩, ⟨.replicate 32 2⟩⟩

def device : Device (List UInt8) :=
  ⟨[], [], .empty, [], .generate manager.identity (.replicate 32 3) [.replicate 32 4], 0, [], []⟩

def envs (_ : ℕ) : Env := ⟨.replicate 12 0, .replicate 32 5, true, fun _ => .refl _⟩

def ann : Peer := ⟨[0xa], ⟨.replicate 32 6⟩, ⟨.replicate 32 7⟩, .replicate 32 8, .replicate 32 9, .replicate 12 1, [0x61]⟩

def bob : Peer := ⟨[0xb], ⟨.replicate 32 10⟩, ⟨.replicate 32 11⟩, .replicate 32 12, .replicate 32 13, .replicate 12 2, [0x62]⟩

def started : Device (List UInt8) := ((startChatManager manager).run Device.perform envs device).2

def handshake (p : Peer) : Envelope :=
  match p.firstHandshake (List UInt8) (manager.card device) with
  | .ok envelope => envelope
  | .error _ => .malformed

def arrived (p : Peer) (d : Device (List UInt8)) : Arrival (List UInt8) :=
  ⟨p, d, ((handleP2pEvent manager (.envelopeReceived p.peerId (handshake p))).run Device.perform envs d).2⟩

def fetched : List (Peer × PrekeyBundle) := [(bob, manager.card device), (ann, manager.card device)]

theorem fetched_reached : CardRun manager device started fetched [] :=
  .fetch (.fetch (.start envs) ann (by decide +kernel)) bob (by decide +kernel)

theorem reached_arrived {d : Device (List UInt8)} {arrivals : List (Arrival (List UInt8))} {p : Peer}
    (h : CardRun manager device d fetched arrivals) (hf : (p, manager.card device) ∈ fetched)
    (hp : ∀ a ∈ arrivals, a.peer.peerId ≠ p.peerId)
    (he : p.firstHandshake (List UInt8) (manager.card device) = .ok (handshake p)) :
    CardRun manager device (arrived p d).after fetched (arrived p d :: arrivals) := .arrive h hf hp he envs

theorem first_arrived : CardRun manager device (arrived ann started).after fetched [arrived ann started] := by
  refine reached_arrived fetched_reached ?_ (fun _ h => absurd h List.not_mem_nil) (by decide +kernel)
  exact List.mem_cons_of_mem _ List.mem_cons_self

end CardRace

open CardRace in
theorem card_works_iff_alone : (∀ a ∈ [arrived ann started], a.Accepted) ∧ (manager.card device).oneTimePrekey.isSome := by
  have hwc : WorkingCrypto (List UInt8) :=
    ⟨StandIn.addBytes_comm, fun _ _ => decide_eq_true rfl, StandIn.opens⟩
  refine ⟨(card_works_iff hwc (by decide +kernel) first_arrived).2 fun key _ => ?_, by decide +kernel⟩
  exact Nat.succ_le_succ (Nat.zero_le _)

open CardRace in
/-- Bob fetched the same card as Ann, which verifies, and is refused after her. -/
theorem card_refuses_second :
    CardRun manager device (arrived bob (arrived ann started).after).after fetched
      [arrived bob (arrived ann started).after, arrived ann started] ∧
    (arrived ann started).Accepted ∧ ¬(arrived bob (arrived ann started).after).Accepted ∧
    (manager.card device).verify = .ok () := by
  refine ⟨?_, ⟨by decide +kernel, by decide +kernel⟩, fun h => absurd h.1 (by decide +kernel), by decide +kernel⟩
  exact reached_arrived first_arrived List.mem_cons_self (List.forall_mem_singleton.2 (by decide +kernel)) (by decide +kernel)

end
end SpiritChat
