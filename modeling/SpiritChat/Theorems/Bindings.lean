import SpiritChat.Theorems.Sending
import SpiritChat.Theorems.StandIn

/-! # Whose session it is

Sessions begin with an exchange that verifies an identity key, and each later save copies the key. Two of the three
ways to begin one take the peer's id from the connection and not from the key, so the peer must be the one that its
key says. -/

namespace SpiritChat
open Lib Prog

section
variable {Key : Type} [X25519] [Ed25519] [SymmetricPrimitives Key] [X3dhKdf Key]

/-- The ratchets that come out of an exchange in which this identity key was verified. -/
inductive Exchanged (m : ChatManager) : List UInt8 → DoubleRatchet Key → Prop
  | initiated {card : PrekeyBundle} {result : HandshakeResult Key} (ephemeral secret : Bytes 32) :
      x3dhInitiate ephemeral m.identity m.agreement card = .ok result →
      Exchanged m card.identity.bytes.toList (.initInitiator secret result.sharedSecret card.signedPrekey.publicKey)
  | responded {initialMessage : InitialMessage} {sharedSecret : Key} (prekeys : PrekeyStore) (secret : Bytes 32) :
      (x3dhRespond m.agreement prekeys initialMessage).2 = .ok sharedSecret →
      Exchanged m initialMessage.initiatorIdentity.bytes.toList (.initResponder sharedSecret secret)
  | encrypted {key : List UInt8} {r : DoubleRatchet Key} (nonce : Bytes 12) (plaintext aad : List UInt8) :
      Exchanged m key r → Exchanged m key (r.encrypt nonce plaintext aad).1
  | decrypted {key : List UInt8} {r : DoubleRatchet Key} (fresh : Bytes 32) (message : RatchetMessage) (aad : List UInt8) :
      Exchanged m key r → Exchanged m key (r.decrypt fresh message.1 message.2 aad).1

variable [PeerIds]

/-- The session is the peer's whose key was verified when it began. -/
structure Session.Bound (m : ChatManager) (s : Session Key) : Prop where
  peerId : PeerIds.ofPublicKey s.peerPublicKey = some s.peerId
  exchanged : Exchanged m s.peerPublicKey s.ratchet

omit [X25519] [Ed25519] [SymmetricPrimitives Key] [X3dhKdf Key] in
/-- The id of the peer is that of its key. -/
def OutboxItem.Addressed (item : OutboxItem) : Prop := PeerIds.ofPublicKey item.peerPublicKey = some item.peerId

/-- Both files are in order. -/
structure Device.Filed (m : ChatManager) (d : Device Key) : Prop where
  sessions : ∀ s ∈ d.sessions, s.Bound m
  outbox : ∀ item ∈ d.outbox, item.Addressed

/-! ### What a handler can know -/

/-- An operation and what it gave back. -/
abbrev Done (Key : Type) := Σ o : ChatOp Key, o.Res

def Done.next (o : ChatOp Key) (r : o.Res) (n : List (Done Key)) : List (Done Key) := ⟨o, r⟩ :: n

/-- What a handler did tells it that it holds a ratchet of this peer, and with which identity key it began. -/
inductive Holds (m : ChatManager) (n : List (Done Key)) : PeerId → List UInt8 → DoubleRatchet Key → Prop
  | loaded {peerId : PeerId} {s : Session Key} : (⟨.loadSession peerId, some s⟩ : Done Key) ∈ n →
      Holds m n peerId s.peerPublicKey s.ratchet
  | listed {sessions : List (Session Key)} {s : Session Key} : (⟨.loadAllSessions, sessions⟩ : Done Key) ∈ n → s ∈ sessions →
      Holds m n s.peerId s.peerPublicKey s.ratchet
  | initiated {card : PrekeyBundle} {result : HandshakeResult Key} {r : DoubleRatchet Key} {peerId : PeerId} :
      (⟨.initiate m.identity m.agreement card, .ok result⟩ : Done Key) ∈ n →
      (⟨.initInitiator result.sharedSecret card.signedPrekey.publicKey, r⟩ : Done Key) ∈ n →
      PeerIds.ofPublicKey card.identity.bytes.toList = some peerId → Holds m n peerId card.identity.bytes.toList r
  | responded {initialMessage : InitialMessage} {sharedSecret : Key} {secret : Bytes 32} {peerId : PeerId} :
      (⟨.respond m.agreement initialMessage, .ok sharedSecret⟩ : Done Key) ∈ n →
      (initialMessage.initiatorAgreementKey.verify initialMessage.initiatorIdentity = .ok () →
        PeerIds.ofPublicKey initialMessage.initiatorIdentity.bytes.toList = some peerId) →
      Holds m n peerId initialMessage.initiatorIdentity.bytes.toList (.initResponder sharedSecret secret)
  | encrypted {peerId : PeerId} {key plaintext : List UInt8} {r : DoubleRatchet Key} {x : DoubleRatchet Key × Except _ _} :
      Holds m n peerId key r → (⟨.encrypt r plaintext, x⟩ : Done Key) ∈ n → Holds m n peerId key x.1
  | decrypted {peerId : PeerId} {key : List UInt8} {message : RatchetMessage} {r : DoubleRatchet Key}
      {x : DoubleRatchet Key × Except _ _} :
      Holds m n peerId key r → (⟨.decrypt r message, x⟩ : Done Key) ∈ n → Holds m n peerId key x.1

/-- A session is saved with a ratchet that the handler holds, under its key or that of an item of the outbox. The
outbox is written with items that were in it or are addressed. -/
def Warranted (m : ChatManager) (n : List (Done Key)) : ChatOp Key → Prop
  | .saveSession s => ∃ key, Holds m n s.peerId key s.ratchet ∧
      (s.peerPublicKey = key ∨ ∃ items, (⟨.loadOutbox, items⟩ : Done Key) ∈ n ∧
        ∃ item ∈ items, item.peerId = s.peerId ∧ item.peerPublicKey = s.peerPublicKey)
  | .saveOutbox items => ∀ item ∈ items, item.Addressed ∨ ∃ loaded, (⟨.loadOutbox, loaded⟩ : Done Key) ∈ n ∧ item ∈ loaded
  | _ => True

/-- The operations that write neither file. -/
def Unfiled : ChatOp Key → Prop
  | .saveSession _ => False
  | .saveOutbox _ => False
  | _ => True

omit [SymmetricPrimitives Key] [X3dhKdf Key] in
theorem Holds.mono {m : ChatManager} {n n' : List (Done Key)} {peerId : PeerId} {key : List UInt8} {r : DoubleRatchet Key}
    (h : Holds m n peerId key r) (hsub : n ⊆ n') : Holds m n' peerId key r := by
  induction h with
  | loaded h => exact .loaded (hsub h)
  | listed h hs => exact .listed (hsub h) hs
  | initiated h h' hp => exact .initiated (hsub h) (hsub h') hp
  | responded h hp => exact .responded (hsub h) hp
  | encrypted _ h ih => exact .encrypted ih (hsub h)
  | decrypted _ h ih => exact .decrypted ih (hsub h)

/-! ### What it knows is so -/

omit [SymmetricPrimitives Key] [PeerIds] in
/-- A handshake is answered only if its identity key signed the agreement key. -/
theorem verify_of_respond {agreement : AgreementKeyPair} {prekeys : PrekeyStore} {initialMessage : InitialMessage} {secret : Key}
    (h : (x3dhRespond agreement prekeys initialMessage).2 = .ok secret) :
    initialMessage.initiatorAgreementKey.verify initialMessage.initiatorIdentity = .ok () := by
  unfold x3dhRespond at h
  cases hv : initialMessage.initiatorAgreementKey.verify initialMessage.initiatorIdentity with
  | ok _ => rfl
  | error e =>
    rw [hv] at h
    cases h

/-- The operation was performed on files in order. -/
def Done.Genuine (m : ChatManager) (e : Done Key) : Prop := ∃ env d, Device.Filed m d ∧ (Device.exec d env e.1).1 = e.2

variable {m : ChatManager} {n : List (Done Key)} {peerId : PeerId} {key : List UInt8} {r : DoubleRatchet Key} {d : Device Key}
  {env : Env}

theorem Holds.exchanged (h : Holds m n peerId key r) (hn : ∀ e ∈ n, Done.Genuine m e) :
    PeerIds.ofPublicKey key = some peerId ∧ Exchanged m key r := by
  induction h with
  | @loaded peerId s h =>
    obtain ⟨env, d, hd, he⟩ := hn _ h
    have hfind : d.sessions.find? (·.peerId = peerId) = some s := he
    have hb := hd.sessions s (List.mem_of_find?_eq_some hfind)
    have hpeer : s.peerId = peerId := by simpa using List.find?_some hfind
    exact ⟨hpeer ▸ hb.peerId, hb.exchanged⟩
  | @listed sessions s h hs =>
    obtain ⟨env, d, hd, he⟩ := hn _ h
    obtain rfl : env.arrange d.sessions = sessions := he
    have hb := hd.sessions s ((env.arrange_perm d.sessions).subset hs)
    exact ⟨hb.peerId, hb.exchanged⟩
  | @initiated card result r peerId h h' hp =>
    obtain ⟨env, d, -, he⟩ := hn _ h
    obtain ⟨env', d', -, he'⟩ := hn _ h'
    obtain rfl : DoubleRatchet.initInitiator env'.secret result.sharedSecret card.signedPrekey.publicKey = r := he'
    exact ⟨hp, .initiated env.secret env'.secret he⟩
  | responded h hp =>
    obtain ⟨env, d, -, he⟩ := hn _ h
    exact ⟨hp (verify_of_respond he), .responded d.prekeys _ he⟩
  | @encrypted peerId key plaintext r x _ h ih =>
    obtain ⟨env, d, -, he⟩ := hn _ h
    obtain rfl : r.encrypt env.nonce plaintext [] = x := he
    exact ⟨ih.1, .encrypted env.nonce plaintext [] ih.2⟩
  | @decrypted peerId key message r x _ h ih =>
    obtain ⟨env, d, -, he⟩ := hn _ h
    obtain rfl : r.decrypt env.secret message.1 message.2 [] = x := he
    exact ⟨ih.1, .decrypted env.secret message [] ih.2⟩

omit [PeerIds] in
theorem Device.exec_unfiled {o : ChatOp Key} (h : Unfiled o) :
    (d.exec env o).2.sessions = d.sessions ∧ (d.exec env o).2.outbox = d.outbox := by
  cases o with
  | saveOutbox => exact h.elim
  | saveSession => exact h.elim
  | beginState state peerId =>
    unfold Device.exec
    dsimp only
    split
    · exact ⟨rfl, rfl⟩
    · exact ⟨rfl, rfl⟩
  | command c =>
    unfold Device.exec
    dsimp only
    split
    · exact ⟨rfl, rfl⟩
    · exact ⟨rfl, rfl⟩
  | _ => exact ⟨rfl, rfl⟩

/-- A PeerId holds the key that it was made from. -/
def PeerIds.Injective : Prop := ∀ a b p, PeerIds.ofPublicKey a = some p → PeerIds.ofPublicKey b = some p → a = b

/-- Warranted operations keep the files in order. -/
theorem Device.Filed.exec (hd : d.Filed m) (hinj : PeerIds.Injective) {o : ChatOp Key} (ho : Warranted m n o)
    (hn : ∀ e ∈ n, Done.Genuine m e) : (d.exec env o).2.Filed m := by
  by_cases hu : Unfiled o
  · have hkept : (d.exec env o).2.sessions = d.sessions ∧ (d.exec env o).2.outbox = d.outbox := d.exec_unfiled hu
    exact ⟨hkept.1 ▸ hd.sessions, hkept.2 ▸ hd.outbox⟩
  · have hread : ∀ items, (⟨.loadOutbox, items⟩ : Done Key) ∈ n → ∀ item ∈ items, item.Addressed := by
      intro items h
      obtain ⟨env', d', hd', he⟩ := hn _ h
      obtain rfl : d'.outbox = items := he
      exact hd'.outbox
    cases o with
    | saveOutbox items =>
      refine ⟨hd.sessions, fun item hitem => ?_⟩
      rcases ho item hitem with h | ⟨loaded, h, hmem⟩
      · exact h
      · exact hread loaded h item hmem
    | saveSession s =>
      obtain ⟨key, hholds, hkey⟩ := ho
      obtain ⟨hp, he⟩ := hholds.exchanged hn
      -- The peer of an item has one key, the one that was verified.
      have hsame : s.peerPublicKey = key := by
        rcases hkey with h | ⟨items, h, item, hitem, hpeer, hpk⟩
        · exact h
        · have haddr : PeerIds.ofPublicKey item.peerPublicKey = some item.peerId := hread items h item hitem
          rw [hpk, hpeer] at haddr
          exact hinj _ _ _ haddr hp
      have hb : s.Bound m := ⟨hsame ▸ hp, hsame ▸ he⟩
      refine ⟨fun s' hs' => ?_, hd.outbox⟩
      rcases List.mem_cons.mp hs' with rfl | hs'
      · exact hb
      · exact hd.sessions s' (List.mem_filter.mp hs').1
    | _ => exact absurd trivial hu

/-! ### The handlers -/

/-- The handler does only what it has a warrant for. -/
abbrev Warrants (m : ChatManager) (p : Chat Key Unit) (n : List (Done Key)) : Prop :=
  p.Keeps (Warranted m) Done.next (fun _ _ => True) n

section
variable {item : OutboxItem} {session : Session Key} {message : RatchetMessage} {initialMessage : InitialMessage}

omit [SymmetricPrimitives Key] [X3dhKdf Key] in
theorem warrants_firstOutboxItem {f : Option OutboxItem → Chat Key Unit}
    (h : ∀ items, Warrants m (f (firstItem items peerId)) (⟨.loadOutbox, items⟩ :: n)) :
    Warrants m (firstOutboxItem peerId >>= f) n :=
  keeps_bind.2 ⟨trivial, h⟩

omit [SymmetricPrimitives Key] [X3dhKdf Key] in
theorem warrants_ite {c : Prop} [Decidable c] {p q : Chat Key Unit} (hp : c → Warrants m p n) (hq : ¬c → Warrants m q n) :
    Warrants m (if c then p else q) n := by
  split
  · exact hp ‹_›
  · exact hq ‹_›

omit [SymmetricPrimitives Key] [X3dhKdf Key] in
/-- A step that is taken only while the peer is in some state. -/
theorem warrants_inState {state : PeerSendState} {p : Chat Key Unit} (h : ∀ n, Warrants m p n) :
    Warrants m (do if (← ask (.state peerId)) = some state then p else Pure.pure ()) n :=
  keeps_bind.2 ⟨trivial, fun _ => warrants_ite (fun _ => h _) fun _ => trivial⟩

omit [SymmetricPrimitives Key] [X3dhKdf Key] in
theorem warranted_of_plain (o : ChatOp Key) (n : List (Done Key)) (ho : o.Plain) (_ : True) :
    Warranted m n o ∧ ∀ _ : o.Res, True := by
  cases o <;> first | exact ho.elim | exact ⟨trivial, fun _ => trivial⟩

omit [SymmetricPrimitives Key] [X3dhKdf Key] in
theorem warrants_failed {reason : SendFailure} :
    Warrants m (ask (.endState peerId) >>= fun _ => ask (.emit (item.failedEvent reason))) n :=
  failed_plain.keeps trivial warranted_of_plain

omit [SymmetricPrimitives Key] [X3dhKdf Key] in
theorem warrants_attemptSend : Warrants m (attemptSend peerId : Chat Key Unit) n := by
  refine attemptSend_keeps warranted_of_plain trivial fun item session n hpeer _ => ?_
  subst hpeer
  refine sendContinuing_keeps warranted_of_plain trivial (fun _ _ => trivial) fun ratchet ciphertext => ⟨?_, trivial⟩
  refine ⟨_, .encrypted ?_ List.mem_cons_self, .inl rfl⟩
  exact .loaded (List.mem_cons_of_mem _ (List.mem_cons_of_mem _ List.mem_cons_self))

omit [SymmetricPrimitives Key] [X3dhKdf Key] in
theorem warrants_openWith {sessions : List (Session Key)}
    (h : ∀ s ∈ sessions, Holds m n s.peerId s.peerPublicKey s.ratchet) : Warrants m (openWith message sessions) n := by
  induction sessions generalizing n with
  | nil => trivial
  | cons session sessions ih =>
    refine ⟨trivial, fun x => ?_⟩
    rcases x with ⟨ratchet, e | plaintext⟩
    · exact ih fun s hs => (h s (List.mem_cons_of_mem _ hs)).mono (List.subset_cons_self _ _)
    · have hs := (h session List.mem_cons_self).mono (List.subset_cons_self (⟨.decrypt session.ratchet message, (ratchet, .ok plaintext)⟩ : Done Key) n)
      exact ⟨⟨_, .decrypted hs List.mem_cons_self, .inl rfl⟩, fun _ => ⟨trivial, fun _ => trivial⟩⟩

omit [SymmetricPrimitives Key] [X3dhKdf Key] in
theorem warrants_handleIncomingContinuing : Warrants m (handleIncomingContinuing peerId message : Chat Key Unit) n := by
  refine ⟨trivial, fun session => ?_⟩
  rcases session with _ | session
  · trivial
  · refine ⟨trivial, fun x => ?_⟩
    rcases x with ⟨ratchet, e | plaintext⟩
    · trivial
    · have hs : Holds m (⟨.decrypt session.ratchet message, (ratchet, .ok plaintext)⟩ :: ⟨.loadSession peerId, some session⟩ :: n)
          peerId session.peerPublicKey session.ratchet := .loaded (List.mem_cons_of_mem _ List.mem_cons_self)
      exact ⟨⟨_, .decrypted hs List.mem_cons_self, .inl rfl⟩, fun _ => ⟨trivial, fun _ => trivial⟩⟩

omit [SymmetricPrimitives Key] [X3dhKdf Key] in
/-- A handshake is accepted under the id that `sender` gives, which has to be the key's. -/
theorem warrants_acceptHandshake {sender : List UInt8 → Option PeerId}
    (h : ∀ p, sender initialMessage.initiatorIdentity.bytes.toList = some p →
      initialMessage.initiatorAgreementKey.verify initialMessage.initiatorIdentity = .ok () →
      PeerIds.ofPublicKey initialMessage.initiatorIdentity.bytes.toList = some p) :
    Warrants m (acceptHandshake m sender initialMessage message : Chat Key Unit) n := by
  refine ⟨trivial, fun response => ?_⟩
  rcases response with e | sharedSecret
  · trivial
  · dsimp only [Prog.bind, Pure.pure]
    rcases hp : sender initialMessage.initiatorIdentity.bytes.toList with _ | p
    · trivial
    · refine ⟨trivial, fun secret => ⟨trivial, fun x => ?_⟩⟩
      rcases x with ⟨ratchet, e | plaintext⟩
      · trivial
      · refine ⟨⟨_, .decrypted (.responded ?_ (h p hp)) List.mem_cons_self, .inl rfl⟩, fun _ => ⟨trivial, fun _ => trivial⟩⟩
        exact List.mem_cons_of_mem _ (List.mem_cons_of_mem _ List.mem_cons_self)

omit [SymmetricPrimitives Key] [X3dhKdf Key] in
theorem warrants_handleIncomingHandshake
    (h : initialMessage.initiatorAgreementKey.verify initialMessage.initiatorIdentity = .ok () →
      PeerIds.ofPublicKey initialMessage.initiatorIdentity.bytes.toList = some peerId) :
    Warrants m (handleIncomingHandshake m peerId initialMessage message : Chat Key Unit) n := by
  unfold handleIncomingHandshake
  refine warrants_acceptHandshake fun p hp hv => ?_
  obtain rfl := Option.some.inj hp
  exact h hv

omit [SymmetricPrimitives Key] [X3dhKdf Key] in
theorem warrants_depositContinuing (h : Holds m n item.peerId session.peerPublicKey session.ratchet) :
    Warrants m (depositContinuing m item session) n := by
  refine ⟨trivial, fun x => ?_⟩
  rcases x with ⟨ratchet, e | ciphertext⟩
  · exact ⟨trivial, fun _ => ⟨trivial, fun _ => trivial⟩⟩
  · refine ⟨⟨_, .encrypted (h.mono (List.subset_cons_self _ _)) List.mem_cons_self, .inl rfl⟩, fun _ => ?_⟩
    exact ⟨trivial, fun _ => ⟨trivial, fun _ => ⟨trivial, fun _ => trivial⟩⟩⟩

omit [SymmetricPrimitives Key] [X3dhKdf Key] in
/-- The session goes under the key of the message that waits for it. -/
theorem warrants_handleCardFetched {card : Option PrekeyBundle}
    (h : ∀ c, card = some c → c.verify = .ok () → PeerIds.ofPublicKey c.identity.bytes.toList = some peerId) :
    Warrants m (handleCardFetched m peerId card : Chat Key Unit) n := by
  refine warrants_firstOutboxItem fun items => ?_
  rcases hfirst : firstItem items peerId with _ | item
  · exact ⟨trivial, fun _ => trivial⟩
  · dsimp only
    split
    · exact warrants_failed
    next c hc =>
    obtain ⟨hcard, hverify⟩ := Option.filter_eq_some_iff.mp hc
    have hv : c.verify = .ok () := by
      split at hverify
      · assumption
      · cases hverify
    have hid := h c hcard hv
    refine ⟨trivial, fun handshake => ?_⟩
    rcases handshake with e | handshake
    · exact warrants_failed
    · refine ⟨trivial, fun ratchet => ⟨trivial, fun x => ?_⟩⟩
      rcases x with ⟨ratchet', e | ciphertext⟩
      · exact warrants_failed
      · have hagreed : (⟨.initiate m.identity m.agreement c, .ok handshake⟩ : Done Key) ∈
            Done.next (.encrypt ratchet item.plaintext) (ratchet', .ok ciphertext)
              (Done.next (.initInitiator handshake.sharedSecret c.signedPrekey.publicKey) ratchet
                (Done.next (.initiate m.identity m.agreement c) (.ok handshake) (⟨.loadOutbox, items⟩ :: n))) :=
          List.mem_cons_of_mem _ (List.mem_cons_of_mem _ List.mem_cons_self)
        have hbegun := Holds.initiated hagreed (List.mem_cons_of_mem _ List.mem_cons_self) hid
        refine ⟨⟨_, .encrypted hbegun List.mem_cons_self,
          .inr ⟨items, ?_, item, List.mem_of_find?_eq_some hfirst, firstItem_peerId hfirst, rfl⟩⟩, fun _ => ?_⟩
        · exact List.mem_cons_of_mem _ (List.mem_cons_of_mem _ (List.mem_cons_of_mem _ List.mem_cons_self))
        · exact ⟨trivial, fun _ => ⟨trivial, fun _ => warrants_ite (fun _ => trivial) fun _ => warrants_failed⟩⟩

omit [SymmetricPrimitives Key] [X3dhKdf Key] in
theorem warrants_endWithFailure {reason : String} : Warrants m (endWithFailure peerId reason : Chat Key Unit) n :=
  endWithFailure_plain.keeps trivial warranted_of_plain

end

/-! ### What is asked of a `ChatManager` -/

/-- The ways in which it is called: it is made, its timer fires, the app sends a message, the node has an event. -/
inductive ChatCall where
  | start
  | sweep
  | send (peerId : PeerId) (peerPublicKey plaintext : List UInt8)
  | event (e : NodeEvent)

def ChatCall.program (m : ChatManager) : ChatCall → Chat Key Unit
  | .start => startChatManager m
  | .sweep => sweepMailboxRetrieval m
  | .send peerId peerPublicKey plaintext => do
    let _ ← sendMessage peerId peerPublicKey plaintext
    return ()
  | .event e => handleP2pEvent m e

/-- What comes from a peer names the identity key of that peer: a signed handshake on its connection, and a verified
card from it. The app addresses a message with the id of its recipient's key. -/
def ChatCall.Matched : ChatCall → Prop
  | .send peerId peerPublicKey _ => PeerIds.ofPublicKey peerPublicKey = some peerId
  | .event (.blobFetched peerId id (some card)) => id = contactCardBlobId → card.verify = .ok () →
      PeerIds.ofPublicKey card.identity.bytes.toList = some peerId
  | .event (.envelopeReceived fromPeerId (.handshake initialMessage _)) =>
    initialMessage.initiatorAgreementKey.verify initialMessage.initiatorIdentity = .ok () →
      PeerIds.ofPublicKey initialMessage.initiatorIdentity.bytes.toList = some fromPeerId
  | _ => True

omit [SymmetricPrimitives Key] [X3dhKdf Key] in
theorem warrants_handleP2pEvent {e : NodeEvent} (h : (ChatCall.event e).Matched) :
    Warrants m (handleP2pEvent m e : Chat Key Unit) n := by
  cases e with
  | peerConnected peerId =>
    refine ⟨trivial, fun _ => keeps_bind.2 ⟨trivial, fun state => ?_⟩⟩
    exact warrants_ite (fun _ => ⟨trivial, fun _ => warrants_attemptSend⟩) fun _ => warrants_attemptSend
  | peerDisconnected => exact ⟨trivial, fun _ => trivial⟩
  | dialFailed peerId reason =>
    cases peerId with
    | none => trivial
    | some peerId => exact warrants_inState fun _ => warrants_endWithFailure
  | blobFetched peerId id card =>
    refine warrants_ite (fun hid => warrants_inState fun _ => ?_) fun _ => trivial
    refine warrants_handleCardFetched fun c hc => ?_
    subst hc
    exact h hid
  | blobFetchFailed peerId id reason =>
    exact warrants_ite (fun _ => warrants_inState fun _ => warrants_endWithFailure) fun _ => trivial
  | envelopeReceived fromPeerId envelope =>
    cases envelope with
    | handshake initialMessage message => exact warrants_handleIncomingHandshake h
    | continuing message => exact warrants_handleIncomingContinuing
    | malformed => trivial
  | envelopeDelivered toPeerId =>
    refine warrants_inState fun n => keeps_bind.2 ⟨trivial, fun _ => warrants_firstOutboxItem fun items => ?_⟩
    rcases firstItem items toPeerId with _ | item
    · exact warrants_attemptSend
    · refine ⟨trivial, fun outbox => ⟨fun i hi => .inr ⟨outbox, List.mem_cons_self, (List.mem_filter.mp hi).1⟩, fun _ => ?_⟩⟩
      exact ⟨trivial, fun _ => warrants_attemptSend⟩
  | envelopeDeliveryFailed toPeerId reason =>
    refine warrants_inState fun n => warrants_firstOutboxItem fun items => ?_
    rcases hfirst : firstItem items toPeerId with _ | item
    · exact warrants_endWithFailure
    · obtain rfl := firstItem_peerId hfirst
      refine keeps_bind.2 ⟨trivial, fun session => ?_⟩
      rcases session with _ | session
      · exact warrants_endWithFailure
      · exact warrants_depositContinuing (.loaded List.mem_cons_self)
  | mailboxEnvelopeRetrieved envelope =>
    cases envelope with
    | handshake initialMessage message => exact warrants_acceptHandshake fun p hp _ => hp
    | continuing message =>
      exact ⟨trivial, fun sessions => warrants_openWith fun s hs => .listed List.mem_cons_self hs⟩
    | malformed => trivial

omit [SymmetricPrimitives Key] [X3dhKdf Key] in
theorem warrants_program {c : ChatCall} (h : c.Matched) : Warrants m (c.program m : Chat Key Unit) n := by
  cases c with
  | start =>
    refine ⟨trivial, fun card => ⟨trivial, fun _ => ⟨trivial, fun outbox => ⟨trivial, fun peerIds => ?_⟩⟩⟩⟩
    suffices hall : ∀ (peerIds : List PeerId) n, Warrants m (attemptSendEach peerIds : Chat Key Unit) n from
      hall peerIds _
    intro peerIds
    induction peerIds with
    | nil => exact fun _ => trivial
    | cons peerId peerIds ih => exact fun n => keeps_bind.2 (warrants_attemptSend.imp fun _ n _ => ih n)
  | sweep =>
    refine ⟨trivial, fun sessions => ?_⟩
    suffices hall : ∀ (sessions : List (Session Key)) n, Warrants m (sweep m sessions) n from hall _ _
    intro sessions
    induction sessions with
    | nil => exact fun _ => trivial
    | cons session sessions ih => exact fun n => ⟨trivial, fun _ => ih _⟩
  | send peerId peerPublicKey plaintext =>
    refine ⟨trivial, fun localId => ⟨trivial, fun outbox => ⟨fun item hitem => ?_, fun _ => ?_⟩⟩⟩
    · rcases List.mem_append.mp hitem with hitem | hitem
      · exact .inr ⟨outbox, List.mem_cons_self, hitem⟩
      · obtain rfl := List.mem_singleton.mp hitem
        exact .inl h
    · have hsend : ∀ n, (attemptSend peerId >>= fun _ => .pure localId : Chat Key ℕ).Keeps (Warranted m) Done.next
          (fun _ _ => True) n := fun _ => keeps_bind.2 (warrants_attemptSend.imp fun _ _ _ => trivial)
      exact keeps_bind.2 ((hsend _).imp fun _ _ _ => trivial)
  | event e => exact warrants_handleP2pEvent h

/-! ### The life of the files -/

/-- Threads on the files of a device, each with a note of all that it did. -/
abbrev ChatMachine (Key : Type) := Machine (chatOps Key) ℕ (Device Key) (List (Done Key)) Unit

/-- What happens to them. -/
abbrev ChatAct (Key : Type) := Machine.Act (chatOps Key) ℕ Env Unit

/-- Threads run calls of the manager, of the kind that `ok` allows. -/
def ChatAct.Calls (m : ChatManager) (ok : ChatCall → Prop) : ChatAct Key → Prop
  | .call _ p => ∃ c : ChatCall, p = c.program m ∧ ok c
  | _ => True

/-- The devices of an account. A process runs any number of threads and may end at any time; the next one begins
with the files that it left. -/
inductive Device.Lived (m : ChatManager) (ok : ChatCall → Prop) : Device Key → Prop
  | installed {d : Device Key} : d.sessions = [] → d.outbox = [] → Lived m ok d
  | ran {d : Device Key} {s : ChatMachine Key} : Lived m ok d →
      Machine.Reaches Device.perform Done.next (fun n => n) (fun _ => ChatAct.Calls m ok) (Machine.idle [] d) s →
      Lived m ok s.state
  | restarted {d d' : Device Key} : Lived m ok d → d'.sessions = d.sessions → d'.outbox = d.outbox → Lived m ok d'

/-- Threads that run matched calls keep the files in order. -/
theorem Device.Filed.run {s : ChatMachine Key} (hd : d.Filed m) (hinj : PeerIds.Injective)
    (h : Machine.Reaches Device.perform Done.next (fun n => n) (fun _ => ChatAct.Calls m ChatCall.Matched) (Machine.idle [] d) s) :
    s.state.Filed m := by
  have hrun : s.Orderly Done.next (Warranted m) (fun _ => True) (fun _ _ => True) ∧
      (s.state.Filed m ∧ ∀ t, ∀ e ∈ s.note t, Done.Genuine m e) := by
    refine h.induct (fun d note _ => d.Filed m ∧ ∀ t, ∀ e ∈ note t, Done.Genuine m e) (Machine.orderly_idle trivial)
      ⟨hd, fun _ e he => absurd he List.not_mem_nil⟩ ?_ (fun _ _ _ => trivial) ?_ ?_
    · rintro s t p n ⟨c, rfl, hc⟩ -
      exact warrants_program hc
    · rintro s t o k env - - ho ⟨hd, hn⟩
      refine ⟨hd.exec hinj ho (hn t), fun t' e he => ?_⟩
      by_cases htt : t' = t
      · subst htt
        rw [Function.update_self] at he
        rcases List.mem_cons.mp he with rfl | he
        · exact ⟨env, s.state, hd, rfl⟩
        · exact hn t' e he
      · rw [Function.update_of_ne htt] at he
        exact hn t' e he
    · rintro s t r - ⟨hd, hn⟩
      refine ⟨hd, fun t' => ?_⟩
      rw [Function.update_eq_self]
      exact hn t'
  exact hrun.2.1

/-- While what comes from a peer names that peer's identity key, every stored session is bound to its peer. -/
theorem sessions_bound (hinj : PeerIds.Injective) (h : Device.Lived m ChatCall.Matched d) : ∀ s ∈ d.sessions, s.Bound m := by
  have hfiled : d.Filed m := by
    induction h with
    | installed hs ho =>
      refine ⟨fun s h => ?_, fun item h => ?_⟩
      · rw [hs] at h
        cases h
      · rw [ho] at h
        cases h
    | ran _ hrun ih => exact ih.run hinj hrun
    | restarted _ hs ho ih => exact ⟨hs ▸ ih.sessions, ho ▸ ih.outbox⟩
  exact hfiled.sessions

end

/-! ### A peer with two keys -/

section
attribute [local instance] StandIn.x25519 StandIn.ed25519 StandIn.symmetricPrimitives StandIn.x3dhKdf StandIn.peerIds

namespace Impostor

def manager : ChatManager := ⟨⟨.replicate 32 1⟩, ⟨.replicate 32 2⟩⟩

def fresh : Device (List UInt8) where
  outbox := []
  sessions := []
  peerStates := .empty
  connectedPeers := []
  prekeys := .generate manager.identity (.replicate 32 3) []
  nextLocalId := 0
  commands := []
  events := []

def env : Env := ⟨.replicate 12 0, .replicate 32 4, true, fun _ => .refl _⟩

/-- The keys that the handshake is signed with. -/
def peer : ChatManager := ⟨⟨.replicate 32 9⟩, ⟨.replicate 32 8⟩⟩

def peerKey : List UInt8 := peer.identity.publicKey.bytes.toList

def card : PrekeyBundle :=
  (fresh.prekeys.publicBundle manager.identity.publicKey (manager.agreement.signWith manager.identity)).2

/-- A first message under these keys, on the connection of `fromPeerId`. -/
def contact (fromPeerId : PeerId) : NodeEvent :=
  match (x3dhInitiate (.replicate 32 7) peer.identity peer.agreement card : Except _ (HandshakeResult (List UInt8))) with
  | .error _ => .peerDisconnected fromPeerId
  | .ok handshake =>
    let ratchet := DoubleRatchet.initInitiator (.replicate 32 6) handshake.sharedSecret card.signedPrekey.publicKey
    match (ratchet.encrypt env.nonce [0x68] []).2 with
    | .error _ => .peerDisconnected fromPeerId
    | .ok message => .envelopeReceived fromPeerId (.handshake handshake.initialMessage message)

def acts (fromPeerId : PeerId) : List (ChatAct (List UInt8)) :=
  .call 0 ((ChatCall.event (contact fromPeerId)).program manager) :: List.replicate 5 (.step 0 env)

def after (fromPeerId : PeerId) : ChatMachine (List UInt8) :=
  (acts fromPeerId).foldl (Machine.act Device.perform Done.next fun n => n) (Machine.idle [] fresh)

theorem lived (fromPeerId : PeerId) {ok : ChatCall → Prop} (h : ok (.event (contact fromPeerId))) :
    Device.Lived manager ok (after fromPeerId).state := by
  have hcalls : ∀ a ∈ acts fromPeerId, ChatAct.Calls manager ok a := by
    intro a ha
    rcases List.mem_cons.mp ha with rfl | ha
    · exact ⟨_, rfl, h⟩
    · obtain rfl := List.eq_of_mem_replicate ha
      trivial
  exact .ran (.installed rfl rfl) ((Machine.Reaches.refl _).foldl (Machine.follows_of_forall fun a ha _ => hcalls a ha))

end Impostor

open Impostor in
theorem sessions_bound_contact :
    PeerIds.Injective ∧ (after peerKey).state.sessions.map (·.peerId) = [peerKey] ∧
      ∀ s ∈ (after peerKey).state.sessions, s.Bound manager := by
  have hinj : PeerIds.Injective := fun a b p ha hb => Option.some.inj (ha.trans hb.symm)
  have hmatched : (ChatCall.event (contact peerKey)).Matched := fun _ => by decide +kernel
  exact ⟨hinj, by decide +kernel, sessions_bound hinj (lived peerKey hmatched)⟩

open Impostor in
/-- A handshake that is signed with another key than that of the connection is stored under the connection's peer. -/
theorem handshake_takes_other_peer :
    PeerIds.Injective ∧
    ∃ d : Device (List UInt8), Device.Lived manager (· = .event (contact (List.replicate 32 5))) d ∧
      ∃ s ∈ d.sessions, PeerIds.ofPublicKey s.peerPublicKey ≠ some s.peerId := by
  refine ⟨fun a b p ha hb => Option.some.inj (ha.trans hb.symm), _, lived (List.replicate 32 5) rfl, ?_⟩
  have hs : (after (List.replicate 32 5)).state.sessions.map (fun s => (s.peerId, s.peerPublicKey)) =
      [(List.replicate 32 5, peerKey)] := by decide +kernel
  obtain ⟨s, hmem, heq⟩ := List.mem_map.mp (hs ▸ List.mem_cons_self)
  refine ⟨s, hmem, ?_⟩
  obtain ⟨h1, h2⟩ := Prod.mk.inj heq
  rw [h1, h2]
  decide +kernel

end
end SpiritChat
