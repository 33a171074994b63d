import SpiritChat.Theorems.KeyPlaces
import SpiritChat.Theorems.Outbox

/-! # A session under two threads

The JS thread and the event pump each read a contact's session from its file, use its ratchet and write it back. As
long as no thread uses a session that the other one has used or replaced since it was read, the file always holds
the outcome of every use, one after the other. -/

namespace SpiritChat
open Lib Prog

section
variable {Key : Type}

/-- What a ratchet was used for. -/
inductive RatchetUse where
  | encrypt (plaintext : List UInt8) (message : RatchetMessage)
  | decrypt (message : RatchetMessage) (plaintext : List UInt8)

/-- A use of a ratchet that went well. -/
structure RatchetStep (Key : Type) where
  before : DoubleRatchet Key
  use : RatchetUse
  after : DoubleRatchet Key

/-- What a thread's handler has done with the sessions, and what the thread has done since its start. -/
structure SessionNote (Key : Type) where
  /-- the peers and ratchets that it read and has still to try, first the one in hand -/
  loaded : List (PeerId × DoubleRatchet Key)
  /-- a use whose outcome is not in the file yet -/
  pending : Option (PeerId × RatchetStep Key)
  /-- the uses whose outcomes were saved -/
  saved : List (PeerId × RatchetStep Key)

namespace SessionNote

/-- The note of a thread at its start. -/
def blank : SessionNote Key := ⟨[], none, []⟩

/-- A use of the session in hand. -/
def used (n : SessionNote Key) (step : RatchetStep Key) : SessionNote Key :=
  { n with pending := n.loaded.head?.map fun inHand => (inHand.1, step) }

def next : (o : ChatOp Key) → o.Res → SessionNote Key → SessionNote Key
  | .loadSession peerId, session, n => { n with loaded := (session.map fun s => (peerId, s.ratchet)).toList }
  | .loadAllSessions, sessions, n => { n with loaded := sessions.map fun s => (s.peerId, s.ratchet) }
  | .encrypt ratchet plaintext, (ratchet', .ok message), n => n.used ⟨ratchet, .encrypt plaintext message, ratchet'⟩
  | .decrypt ratchet message, (ratchet', .ok plaintext), n => n.used ⟨ratchet, .decrypt message plaintext, ratchet'⟩
  | .decrypt _ _, (_, .error _), n => { n with loaded := n.loaded.tail }
  | .saveSession _, _, n => { n with pending := none, saved := n.saved ++ n.pending.toList }
  | _, _, n => n

/-- Between two handlers. -/
def rest (n : SessionNote Key) : SessionNote Key := { n with loaded := [] }

/-- A handler uses the ratchet of the session in hand, and saves what came of it under the same peer. -/
def allowed (n : SessionNote Key) : ChatOp Key → Prop
  | .encrypt ratchet _ => n.pending = none ∧ ∃ peerId, n.loaded.head? = some (peerId, ratchet)
  | .decrypt ratchet _ => n.pending = none ∧ ∃ peerId, n.loaded.head? = some (peerId, ratchet)
  | .saveSession session => ∃ step, n.pending = some (session.peerId, step) ∧ step.after = session.ratchet
  | _ => True

/-- The operations that have nothing to do with sessions. -/
def Quiet : ChatOp Key → Prop
  | .encrypt _ _ => False
  | .decrypt _ _ => False
  | .saveSession _ => False
  | .loadSession _ => False
  | .loadAllSessions => False
  | _ => True

/-- Nothing waits to be saved. -/
def Settled (n : SessionNote Key) : Prop := n.pending = none

theorem Quiet.next_eq {o : ChatOp Key} (h : Quiet o) (r : o.Res) (n : SessionNote Key) : next o r n = n := by
  cases o <;> first | rfl | exact h.elim

theorem Settled.keeps {α : Type} {p : Chat Key α} {n : SessionNote Key} (hn : n.Settled) (h : p.Only Quiet) :
    p.Keeps allowed next (fun _ => Settled) n := by
  refine h.keeps hn fun o m ho hm => ⟨?_, fun r => (ho.next_eq r m).symm ▸ hm⟩
  cases o <;> trivial

end SessionNote

/-! ### The handlers keep to the protocol -/

open SessionNote

variable {peerId : PeerId} {item : OutboxItem} {session : Session Key} {message : RatchetMessage} {n : SessionNote Key}

/-- After a use comes a save. -/
theorem used_settles (session : Session Key) (step : RatchetStep Key)
    (hs : n.loaded.head? = some (session.peerId, step.before)) (ha : step.after = session.ratchet) :
    (n.used step).allowed (.saveSession session) ∧ (next (.saveSession session) () (n.used step)).Settled :=
  ⟨⟨step, congrArg (Option.map fun inHand : PeerId × DoubleRatchet Key => (inHand.1, step)) hs, ha⟩, rfl⟩

/-- A plain operation leaves what waits to be saved alone. -/
theorem settled_of_plain (o : ChatOp Key) (n : SessionNote Key) (ho : o.Plain) (hn : n.Settled) :
    n.allowed o ∧ ∀ r, (next o r n).Settled := by
  cases o <;> first | exact ho.elim | exact ⟨trivial, fun _ => hn⟩

theorem attemptSend_saves (hn : n.Settled) :
    (attemptSend peerId : Chat Key Unit).Keeps allowed next (fun _ => Settled) n := by
  refine attemptSend_keeps settled_of_plain hn fun item session n hpeer hn => ?_
  subst hpeer
  refine sendContinuing_keeps settled_of_plain ⟨hn, _, rfl⟩ (fun _ _ => hn) fun ratchet ciphertext => ?_
  exact used_settles ⟨item.peerId, session.peerPublicKey, ratchet⟩
    ⟨session.ratchet, .encrypt item.plaintext ciphertext, ratchet⟩ rfl rfl

theorem sending_saves {peerPublicKey plaintext : List UInt8} (hn : n.Settled) :
    (sending peerId peerPublicKey plaintext : Chat Key _).Keeps allowed next (fun _ => Settled) n := by
  unfold sending sendMessage
  simp only [keeps_bind]
  refine ⟨trivial, fun localId => ⟨trivial, fun outbox => ⟨trivial, fun _ => ?_⟩⟩⟩
  exact (keeps_bind (p := attemptSend peerId) (f := fun _ => .pure localId)).2 (attemptSend_saves hn)

theorem handleIncomingContinuing_saves (hn : n.Settled) :
    (handleIncomingContinuing peerId message : Chat Key Unit).Keeps allowed next (fun _ => Settled) n := by
  refine ⟨trivial, fun session => ?_⟩
  rcases session with _ | session
  · exact hn
  · refine ⟨⟨hn, _, rfl⟩, fun r => ?_⟩
    rcases r with ⟨ratchet, e | plaintext⟩
    · exact hn
    · obtain ⟨hsave, hsettled⟩ := used_settles (n := next (.loadSession peerId) (some session) n) ⟨peerId, session.peerPublicKey, ratchet⟩
        ⟨session.ratchet, .decrypt message plaintext, ratchet⟩ rfl rfl
      exact ⟨hsave, fun _ => ⟨trivial, fun _ => hsettled⟩⟩

theorem openWith_saves {sessions : List (Session Key)} (hn : n.Settled)
    (hs : n.loaded = sessions.map fun s => (s.peerId, s.ratchet)) :
    (openWith message sessions).Keeps allowed next (fun _ => Settled) n := by
  induction sessions generalizing n with
  | nil => exact hn
  | cons session sessions ih =>
    have hhead : n.loaded.head? = some (session.peerId, session.ratchet) := by
      rw [hs]
      rfl
    refine ⟨⟨hn, _, hhead⟩, fun r => ?_⟩
    rcases r with ⟨ratchet, e | plaintext⟩
    · refine ih hn ?_
      exact (congrArg List.tail hs).trans rfl
    · obtain ⟨hsave, hsettled⟩ := used_settles ⟨session.peerId, session.peerPublicKey, ratchet⟩
        ⟨session.ratchet, .decrypt message plaintext, ratchet⟩ hhead rfl
      exact ⟨hsave, fun _ => ⟨trivial, fun _ => hsettled⟩⟩

/-- The events that the sessions at hand are enough for: neither a handshake nor a contact card. -/
def NodeEvent.Ongoing : NodeEvent → Prop
  | .blobFetched .. => False
  | .envelopeReceived _ (.handshake ..) => False
  | .mailboxEnvelopeRetrieved (.handshake ..) => False
  | _ => True

variable [X25519] [Ed25519] {m : ChatManager}

omit [X25519] in
theorem depositContinuing_saves (hn : n.Settled) (hs : n.loaded.head? = some (item.peerId, session.ratchet)) :
    (depositContinuing m item session).Keeps allowed next (fun _ => Settled) n := by
  refine ⟨⟨hn, _, hs⟩, fun r => ?_⟩
  rcases r with ⟨ratchet, e | ciphertext⟩
  · exact ⟨trivial, fun _ => ⟨trivial, fun _ => hn⟩⟩
  · obtain ⟨hsave, hsettled⟩ := used_settles ⟨item.peerId, session.peerPublicKey, ratchet⟩
        ⟨session.ratchet, .encrypt item.plaintext ciphertext, ratchet⟩ hs rfl
    exact ⟨hsave, fun _ => ⟨trivial, fun _ => ⟨trivial, fun _ => ⟨trivial, fun _ => hsettled⟩⟩⟩⟩

theorem handleP2pEvent_saves [PeerIds] {event : NodeEvent} (he : event.Ongoing) (hn : n.Settled) :
    (handleP2pEvent m event : Chat Key Unit).Keeps allowed next (fun _ => Settled) n := by
  cases event with
  | peerConnected peerId =>
    refine ⟨trivial, fun _ => ⟨trivial, fun state => ?_⟩⟩
    dsimp only [Prog.bind, Pure.pure]
    split
    · exact ⟨trivial, fun _ => attemptSend_saves hn⟩
    · exact attemptSend_saves hn
  | peerDisconnected peerId => exact ⟨trivial, fun _ => hn⟩
  | dialFailed peerId reason =>
    rcases peerId with _ | peerId
    · exact hn
    · exact ⟨trivial, fun _ => Only.keeps (endWithFailure_plain.ite (only_pure _)) hn settled_of_plain⟩
  | blobFetched => exact he.elim
  | blobFetchFailed peerId id reason =>
    dsimp only [handleP2pEvent]
    split
    · exact ⟨trivial, fun _ => Only.keeps (endWithFailure_plain.ite (only_pure _)) hn settled_of_plain⟩
    · exact hn
  | envelopeReceived fromPeerId envelope =>
    cases envelope with
    | handshake => exact he.elim
    | continuing => exact handleIncomingContinuing_saves hn
    | malformed => exact hn
  | envelopeDelivered toPeerId =>
    refine ⟨trivial, fun state => ?_⟩
    dsimp only [Prog.bind, Pure.pure]
    split
    · refine ⟨trivial, fun _ => ⟨trivial, fun outbox => ?_⟩⟩
      dsimp only [Prog.bind, Pure.pure]
      rcases firstItem outbox toPeerId with _ | item
      · exact attemptSend_saves hn
      · exact ⟨trivial, fun _ => ⟨trivial, fun _ => ⟨trivial, fun _ => attemptSend_saves hn⟩⟩⟩
    · exact hn
  | envelopeDeliveryFailed toPeerId reason =>
    refine ⟨trivial, fun state => ?_⟩
    dsimp only [Prog.bind, Pure.pure]
    split
    · refine ⟨trivial, fun outbox => ?_⟩
      dsimp only [Prog.bind, Pure.pure]
      rcases hfirst : firstItem outbox toPeerId with _ | item
      · exact endWithFailure_plain.keeps hn settled_of_plain
      · obtain rfl := firstItem_peerId hfirst
        refine ⟨trivial, fun session => ?_⟩
        rcases session with _ | session
        · exact endWithFailure_plain.keeps hn settled_of_plain
        · exact depositContinuing_saves hn rfl
    · exact hn
  | mailboxEnvelopeRetrieved envelope =>
    cases envelope with
    | handshake => exact he.elim
    | continuing message => exact ⟨trivial, fun sessions => openWith_saves hn rfl⟩
    | malformed => exact hn

theorem handling_saves [PeerIds] {event : NodeEvent} (he : event.Ongoing) (hn : n.Settled) :
    (handling m event : Chat Key _).Keeps allowed next (fun _ => Settled) n :=
  keeps_bind.2 (handleP2pEvent_saves he hn)

/-! ### Uses one after the other -/

variable [SymmetricPrimitives Key]

/-- The use is one that the ratchet before it allows. -/
def RatchetStep.Valid (s : RatchetStep Key) : Prop :=
  match s.use with
  | .encrypt plaintext message => ∃ nonce, s.before.encrypt nonce plaintext [] = (s.after, .ok message)
  | .decrypt message plaintext => ∃ fresh, s.before.decrypt fresh message.1 message.2 [] = (s.after, .ok plaintext)

/-- The plaintext of an encryption. -/
def RatchetStep.sealedText (s : RatchetStep Key) : Option (List UInt8) :=
  match s.use with
  | .encrypt plaintext _ => some plaintext
  | .decrypt _ _ => none

/-- The message key that an encryption takes. -/
def RatchetStep.sealingKey (s : RatchetStep Key) : Option (MessageKey Key) :=
  match s.use with
  | .encrypt _ _ => s.before.sendingChain.map (·.ratchet.1)
  | .decrypt _ _ => none

/-- The message key that a decryption takes. -/
def RatchetStep.openingKey (s : RatchetStep Key) : Option (MessageKey Key) :=
  match s.use with
  | .encrypt _ _ => none
  | .decrypt message _ => s.before.openingKey message.1

/-- The uses lead from one ratchet to the other. -/
inductive Linked : DoubleRatchet Key → List (RatchetStep Key) → DoubleRatchet Key → Prop
  | nil (r : DoubleRatchet Key) : Linked r [] r
  | concat {r : DoubleRatchet Key} {trace : List (RatchetStep Key)} {s : RatchetStep Key} (h : Linked r trace s.before)
      (hs : s.Valid) : Linked r (trace ++ [s]) s.after

/-- What the keys of earlier uses are to a ratchet: each was taken for one encryption, and the keys that opened
something are used up. -/
structure KeysUsed (sharedSecret : Key) (trace : List (RatchetStep Key)) (send recv : Place) (r : DoubleRatchet Key) :
    Prop where
  sealing : ∀ k ∈ trace.filterMap RatchetStep.sealingKey, ∃ p < send, MessageKey.At sharedSecret p k
  once : (trace.filterMap RatchetStep.sealingKey).Nodup
  opening : ∀ k ∈ trace.filterMap RatchetStep.openingKey, Spent sharedSecret recv r.skipped k

variable {sharedSecret : Key} {trace : List (RatchetStep Key)} {r r' : DoubleRatchet Key}

omit [X25519] [Ed25519] [SymmetricPrimitives Key] in
theorem mem_filterMap_concat {f : RatchetStep Key → Option (MessageKey Key)} {s : RatchetStep Key} {k : MessageKey Key} :
    k ∈ (trace ++ [s]).filterMap f ↔ k ∈ trace.filterMap f ∨ f s = some k := by
  rw [List.filterMap_append, List.mem_append, List.mem_filterMap (l := [s])]
  simp only [List.mem_singleton, exists_eq_left]

omit [Ed25519] in
theorem KeysUsed.concat (ic : IdealCrypto sharedSecret) {send send' recv recv' : Place} {s : RatchetStep Key}
    (h : KeysUsed sharedSecret trace send recv r) (hle : send ≤ send')
    (hsealing : ∀ k, s.sealingKey = some k → k.At sharedSecret send ∧ send < send')
    (hopening : ∀ k, s.openingKey = some k → Spent sharedSecret recv' r'.skipped k)
    (hothers : ∀ k, Spent sharedSecret recv r.skipped k → Spent sharedSecret recv' r'.skipped k) :
    KeysUsed sharedSecret (trace ++ [s]) send' recv' r' := by
  refine ⟨fun k hk => ?_, ?_, fun k hk => ?_⟩
  · rcases mem_filterMap_concat.1 hk with hk | hk
    · exact (h.sealing k hk).imp fun _ hp => ⟨hp.1.trans_le hle, hp.2⟩
    · exact ⟨send, (hsealing k hk).2, (hsealing k hk).1⟩
  · rw [List.filterMap_append]
    rcases hs : s.sealingKey with _ | k
    · simpa [hs] using h.once
    · have hnot : k ∉ trace.filterMap RatchetStep.sealingKey := by
        intro hk
        obtain ⟨p, hp, hat⟩ := h.sealing k hk
        exact hp.ne (ic.at_inj hat (hsealing k hs).1)
      have hone : [s].filterMap RatchetStep.sealingKey = [k] := by simp [hs]
      rw [hone]
      have := h.once.concat hnot
      rwa [List.concat_eq_append] at this
  · rcases mem_filterMap_concat.1 hk with hk | hk
    · exact hothers k (h.opening k hk)
    · exact hopening k hk

omit [Ed25519] in
/-- In a row of uses no key is taken for two encryptions, and what was opened stays so. -/
theorem Linked.keysUsed (ic : IdealCrypto sharedSecret) (hg : Genuine sharedSecret r) (h : Linked r trace r') :
    ∃ k send recv, Placed sharedSecret k send recv r' ∧ KeysUsed sharedSecret trace send recv r' := by
  induction h with
  | nil =>
    obtain ⟨k, send, recv, hplaced⟩ := hg.placed ic
    exact ⟨k, send, recv, hplaced, fun _ h => absurd h List.not_mem_nil, List.nodup_nil,
      fun _ h => absurd h List.not_mem_nil⟩
  | @concat trace s h hs ih =>
    obtain ⟨n, send, recv, hplaced, hused⟩ := ih
    obtain ⟨before, use, after⟩ := s
    cases use with
    | encrypt plaintext message =>
      obtain ⟨nonce, he⟩ := hs
      obtain ⟨send', hle, hplaced', hkey⟩ := hplaced.encrypt nonce plaintext []
      have hskipped := before.skipped_encrypt nonce plaintext []
      dsimp only at he
      rw [he] at hplaced' hskipped
      refine ⟨n, send', recv, hplaced', hused.concat ic hle ?_ ?_ ?_⟩
      · intro k hk
        obtain ⟨c, hc, rfl⟩ := Option.map_eq_some_iff.1 hk
        exact hkey c hc
      · exact fun k hk => absurd hk (by simp [RatchetStep.openingKey])
      · rw [show after.skipped = before.skipped from hskipped]
        exact fun k hk => hk
    | decrypt message plaintext =>
      obtain ⟨fresh, hd⟩ := hs
      obtain ⟨key, hkey⟩ := DoubleRatchet.decrypt_ok hd
      obtain ⟨n', send', recv', hplaced', hle, hspent, hothers⟩ := hplaced.receivingKey ic hkey
      refine ⟨n', send', recv', hplaced', hused.concat ic hle ?_ ?_ fun k hk => (hothers k hk).2⟩
      · exact fun k hk => absurd hk (by simp [RatchetStep.sealingKey])
      · intro k hk
        have hopen : before.openingKey message.1 = some k := hk
        rw [DoubleRatchet.openingKey_eq hkey] at hopen
        exact Option.some.inj hopen ▸ hspent

/-! ### Runs of both threads -/

/-- The two threads on the files of a device, with a note each on its sessions. -/
abbrev SessionMachine (Key : Type) := Machine (chatOps Key) ChatThread (Device Key) (SessionNote Key) (Option OutboxItem)

/-- The file of a peer holds this ratchet. -/
def Device.Holds (d : Device Key) (peerId : PeerId) (r : DoubleRatchet Key) : Prop :=
  (d.sessions.find? (·.peerId = peerId)).map (·.ratchet) = some r

instance [DecidableEq Key] (d : Device Key) (peerId : PeerId) (r : DoubleRatchet Key) : Decidable (d.Holds peerId r) :=
  inferInstanceAs (Decidable (_ = _))

/-- The ratchet in hand is still in the file, and the other thread is not between a use of it and its save. -/
def SessionNote.Exclusive (d : Device Key) (note : ChatThread → SessionNote Key) (t : ChatThread) : Prop :=
  match (note t).loaded with
  | [] => True
  | (peerId, r) :: _ => d.Holds peerId r ∧ (note t.other).pending.map (·.1) ≠ some peerId

/-- The uses for one peer. -/
def ofPeer (peerId : PeerId) (uses : List (PeerId × RatchetStep Key)) : List (RatchetStep Key) :=
  (uses.filter (·.1 = peerId)).map (·.2)

namespace SessionMachine

/-- The JS thread calls `sendMessage` and the event pump handles ongoing events. -/
def Drives [PeerIds] (m : ChatManager) : OutboxAct Key → Prop
  | .call .js p => ∃ peerId peerPublicKey plaintext, p = sending peerId peerPublicKey plaintext
  | .call .pump p => ∃ event : NodeEvent, event.Ongoing ∧ p = handling m event
  | _ => True

instance [DecidableEq Key] (d : Device Key) (note : ChatThread → SessionNote Key) (t : ChatThread) :
    Decidable (Exclusive d note t) := by
  unfold Exclusive
  split <;> infer_instance

/-- A thread that uses a ratchet has it for itself. -/
def Unraced (s : SessionMachine Key) : OutboxAct Key → Prop
  | .step t _ =>
    match s.threads t with
    | some (.op (.encrypt _ _) _) => Exclusive s.state s.note t
    | some (.op (.decrypt _ _) _) => Exclusive s.state s.note t
    | _ => True
  | _ => True

instance [DecidableEq Key] (s : SessionMachine Key) : (a : OutboxAct Key) → Decidable (Unraced s a)
  | .step t _ => by
    unfold Unraced
    dsimp only
    split <;> infer_instance
  | .call _ _ => .isTrue trivial
  | .finish _ => .isTrue trivial

/-- The uses of a peer's ratchet by a thread, with one that was not saved yet. -/
def performed (s : SessionMachine Key) (peerId : PeerId) (t : ChatThread) : List (RatchetStep Key) :=
  ofPeer peerId ((s.note t).saved ++ (s.note t).pending.toList)

/-- The uses of a peer's ratchet by a thread that were saved. -/
def completed (s : SessionMachine Key) (peerId : PeerId) (t : ChatThread) : List (RatchetStep Key) :=
  ofPeer peerId (s.note t).saved

end SessionMachine

variable [X3dhKdf Key] {d d' : Device Key} {env : Env}
  {note note' : ChatThread → SessionNote Key} {t : ChatThread}

omit [X25519] [Ed25519] [SymmetricPrimitives Key] [X3dhKdf Key] in
theorem SessionNote.Exclusive.inHand {inHand : PeerId} (h : Exclusive d note t)
    (hhead : (note t).loaded.head? = some (inHand, r)) :
    d.Holds inHand r ∧ ∀ t' ≠ t, ∀ step, (note t').pending ≠ some (inHand, step) := by
  obtain ⟨rest, hl⟩ := List.head?_eq_some_iff.1 hhead
  unfold Exclusive at h
  rw [hl] at h
  refine ⟨h.1, fun t' hne step hp => h.2 ?_⟩
  rw [← ChatThread.eq_other hne, hp]
  rfl

/-- The file of a peer holds what the saved uses lead to, and at most one use waits to be saved. -/
def SessionInv (peerId : PeerId) (r : DoubleRatchet Key) (d : Device Key) (note : ChatThread → SessionNote Key) : Prop :=
  ∃ trace r', d.Holds peerId r' ∧ Linked r trace r' ∧
    trace.Perm (ofPeer peerId (note .js).saved ++ ofPeer peerId (note .pump).saved) ∧
    ∀ t step, (note t).pending = some (peerId, step) →
      step.Valid ∧ step.before = r' ∧ ∀ t' step', (note t').pending = some (peerId, step') → t' = t

namespace SessionInv

omit [Ed25519] [X3dhKdf Key] in
theorem congr (h : SessionInv peerId r d note) (hd : d'.sessions = d.sessions)
    (hp : ∀ t, (note' t).pending = (note t).pending) (hs : ∀ t, (note' t).saved = (note t).saved) :
    SessionInv peerId r d' note' := by
  unfold SessionInv Device.Holds
  simp only [hd, hp, hs]
  exact h

omit [Ed25519] [X3dhKdf Key] in
/-- A use by the only thread that has the ratchet in hand. -/
theorem used (h : SessionInv peerId r d note) (step : RatchetStep Key) {inHand : PeerId}
    (hhead : (note t).loaded.head? = some (inHand, step.before)) (hv : step.Valid)
    (hexcl : d.Holds inHand step.before ∧ ∀ t' ≠ t, ∀ step, (note t').pending ≠ some (inHand, step)) :
    SessionInv peerId r d (Function.update note t ((note t).used step)) := by
  have hpending : ((note t).used step).pending = some (inHand, step) :=
    congrArg (Option.map fun inHand : PeerId × DoubleRatchet Key => (inHand.1, step)) hhead
  have hs := Machine.proj_update note t SessionNote.saved (n := (note t).used step) rfl
  obtain ⟨trace, r', hholds, hlinked, hperm, hwait⟩ := h
  refine ⟨trace, r', hholds, hlinked, by rwa [hs, hs], fun t' step' h' => ?_⟩
  have hcases : ∀ t' step', (Function.update note t ((note t).used step) t').pending = some (peerId, step') →
      (t' = t ∧ inHand = peerId ∧ step = step') ∨ (t' ≠ t ∧ (note t').pending = some (peerId, step')) := by
    intro t' step' h'
    rcases eq_or_ne t' t with rfl | hne
    · rw [Function.update_self, hpending] at h'
      obtain ⟨rfl, rfl⟩ := Prod.mk.inj (Option.some.inj h')
      exact .inl ⟨rfl, rfl, rfl⟩
    · rw [Function.update_of_ne hne] at h'
      exact .inr ⟨hne, h'⟩
  rcases hcases t' step' h' with ⟨rfl, rfl, rfl⟩ | ⟨hne, h'⟩
  · refine ⟨hv, Option.some.inj (hexcl.1.symm.trans hholds), fun t'' step'' h'' => ?_⟩
    rcases hcases t'' step'' h'' with ⟨rfl, -, -⟩ | ⟨hne, h''⟩
    · rfl
    · exact absurd h'' (hexcl.2 t'' hne step'')
  · obtain ⟨hv', hb', hone⟩ := hwait t' step' h'
    refine ⟨hv', hb', fun t'' step'' h'' => ?_⟩
    rcases hcases t'' step'' h'' with ⟨-, rfl, -⟩ | ⟨-, h''⟩
    · exact absurd h' (hexcl.2 t' hne step')
    · exact hone t'' step'' h''

omit [X25519] [Ed25519] [SymmetricPrimitives Key] [X3dhKdf Key] in
theorem holds_putSession {session : Session Key} : Device.Holds { d with sessions := Device.putSession d.sessions session }
    peerId r ↔ if session.peerId = peerId then session.ratchet = r else d.Holds peerId r := by
  unfold Device.Holds Device.putSession
  split
  · rename_i he
    rw [List.find?_cons_of_pos (by simpa using he)]
    exact Option.some_inj
  · rename_i hne
    have hp : (fun a : Session Key => decide (decide (a.peerId ≠ session.peerId) = true ∧ decide (a.peerId = peerId) = true)) =
        fun a => decide (a.peerId = peerId) := by
      funext a
      simp only [decide_eq_true_eq, decide_eq_decide, and_iff_right_iff_imp]
      rintro rfl heq
      exact hne heq.symm
    rw [List.find?_cons_of_neg (by simpa using hne), List.find?_filter, hp]

omit [Ed25519] [X3dhKdf Key] in
/-- What a use led to is saved, and the use is part of the row. -/
theorem save (h : SessionInv peerId r d note) {step : RatchetStep Key} {session : Session Key}
    (hwaits : (note t).pending = some (session.peerId, step)) (ha : step.after = session.ratchet) :
    SessionInv peerId r { d with sessions := Device.putSession d.sessions session }
      (Function.update note t (next (.saveSession session) () (note t))) := by
  have hsaved : (next (.saveSession session) () (note t)).saved = (note t).saved ++ [(session.peerId, step)] := by
    simp only [next, hwaits, Option.toList_some]
  obtain ⟨trace, r', hholds, hlinked, hperm, hwait⟩ := h
  have hrest : ∀ t' step', (Function.update note t (next (.saveSession session) () (note t)) t').pending =
      some (peerId, step') → t' ≠ t ∧ (note t').pending = some (peerId, step') := by
    intro t' step' h'
    rcases eq_or_ne t' t with rfl | hne
    · rw [Function.update_self] at h'
      exact absurd h' (by simp [next])
    · rw [Function.update_of_ne hne] at h'
      exact ⟨hne, h'⟩
  rcases eq_or_ne session.peerId peerId with rfl | hne
  · obtain ⟨hv, rfl, hone⟩ := hwait t step hwaits
    refine ⟨trace ++ [step], step.after, holds_putSession.2 ?_, hlinked.concat hv, ?_, fun t' step' h' => ?_⟩
    · rw [if_pos rfl, ha]
    · have hmine : ofPeer session.peerId (Function.update note t (next (.saveSession session) () (note t)) t).saved =
          ofPeer session.peerId (note t).saved ++ [step] := by
        rw [Function.update_self, hsaved]
        simp [ofPeer]
      cases t with
      | js =>
        rw [hmine, Function.update_of_ne (by simp)]
        refine (hperm.append_right [step]).trans ?_
        rw [List.append_assoc, List.append_assoc]
        exact List.perm_append_comm.append_left _
      | pump =>
        rw [hmine, Function.update_of_ne (by simp), ← List.append_assoc]
        exact hperm.append_right [step]
    · obtain ⟨hne, h'⟩ := hrest t' step' h'
      exact absurd (hone t' step' h') hne
  · refine ⟨trace, r', holds_putSession.2 ?_, hlinked, ?_, fun t' step' h' => ?_⟩
    · rwa [if_neg hne]
    · have hsame : ∀ t', ofPeer peerId (Function.update note t (next (.saveSession session) () (note t)) t').saved =
          ofPeer peerId (note t').saved := by
        refine Machine.proj_update _ _ (fun n : SessionNote Key => ofPeer peerId n.saved) ?_
        rw [hsaved]
        simp [ofPeer, hne]
      rwa [hsame, hsame]
    · obtain ⟨-, h'⟩ := hrest t' step' h'
      obtain ⟨hv, hb, hone⟩ := hwait t' step' h'
      exact ⟨hv, hb, fun t'' step'' h'' => hone t'' step'' (hrest t'' step'' h'').2⟩

/-- What an allowed operation preserves. -/
theorem step (h : SessionInv peerId r d note) {o : ChatOp Key} (ha : (note t).allowed o)
    (hexcl : (∃ r p, o = .encrypt r p) ∨ (∃ r m, o = .decrypt r m) → Exclusive d note t) :
    SessionInv peerId r (d.exec env o).2 (Function.update note t (next o (d.exec env o).1 (note t))) := by
  have hkept : (d.exec env o).2.sessions = d.sessions → (next o (d.exec env o).1 (note t)).pending = (note t).pending →
      (next o (d.exec env o).1 (note t)).saved = (note t).saved →
      SessionInv peerId r (d.exec env o).2 (Function.update note t (next o (d.exec env o).1 (note t))) :=
    fun hd hp hs => h.congr hd (Machine.proj_update _ _ SessionNote.pending hp) (Machine.proj_update _ _ SessionNote.saved hs)
  cases o with
  | saveSession session =>
    obtain ⟨step, hwaits, hafter⟩ := ha
    exact h.save hwaits hafter
  | encrypt ratchet plaintext =>
    obtain ⟨-, inHand, hhead⟩ := ha
    have hx := (hexcl (.inl ⟨_, _, rfl⟩)).inHand hhead
    dsimp only [Device.exec] at hkept ⊢
    rcases hr : ratchet.encrypt env.nonce plaintext [] with ⟨ratchet', e | message⟩
    · rw [hr] at hkept
      exact hkept rfl rfl rfl
    · exact h.used ⟨ratchet, .encrypt plaintext message, ratchet'⟩ hhead ⟨env.nonce, hr⟩ hx
  | decrypt ratchet message =>
    obtain ⟨-, inHand, hhead⟩ := ha
    have hx := (hexcl (.inr ⟨_, _, rfl⟩)).inHand hhead
    dsimp only [Device.exec] at hkept ⊢
    rcases hr : ratchet.decrypt env.secret message.1 message.2 [] with ⟨ratchet', e | plaintext⟩
    · rw [hr] at hkept
      exact hkept rfl rfl rfl
    · exact h.used ⟨ratchet, .decrypt message plaintext, ratchet'⟩ hhead ⟨env.secret, hr⟩ hx
  | beginState state peerId =>
    refine hkept ?_ rfl rfl
    unfold Device.exec
    dsimp only
    split
    · rfl
    · rfl
  | command c =>
    refine hkept ?_ rfl rfl
    unfold Device.exec
    dsimp only
    split
    · rfl
    · rfl
  | _ => exact hkept rfl rfl rfl

end SessionInv

omit [Ed25519] [X3dhKdf Key] in
/-- A use that waits to be saved is one more at the end of the row. -/
theorem SessionInv.performed {s : SessionMachine Key} (h : SessionInv peerId r s.state s.note) :
    ∃ trace r', Linked r trace r' ∧ trace.Perm (s.performed peerId .js ++ s.performed peerId .pump) := by
  obtain ⟨trace, r', -, hlinked, hperm, hwait⟩ := h
  have hpending : ∀ t, ofPeer peerId (s.note t).pending.toList = [] ∨
      ∃ step, (s.note t).pending = some (peerId, step) ∧ ofPeer peerId (s.note t).pending.toList = [step] := by
    intro t
    rcases hp : (s.note t).pending with _ | ⟨peerId', step⟩
    · exact .inl rfl
    · by_cases he : peerId' = peerId
      · subst he
        exact .inr ⟨step, rfl, by simp [ofPeer]⟩
      · exact .inl (by simp [ofPeer, he])
  have hsplit : ∀ t, s.performed peerId t = ofPeer peerId (s.note t).saved ++ ofPeer peerId (s.note t).pending.toList := by
    intro t
    unfold SessionMachine.performed ofPeer
    rw [List.filter_append, List.map_append]
  rw [hsplit, hsplit]
  rcases hpending .js with hjs | ⟨step, hp, hjs⟩
  · rcases hpending .pump with hpump | ⟨step, hp, hpump⟩
    · exact ⟨trace, r', hlinked, by rwa [hjs, hpump, List.append_nil, List.append_nil]⟩
    · obtain ⟨hv, rfl, -⟩ := hwait .pump step hp
      refine ⟨trace ++ [step], step.after, hlinked.concat hv, ?_⟩
      rw [hjs, hpump, List.append_nil, ← List.append_assoc]
      exact hperm.append_right [step]
  · obtain ⟨hv, rfl, hone⟩ := hwait .js step hp
    rcases hpending .pump with hpump | ⟨step', hp', hpump⟩
    · refine ⟨trace ++ [step], step.after, hlinked.concat hv, ?_⟩
      rw [hjs, hpump, List.append_nil, List.append_assoc]
      refine (hperm.append_right [step]).trans ?_
      rw [List.append_assoc]
      exact List.perm_append_comm.append_left _
    · exact absurd (hone .pump step' hp') (by simp)

variable [PeerIds]

/-- In a run where a thread that uses a ratchet has it for itself, the file of a peer holds the outcome of all saved
uses in some order, no message key is taken for two encryptions, and the key of a message that was opened is never
made again. -/
theorem session_keeps_steps {s : SessionMachine Key} {session : Session Key}
    (hg : ∃ sharedSecret, IdealCrypto sharedSecret ∧ Genuine sharedSecret session.ratchet)
    (hs : d.sessions.find? (·.peerId = peerId) = some session)
    (h : Machine.Reaches Device.perform next SessionNote.rest
      (fun s a => SessionMachine.Drives m a ∧ SessionMachine.Unraced s a) (Machine.idle blank d) s) :
    ((s.performed peerId .js ++ s.performed peerId .pump).filterMap RatchetStep.sealingKey).Nodup ∧
    ∃ trace r, s.state.Holds peerId r ∧ Linked session.ratchet trace r ∧
      trace.Perm (s.completed peerId .js ++ s.completed peerId .pump) ∧
      ∀ step ∈ trace, ∀ key, step.openingKey = some key → ∀ header, r.openingKey header ≠ some key := by
  have hrun : s.Orderly next allowed Settled (fun _ => Settled) ∧ SessionInv peerId session.ratchet s.state s.note := by
    have hstart : SessionInv peerId session.ratchet d fun _ => blank :=
      ⟨[], session.ratchet, by simp [Device.Holds, hs], .nil _, .nil, fun t step h => absurd h (by simp [blank])⟩
    refine h.induct (fun d note _ => SessionInv peerId session.ratchet d note) (Machine.orderly_idle rfl) hstart
      ?_ (fun _ _ hn => hn) ?_ ?_
    · rintro s' t p n ⟨hp, -⟩ hn
      cases t with
      | js =>
        obtain ⟨peerId, peerPublicKey, plaintext, rfl⟩ := hp
        exact sending_saves hn
      | pump =>
        obtain ⟨event, he, rfl⟩ := hp
        exact handling_saves he hn
    · rintro s' t o k env ⟨-, hw⟩ ht ha hi
      refine hi.step ha fun huse => ?_
      rcases huse with ⟨r, p, rfl⟩ | ⟨r, p, rfl⟩
      · simp only [SessionMachine.Unraced, ht] at hw
        exact hw
      · simp only [SessionMachine.Unraced, ht] at hw
        exact hw
    · exact fun s' t r hr hi => hi.congr rfl (Machine.proj_update _ _ SessionNote.pending rfl)
        (Machine.proj_update _ _ SessionNote.saved rfl)
  obtain ⟨sharedSecret, ic, hg⟩ := hg
  obtain ⟨-, hi⟩ := hrun
  refine ⟨?_, ?_⟩
  · obtain ⟨trace, r', hlinked, hperm⟩ := hi.performed
    obtain ⟨_, _, _, -, hused⟩ := hlinked.keysUsed ic hg
    exact (hperm.filterMap _).nodup_iff.1 hused.once
  · obtain ⟨trace, r', hholds, hlinked, hperm, -⟩ := hi
    obtain ⟨_, send, recv, hplaced, hused⟩ := hlinked.keysUsed ic hg
    refine ⟨trace, r', hholds, hlinked, hperm, fun step hstep key hkey header => ?_⟩
    exact hplaced.openingKey_ne ic (hused.opening key (List.mem_filterMap.2 ⟨step, hstep, hkey⟩)) header

end

/-! ### A step that is lost, and a key that is taken twice -/

section
attribute [local instance] StandIn.x25519 StandIn.ed25519 StandIn.symmetricPrimitives StandIn.x3dhKdf StandIn.peerIds

namespace SessionRace
open OutboxRace (manager peer first env steps send delivered)

def secret : List UInt8 := StandIn.x3dhKdf.hkdf [0x07]

/-- The peer, who began the conversation. -/
def initiator : DoubleRatchet (List UInt8) := .initInitiator (.replicate 32 5) secret (X25519.publicKey (.replicate 32 6))

def message (r : DoubleRatchet (List UInt8)) (plaintext : List UInt8) : DoubleRatchet (List UInt8) × RatchetMessage :=
  match r.encrypt (.replicate 12 1) plaintext [] with
  | (r', .ok message) => (r', message)
  | (r', .error _) => (r', ⟨⟨.replicate 32 0, 0, 0⟩, []⟩)

/-- The messages that the peer sends. -/
def hello : RatchetMessage := (message initiator [0x68]).2

def again : RatchetMessage := (message (message initiator [0x68]).1 [0x61]).2

/-- The ratchet after the first of them was read. -/
def responder : DoubleRatchet (List UInt8) :=
  ((DoubleRatchet.initResponder secret (.replicate 32 6)).decrypt (.replicate 32 8) hello.1 hello.2 []).1

def session : Session (List UInt8) := ⟨peer, peer, responder⟩

/-- A device with this session, whose peer is connected. -/
def talking (outbox : List OutboxItem) (peerStates : Table PeerId PeerSendState) : Device (List UInt8) where
  outbox := outbox
  sessions := [session]
  peerStates := peerStates
  connectedPeers := [peer]
  prekeys := .generate manager.identity (.replicate 32 6) []
  nextLocalId := 1
  commands := []
  events := []

/-- What the JS thread makes of the ratchet. -/
def stale : DoubleRatchet (List UInt8) := (responder.encrypt env.nonce [0x69] []).1

def received : OutboxAct (List UInt8) := .call .pump (handling manager (.envelopeReceived peer (.continuing again)))

def run (d : Device (List UInt8)) (acts : List (OutboxAct (List UInt8))) : SessionMachine (List UInt8) :=
  acts.foldl (Machine.act Device.perform SessionNote.next SessionNote.rest) (Machine.idle .blank d)

/-- The JS thread reads the session before the pump reads a message with it, and encrypts with what it read. -/
def lost : List (OutboxAct (List UInt8)) := [send] ++ steps .js 6 ++ [received] ++ steps .pump 3 ++ steps .js 3

/-- The JS thread reads the first message and the session; the pump takes the message for delivered and sends the
next one, which is delivered too; then the JS thread encrypts the first message with the session that it read. -/
def twice : List (OutboxAct (List UInt8)) := [send] ++ steps .js 6 ++ [delivered] ++ steps .pump 13 ++ [.finish .pump] ++
  [delivered] ++ steps .pump 7 ++ steps .js 2

/-- The two handlers one after the other. -/
def apart : List (OutboxAct (List UInt8)) :=
  [send] ++ steps .js 10 ++ [.finish .js, received] ++ steps .pump 4 ++ [.finish .pump]

def awaiting : Table PeerId PeerSendState := Table.empty.insert peer .sendingEnvelope

theorem genuine : ∃ sharedSecret, IdealCrypto sharedSecret ∧ Genuine sharedSecret session.ratchet := by
  refine ⟨secret, StandIn.idealCrypto _, ?_⟩
  dsimp only [session, responder]
  exact .decrypt (.responder _) _ _ _ _

theorem drives {acts : List (OutboxAct (List UInt8))}
    (h : ∀ a ∈ acts, a = send ∨ a = received ∨ a = delivered ∨ (∃ t, a = .step t env) ∨ ∃ t, a = .finish t) :
    ∀ a ∈ acts, SessionMachine.Drives manager a := by
  intro a ha
  rcases h a ha with rfl | rfl | rfl | ⟨t, rfl⟩ | ⟨t, rfl⟩
  · exact ⟨_, _, _, rfl⟩
  · exact ⟨.envelopeReceived peer (.continuing again), trivial, rfl⟩
  · exact ⟨.envelopeDelivered peer, trivial, rfl⟩
  · trivial
  · trivial

end SessionRace

open SessionRace OutboxRace in
theorem session_keeps_steps_apart :
    ((SessionRace.run (talking [] .empty) apart).performed peer .js ++
      (SessionRace.run (talking [] .empty) apart).performed peer .pump).length = 2 ∧
    ∃ trace r, (SessionRace.run (talking [] .empty) apart).state.Holds peer r ∧ Linked session.ratchet trace r ∧
      trace.Perm ((SessionRace.run (talking [] .empty) apart).completed peer .js ++
        (SessionRace.run (talking [] .empty) apart).completed peer .pump) ∧
      ∀ step ∈ trace, ∀ key, step.openingKey = some key → ∀ header, r.openingKey header ≠ some key := by
  have hf : Machine.Follows Device.perform SessionNote.next SessionNote.rest SessionMachine.Unraced
    (Machine.idle .blank (talking [] .empty)) apart := by decide +kernel
  have hrun := Machine.Reaches.foldl (Machine.Reaches.refl _) (hf.and (SessionRace.drives (by simp [apart, steps])))
  have hs : (talking [] .empty).sessions.find? (·.peerId = peer) = some session := by
    exact List.find?_cons_of_pos (decide_eq_true rfl)
  exact ⟨by decide +kernel, (session_keeps_steps genuine hs hrun).2⟩

open SessionRace OutboxRace in
/-- When both threads use the session that they read before the other one's save, a message that was opened can be
opened again, or two plaintexts are encrypted under one key. -/
theorem session_loses_step :
    (∃ s : SessionMachine (List UInt8),
      Machine.Reaches Device.perform SessionNote.next SessionNote.rest (fun _ a => SessionMachine.Drives manager a)
        (Machine.idle .blank (talking [] .empty)) s ∧
      ∃ step ∈ s.completed peer .pump, ∃ key r header,
        step.openingKey = some key ∧ s.state.Holds peer r ∧ r.openingKey header = some key) ∧
    ∃ s : SessionMachine (List UInt8),
      Machine.Reaches Device.perform SessionNote.next SessionNote.rest (fun _ a => SessionMachine.Drives manager a)
        (Machine.idle .blank (talking [first] awaiting)) s ∧
      ∃ step ∈ s.performed peer .js, ∃ step' ∈ s.performed peer .pump, ∃ key,
        step.sealingKey = some key ∧ step'.sealingKey = some key ∧ step.sealedText ≠ step'.sealedText := by
  have hreach : ∀ d acts,
      (∀ a ∈ acts, a = send ∨ a = received ∨ a = delivered ∨ (∃ t, a = .step t env) ∨ ∃ t, a = .finish t) →
      Machine.Reaches Device.perform SessionNote.next SessionNote.rest (fun _ a => SessionMachine.Drives manager a)
        (Machine.idle .blank d) (SessionRace.run d acts) :=
    fun _ _ h => (Machine.Reaches.refl _).foldl (Machine.follows_of_forall fun a ha _ => SessionRace.drives h a ha)
  refine ⟨⟨_, hreach (talking [] .empty) SessionRace.lost (by simp [SessionRace.lost, steps]), ?_⟩,
    _, hreach (talking [first] awaiting) twice (by simp [twice, steps]), ?_⟩
  · have hlost : ∃ step ∈ (SessionRace.run (talking [] .empty) SessionRace.lost).completed peer .pump,
        step.openingKey.isSome ∧ (SessionRace.run (talking [] .empty) SessionRace.lost).state.Holds peer stale ∧
          stale.openingKey again.1 = step.openingKey := by decide +kernel
    obtain ⟨step, hmem, hsome, hholds, hkey⟩ := hlost
    obtain ⟨key, hk⟩ := Option.isSome_iff_exists.1 hsome
    exact ⟨step, hmem, key, stale, again.1, hk, hholds, hkey.trans hk⟩
  · have htwice : ∃ step ∈ (SessionRace.run (talking [first] awaiting) twice).performed peer .js,
        ∃ step' ∈ (SessionRace.run (talking [first] awaiting) twice).performed peer .pump,
          step.sealingKey.isSome ∧ step'.sealingKey = step.sealingKey ∧ step.sealedText ≠ step'.sealedText := by
      decide +kernel
    obtain ⟨step, hmem, step', hmem', hsome, hkey, hne⟩ := htwice
    obtain ⟨key, hk⟩ := Option.isSome_iff_exists.1 hsome
    exact ⟨step, hmem, step', hmem', key, hk, hkey.trans hk, hne⟩

end
end SpiritChat
