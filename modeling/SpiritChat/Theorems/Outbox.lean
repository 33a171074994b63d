import SpiritChat.Theorems.Sending
import SpiritChat.Theorems.StandIn

/-! # The outbox under two threads

The JS thread appends messages to the outbox while the event pump takes them out, each by reading the whole file
and writing it anew. As long as no write of one thread falls between the other's read and its write, no message
is lost and none comes back. -/

namespace SpiritChat
open Lib Prog

/-- The two threads that drive a `ChatManager`. -/
inductive ChatThread where
  | js
  | pump
deriving DecidableEq

def ChatThread.other : ChatThread → ChatThread
  | .js => .pump
  | .pump => .js

theorem ChatThread.eq_other {t t' : ChatThread} (h : t' ≠ t) : t' = t.other := by
  cases t <;> cases t' <;> first | rfl | exact absurd rfl h

/-- What a thread's handler has done with the outbox. -/
structure OutboxNote where
  /-- what it read last -/
  loaded : List OutboxItem
  /-- the identifiers of all that it read -/
  seen : List ℕ
  /-- an identifier that it drew for a message, until the message is in the file -/
  drawn : Option ℕ
  /-- the message that it put into the file -/
  queued : Option OutboxItem
  /-- identifiers that it read and then kept out of the file -/
  cleared : List ℕ
  /-- identifiers that its last write took out of the file, until it reports that they were sent -/
  due : List ℕ

namespace OutboxNote

/-- The note of an idle thread. -/
def blank : OutboxNote := ⟨[], [], none, none, [], []⟩

def ids (items : List OutboxItem) : List ℕ := items.map (·.localId)

variable {Key : Type}

def read (n : OutboxNote) (items : List OutboxItem) : OutboxNote :=
  { n with loaded := items, seen := n.seen ++ ids items }

def draw (n : OutboxNote) (localId : ℕ) : OutboxNote := { n with drawn := some localId }

def write (n : OutboxNote) (items : List OutboxItem) : OutboxNote :=
  match n.drawn with
  | some _ => { n with drawn := none, queued := items.getLast? }
  | none =>
    { n with
      cleared := n.cleared ++ n.seen.filter (· ∉ ids items)
      due := ids (n.loaded.filter (· ∉ items)) }

def report (n : OutboxNote) : OutboxNote := { n with due := [] }

def next : (o : ChatOp Key) → o.Res → OutboxNote → OutboxNote
  | .loadOutbox, items, n => n.read items
  | .uuid, localId, n => n.draw localId
  | .saveOutbox items, _, n => n.write items
  | .emit (.messageSent _ _), _, n => n.report
  | _, _, n => n

/-- A write appends the message that was drawn, or takes out one that was read. A report that a message was sent
comes right after it was taken out. -/
def allowed (n : OutboxNote) : ChatOp Key → Prop
  | .emit (.messageSent _ localId) => localId ∈ n.cleared ∧ ∀ i ∈ n.due, i = localId
  | .saveOutbox items =>
    n.due = [] ∧
      ((∃ item : OutboxItem, n.drawn = some item.localId ∧ items = n.loaded ++ [item]) ∨
        n.drawn = none ∧ ∃ localId ∈ n.seen, items = n.loaded.filter (·.localId ≠ localId))
  | .uuid => n.due = [] ∧ n.drawn = none
  | _ => n.due = []

/-- The operations that leave the outbox alone. -/
def Quiet : ChatOp Key → Prop
  | .emit (.messageSent _ _) => False
  | .saveOutbox _ => False
  | .uuid => False
  | _ => True

end OutboxNote

/-! ### What the handlers do with the outbox -/

section
open OutboxNote
variable {Key : Type} {peerId : PeerId} {item : OutboxItem} {session : Session Key} {message : RatchetMessage}

theorem quiet_of_plain {o : ChatOp Key} (h : o.Plain) : Quiet o := by
  cases o with
  | emit e => cases e <;> trivial
  | _ => trivial

theorem attemptSend_quiet : (attemptSend peerId : Chat Key Unit).Only Quiet := by
  refine attemptSend_sends.mono fun o ho => ?_
  cases o with
  | encrypt => trivial
  | saveSession => trivial
  | _ => exact quiet_of_plain ho

theorem firstOutboxItem_quiet : (firstOutboxItem peerId : Chat Key _).Only Quiet :=
  firstOutboxItem_plain.mono fun _ => quiet_of_plain

theorem endWithFailure_quiet {reason : String} : (endWithFailure peerId reason : Chat Key Unit).Only Quiet :=
  endWithFailure_plain.mono fun _ => quiet_of_plain

theorem openWith_quiet {sessions : List (Session Key)} : (openWith message sessions).Only Quiet := by
  induction sessions with
  | nil => exact only_pure _
  | cons session sessions ih =>
    refine (only_ask trivial).bind fun r => ?_
    rcases r with ⟨_, e | _⟩
    · exact ih
    · exact (only_ask trivial).bind fun _ => only_ask trivial

theorem handleIncomingContinuing_quiet : (handleIncomingContinuing peerId message : Chat Key Unit).Only Quiet := by
  refine (only_ask trivial).bind fun session => ?_
  rcases session with _ | session
  · exact only_pure _
  · refine (only_ask trivial).bind fun r => ?_
    rcases r with ⟨_, e | _⟩
    · exact only_pure _
    · exact (only_ask trivial).bind fun _ => only_ask trivial

variable [X25519] {m : ChatManager}

theorem acceptHandshake_quiet {sender : List UInt8 → Option PeerId} {initialMessage : InitialMessage} :
    (acceptHandshake m sender initialMessage message : Chat Key Unit).Only Quiet := by
  refine (only_ask trivial).bind fun response => ?_
  rcases response with _ | sharedSecret
  · exact only_pure _
  · dsimp only
    rcases sender initialMessage.initiatorIdentity.bytes.toList with _ | peerId
    · exact only_pure _
    · refine (only_ask trivial).bind fun _ => (only_ask trivial).bind fun r => ?_
      rcases r with ⟨_, e | _⟩
      · exact only_pure _
      · exact (only_ask trivial).bind fun _ => only_ask trivial

theorem onEnvelopeReceived_quiet {envelope : Envelope} : (onEnvelopeReceived m peerId envelope : Chat Key Unit).Only Quiet := by
  cases envelope with
  | handshake =>
    unfold onEnvelopeReceived handleIncomingHandshake
    exact acceptHandshake_quiet
  | continuing => exact handleIncomingContinuing_quiet
  | malformed => exact only_pure _

theorem handleMailboxEnvelopeRetrieved_quiet [PeerIds] {envelope : Envelope} :
    (handleMailboxEnvelopeRetrieved m envelope : Chat Key Unit).Only Quiet := by
  cases envelope with
  | handshake =>
    unfold handleMailboxEnvelopeRetrieved handleRetrievedHandshake
    exact acceptHandshake_quiet
  | continuing => exact (only_ask trivial).bind fun _ => openWith_quiet
  | malformed => exact only_pure _

variable [Ed25519]

omit [X25519] in
theorem depositContinuing_quiet : (depositContinuing m item session).Only Quiet := by
  refine (only_ask trivial).bind fun r => ?_
  rcases r with ⟨_, e | _⟩
  · exact (only_ask trivial).bind fun _ => only_ask trivial
  · refine (only_ask trivial).bind fun _ => (only_ask trivial).bind fun _ => ?_
    exact (only_ask trivial).bind fun _ => only_ask trivial

omit [X25519] in
theorem handleCardFetched_quiet {card : Option PrekeyBundle} :
    (handleCardFetched m peerId card : Chat Key Unit).Only Quiet := by
  have failed : ∀ (item : OutboxItem) (reason : SendFailure),
      (ask (.endState peerId) >>= fun _ => ask (.emit (item.failedEvent reason)) : Chat Key Unit).Only Quiet :=
    fun _ _ => failed_plain.mono fun _ => quiet_of_plain
  refine firstOutboxItem_quiet.bind fun first => ?_
  rcases first with _ | item
  · exact only_ask trivial
  · dsimp only
    split
    · exact failed _ _
    · refine (only_ask trivial).bind fun handshake => ?_
      rcases handshake with e | handshake
      · exact failed _ _
      · refine (only_ask trivial).bind fun _ => (only_ask trivial).bind fun r => ?_
        rcases r with ⟨_, e | _⟩
        · exact failed _ _
        · refine (only_ask trivial).bind fun _ => (only_ask trivial).bind fun _ => (only_ask trivial).bind fun _ => ?_
          exact (only_pure _).ite (failed _ _)

/-! ### The handlers keep to the protocol -/

/-- `sendMessage` on the JS thread, with the message that it queued. -/
def sending (peerId : PeerId) (peerPublicKey plaintext : List UInt8) : Chat Key (Option OutboxItem) := do
  let localId ← sendMessage peerId peerPublicKey plaintext
  return some ⟨localId, peerId, peerPublicKey, plaintext⟩

/-- `handleP2pEvent` on the event pump. -/
def handling [PeerIds] (m : ChatManager) (event : NodeEvent) : Chat Key (Option OutboxItem) := do
  handleP2pEvent m event
  return none

namespace OutboxNote

/-- Between two writes of the outbox: nothing is due and no identifier is in hand. -/
def Settled (queued : Option OutboxItem) (seen : List ℕ) (n : OutboxNote) : Prop :=
  n.due = [] ∧ n.drawn = none ∧ n.queued = queued ∧ seen ⊆ n.seen

/-- The note of a handler that has ended with `r`. -/
def Finished (r : Option OutboxItem) (n : OutboxNote) : Prop := ∃ seen, n.Settled r seen

omit [X25519] [Ed25519] in
theorem settled_blank : Settled none [] blank := ⟨rfl, rfl, rfl, List.Subset.refl _⟩

omit [X25519] [Ed25519] in
theorem Quiet.settled {queued : Option OutboxItem} {seen : List ℕ} {o : ChatOp Key} {n : OutboxNote} (h : Quiet o)
    (hn : n.Settled queued seen) : n.allowed o ∧ ∀ r : o.Res, (next o r n).Settled queued seen := by
  obtain ⟨hdue, hdrawn, hqueued, hseen⟩ := hn
  cases o with
  | emit e => cases e <;> first | exact h.elim | exact ⟨hdue, fun _ => ⟨hdue, hdrawn, hqueued, hseen⟩⟩
  | saveOutbox => exact h.elim
  | uuid => exact h.elim
  | loadOutbox => exact ⟨hdue, fun r => ⟨hdue, hdrawn, hqueued, fun _ h => List.mem_append_left _ (hseen h)⟩⟩
  | _ => exact ⟨hdue, fun _ => ⟨hdue, hdrawn, hqueued, hseen⟩⟩

omit [X25519] [Ed25519] in
theorem Settled.keeps {α : Type} {p : Chat Key α} {queued : Option OutboxItem} {seen : List ℕ} {n : OutboxNote}
    (hn : n.Settled queued seen) (h : p.Only Quiet) : p.Keeps allowed next (fun _ m => m.Settled queued seen) n :=
  h.keeps hn fun _ _ => Quiet.settled

end OutboxNote

omit [X25519] [Ed25519] in
theorem sending_keeps {peerPublicKey plaintext : List UInt8} :
    (sending peerId peerPublicKey plaintext : Chat Key _).Keeps allowed next Finished blank := by
  unfold sending sendMessage
  simp only [keeps_bind]
  refine ⟨⟨rfl, rfl⟩, fun localId => ⟨rfl, fun outbox => ⟨⟨rfl, .inl ⟨_, rfl, rfl⟩⟩, fun _ => ?_⟩⟩⟩
  have hn : Settled (some ⟨localId, peerId, peerPublicKey, plaintext⟩) []
      (((blank.draw localId).read outbox).write (outbox ++ [⟨localId, peerId, peerPublicKey, plaintext⟩])) := by
    refine ⟨rfl, rfl, ?_, List.nil_subset _⟩
    exact List.getLast?_concat
  refine (keeps_bind (p := attemptSend peerId) (f := fun _ => .pure localId)).2 ?_
  exact (hn.keeps attemptSend_quiet).imp fun _ n hn => (⟨[], hn⟩ : Finished _ n)

theorem handleP2pEvent_quiet [PeerIds] {event : NodeEvent} (h : ∀ peerId, event ≠ .envelopeDelivered peerId) :
    (handleP2pEvent m event : Chat Key Unit).Only Quiet := by
  cases event with
  | peerConnected =>
    refine (only_ask trivial).bind fun _ => (only_ask trivial).bind fun _ => ?_
    exact .ite ((only_ask trivial).bind fun _ => attemptSend_quiet) attemptSend_quiet
  | peerDisconnected => exact only_ask trivial
  | dialFailed peerId =>
    rcases peerId with _ | peerId
    · exact only_pure _
    · exact (only_ask trivial).bind fun _ => endWithFailure_quiet.ite (only_pure _)
  | blobFetched =>
    exact .ite ((only_ask trivial).bind fun _ => handleCardFetched_quiet.ite (only_pure _)) (only_pure _)
  | blobFetchFailed =>
    exact .ite ((only_ask trivial).bind fun _ => endWithFailure_quiet.ite (only_pure _)) (only_pure _)
  | envelopeReceived => exact onEnvelopeReceived_quiet
  | envelopeDelivered peerId => exact absurd rfl (h peerId)
  | envelopeDeliveryFailed =>
    refine (only_ask trivial).bind fun _ => .ite (firstOutboxItem_quiet.bind fun first => ?_) (only_pure _)
    rcases first with _ | item
    · exact endWithFailure_quiet
    · refine (only_ask trivial).bind fun session => ?_
      rcases session with _ | session
      · exact endWithFailure_quiet
      · exact depositContinuing_quiet
  | mailboxEnvelopeRetrieved => exact handleMailboxEnvelopeRetrieved_quiet

namespace OutboxNote

omit [X25519] [Ed25519] in
/-- What a removal leaves for the report: the identifier was read and is not in the file. -/
theorem removal_allows {outbox items : List OutboxItem} (h : item ∈ outbox) :
    (((blank.read outbox).read items).write (items.filter (·.localId ≠ item.localId))).allowed
      (.emit item.sentEvent : ChatOp Key) := by
  have hnot : item.localId ∉ ids (items.filter (·.localId ≠ item.localId)) := by
    intro hmem
    obtain ⟨other, hother, heq⟩ := List.mem_map.1 hmem
    exact of_decide_eq_true (List.mem_filter.1 hother).2 heq
  refine ⟨List.mem_append_right _ (List.mem_filter.2 ⟨?_, decide_eq_true hnot⟩), fun i hi => ?_⟩
  · exact List.mem_append_left _ (List.mem_append_right _ (List.mem_map_of_mem h))
  · obtain ⟨other, hother, rfl⟩ := List.mem_map.1 hi
    obtain ⟨hitems, hgone⟩ := List.mem_filter.1 hother
    by_contra hne
    exact of_decide_eq_true hgone (List.mem_filter.2 ⟨hitems, decide_eq_true hne⟩)

end OutboxNote

theorem envelopeDelivered_keeps [PeerIds] :
    (handleP2pEvent m (.envelopeDelivered peerId) : Chat Key Unit).Keeps allowed next (fun _ => Settled none []) blank := by
  refine ⟨rfl, fun state => ?_⟩
  by_cases hs : state = some .sendingEnvelope
  · subst hs
    refine ⟨rfl, fun _ => ⟨rfl, fun outbox => ?_⟩⟩
    have hn : Settled none [] (blank.read outbox) := ⟨rfl, rfl, rfl, List.nil_subset _⟩
    dsimp only [Prog.bind, Pure.pure]
    rcases hfirst : firstItem outbox peerId with _ | item
    · exact hn.keeps attemptSend_quiet
    · have hitem : item ∈ outbox := List.mem_of_find?_eq_some hfirst
      refine ⟨rfl, fun items => ⟨⟨rfl, .inr ⟨rfl, item.localId, ?_, rfl⟩⟩, fun _ => ?_⟩⟩
      · exact List.mem_append_left _ (List.mem_append_right _ (List.mem_map_of_mem hitem))
      · refine ⟨removal_allows hitem, fun _ => ?_⟩
        have hn : Settled none []
            (((blank.read outbox).read items).write (items.filter (·.localId ≠ item.localId))).report :=
          ⟨rfl, rfl, rfl, List.nil_subset _⟩
        exact hn.keeps attemptSend_quiet
  · dsimp only [Prog.bind, Pure.pure]
    rw [if_neg hs]
    exact settled_blank

theorem handling_keeps [PeerIds] {event : NodeEvent} :
    (handling m event : Chat Key _).Keeps allowed next Finished blank := by
  have h : (handleP2pEvent m event : Chat Key Unit).Keeps allowed next (fun _ => Settled none []) blank := by
    by_cases hevent : ∃ peerId, event = .envelopeDelivered peerId
    · obtain ⟨peerId, rfl⟩ := hevent
      exact envelopeDelivered_keeps
    · exact settled_blank.keeps (handleP2pEvent_quiet (not_exists.1 hevent))
  exact keeps_bind.2 (h.imp fun _ _ hn => ⟨[], hn⟩)

/-! ### Runs of both threads -/

/-- The two threads on the files of a device, with a note each on the outbox. -/
abbrev OutboxMachine (Key : Type) := Machine (chatOps Key) ChatThread (Device Key) OutboxNote (Option OutboxItem)

/-- What happens to them. -/
abbrev OutboxAct (Key : Type) := Machine.Act (chatOps Key) ChatThread Env (Option OutboxItem)

/-- The JS thread calls `sendMessage` and the event pump calls `handleP2pEvent`. -/
def OutboxAct.Drives [PeerIds] (m : ChatManager) : OutboxAct Key → Prop
  | .call .js p => ∃ peerId peerPublicKey plaintext, p = sending peerId peerPublicKey plaintext
  | .call .pump p => ∃ event, p = handling m event
  | _ => True

/-- A thread that writes the outbox finds the file as it was when it read it. -/
def OutboxMachine.Unraced (s : OutboxMachine Key) : OutboxAct Key → Prop
  | .step t _ =>
    match s.threads t with
    | some (.op (.saveOutbox _) _) => s.state.outbox = (s.note t).loaded
    | _ => True
  | _ => True

instance (s : OutboxMachine Key) : (a : OutboxAct Key) → Decidable (OutboxMachine.Unraced s a)
  | .step t _ => by
    unfold OutboxMachine.Unraced
    dsimp only
    split <;> infer_instance
  | .call _ _ => .isTrue trivial
  | .finish _ => .isTrue trivial

/-- `messageSent` was emitted for this identifier. -/
def Device.Sent (d : Device Key) (localId : ℕ) : Prop := ∃ peerId, ChatEvent.messageSent peerId localId ∈ d.events

/-- A process starts: nothing was emitted, and the identifiers in the file are not drawn again. -/
def Device.Starts (d : Device Key) : Prop := d.events = [] ∧ ∀ item ∈ d.outbox, item.localId < d.nextLocalId

/-- The next operation of a thread is to emit `messageSent` for this identifier. -/
def OutboxMachine.Reporting (s : OutboxMachine Key) (localId : ℕ) : Prop :=
  ∃ t peerId k, s.threads t = some (.op (.emit (.messageSent peerId localId)) k)

/-- What the notes say about the file. -/
structure OutboxInv (items : List OutboxItem) (d : Device Key) (note : ChatThread → OutboxNote)
    (returned : List (Option OutboxItem)) : Prop where
  fresh : ∀ i ∈ ids d.outbox, i < d.nextLocalId
  seen : ∀ t, ∀ i ∈ (note t).seen, i < d.nextLocalId
  drawn : ∀ t i, (note t).drawn = some i →
    i < d.nextLocalId ∧ i ∉ ids d.outbox ∧ ¬d.Sent i ∧ ∀ t', i ∉ (note t').seen ∧ ((note t').drawn = some i → t' = t)
  sent : ∀ i, d.Sent i → i < d.nextLocalId ∧ i ∉ ids d.outbox
  cleared : ∀ t, ∀ i ∈ (note t).cleared, i ∈ (note t).seen ∧ i ∉ ids d.outbox
  kept : ∀ item, (item ∈ items ∨ some item ∈ returned ∨ ∃ t, (note t).queued = some item) →
    item ∈ d.outbox ∨ d.Sent item.localId ∨ ∃ t, item.localId ∈ (note t).due

variable [SymmetricPrimitives Key] [X3dhKdf Key] {items : List OutboxItem} {d : Device Key} {env : Env}
  {note : ChatThread → OutboxNote} {returned : List (Option OutboxItem)} {t : ChatThread}

omit [X25519] [Ed25519] [SymmetricPrimitives Key] [X3dhKdf Key] in
theorem Device.sent_emit {d d' : Device Key} {e : ChatEvent} (he : ∀ peerId i, e ≠ .messageSent peerId i)
    (h : d'.events = d.events ++ [e]) (i : ℕ) : d'.Sent i ↔ d.Sent i := by
  unfold Device.Sent
  simp only [h, List.mem_append, List.mem_singleton]
  exact exists_congr fun peerId => or_iff_left (he peerId i).symm

/-- A quiet operation leaves what the outbox is about as it was. -/
theorem Device.exec_quiet {o : ChatOp Key} (h : Quiet o) : (d.exec env o).2.outbox = d.outbox ∧
    (d.exec env o).2.nextLocalId = d.nextLocalId ∧ ∀ i, (d.exec env o).2.Sent i ↔ d.Sent i := by
  cases o with
  | saveOutbox => exact h.elim
  | uuid => exact h.elim
  | emit e => exact ⟨rfl, rfl, sent_emit (by rintro _ _ rfl; exact h) rfl⟩
  | beginState state peerId =>
    unfold Device.exec
    dsimp only
    split
    · exact ⟨rfl, rfl, fun _ => Iff.rfl⟩
    · exact ⟨rfl, rfl, fun _ => Iff.rfl⟩
  | command c =>
    unfold Device.exec
    dsimp only
    split
    · exact ⟨rfl, rfl, fun _ => Iff.rfl⟩
    · exact ⟨rfl, rfl, fun _ => Iff.rfl⟩
  | _ => exact ⟨rfl, rfl, fun _ => Iff.rfl⟩

namespace OutboxInv

omit [X25519] [Ed25519] [SymmetricPrimitives Key] [X3dhKdf Key] in
theorem congr (hi : OutboxInv items d note returned) {d' : Device Key} (ho : d'.outbox = d.outbox)
    (hn : d'.nextLocalId = d.nextLocalId) (hs : ∀ i, d'.Sent i ↔ d.Sent i) : OutboxInv items d' note returned := by
  refine ⟨?_, ?_, ?_, ?_, ?_, ?_⟩
  · simpa only [ho, hn] using hi.fresh
  · simpa only [hn] using hi.seen
  · simpa only [ho, hn, hs] using hi.drawn
  · simpa only [ho, hn, hs] using hi.sent
  · simpa only [ho] using hi.cleared
  · simpa only [ho, hs] using hi.kept

omit [X25519] [Ed25519] [SymmetricPrimitives Key] [X3dhKdf Key] in
theorem load (hi : OutboxInv items d note returned) :
    OutboxInv items d (Function.update note t ((note t).read d.outbox)) returned := by
  have hseen : ∀ t', ∀ i, i ∈ (Function.update note t ((note t).read d.outbox) t').seen →
      i ∈ (note t').seen ∨ i ∈ ids d.outbox := by
    intro t' i h
    rcases eq_or_ne t' t with rfl | hne
    · rw [Function.update_self] at h
      exact List.mem_append.1 h
    · rw [Function.update_of_ne hne] at h
      exact .inl h
  have hmono : ∀ t', ∀ i ∈ (note t').seen,
      i ∈ (Function.update note t ((note t).read d.outbox) t').seen := by
    intro t' i h
    rcases eq_or_ne t' t with rfl | hne
    · rw [Function.update_self]
      exact List.mem_append_left _ h
    · rwa [Function.update_of_ne hne]
  have hdrawn := Machine.proj_update note t OutboxNote.drawn
    (n := (note t).read d.outbox) rfl
  have hcleared := Machine.proj_update note t OutboxNote.cleared
    (n := (note t).read d.outbox) rfl
  have hqueued := Machine.proj_update note t OutboxNote.queued
    (n := (note t).read d.outbox) rfl
  have hdue := Machine.proj_update note t OutboxNote.due
    (n := (note t).read d.outbox) rfl
  refine { hi with seen := ?_, drawn := ?_, cleared := ?_, kept := ?_ }
  · exact fun t' i h => (hseen t' i h).elim (hi.seen t' i) (hi.fresh i)
  · intro t' i h
    rw [hdrawn] at h
    obtain ⟨hlt, hout, hsent, hothers⟩ := hi.drawn t' i h
    refine ⟨hlt, hout, hsent, fun t'' => ⟨fun hs => (hseen t'' i hs).elim (hothers t'').1 hout, ?_⟩⟩
    rw [hdrawn]
    exact (hothers t'').2
  · intro t' i h
    rw [hcleared] at h
    exact ⟨hmono t' i (hi.cleared t' i h).1, (hi.cleared t' i h).2⟩
  · simp only [hqueued, hdue]
    exact hi.kept

omit [X25519] [Ed25519] [SymmetricPrimitives Key] [X3dhKdf Key] in
theorem draw (hi : OutboxInv items d note returned) :
    OutboxInv items { d with nextLocalId := d.nextLocalId + 1 }
      (Function.update note t { note t with drawn := some d.nextLocalId }) returned := by
  have hseen := Machine.proj_update note t OutboxNote.seen
    (n := { note t with drawn := some d.nextLocalId }) rfl
  have hcleared := Machine.proj_update note t OutboxNote.cleared
    (n := { note t with drawn := some d.nextLocalId }) rfl
  have hqueued := Machine.proj_update note t OutboxNote.queued
    (n := { note t with drawn := some d.nextLocalId }) rfl
  have hdue := Machine.proj_update note t OutboxNote.due
    (n := { note t with drawn := some d.nextLocalId }) rfl
  have hself : ∀ t' i, (Function.update note t { note t with drawn := some d.nextLocalId } t').drawn = some i →
      t' = t ∧ i = d.nextLocalId ∨ t' ≠ t ∧ (note t').drawn = some i := by
    intro t' i h
    rcases eq_or_ne t' t with rfl | hne
    · rw [Function.update_self] at h
      exact .inl ⟨rfl, (Option.some.inj h).symm⟩
    · rw [Function.update_of_ne hne] at h
      exact .inr ⟨hne, h⟩
  refine ⟨fun i h => (hi.fresh i h).trans d.nextLocalId.lt_succ_self, ?_, ?_, ?_, ?_, ?_⟩
  · intro t' i h
    rw [hseen] at h
    exact (hi.seen t' i h).trans d.nextLocalId.lt_succ_self
  · intro t' i h
    rcases hself t' i h with ⟨rfl, rfl⟩ | ⟨hne, h⟩
    · refine ⟨d.nextLocalId.lt_succ_self, fun hm => (hi.fresh _ hm).false, fun hs => (hi.sent _ hs).1.false, ?_⟩
      refine fun t'' => ⟨fun hm => (hi.seen t'' _ (hseen t'' ▸ hm)).false, fun h => ?_⟩
      rcases hself t'' _ h with ⟨ht, -⟩ | ⟨-, h⟩
      · exact ht
      · exact ((hi.drawn t'' _ h).1.false).elim
    · obtain ⟨hlt, hout, hsent, hothers⟩ := hi.drawn t' i h
      refine ⟨hlt.trans d.nextLocalId.lt_succ_self, hout, hsent, fun t'' => ⟨?_, fun h => ?_⟩⟩
      · rw [hseen]
        exact (hothers t'').1
      · rcases hself t'' i h with ⟨-, rfl⟩ | ⟨-, h⟩
        · exact hlt.false.elim
        · exact (hothers t'').2 h
  · exact fun i h => ⟨(hi.sent i h).1.trans d.nextLocalId.lt_succ_self, (hi.sent i h).2⟩
  · intro t' i h
    rw [hcleared] at h
    rw [hseen]
    exact hi.cleared t' i h
  · simp only [hqueued, hdue]
    exact hi.kept

omit [X25519] [Ed25519] [SymmetricPrimitives Key] [X3dhKdf Key] in
theorem append (hi : OutboxInv items d note returned) (h : (note t).drawn = some item.localId) :
    OutboxInv items { d with outbox := d.outbox ++ [item] }
      (Function.update note t { note t with drawn := none, queued := some item }) returned := by
  have hseen := Machine.proj_update note t OutboxNote.seen
    (n := { note t with drawn := none, queued := some item }) rfl
  have hcleared := Machine.proj_update note t OutboxNote.cleared
    (n := { note t with drawn := none, queued := some item }) rfl
  have hdue := Machine.proj_update note t OutboxNote.due
    (n := { note t with drawn := none, queued := some item }) rfl
  obtain ⟨hlt, hout, hsent, hothers⟩ := hi.drawn t _ h
  have hids : ∀ i, i ∈ ids (d.outbox ++ [item]) → i ∈ ids d.outbox ∨ i = item.localId := by
    intro i hm
    unfold ids at hm
    rw [List.map_append] at hm
    exact (List.mem_append.1 hm).imp_right List.mem_singleton.1
  have hdrawn : ∀ t' i, (Function.update note t { note t with drawn := none, queued := some item } t').drawn = some i →
      t' ≠ t ∧ (note t').drawn = some i := by
    intro t' i h
    rcases eq_or_ne t' t with rfl | hne
    · rw [Function.update_self] at h
      exact absurd h (by simp)
    · rw [Function.update_of_ne hne] at h
      exact ⟨hne, h⟩
  refine ⟨?_, ?_, ?_, ?_, ?_, ?_⟩
  · exact fun i hm => (hids i hm).elim (hi.fresh i) fun he => he ▸ hlt
  · simp only [hseen]
    exact hi.seen
  · intro t' i h'
    obtain ⟨hne, h'⟩ := hdrawn t' i h'
    obtain ⟨hlt', hout', hsent', hothers'⟩ := hi.drawn t' i h'
    refine ⟨hlt', fun hm => ?_, hsent', fun t'' => ⟨?_, fun h'' => (hothers' t'').2 (hdrawn t'' i h'').2⟩⟩
    · rcases hids i hm with hm | rfl
      · exact hout' hm
      · exact hne (((hothers t').2 h'))
    · rw [hseen]
      exact (hothers' t'').1
  · refine fun i hs => ⟨(hi.sent i hs).1, fun hm => ?_⟩
    rcases hids i hm with hm | rfl
    · exact (hi.sent i hs).2 hm
    · exact hsent hs
  · intro t' i hm
    rw [hcleared] at hm
    rw [hseen]
    refine ⟨(hi.cleared t' i hm).1, fun hm' => ?_⟩
    rcases hids i hm' with hm' | rfl
    · exact (hi.cleared t' i hm).2 hm'
    · exact (hothers t').1 (hi.cleared t' _ hm).1
  · intro other hother
    simp only [hdue]
    have hold : other ∈ items ∨ some other ∈ returned ∨ (∃ t, (note t).queued = some other) ∨ other = item := by
      rcases hother with h | h | ⟨t', h⟩
      · exact .inl h
      · exact .inr (.inl h)
      · rcases eq_or_ne t' t with rfl | hne
        · rw [Function.update_self] at h
          exact .inr (.inr (.inr (Option.some.inj h).symm))
        · rw [Function.update_of_ne hne] at h
          exact .inr (.inr (.inl ⟨t', h⟩))
    have hmem := fun h => (hi.kept other h).imp_left (List.mem_append_left [item])
    rcases hold with h | h | h | rfl
    · exact hmem (.inl h)
    · exact hmem (.inr (.inl h))
    · exact hmem (.inr (.inr h))
    · exact .inl (List.mem_append_right _ (List.mem_singleton_self _))

omit [X25519] [Ed25519] [SymmetricPrimitives Key] [X3dhKdf Key] in
theorem remove (hi : OutboxInv items d note returned) (hdue : (note t).due = []) {rest : List OutboxItem}
    (hrest : rest ⊆ d.outbox) : OutboxInv items { d with outbox := rest }
      (Function.update note t { note t with
        cleared := (note t).cleared ++ (note t).seen.filter (· ∉ ids rest)
        due := ids (d.outbox.filter (· ∉ rest)) }) returned := by
  set n := { note t with
    cleared := (note t).cleared ++ (note t).seen.filter (· ∉ ids rest)
    due := ids (d.outbox.filter (· ∉ rest)) } with hn
  have hseen := Machine.proj_update note t (n := n) OutboxNote.seen rfl
  have hdrawn := Machine.proj_update note t (n := n) OutboxNote.drawn rfl
  have hqueued := Machine.proj_update note t (n := n) OutboxNote.queued rfl
  have hids : ∀ i, i ∉ ids d.outbox → i ∉ ids rest := fun i h hm => h (List.map_subset _ hrest hm)
  refine ⟨fun i h => hi.fresh i (List.map_subset _ hrest h), ?_, ?_, ?_, ?_, ?_⟩
  · simp only [hseen]
    exact hi.seen
  · simp only [hseen, hdrawn]
    exact fun t' i h => ⟨(hi.drawn t' i h).1, hids i (hi.drawn t' i h).2.1, (hi.drawn t' i h).2.2⟩
  · exact fun i hs => ⟨(hi.sent i hs).1, hids i (hi.sent i hs).2⟩
  · intro t' i h
    rw [hseen]
    rcases eq_or_ne t' t with rfl | hne
    · rw [Function.update_self] at h
      rcases List.mem_append.1 h with h | h
      · exact ⟨(hi.cleared t' i h).1, hids i (hi.cleared t' i h).2⟩
      · exact ⟨(List.mem_filter.1 h).1, of_decide_eq_true (List.mem_filter.1 h).2⟩
    · rw [Function.update_of_ne hne] at h
      exact ⟨(hi.cleared t' i h).1, hids i (hi.cleared t' i h).2⟩
  · intro item hitem
    simp only [hqueued] at hitem
    rcases hi.kept item hitem with hmem | hs | ⟨t', h⟩
    · by_cases hr : item ∈ rest
      · exact .inl hr
      · refine .inr (.inr ⟨t, ?_⟩)
        rw [Function.update_self]
        exact List.mem_map_of_mem (List.mem_filter.2 ⟨hmem, decide_eq_true hr⟩)
    · exact .inr (.inl hs)
    · refine .inr (.inr ⟨t', ?_⟩)
      rcases eq_or_ne t' t with rfl | hne
      · rw [hdue] at h
        exact absurd h List.not_mem_nil
      · rwa [Function.update_of_ne hne]

omit [X25519] [Ed25519] [SymmetricPrimitives Key] [X3dhKdf Key] in
theorem report (hi : OutboxInv items d note returned) {localId : ℕ} (hcleared : localId ∈ (note t).cleared)
    (hdue : ∀ i ∈ (note t).due, i = localId) :
    OutboxInv items { d with events := d.events ++ [.messageSent peerId localId] }
      (Function.update note t { note t with due := [] }) returned := by
  have hseen := Machine.proj_update note t (n := { note t with due := [] }) OutboxNote.seen rfl
  have hdrawn := Machine.proj_update note t (n := { note t with due := [] }) OutboxNote.drawn rfl
  have hclear := Machine.proj_update note t (n := { note t with due := [] }) OutboxNote.cleared rfl
  have hqueued := Machine.proj_update note t (n := { note t with due := [] }) OutboxNote.queued rfl
  have hsent : ∀ i, Device.Sent { d with events := d.events ++ [.messageSent peerId localId] } i ↔
      d.Sent i ∨ i = localId := by
    intro i
    unfold Device.Sent
    simp only [List.mem_append, List.mem_singleton, ChatEvent.messageSent.injEq, exists_or, exists_and_right,
      exists_eq, true_and]
  refine ⟨hi.fresh, ?_, ?_, ?_, ?_, ?_⟩
  · simp only [hseen]
    exact hi.seen
  · simp only [hseen, hdrawn, hsent]
    intro t' i h
    obtain ⟨hlt, hout, hsent, hothers⟩ := hi.drawn t' i h
    refine ⟨hlt, hout, ?_, hothers⟩
    rintro (hs | rfl)
    · exact hsent hs
    · exact (hothers t).1 (hi.cleared t i hcleared).1
  · simp only [hsent]
    rintro i (hs | rfl)
    · exact hi.sent i hs
    · exact ⟨hi.seen t i (hi.cleared t i hcleared).1, (hi.cleared t i hcleared).2⟩
  · simp only [hseen, hclear]
    exact hi.cleared
  · intro item hitem
    simp only [hqueued] at hitem
    rw [hsent]
    rcases hi.kept item hitem with hmem | hs | ⟨t', h⟩
    · exact .inl hmem
    · exact .inr (.inl (.inl hs))
    · rcases eq_or_ne t' t with rfl | hne
      · exact .inr (.inl (.inr (hdue _ h)))
      · refine .inr (.inr ⟨t', ?_⟩)
        rwa [Function.update_of_ne hne]

omit [X25519] [Ed25519] [SymmetricPrimitives Key] [X3dhKdf Key] in
theorem finish (hi : OutboxInv items d note returned) {r : Option OutboxItem} (h : Finished r (note t)) :
    OutboxInv items d (Function.update note t blank) (returned ++ [r]) := by
  obtain ⟨seen, hdue, -, hqueued, -⟩ := h
  have hself : ∀ t', Function.update note t blank t' = blank ∨
      t' ≠ t ∧ Function.update note t blank t' = note t' := by
    intro t'
    rcases eq_or_ne t' t with rfl | hne
    · exact .inl (Function.update_self ..)
    · exact .inr ⟨hne, Function.update_of_ne hne ..⟩
  refine ⟨hi.fresh, ?_, ?_, hi.sent, ?_, ?_⟩
  · intro t' i h
    rcases hself t' with he | ⟨-, he⟩ <;> rw [he] at h
    · exact absurd h List.not_mem_nil
    · exact hi.seen t' i h
  · intro t' i h
    rcases hself t' with he | ⟨-, he⟩ <;> rw [he] at h
    · exact absurd h (by simp [blank])
    · obtain ⟨hlt, hout, hsent, hothers⟩ := hi.drawn t' i h
      refine ⟨hlt, hout, hsent, fun t'' => ?_⟩
      rcases hself t'' with he | ⟨-, he⟩ <;> rw [he]
      · exact ⟨List.not_mem_nil, fun h => absurd h (by simp [blank])⟩
      · exact hothers t''
  · intro t' i h
    rcases hself t' with he | ⟨-, he⟩ <;> rw [he] at h ⊢
    · exact absurd h List.not_mem_nil
    · exact hi.cleared t' i h
  · intro item hitem
    have hold : item ∈ items ∨ some item ∈ returned ∨ ∃ t, (note t).queued = some item := by
      rcases hitem with h | h | ⟨t', h⟩
      · exact .inl h
      · rcases List.mem_append.1 h with h | h
        · exact .inr (.inl h)
        · exact .inr (.inr ⟨t, hqueued.trans (List.mem_singleton.1 h).symm⟩)
      · rcases hself t' with he | ⟨-, he⟩ <;> rw [he] at h
        · exact absurd h (by simp [blank])
        · exact .inr (.inr ⟨t', h⟩)
    refine (hi.kept item hold).imp_right (Or.imp_right fun ⟨t', h⟩ => ⟨t', ?_⟩)
    rcases eq_or_ne t' t with rfl | hne
    · rw [hdue] at h
      exact absurd h List.not_mem_nil
    · rwa [Function.update_of_ne hne]

/-- What an allowed operation preserves. -/
theorem step (hi : OutboxInv items d note returned) {o : ChatOp Key} (ha : (note t).allowed o)
    (hw : ∀ items, o = .saveOutbox items → d.outbox = (note t).loaded) :
    OutboxInv items (d.exec env o).2 (Function.update note t (next o (d.exec env o).1 (note t))) returned := by
  have hquiet : Quiet o → next o (d.exec env o).1 (note t) = note t →
      OutboxInv items (d.exec env o).2 (Function.update note t (next o (d.exec env o).1 (note t))) returned := by
    intro hq hnote
    rw [hnote, Function.update_eq_self]
    exact hi.congr (Device.exec_quiet hq).1 (Device.exec_quiet hq).2.1 (Device.exec_quiet hq).2.2
  cases o with
  | loadOutbox => exact hi.load
  | uuid => exact hi.draw
  | saveOutbox items' =>
    have hfile := hw _ rfl
    obtain ⟨hdue, ⟨item, hdrawn, rfl⟩ | ⟨hdrawn, localId, -, rfl⟩⟩ := ha
    · have hnext : (note t).write ((note t).loaded ++ [item]) =
          { note t with drawn := none, queued := some item } := by
        simp only [write, hdrawn, List.getLast?_concat]
      dsimp only [Device.exec, next]
      rw [hnext, ← hfile]
      exact hi.append hdrawn
    · have hnext : (note t).write ((note t).loaded.filter (·.localId ≠ localId)) =
          { note t with
            cleared := (note t).cleared ++
              (note t).seen.filter (· ∉ ids ((note t).loaded.filter (·.localId ≠ localId)))
            due := ids ((note t).loaded.filter (· ∉ (note t).loaded.filter (·.localId ≠ localId))) } := by
        simp only [write, hdrawn]
      dsimp only [Device.exec, next]
      rw [hnext, ← hfile]
      exact hi.remove hdue (List.filter_sublist.subset)
  | emit e =>
    cases e with
    | messageSent => exact hi.report ha.1 ha.2
    | _ => exact hquiet trivial rfl
  | _ => exact hquiet trivial rfl

end OutboxInv

omit [X25519] [Ed25519] [SymmetricPrimitives Key] [X3dhKdf Key] in
theorem outboxInv_start (h : d.Starts) : OutboxInv d.outbox d (fun _ => blank) [] := by
  have hsent : ∀ i, ¬d.Sent i := by
    rintro i ⟨peerId, hmem⟩
    rw [h.1] at hmem
    exact absurd hmem List.not_mem_nil
  refine ⟨?_, fun _ _ h => absurd h List.not_mem_nil, fun _ _ h => absurd h (by simp [blank]),
    fun i h => absurd h (hsent i), fun _ _ h => absurd h List.not_mem_nil, ?_⟩
  · intro i hi
    obtain ⟨item, hitem, rfl⟩ := List.mem_map.1 hi
    exact h.2 item hitem
  · rintro item (hitem | hitem | ⟨_, hitem⟩)
    · exact .inl hitem
    · exact absurd hitem List.not_mem_nil
    · exact absurd hitem (by simp [blank])

omit [X25519] [Ed25519] [SymmetricPrimitives Key] [X3dhKdf Key] in
/-- What is due is reported by the next operation of its thread. -/
theorem OutboxMachine.reporting_of_due {s : OutboxMachine Key} (h : s.Orderly next allowed (· = blank) Finished)
    {localId : ℕ} (hdue : localId ∈ (s.note t).due) : s.Reporting localId := by
  have hne : (s.note t).due ≠ [] := List.ne_nil_of_mem hdue
  rcases ht : s.threads t with _ | (r | ⟨o, k⟩)
  · rw [h.ready_of_idle ht] at hdue
    exact absurd hdue List.not_mem_nil
  · obtain ⟨_, hnone, -⟩ := h.keeps_of_some ht
    exact absurd hnone hne
  · have ha := (h.keeps_of_some ht).1
    cases o with
    | emit e =>
      cases e with
      | messageSent peerId i =>
        obtain rfl := ha.2 _ hdue
        exact ⟨t, peerId, k, ht⟩
      | _ => exact absurd ha hne
    | saveOutbox => exact absurd ha.1 hne
    | uuid => exact absurd ha.1 hne
    | _ => exact absurd ha hne

variable [PeerIds]

/-- In a run whose outbox writes all find the file as their handler read it, a message that was queued is in the
outbox until its `messageSent`, and not after it. -/
theorem outbox_keeps_until_sent {s : OutboxMachine Key} (hd : d.Starts)
    (h : Machine.Reaches Device.perform next (fun _ => blank)
      (fun s a => OutboxAct.Drives m a ∧ OutboxMachine.Unraced s a) (Machine.idle blank d) s) :
    (∀ item, item ∈ d.outbox ∨ some item ∈ s.returned →
      item ∈ s.state.outbox ∨ s.state.Sent item.localId ∨ OutboxMachine.Reporting s item.localId) ∧
    ∀ item ∈ s.state.outbox, ¬s.state.Sent item.localId := by
  have hrun : s.Orderly next allowed (· = blank) Finished ∧ OutboxInv d.outbox s.state s.note s.returned := by
    refine h.induct (OutboxInv d.outbox) (Machine.orderly_idle rfl) (outboxInv_start hd) ?_ (fun _ _ _ => rfl) ?_ ?_
    · rintro s' t p n ⟨hp, -⟩ rfl
      cases t with
      | js =>
        obtain ⟨peerId, peerPublicKey, plaintext, rfl⟩ := hp
        exact sending_keeps
      | pump =>
        obtain ⟨event, rfl⟩ := hp
        exact handling_keeps
    · rintro s' t o k env ⟨-, hw⟩ ht ha hi
      refine hi.step ha fun items he => ?_
      subst he
      simp only [OutboxMachine.Unraced, ht] at hw
      exact hw
    · exact fun s' t r hr hi => hi.finish hr
  obtain ⟨ho, hi⟩ := hrun
  refine ⟨fun item hitem => ?_, fun item hitem hs => (hi.sent _ hs).2 (List.mem_map_of_mem hitem)⟩
  rcases hi.kept item (hitem.imp_right .inl) with hmem | hs | ⟨t, hdue⟩
  · exact .inl hmem
  · exact .inr (.inl hs)
  · exact .inr (.inr (OutboxMachine.reporting_of_due ho hdue))

end

/-! ### A message that is lost, and one that comes back -/

section
attribute [local instance] StandIn.x25519 StandIn.ed25519 StandIn.symmetricPrimitives StandIn.x3dhKdf StandIn.peerIds

namespace OutboxRace

def manager : ChatManager := ⟨⟨.replicate 32 1⟩, ⟨.replicate 32 2⟩⟩

def peer : PeerId := [0x0a]

def first : OutboxItem := ⟨0, peer, peer, [0x68]⟩

/-- The first message is with the transport. -/
def inFlight : Device (List UInt8) where
  outbox := [first]
  sessions := []
  peerStates := Table.empty.insert peer .sendingEnvelope
  connectedPeers := []
  prekeys := .generate manager.identity (.replicate 32 3) []
  nextLocalId := 1
  commands := []
  events := []

def env : Env := ⟨.replicate 12 0, .replicate 32 4, true, fun _ => .refl _⟩

def steps (t : ChatThread) (n : ℕ) : List (OutboxAct (List UInt8)) := List.replicate n (.step t env)

def send : OutboxAct (List UInt8) := .call .js (sending peer peer [0x69])

def delivered : OutboxAct (List UInt8) := .call .pump (handling manager (.envelopeDelivered peer))

def run (acts : List (OutboxAct (List UInt8))) : OutboxMachine (List UInt8) :=
  acts.foldl (Machine.act Device.perform OutboxNote.next fun _ => .blank) (Machine.idle .blank inFlight)

/-- The pump reads the outbox before the JS thread appends to it, and writes after. -/
def lost : List (OutboxAct (List UInt8)) :=
  [delivered] ++ steps .pump 4 ++ [send] ++ steps .js 3 ++ steps .pump 3 ++ [.finish .pump] ++ steps .js 1 ++ [.finish .js]

/-- The JS thread reads the outbox before the pump removes the message, and writes after. -/
def restored : List (OutboxAct (List UInt8)) := [send] ++ steps .js 2 ++ [delivered] ++ steps .pump 6 ++ steps .js 1

/-- The two handlers one after the other. -/
def unraced : List (OutboxAct (List UInt8)) :=
  [delivered] ++ steps .pump 7 ++ [.finish .pump, send] ++ steps .js 6 ++ [.finish .js]

theorem drives {acts : List (OutboxAct (List UInt8))}
    (h : ∀ a ∈ acts, a = send ∨ a = delivered ∨ (∃ t, a = .step t env) ∨ ∃ t, a = .finish t) :
    ∀ a ∈ acts, OutboxAct.Drives manager a := by
  intro a ha
  rcases h a ha with rfl | rfl | ⟨t, rfl⟩ | ⟨t, rfl⟩
  · exact ⟨_, _, _, rfl⟩
  · exact ⟨_, rfl⟩
  · trivial
  · trivial

theorem inFlight_starts : inFlight.Starts := ⟨rfl, by decide⟩

end OutboxRace

open OutboxRace in
theorem outbox_keeps_until_sent_unraced :
    inFlight.Starts ∧ Machine.Reaches Device.perform OutboxNote.next (fun _ => .blank)
      (fun s a => OutboxAct.Drives manager a ∧ OutboxMachine.Unraced s a) (Machine.idle .blank inFlight) (run unraced) ∧
    (∀ item, item ∈ inFlight.outbox ∨ some item ∈ (run unraced).returned →
      item ∈ (run unraced).state.outbox ∨ (run unraced).state.Sent item.localId ∨
        OutboxMachine.Reporting (run unraced) item.localId) ∧
    ∀ item ∈ (run unraced).state.outbox, ¬(run unraced).state.Sent item.localId := by
  have hf : Machine.Follows Device.perform OutboxNote.next (fun _ => .blank) OutboxMachine.Unraced
    (Machine.idle .blank inFlight) unraced := by decide +kernel
  have hrun := Machine.Reaches.foldl (Machine.Reaches.refl _) (hf.and (drives (by simp [unraced, steps])))
  exact ⟨inFlight_starts, hrun, outbox_keeps_until_sent inFlight_starts hrun⟩

open OutboxRace in
/-- With writes between another thread's read and its write, the second message is lost without having been sent,
or the first one is back after it was. -/
theorem outbox_loses_and_restores :
    inFlight.Starts ∧
    (∃ s, Machine.Reaches Device.perform OutboxNote.next (fun _ => .blank) (fun _ a => OutboxAct.Drives manager a)
        (Machine.idle .blank inFlight) s ∧
      ∃ item, some item ∈ s.returned ∧ item ∉ s.state.outbox ∧ ¬s.state.Sent item.localId ∧
        ¬OutboxMachine.Reporting s item.localId) ∧
    ∃ s, Machine.Reaches Device.perform OutboxNote.next (fun _ => .blank) (fun _ a => OutboxAct.Drives manager a)
        (Machine.idle .blank inFlight) s ∧
      ∃ item ∈ s.state.outbox, s.state.Sent item.localId := by
  have hreach : ∀ acts, (∀ a ∈ acts, a = send ∨ a = delivered ∨ (∃ t, a = .step t env) ∨ ∃ t, a = .finish t) →
      Machine.Reaches Device.perform OutboxNote.next (fun _ => .blank) (fun _ a => OutboxAct.Drives manager a)
        (Machine.idle .blank inFlight) (run acts) :=
    fun acts h => (Machine.Reaches.refl _).foldl (Machine.follows_of_forall fun a ha _ => drives h a ha)
  refine ⟨inFlight_starts, ⟨run lost, hreach _ (by simp [lost, steps]), ⟨1, peer, peer, [0x69]⟩, ?_, ?_, ?_, ?_⟩,
    run restored, hreach _ (by simp [restored, steps]), first, ?_, peer, ?_⟩
  · decide +kernel
  · decide +kernel
  · rintro ⟨peerId, h⟩
    have hevents : (run lost).state.events = [.messageSent peer 0] := by decide +kernel
    rw [hevents] at h
    simp at h
  · rintro ⟨t, peerId, k, h⟩
    have hidle : ∀ t, ((run lost).threads t).isNone := by
      intro t
      cases t <;> decide +kernel
    have := hidle t
    rw [h] at this
    simp at this
  · decide +kernel
  · decide +kernel

end
end SpiritChat
