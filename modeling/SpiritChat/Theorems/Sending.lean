import SpiritChat.Chat.ChatManager

/-! # What an attempt to send asks for

An attempt to send looks things up and keeps books, and may use the session that it loaded for one message. These are
the rules that every account of what the handlers do starts from. -/

namespace SpiritChat
open Lib Prog

section
variable {Key : Type} {peerId : PeerId} {item : OutboxItem} {session : Session Key}

/-- The operations that use no key, write no file and report nothing as sent. -/
def ChatOp.Plain : ChatOp Key → Prop
  | .loadOutbox | .loadSession _ | .isConnected _ => True
  | .beginState _ _ | .endState _ => True
  | .command (.dial _) | .command (.fetchBlob _ _) | .command (.sendEnvelope _ _) => True
  | .emit (.messageFailed _ _ _) => True
  | _ => False

theorem failed_plain {reason : SendFailure} :
    (ask (.endState peerId) >>= fun _ => ask (.emit (item.failedEvent reason)) : Chat Key Unit).Only ChatOp.Plain :=
  (only_ask trivial).bind fun _ => only_ask trivial

theorem firstOutboxItem_plain : (firstOutboxItem peerId : Chat Key _).Only ChatOp.Plain :=
  (only_ask trivial).bind fun _ => only_pure _

theorem endWithFailure_plain {reason : String} : (endWithFailure peerId reason : Chat Key Unit).Only ChatOp.Plain := by
  refine (only_ask trivial).bind fun _ => firstOutboxItem_plain.bind fun first => ?_
  rcases first with _ | item
  · exact only_pure _
  · exact only_ask trivial

section
variable {Note : Type} {allowed : Note → ChatOp Key → Prop} {next : (o : ChatOp Key) → o.Res → Note → Note}
  {inv : Note → Prop} {n : Note}

/-- A message is encrypted with the session, and the ratchet that comes of it is saved. -/
theorem sendContinuing_keeps (hplain : ∀ o n, ChatOp.Plain o → inv n → allowed n o ∧ ∀ r, inv (next o r n))
    (hencrypt : allowed n (.encrypt session.ratchet item.plaintext))
    (hfailed : ∀ ratchet e, inv (next (.encrypt session.ratchet item.plaintext) (ratchet, .error e) n))
    (hsave : ∀ ratchet ciphertext,
      allowed (next (.encrypt session.ratchet item.plaintext) (ratchet, .ok ciphertext) n)
        (.saveSession ⟨item.peerId, session.peerPublicKey, ratchet⟩) ∧
      inv (next (.saveSession ⟨item.peerId, session.peerPublicKey, ratchet⟩) ()
        (next (.encrypt session.ratchet item.plaintext) (ratchet, .ok ciphertext) n))) :
    (sendContinuing item session).Keeps allowed next (fun _ => inv) n := by
  refine ⟨hencrypt, fun r => ?_⟩
  rcases r with ⟨ratchet, e | ciphertext⟩
  · exact failed_plain.keeps (hfailed ratchet e) hplain
  · refine ⟨(hsave ratchet ciphertext).1, fun _ => Only.keeps ?_ (hsave ratchet ciphertext).2 hplain⟩
    exact (only_ask trivial).bind fun _ => (only_pure _).ite failed_plain

/-- An attempt is plain, unless it sends with the session that it loaded for its peer. -/
theorem attemptSend_keeps (hplain : ∀ o n, ChatOp.Plain o → inv n → allowed n o ∧ ∀ r, inv (next o r n)) (hn : inv n)
    (hsend : ∀ (item : OutboxItem) session n, item.peerId = peerId → inv n →
      (sendContinuing item session).Keeps allowed next (fun _ => inv)
        (next (.beginState .sendingEnvelope peerId) true (next (.loadSession peerId) (some session) n))) :
    (attemptSend peerId : Chat Key Unit).Keeps allowed next (fun _ => inv) n := by
  obtain ⟨hload, hn⟩ := hplain .loadOutbox n trivial hn
  refine ⟨hload, fun outbox => ?_⟩
  have hn := hn outbox
  dsimp only [Prog.bind, Pure.pure]
  rcases hfirst : firstItem outbox peerId with _ | item
  · exact hn
  · obtain ⟨hconnected, hn⟩ := hplain (.isConnected peerId) _ trivial hn
    refine ⟨hconnected, fun connected => ?_⟩
    have hn := hn connected
    dsimp only [Prog.bind, Pure.pure]
    cases connected with
    | true =>
      obtain ⟨hsession, hloaded⟩ := hplain (.loadSession peerId) _ trivial hn
      refine ⟨hsession, fun session => ?_⟩
      rcases session with _ | session
      · refine Only.keeps ?_ (hloaded none) hplain
        refine (only_ask trivial).bind fun _ => .ite ((only_ask trivial).bind fun _ => ?_) (only_pure _)
        exact (only_pure _).ite failed_plain
      · obtain ⟨hbegin, hbegun⟩ := hplain (.beginState .sendingEnvelope peerId) _ trivial (hloaded (some session))
        refine ⟨hbegin, fun began => ?_⟩
        cases began with
        | true => exact hsend item session _ (firstItem_peerId hfirst) hn
        | false => exact hbegun false
    | false =>
      refine Only.keeps ?_ hn hplain
      exact (only_ask trivial).bind fun _ => .ite ((only_ask trivial).bind fun _ => only_pure _) (only_pure _)

end

/-- The operations of an attempt. -/
def ChatOp.Sends : ChatOp Key → Prop
  | .encrypt _ _ | .saveSession _ => True
  | o => o.Plain

theorem attemptSend_sends : (attemptSend peerId : Chat Key Unit).Only ChatOp.Sends := by
  have hplain : ∀ (o : ChatOp Key) (n : Unit), o.Plain → True → o.Sends ∧ ∀ _ : o.Res, True := by
    intro o _ ho _
    cases o <;> first | exact ⟨ho, fun _ => trivial⟩ | exact ⟨trivial, fun _ => trivial⟩
  refine only_iff_keeps.mpr (attemptSend_keeps hplain trivial fun item session _ _ _ => ?_)
  exact sendContinuing_keeps hplain trivial (fun _ _ => trivial) fun _ _ => ⟨trivial, trivial⟩

end
end SpiritChat
