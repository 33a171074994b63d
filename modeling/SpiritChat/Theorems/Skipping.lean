import SpiritChat.Theorems.KeyPlaces

/-! # What skipping costs

The loop over skipped messages keeps one key for each, as long as the store has room for all of them. -/

namespace SpiritChat

section
variable {Key : Type}

namespace SkippedKeyStore
variable {s s' : SkippedKeyStore Key} {dhPublic d : Bytes 32} {i n : ℕ} {k : MessageKey Key}

theorem add_of_room (h : s.len < maxSkippedKeys) : s.add dhPublic n k = .ok (AList.insert (dhPublic, n) k s) :=
  if_neg (not_le.mpr h)

theorem add_of_full (h : maxSkippedKeys ≤ s.len) : s.add dhPublic n k = .error .tooManySkippedKeys := if_pos h

theorem len_insert (h : s.lookup (dhPublic, n) = none) : len (AList.insert (dhPublic, n) k s) = s.len + 1 := by
  have hnot : (dhPublic, n) ∉ s := AList.lookup_eq_none.mp h
  unfold len
  rw [AList.entries_insert_of_notMem hnot, List.length_cons]

theorem lookup_insert_apply : (AList.insert (dhPublic, n) k s).lookup (d, i) =
    if d = dhPublic ∧ i = n then some k else s.lookup (d, i) := by
  by_cases h : d = dhPublic ∧ i = n
  · obtain ⟨rfl, rfl⟩ := h
    rw [if_pos ⟨rfl, rfl⟩, AList.lookup_insert]
  · rw [if_neg h, AList.lookup_insert_ne fun he => h (Prod.mk.inj he)]

theorem lookup_erase_apply : (s.erase (dhPublic, n)).lookup (d, i) =
    if d = dhPublic ∧ i = n then none else s.lookup (d, i) := by
  by_cases h : d = dhPublic ∧ i = n
  · obtain ⟨rfl, rfl⟩ := h
    rw [if_pos ⟨rfl, rfl⟩, AList.lookup_erase]
  · rw [if_neg h, AList.lookup_erase_ne fun he => h (Prod.mk.inj he)]

theorem len_erase_le : len (s.erase (dhPublic, n)) ≤ s.len := (List.kerase_sublist _ _).length_le

end SkippedKeyStore

variable [SymmetricPrimitives Key] {remoteKey : Bytes 32} {rounds count : ℕ} {c : ChainKey Key} {s : SkippedKeyStore Key}

/-- What the store holds after the loop: the keys of the places that it passed, and what it held. -/
def SkippedKeyStore.filled (s : SkippedKeyStore Key) (remoteKey : Bytes 32) (c : ChainKey Key) (count rounds : ℕ)
    (d : Bytes 32) (i : ℕ) : Option (MessageKey Key) :=
  if d = remoteKey ∧ count ≤ i ∧ i < count + rounds then some (c.advance (i - count)).ratchet.1 else s.lookup (d, i)

namespace DoubleRatchet

theorem skipLoop_succ : skipLoop remoteKey (rounds + 1) c count s =
    s.add remoteKey count c.ratchet.1 >>= skipLoop remoteKey rounds c.ratchet.2 (count + 1) := rfl

theorem skipLoop_of_room (hnew : ∀ i, count ≤ i → s.lookup (remoteKey, i) = none) (hroom : s.len + rounds ≤ maxSkippedKeys) :
    ∃ s', skipLoop remoteKey rounds c count s = .ok (c.advance rounds, count + rounds, s') ∧ s'.len = s.len + rounds ∧
      ∀ d i, s'.lookup (d, i) = s.filled remoteKey c count rounds d i := by
  induction rounds generalizing c count s with
  | zero =>
    refine ⟨s, rfl, rfl, fun d i => ?_⟩
    unfold SkippedKeyStore.filled
    rw [if_neg fun h => by omega]
  | succ rounds ih =>
    have hadd : s.add remoteKey count c.ratchet.1 = .ok (AList.insert (remoteKey, count) c.ratchet.1 s) :=
      SkippedKeyStore.add_of_room (by omega)
    have hlen := SkippedKeyStore.len_insert (k := c.ratchet.1) (hnew count (le_refl _))
    have hnew' : ∀ i, count + 1 ≤ i →
        (AList.insert (remoteKey, count) c.ratchet.1 s : SkippedKeyStore Key).lookup (remoteKey, i) = none := fun i hi => by
      rw [SkippedKeyStore.lookup_insert_apply, if_neg fun h => by omega]
      exact hnew i (by omega)
    obtain ⟨s', hloop, hlen', hlookup⟩ := @ih (count + 1) c.ratchet.2 _ hnew' (by omega)
    refine ⟨s', ?_, by omega, fun d i => ?_⟩
    · rw [skipLoop_succ, hadd]
      refine hloop.trans ?_
      rw [show count + 1 + rounds = count + (rounds + 1) by omega]
      rfl
    · rw [hlookup]
      unfold SkippedKeyStore.filled
      rw [SkippedKeyStore.lookup_insert_apply]
      by_cases hd : d = remoteKey
      · rcases lt_trichotomy i count with hi | rfl | hi
        · rw [if_neg (by omega), if_neg (by omega), if_neg (by omega)]
        · rw [if_neg (by omega), if_pos ⟨hd, rfl⟩, if_pos ⟨hd, le_refl _, by omega⟩, Nat.sub_self]
          rfl
        · have hstep : c.ratchet.2.advance (i - (count + 1)) = c.advance (i - count) := by
            rw [show i - count = i - (count + 1) + 1 by omega]
            rfl
          rw [hstep, if_neg fun h : d = remoteKey ∧ i = count => hi.ne' h.2]
          exact if_congr ⟨fun h => ⟨h.1, by omega, by omega⟩, fun h => ⟨h.1, by omega, by omega⟩⟩ rfl rfl
      · rw [if_neg fun h => hd h.1, if_neg fun h => hd h.1, if_neg fun h => hd h.1]

theorem skipLoop_of_full (hnew : ∀ i, count ≤ i → s.lookup (remoteKey, i) = none) (hlen : s.len ≤ maxSkippedKeys)
    (hfull : maxSkippedKeys < s.len + rounds) : skipLoop remoteKey rounds c count s = .error .tooManySkippedKeys := by
  induction rounds generalizing c count s with
  | zero => omega
  | succ rounds ih =>
    rw [skipLoop_succ]
    by_cases hroom : s.len < maxSkippedKeys
    · rw [SkippedKeyStore.add_of_room hroom]
      have hlen' := SkippedKeyStore.len_insert (k := c.ratchet.1) (hnew count (le_refl _))
      refine ih (fun i hi => ?_) (by omega) (by omega)
      rw [SkippedKeyStore.lookup_insert_apply, if_neg fun h => by omega]
      exact hnew i (by omega)
    · rw [SkippedKeyStore.add_of_full (by omega)]
      rfl

/-- However much there is in the store, the loop goes as many steps down the chain. -/
theorem skipLoop_place {out : ChainKey Key × ℕ × SkippedKeyStore Key} (h : skipLoop remoteKey rounds c count s = .ok out) :
    out.1 = c.advance rounds ∧ out.2.1 = count + rounds := by
  induction rounds generalizing c count s with
  | zero =>
    obtain rfl := Except.ok.inj h
    exact ⟨rfl, rfl⟩
  | succ rounds ih =>
    rw [skipLoop_succ] at h
    obtain ⟨s₁, -, h⟩ := Lib.except_bind_eq_ok.1 h
    obtain ⟨hc, hcount⟩ := ih h
    refine ⟨hc.trans rfl, by omega⟩

variable {r w : DoubleRatchet Key} {upTo : ℕ}

/-- The keys that `decrypt` has to skip for a message. -/
def mustSkip (r : DoubleRatchet Key) (header : MessageHeader) : ℕ :=
  if (r.skipped.lookup (header.dhPublic, header.messageNumber)).isSome then 0
  else if r.dhRemote = some header.dhPublic then header.messageNumber - r.recvCount
  else (if r.receivingChain.isSome then header.previousChainLength - r.recvCount else 0) + header.messageNumber

theorem skipMessageKeys_of_none (h : r.receivingChain = none) : r.skipMessageKeys upTo = .ok r := by
  unfold skipMessageKeys
  rw [h]
  rcases r.dhRemote <;> rfl

theorem skipMessageKeys_of_some (hremote : r.dhRemote = some remoteKey) (hchain : r.receivingChain = some c) :
    r.skipMessageKeys upTo = skipLoop remoteKey (upTo - r.recvCount) c r.recvCount r.skipped >>= fun out =>
      .ok { r with receivingChain := some out.1, recvCount := out.2.1, skipped := out.2.2 } := by
  unfold skipMessageKeys
  rw [hremote, hchain]
  rfl

theorem skipMessageKeys_rootKey (h : r.skipMessageKeys upTo = .ok w) : w.rootKey = r.rootKey := by
  unfold skipMessageKeys at h
  split at h
  · obtain ⟨out, -, hw⟩ := Lib.except_bind_eq_ok.1 h
    obtain rfl := Except.ok.inj hw
    rfl
  · obtain rfl := Except.ok.inj h
    rfl

theorem skipMessageKeys_of_room (hremote : r.dhRemote = some remoteKey) (hchain : r.receivingChain = some c)
    (hnew : ∀ i, r.recvCount ≤ i → r.skipped.lookup (remoteKey, i) = none)
    (hroom : r.skipped.len + (upTo - r.recvCount) ≤ maxSkippedKeys) :
    ∃ s, r.skipMessageKeys upTo =
        .ok { r with receivingChain := some (c.advance (upTo - r.recvCount)), recvCount := max r.recvCount upTo, skipped := s } ∧
      s.len = r.skipped.len + (upTo - r.recvCount) ∧
      ∀ d i, s.lookup (d, i) = r.skipped.filled remoteKey c r.recvCount (upTo - r.recvCount) d i := by
  obtain ⟨s, hloop, hlen, hlookup⟩ := skipLoop_of_room (c := c) hnew hroom
  refine ⟨s, ?_, hlen, hlookup⟩
  rw [skipMessageKeys_of_some hremote hchain, hloop, show max r.recvCount upTo = r.recvCount + (upTo - r.recvCount) by omega]
  rfl

theorem skipMessageKeys_of_full (hremote : r.dhRemote = some remoteKey) (hchain : r.receivingChain = some c)
    (hnew : ∀ i, r.recvCount ≤ i → r.skipped.lookup (remoteKey, i) = none) (hlen : r.skipped.len ≤ maxSkippedKeys)
    (hfull : maxSkippedKeys < r.skipped.len + (upTo - r.recvCount)) :
    r.skipMessageKeys upTo = .error .tooManySkippedKeys := by
  rw [skipMessageKeys_of_some hremote hchain, skipLoop_of_full hnew hlen hfull]
  rfl

theorem skipMessageKeys_place (hremote : r.dhRemote = some remoteKey) (hchain : r.receivingChain = some c)
    (h : r.skipMessageKeys upTo = .ok w) :
    w.receivingChain = some (c.advance (upTo - r.recvCount)) ∧ w.recvCount = max r.recvCount upTo := by
  rw [skipMessageKeys_of_some hremote hchain] at h
  obtain ⟨out, hloop, hw⟩ := Lib.except_bind_eq_ok.1 h
  obtain ⟨hc, hcount⟩ := skipLoop_place hloop
  obtain rfl := Except.ok.inj hw
  refine ⟨congrArg some hc, ?_⟩
  show out.2.1 = _
  omega

theorem decrypt_of_error [X25519] {fresh : Bytes 32} {header : MessageHeader} {e : CryptoError}
    (h : r.receivingKey fresh header = .error e) (ciphertext aad : List UInt8) :
    r.decrypt fresh header ciphertext aad = (r, .error e) := by
  unfold decrypt
  rw [h]
  rfl

/-- What was opened, and with which key. -/
theorem decrypt_ok_open [X25519] {fresh : Bytes 32} {header : MessageHeader} {ciphertext aad plaintext : List UInt8}
    (h : r.decrypt fresh header ciphertext aad = (w, .ok plaintext)) : ∃ k, r.receivingKey fresh header = .ok (k, w) ∧
      Aead.decrypt k ciphertext (fullAssociatedData aad header) = .ok plaintext := by
  unfold decrypt at h
  dsimp only at h
  split at h
  · exact absurd (congrArg Prod.snd h) (by simp)
  · rename_i w' plaintext' hattempt
    obtain ⟨⟨k, w''⟩, hk, hattempt⟩ := Lib.except_bind_eq_ok.1 hattempt
    obtain ⟨opened, hopen, hattempt⟩ := Lib.except_bind_eq_ok.1 hattempt
    obtain ⟨rfl, rfl⟩ := Prod.mk.inj (Except.ok.inj hattempt)
    obtain ⟨rfl, hplain⟩ := Prod.mk.inj h
    obtain rfl := Except.ok.inj hplain
    exact ⟨k, hk, hopen⟩

end DoubleRatchet
end
end SpiritChat
