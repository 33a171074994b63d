import SpiritChat.Crypto.RatchetBytes
import SpiritChat.Theorems.KeyPlaces
import SpiritChat.Theorems.Prekeys
import SpiritChat.Theorems.StandIn

/-! # Saved conversations

A ratchet that is saved and restored at any point of a conversation is the same up to the order of its skipped
keys, which no operation sees. -/

namespace SpiritChat
open Lib

/-! ### Restored skipped keys -/

namespace SkippedKeyStore

theorem fromEntries_append (entries : List SkippedEntry) (s : SkippedKeyStore (Bytes 32))
    (hd : (entries.map (·.1)).Nodup) (hs : ∀ e ∈ entries, e.1 ∉ s) :
    (entries.foldl (fun s e => AList.insert e.1 e.2 s) s).entries.Perm
      (entries.map (fun e => (⟨e.1, e.2⟩ : Sigma fun _ => MessageKey (Bytes 32))) ++ s.entries) := by
  induction entries generalizing s with
  | nil => exact .refl _
  | cons e entries ih =>
    obtain ⟨hne, hd⟩ := List.nodup_cons.mp hd
    obtain ⟨he, hs⟩ := List.forall_mem_cons.mp hs
    refine (ih (AList.insert e.1 e.2 s) hd fun e' he' => ?_).trans ?_
    · rw [AList.mem_insert, not_or]
      exact ⟨fun heq => hne (List.mem_map.mpr ⟨e', he', heq⟩), hs e' he'⟩
    · rw [AList.entries_insert_of_notMem he]
      exact List.perm_middle

/-- The order in which the entries are written does not matter. -/
theorem fromEntries_perm {s : SkippedKeyStore (Bytes 32)} {entries : List SkippedEntry} (hp : entries.Perm s.entryList) :
    (fromEntries entries).entries.Perm s.entries := by
  have hkeys : (s.entryList.map (·.1)) = s.keys := List.map_map.trans rfl
  have hd : (entries.map (·.1)).Nodup := ((hp.map _).trans (.of_eq hkeys)).nodup_iff.mpr s.keys_nodup
  have hall := fromEntries_append entries ∅ hd fun e _ => AList.notMem_empty e.1
  rw [AList.empty_entries, List.append_nil] at hall
  refine hall.trans ((hp.map _).trans (.of_eq ?_))
  unfold entryList
  rw [List.map_map]
  exact List.map_id _

end SkippedKeyStore

/-! ### Alike ratchets -/

section
variable {Key : Type}

namespace DoubleRatchet

/-- The same value: a hash map has no order. -/
structure Alike (r r' : DoubleRatchet Key) : Prop where
  fields : r' = { r with skipped := r'.skipped }
  skipped : r'.skipped.entries.Perm r.skipped.entries

theorem alike_with (r : DoubleRatchet Key) {t : SkippedKeyStore Key} (h : t.entries.Perm r.skipped.entries) :
    r.Alike { r with skipped := t } := ⟨rfl, h⟩

end DoubleRatchet

theorem SkippedKeyStore.add_agree {s t : SkippedKeyStore Key} (h : t.entries.Perm s.entries) (dhPublic : Bytes 32) (n : ℕ)
    (k : MessageKey Key) : Agree (fun s t => t.entries.Perm s.entries) (s.add dhPublic n k) (t.add dhPublic n k) := by
  unfold add len
  rw [h.length_eq]
  split
  · exact .error _
  · exact .ok (AList.perm_insert h)

variable [X25519] [SymmetricPrimitives Key]

/-- A call of one of the two operations, with what it draws. -/
inductive RatchetCall where
  | encrypt (nonce : Bytes 12) (plaintext associatedData : List UInt8)
  | decrypt (fresh : Bytes 32) (header : MessageHeader) (ciphertext associatedData : List UInt8)

/-- What a call gives back. -/
inductive RatchetAnswer where
  | sealed (r : Except CryptoError (MessageHeader × List UInt8))
  | opened (r : Except CryptoError (List UInt8))

/-- The counters of a header are `u32`s. -/
def RatchetCall.WellTyped : RatchetCall → Prop
  | .encrypt _ _ _ => True
  | .decrypt _ header _ _ => header.previousChainLength < 2 ^ 32 ∧ header.messageNumber < 2 ^ 32

namespace DoubleRatchet
variable {r r' w : DoubleRatchet Key} {fresh : Bytes 32} {header : MessageHeader}

def call (r : DoubleRatchet Key) : RatchetCall → DoubleRatchet Key × RatchetAnswer
  | .encrypt nonce plaintext associatedData =>
    ((r.encrypt nonce plaintext associatedData).1, .sealed (r.encrypt nonce plaintext associatedData).2)
  | .decrypt fresh header ciphertext associatedData =>
    ((r.decrypt fresh header ciphertext associatedData).1, .opened (r.decrypt fresh header ciphertext associatedData).2)

/-- What a ratchet answers to calls one after the other. -/
def answers : DoubleRatchet Key → List RatchetCall → List RatchetAnswer
  | _, [] => []
  | r, c :: calls => (r.call c).2 :: answers (r.call c).1 calls

omit [X25519] in
theorem skipLoop_agree {s t : SkippedKeyStore Key} (h : t.entries.Perm s.entries) (remoteKey : Bytes 32) (rounds n : ℕ)
    (c : ChainKey Key) : Agree (fun a b => b.1 = a.1 ∧ b.2.1 = a.2.1 ∧ b.2.2.entries.Perm a.2.2.entries)
      (skipLoop remoteKey rounds c n s) (skipLoop remoteKey rounds c n t) := by
  induction rounds generalizing c n s t with
  | zero => exact .ok ⟨rfl, rfl, h⟩
  | succ rounds ih => exact (SkippedKeyStore.add_agree h remoteKey n _).bind fun _ _ h' => ih h' _ _

omit [X25519] in
theorem Alike.skipMessageKeys (h : r.Alike r') (upTo : ℕ) :
    Agree Alike (r.skipMessageKeys upTo) (r'.skipMessageKeys upTo) := by
  obtain ⟨hfields, hp⟩ := h
  rw [hfields]
  unfold DoubleRatchet.skipMessageKeys
  dsimp only
  split
  · refine (skipLoop_agree hp _ _ _ _).bind ?_
    rintro ⟨c, n, s⟩ ⟨c', n', t⟩ ⟨rfl, rfl, h⟩
    exact .ok ⟨rfl, h⟩
  · exact .ok (alike_with r hp)

theorem Alike.dhRatchetStep (h : r.Alike r') (fresh remoteKey : Bytes 32) :
    (r.dhRatchetStep fresh remoteKey).Alike (r'.dhRatchetStep fresh remoteKey) := by
  obtain ⟨hfields, hp⟩ := h
  rw [hfields]
  exact ⟨rfl, hp⟩

/-- The second half of `receiving_key`: the next key of the receiving chain, after the ones that are skipped. -/
def nextKey (r : DoubleRatchet Key) (upTo : ℕ) : Except CryptoError (MessageKey Key × DoubleRatchet Key) := do
  let working ← r.skipMessageKeys upTo
  match working.receivingChain with
  | none => .error .messageKeyUnavailable
  | some chain =>
    return (chain.ratchet.1, { working with receivingChain := some chain.ratchet.2, recvCount := u32Succ working.recvCount })

theorem receivingKey_of_none (h : r.skipped.lookup (header.dhPublic, header.messageNumber) = none) :
    r.receivingKey fresh header =
      (if r.dhRemote ≠ some header.dhPublic then
        r.skipMessageKeys header.previousChainLength >>= fun w => .ok (w.dhRatchetStep fresh header.dhPublic)
      else .ok r) >>= fun w => w.nextKey header.messageNumber := by
  unfold receivingKey
  rw [h]
  dsimp only
  split
  · cases r.skipMessageKeys header.previousChainLength <;> rfl
  · rfl

omit [X25519] in
theorem Alike.nextKey (h : r.Alike r') (upTo : ℕ) :
    Agree (fun a b => b.1 = a.1 ∧ a.2.Alike b.2) (r.nextKey upTo) (r'.nextKey upTo) := by
  refine (h.skipMessageKeys upTo).bind fun w w' hw => ?_
  have hchain : w'.receivingChain = w.receivingChain := by rw [hw.fields]
  rw [hchain]
  split
  · exact .error _
  · refine .ok ⟨rfl, ?_⟩
    rw [hw.fields]
    exact ⟨rfl, hw.skipped⟩

theorem Alike.receivingKey (h : r.Alike r') (fresh : Bytes 32) (header : MessageHeader) :
    Agree (fun a b => b.1 = a.1 ∧ a.2.Alike b.2) (r.receivingKey fresh header) (r'.receivingKey fresh header) := by
  have hlookup := AList.perm_lookup (a := (header.dhPublic, header.messageNumber)) h.skipped
  rcases hk : r.skipped.lookup (header.dhPublic, header.messageNumber) with _ | k
  · have hremote : r'.dhRemote = r.dhRemote := by rw [h.fields]
    rw [receivingKey_of_none hk, receivingKey_of_none (hlookup.trans hk), hremote]
    refine Agree.bind (R := fun a b : DoubleRatchet Key => a.Alike b) ?_ fun a b hab => hab.nextKey _
    split
    · exact (h.skipMessageKeys _).bind fun a b hab => .ok (Alike.dhRatchetStep hab fresh header.dhPublic)
    · exact .ok h
  · unfold DoubleRatchet.receivingKey
    rw [hlookup, hk]
    refine .ok ⟨rfl, ?_⟩
    rw [h.fields]
    exact ⟨rfl, AList.perm_erase h.skipped⟩

/-- Alike ratchets answer a call alike and stay alike. -/
theorem Alike.call (h : r.Alike r') (c : RatchetCall) : (r'.call c).2 = (r.call c).2 ∧ (r.call c).1.Alike (r'.call c).1 := by
  cases c with
  | encrypt nonce plaintext associatedData =>
    obtain ⟨hfields, hp⟩ := h
    rw [hfields]
    unfold DoubleRatchet.call encrypt
    dsimp only
    split
    · exact ⟨rfl, alike_with r hp⟩
    · split
      · exact ⟨rfl, rfl, hp⟩
      · exact ⟨rfl, rfl, hp⟩
  | decrypt fresh header ciphertext associatedData =>
    have hkey := h.receivingKey fresh header
    simp only [DoubleRatchet.call, DoubleRatchet.decrypt]
    generalize r.receivingKey fresh header = x at hkey
    generalize r'.receivingKey fresh header = y at hkey
    cases hkey with
    | error e => exact ⟨rfl, h⟩
    | @ok a b hab =>
      obtain ⟨k, w⟩ := a
      obtain ⟨k', w'⟩ := b
      obtain ⟨hk, hw⟩ := hab
      dsimp only at hk hw
      subst hk
      simp only [bind, Except.bind]
      cases Aead.decrypt k' ciphertext (fullAssociatedData associatedData header) with
      | error e => exact ⟨rfl, h⟩
      | ok plaintext => exact ⟨rfl, hw⟩

theorem Alike.answers (h : r.Alike r') (calls : List RatchetCall) : r'.answers calls = r.answers calls := by
  induction calls generalizing r r' with
  | nil => rfl
  | cons c calls ih =>
    obtain ⟨hanswer, hnext⟩ := h.call c
    unfold DoubleRatchet.answers
    rw [hanswer, ih hnext]

/-! ### Every reachable ratchet -/

/-- The states of a ratchet from one of its two beginnings on. -/
inductive Reached : DoubleRatchet Key → Prop
  | initiator (dhSelf : Bytes 32) (sharedSecret : Key) (remote : Bytes 32) : Reached (initInitiator dhSelf sharedSecret remote)
  | responder (sharedSecret : Key) (secret : Bytes 32) : Reached (initResponder sharedSecret secret)
  | call {r : DoubleRatchet Key} {c : RatchetCall} : Reached r → c.WellTyped → Reached (r.call c).1

/-- What a save relies on. -/
structure Savable (r : DoubleRatchet Key) : Prop where
  range : r.InRange
  keyed : r.dhSelfPublic = X25519.publicKey r.dhSelf

omit [X25519] in
theorem u32Succ_lt (n : ℕ) : u32Succ n < 2 ^ 32 := Nat.mod_lt _ (by decide)

omit [X25519] in
theorem skipLoop_inRange {remoteKey : Bytes 32} {rounds n n' : ℕ} {c c' : ChainKey Key} {s s' : SkippedKeyStore Key}
    (h : skipLoop remoteKey rounds c n s = .ok (c', n', s')) (hn : n + rounds ≤ 2 ^ 32)
    (hs : ∀ k ∈ s, k.2 < 2 ^ 32) (hlen : s.len ≤ maxSkippedKeys) :
    n' = n + rounds ∧ (∀ k ∈ s', k.2 < 2 ^ 32) ∧ s'.len ≤ maxSkippedKeys := by
  induction rounds generalizing c n s with
  | zero =>
    obtain ⟨rfl, rfl, rfl⟩ : c = c' ∧ n = n' ∧ s = s' := by simpa [skipLoop] using h
    exact ⟨rfl, hs, hlen⟩
  | succ rounds ih =>
    unfold skipLoop at h
    obtain ⟨t, ht, h⟩ := except_bind_eq_ok.mp h
    unfold SkippedKeyStore.add at ht
    split at ht
    · cases ht
    · rename_i hroom
      obtain rfl := Except.ok.inj ht
      have hnumbers : ∀ k ∈ AList.insert (remoteKey, n) c.ratchet.1 s, k.2 < 2 ^ 32 := by
        intro k hk
        rcases (AList.mem_insert _).mp hk with rfl | hk
        · show n < 2 ^ 32
          omega
        · exact hs k hk
      have hroom' : (AList.insert (remoteKey, n) c.ratchet.1 s).entries.length ≤ maxSkippedKeys := by
        have hsub := (List.kerase_sublist (remoteKey, n) s.entries).length_le
        rw [AList.entries_insert, List.length_cons]
        unfold SkippedKeyStore.len at hroom
        omega
      obtain ⟨hn', hs', hlen'⟩ := ih h (by omega) hnumbers hroom'
      exact ⟨by omega, hs', hlen'⟩

omit [X25519] in
theorem InRange.skipMessageKeys (h : r.InRange) {upTo : ℕ} (hu : upTo < 2 ^ 32) (hs : r.skipMessageKeys upTo = .ok w) :
    w.InRange := by
  unfold DoubleRatchet.skipMessageKeys at hs
  split at hs
  · obtain ⟨⟨c', n', s'⟩, hl, hw⟩ := except_bind_eq_ok.mp hs
    have hrecv := h.recvCount
    obtain ⟨rfl, hnumbers, hlen⟩ := skipLoop_inRange hl (by omega) h.numbers h.len
    obtain rfl := Except.ok.inj hw
    exact ⟨h.sendCount, by dsimp only; omega, h.previous, hnumbers, hlen⟩
  · obtain rfl := Except.ok.inj hs
    exact h

omit [X25519] in
theorem skipMessageKeys_keys {upTo : ℕ} (hs : r.skipMessageKeys upTo = .ok w) :
    w.dhSelf = r.dhSelf ∧ w.dhSelfPublic = r.dhSelfPublic := by
  unfold DoubleRatchet.skipMessageKeys at hs
  split at hs
  · obtain ⟨_, -, hw⟩ := except_bind_eq_ok.mp hs
    obtain rfl := Except.ok.inj hw
    exact ⟨rfl, rfl⟩
  · obtain rfl := Except.ok.inj hs
    exact ⟨rfl, rfl⟩

theorem Savable.skipMessageKeys (h : r.Savable) {upTo : ℕ} (hu : upTo < 2 ^ 32) (hs : r.skipMessageKeys upTo = .ok w) :
    w.Savable := by
  obtain ⟨hself, hpublic⟩ := skipMessageKeys_keys hs
  exact ⟨h.range.skipMessageKeys hu hs, by rw [hself, hpublic, h.keyed]⟩

theorem Savable.dhRatchetStep (h : r.Savable) (fresh remoteKey : Bytes 32) : (r.dhRatchetStep fresh remoteKey).Savable :=
  ⟨⟨Nat.two_pow_pos 32, Nat.two_pow_pos 32, h.range.sendCount, h.range.numbers, h.range.len⟩, rfl⟩

theorem Savable.receivingKey (h : r.Savable) (hp : header.previousChainLength < 2 ^ 32)
    (hn : header.messageNumber < 2 ^ 32) {k : MessageKey Key} (hk : r.receivingKey fresh header = .ok (k, w)) :
    w.Savable := by
  rcases receivingKey_cases hk with ⟨-, rfl⟩ | ⟨-, stepped, skipped, c, hturn, hskip, -, -, rfl⟩
  · obtain ⟨⟨h1, h2, h3, h4, h5⟩, hkeyed⟩ := h
    have hsub := (List.kerase_sublist (header.dhPublic, header.messageNumber) r.skipped.entries).length_le
    exact ⟨⟨h1, h2, h3, fun k hk => h4 k (AList.mem_erase.mp hk).2, hsub.trans h5⟩, hkeyed⟩
  · have hstepped : stepped.Savable := by
      rcases hturn with ⟨-, rfl⟩ | ⟨-, old, hold, rfl⟩
      · exact h
      · exact (h.skipMessageKeys hp hold).dhRatchetStep fresh _
    obtain ⟨⟨h1, h2, h3, h4, h5⟩, hkeyed⟩ := hstepped.skipMessageKeys hn hskip
    exact ⟨⟨h1, u32Succ_lt _, h3, h4, h5⟩, hkeyed⟩

theorem Savable.call (h : r.Savable) {c : RatchetCall} (hc : c.WellTyped) : (r.call c).1.Savable := by
  cases c with
  | encrypt nonce plaintext associatedData =>
    obtain ⟨⟨h1, h2, h3, h4, h5⟩, hkeyed⟩ := h
    unfold DoubleRatchet.call DoubleRatchet.encrypt
    dsimp only
    split
    · exact ⟨⟨h1, h2, h3, h4, h5⟩, hkeyed⟩
    · split
      · exact ⟨⟨u32Succ_lt _, h2, h3, h4, h5⟩, hkeyed⟩
      · exact ⟨⟨u32Succ_lt _, h2, h3, h4, h5⟩, hkeyed⟩
  | decrypt fresh header ciphertext associatedData =>
    show (r.decrypt fresh header ciphertext associatedData).1.Savable
    rcases hd : r.decrypt fresh header ciphertext associatedData with ⟨w, e | plaintext⟩
    · rw [decrypt_error hd]
      exact h
    · obtain ⟨k, hk⟩ := decrypt_ok hd
      exact h.receivingKey hc.1 hc.2 hk

theorem Reached.savable (hr : Reached r) : r.Savable := by
  have hempty : ∀ k ∈ (∅ : SkippedKeyStore Key), k.2 < 2 ^ 32 := fun k hk => absurd hk (AList.notMem_empty k)
  have hzero : 0 < 2 ^ 32 := Nat.two_pow_pos 32
  induction hr with
  | initiator => exact ⟨⟨hzero, hzero, hzero, hempty, Nat.zero_le _⟩, rfl⟩
  | responder => exact ⟨⟨hzero, hzero, hzero, hempty, Nat.zero_le _⟩, rfl⟩
  | call _ hc ih => exact ih.call hc

end DoubleRatchet

/-! ### Every reachable prekey store -/

namespace PrekeyStore
variable [Ed25519] [X3dhKdf Key]

variable (Key) in
/-- The states of a prekey store from its generation on. -/
inductive Reached : PrekeyStore → Prop
  | generate (identity : IdentityKeyPair) (signedPrekeySecret : Bytes 32) (oneTimeSecrets : List (Bytes 32)) :
      oneTimeSecrets.length < 2 ^ 64 → Reached (PrekeyStore.generate identity signedPrekeySecret oneTimeSecrets)
  | publicBundle {s : PrekeyStore} (identity : IdentityPublicKey) (agreement : SignedAgreementKeyPublic) : Reached s →
      Reached (s.publicBundle identity agreement).1
  | respond {s : PrekeyStore} (agreement : AgreementKeyPair) (message : InitialMessage) : Reached s →
      Reached (x3dhRespond agreement s message : PrekeyStore × Except CryptoError Key).1

omit [SymmetricPrimitives Key] in
theorem length_secrets_respond (s : PrekeyStore) (agreement : AgreementKeyPair) (message : InitialMessage) :
    (x3dhRespond agreement s message : PrekeyStore × Except CryptoError Key).1.secrets.length ≤ s.secrets.length := by
  unfold x3dhRespond
  dsimp only
  split
  · exact le_rfl
  · split
    · exact le_rfl
    · split
      · exact le_rfl
      · rename_i htake
        rw [(takeOneTimeSecret_spec htake).2.1.length_eq]
        exact Nat.le_succ _

omit [SymmetricPrimitives Key] in
theorem Reached.length_lt {s : PrekeyStore} (hs : Reached Key s) : s.secrets.length < 2 ^ 64 := by
  induction hs with
  | generate identity signedPrekeySecret oneTimeSecrets h =>
    simpa [PrekeyStore.generate, secrets] using h
  | @publicBundle s identity agreement _ ih => rwa [(publicBundle_spec s identity agreement).1.length_eq]
  | respond agreement message _ ih => exact lt_of_le_of_lt (length_secrets_respond _ agreement message) ih

omit [SymmetricPrimitives Key] in
theorem Reached.fromBytes_toBytes {s : PrekeyStore} (hs : Reached Key s) : fromBytes s.toBytes = .ok s := by
  have hlen := hs.length_lt
  unfold secrets at hlen
  rw [List.length_append] at hlen
  exact PrekeyStore.fromBytes_toBytes (by omega) (by omega)

end PrekeyStore
end

section
variable [X25519] [SymmetricPrimitives (Bytes 32)] [Ed25519] [X3dhKdf (Bytes 32)]

/-- A saved ratchet is restored as the same value, which answers every call alike, and so is a prekey store. -/
theorem saved_resumes :
    (∀ r : DoubleRatchet (Bytes 32), r.Reached → ∀ entries, entries.Perm r.skipped.entryList →
      ∃ r', DoubleRatchet.fromBytes (r.toBytes entries) = .ok r' ∧ r.Alike r' ∧
        ∀ calls, r'.answers calls = r.answers calls) ∧
    ∀ s : PrekeyStore, PrekeyStore.Reached (Bytes 32) s → PrekeyStore.fromBytes s.toBytes = .ok s := by
  refine ⟨fun r hr entries hp => ?_, fun s hs => hs.fromBytes_toBytes⟩
  obtain ⟨hrange, hkeyed⟩ := hr.savable
  have hread := DoubleRatchet.fromBytes_toBytes hrange hp
  rw [← hkeyed] at hread
  have halike := r.alike_with (SkippedKeyStore.fromEntries_perm hp)
  exact ⟨_, hread, halike, halike.answers⟩

end

/-- Primitives on 32 bytes that hide nothing. -/
@[reducible] def StandIn.plainPrimitives : SymmetricPrimitives (Bytes 32) where
  hkdf key input _ := (input, key)
  hmac key _ := key
  chachaEncrypt _ _ plaintext _ := some plaintext
  chachaDecrypt _ _ ciphertext _ := some ciphertext

/-- A ratchet that received its first message, saved and restored. -/
theorem saved_resumes_received :
    let _ := StandIn.x25519
    let _ := StandIn.plainPrimitives
    let r : DoubleRatchet (Bytes 32) := .initResponder (.replicate 32 7) (.replicate 32 9)
    let c : RatchetCall := .decrypt (.replicate 32 3) ⟨.replicate 32 5, 0, 0⟩ (List.replicate 12 0) []
    ∃ r', DoubleRatchet.fromBytes ((r.call c).1.toBytes (r.call c).1.skipped.entryList) = .ok r' ∧
      r'.answers [.encrypt (.replicate 12 1) [1, 2] []] = (r.call c).1.answers [.encrypt (.replicate 12 1) [1, 2] []] := by
  intro x prims r c
  let signatures := StandIn.ed25519
  let kdf : X3dhKdf (Bytes 32) := ⟨fun _ => .replicate 32 0⟩
  have hr : (r.call c).1.Reached := .call (.responder _ _) ⟨by decide, by decide⟩
  obtain ⟨r', hread, -, hsame⟩ := saved_resumes.1 _ hr _ (.refl _)
  exact ⟨r', hread, hsame _⟩

end SpiritChat
