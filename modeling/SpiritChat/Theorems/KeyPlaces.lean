import Mathlib.Data.Prod.Lex
import SpiritChat.Lib.Exec
import SpiritChat.Theorems.KeySchedule

/-! # Where one end's keys come from

A chain key of a ratchet is some steps down a chain that begins at a root key, and that root key is some steps down
from the shared secret. These two numbers are its place. The place of the sending chain and that of the receiving
chain only move on, so that a key that was used is not made again. -/

namespace SpiritChat
open Lib

/-- The number of a root key and the number of message keys that were taken from the chain that begins there. -/
abbrev Place := ℕ ×ₗ ℕ

namespace Place

def mk (root count : ℕ) : Place := toLex (root, count)

def root (p : Place) : ℕ := (ofLex p).1

def count (p : Place) : ℕ := (ofLex p).2

/-- One message on. -/
def after (p : Place) : Place := mk p.root (p.count + 1)

theorem lt_after (p : Place) : p < p.after := Prod.Lex.lt_iff.2 (.inr ⟨rfl, p.count.lt_succ_self⟩)

theorem lt_of_root_lt {p q : Place} (h : p.root < q.root) : p < q := Prod.Lex.lt_iff.2 (.inl h)

theorem le_mk_zero_of_root_lt {p : Place} {k : ℕ} (h : p.root < k) : p ≤ mk k 0 :=
  (lt_of_root_lt (q := mk k 0) h).le

end Place

section
variable {Key : Type}

namespace SkippedKeyStore

/-- The message keys that are kept. -/
def values (s : SkippedKeyStore Key) : List (MessageKey Key) := s.entries.map (·.2)

theorem values_erase (s : SkippedKeyStore Key) (a : Bytes 32 × ℕ) : (values (s.erase a)).Sublist s.values :=
  (List.kerase_sublist a s.entries).map _

/-- A key that was taken out was there once. -/
theorem values_perm_erase {s : SkippedKeyStore Key} {a : Bytes 32 × ℕ} {k : MessageKey Key} (h : s.lookup a = some k) :
    s.values.Perm (k :: values (s.erase a)) := by
  have hmem : (⟨a, k⟩ : Sigma fun _ : Bytes 32 × ℕ => MessageKey Key) ∈ s.entries := AList.mem_lookup_iff.1 h
  obtain ⟨k', init, tail, hnot, hs, he⟩ := List.exists_of_kerase (List.mem_keys_of_mem hmem)
  have hk : k' = k := by
    refine List.NodupKeys.eq_of_mk_mem s.nodupKeys (a := a) ?_ hmem
    rw [hs]
    simp
  subst hk
  change (s.entries.map _).Perm (k' :: (s.entries.kerase a).map _)
  rw [he, hs, List.map_append, List.map_append, List.map_cons]
  exact List.perm_middle

theorem values_add {s s' : SkippedKeyStore Key} {dhPublic : Bytes 32} {n : ℕ} {k : MessageKey Key} (h : s.add dhPublic n k = .ok s') :
    s'.values = k :: values (s.erase (dhPublic, n)) := by
  unfold add at h
  split at h
  · exact absurd h (by simp)
  · obtain rfl := Except.ok.inj h
    rfl

end SkippedKeyStore

variable [SymmetricPrimitives Key] {sharedSecret : Key}

/-- A root key some steps after the shared secret. -/
inductive RootStep (sharedSecret : Key) : ℕ → Key → Prop
  | zero : RootStep sharedSecret 0 sharedSecret
  | succ {j : ℕ} {root : Key} (d : Bytes 32) (h : RootStep sharedSecret j root) :
      RootStep sharedSecret (j + 1) (rootKdf root d).1

theorem IdealCrypto.rootStep_inj [X25519] (ic : IdealCrypto sharedSecret) {i j : ℕ} {root : Key}
    (hi : RootStep sharedSecret i root) (hj : RootStep sharedSecret j root) : i = j := by
  induction hi generalizing j with
  | zero =>
    generalize hr : sharedSecret = root at hj
    cases hj with
    | zero => rfl
    | succ d h => exact absurd hr.symm (ic.root_ne_secret _ _)
  | @succ i root d h ih =>
    generalize hr : (rootKdf root d).1 = root' at hj
    cases hj with
    | zero => exact absurd hr (ic.root_ne_secret _ _)
    | succ d' h' =>
      obtain ⟨rfl, -⟩ := ic.root_injective _ _ _ _ hr
      rw [ih h']

/-- A chain key at its place. -/
def ChainKey.At (sharedSecret : Key) (p : Place) (c : ChainKey Key) : Prop :=
  ∃ root d, RootStep sharedSecret p.root root ∧ c = (rootKdf root d).2.advance p.count

/-- A message key at its place. -/
def MessageKey.At (sharedSecret : Key) (p : Place) (k : MessageKey Key) : Prop :=
  ∃ c, ChainKey.At sharedSecret p c ∧ k = c.ratchet.1

variable {p q : Place} {c : ChainKey Key} {k : MessageKey Key}

theorem ChainKey.At.ratchet (h : c.At sharedSecret p) : c.ratchet.1.At sharedSecret p ∧ c.ratchet.2.At sharedSecret p.after := by
  refine ⟨⟨c, h, rfl⟩, ?_⟩
  obtain ⟨root, d, hr, rfl⟩ := h
  exact ⟨root, d, hr, (ChainKey.advance_succ _ _).symm⟩

/-- A message key has one place. -/
theorem IdealCrypto.at_inj [X25519] (ic : IdealCrypto sharedSecret) (hp : k.At sharedSecret p) (hq : k.At sharedSecret q) : p = q := by
  obtain ⟨c, ⟨root, d, hr, rfl⟩, rfl⟩ := hp
  obtain ⟨c', ⟨root', d', hr', rfl⟩, hk⟩ := hq
  obtain ⟨hcount, rfl, -⟩ := ic.advance_inj (ic.message_injective _ _ hk)
  exact congrArg toLex (Prod.ext (ic.rootStep_inj hr hr') hcount)

/-! ### How a message finds its key -/

/-- What `decrypt` goes on with after it looked at the ratchet key of a header. -/
def DoubleRatchet.Turns [X25519] (r : DoubleRatchet Key) (fresh : Bytes 32) (header : MessageHeader)
    (stepped : DoubleRatchet Key) : Prop :=
  (r.dhRemote = some header.dhPublic ∧ stepped = r) ∨
    r.dhRemote ≠ some header.dhPublic ∧
      ∃ old, r.skipMessageKeys header.previousChainLength = .ok old ∧ stepped = old.dhRatchetStep fresh header.dhPublic

/-- A key that was skipped, or the next one of the receiving chain. -/
theorem DoubleRatchet.receivingKey_cases [X25519] {r w : DoubleRatchet Key} {fresh : Bytes 32} {header : MessageHeader}
    (h : r.receivingKey fresh header = .ok (k, w)) :
    (r.skipped.lookup (header.dhPublic, header.messageNumber) = some k ∧
      w = { r with skipped := r.skipped.erase (header.dhPublic, header.messageNumber) }) ∨
    r.skipped.lookup (header.dhPublic, header.messageNumber) = none ∧ ∃ stepped skipped c, r.Turns fresh header stepped ∧
      stepped.skipMessageKeys header.messageNumber = .ok skipped ∧ skipped.receivingChain = some c ∧ k = c.ratchet.1 ∧
      w = { skipped with receivingChain := some c.ratchet.2, recvCount := u32Succ skipped.recvCount } := by
  unfold receivingKey at h
  split at h
  · rename_i stored hl
    obtain ⟨rfl, rfl⟩ := Prod.mk.inj (Except.ok.inj h)
    exact .inl ⟨hl, rfl⟩
  · rename_i hl
    dsimp only at h
    split at h
    · rename_i hne
      obtain ⟨old, hold, h⟩ := except_bind_eq_ok.1 h
      obtain ⟨stepped, hstep, h⟩ := except_bind_eq_ok.1 h
      obtain rfl := Except.ok.inj hstep
      obtain ⟨skipped, hskip, h⟩ := except_bind_eq_ok.1 h
      rcases hc : skipped.receivingChain with _ | c
      · rw [hc] at h
        exact absurd h (by simp)
      · rw [hc] at h
        obtain ⟨rfl, rfl⟩ := Prod.mk.inj (Except.ok.inj h)
        exact .inr ⟨hl, _, skipped, c, .inr ⟨hne, old, hold, rfl⟩, hskip, hc, rfl, rfl⟩
    · rename_i heq
      obtain ⟨stepped, hstep, h⟩ := except_bind_eq_ok.1 h
      obtain rfl := Except.ok.inj hstep
      obtain ⟨skipped, hskip, h⟩ := except_bind_eq_ok.1 h
      rcases hc : skipped.receivingChain with _ | c
      · rw [hc] at h
        exact absurd h (by simp)
      · rw [hc] at h
        obtain ⟨rfl, rfl⟩ := Prod.mk.inj (Except.ok.inj h)
        exact .inr ⟨hl, _, skipped, c, .inl ⟨not_not.1 heq, rfl⟩, hskip, hc, rfl, rfl⟩

theorem DoubleRatchet.receivingKey_stored [X25519] {r : DoubleRatchet Key} {fresh : Bytes 32} {header : MessageHeader}
    (h : r.skipped.lookup (header.dhPublic, header.messageNumber) = some k) : r.receivingKey fresh header =
      .ok (k, { r with skipped := r.skipped.erase (header.dhPublic, header.messageNumber) }) := by
  unfold receivingKey
  rw [h]

theorem DoubleRatchet.receivingKey_next [X25519] {r stepped skipped : DoubleRatchet Key} {fresh : Bytes 32}
    {header : MessageHeader} (hl : r.skipped.lookup (header.dhPublic, header.messageNumber) = none)
    (hturn : r.Turns fresh header stepped) (hskip : stepped.skipMessageKeys header.messageNumber = .ok skipped)
    (hc : skipped.receivingChain = some c) : r.receivingKey fresh header = .ok (c.ratchet.1,
      { skipped with receivingChain := some c.ratchet.2, recvCount := u32Succ skipped.recvCount }) := by
  unfold receivingKey
  rw [hl]
  dsimp only
  obtain ⟨heq, rfl⟩ | ⟨hne, old, hold, rfl⟩ := hturn
  · rw [if_neg (not_not.2 heq)]
    refine except_bind_eq_ok.2 ⟨_, rfl, except_bind_eq_ok.2 ⟨skipped, hskip, ?_⟩⟩
    rw [hc]
    rfl
  · rw [if_pos hne]
    refine except_bind_eq_ok.2 ⟨old, hold, except_bind_eq_ok.2 ⟨_, rfl, except_bind_eq_ok.2 ⟨skipped, hskip, ?_⟩⟩⟩
    rw [hc]
    rfl

/-! ### The places of a ratchet -/

/-- Kept keys come from places that the receiving chain has passed, each from another one. -/
structure SkippedKeyStore.Passed (sharedSecret : Key) (recv : Place) (s : SkippedKeyStore Key) : Prop where
  before : ∀ k ∈ s.values, ∃ p < recv, MessageKey.At sharedSecret p k
  distinct : s.values.Nodup

/-- A ratchet whose root key is number `n`, with the places of its two chains. Before there is a chain, its place is
at the start. -/
structure Placed (sharedSecret : Key) (n : ℕ) (send recv : Place) (r : DoubleRatchet Key) : Prop where
  root : RootStep sharedSecret n r.rootKey
  sending : ∀ c, r.sendingChain = some c → ChainKey.At sharedSecret send c ∧ send.root < n
  receiving : ∀ c, r.receivingChain = some c → ChainKey.At sharedSecret recv c ∧ recv.root < n
  send_le : send ≤ .mk n 0
  recv_le : recv ≤ .mk n 0
  skipped : r.skipped.Passed sharedSecret recv

/-- A message key that a ratchet has used up. -/
def Spent (sharedSecret : Key) (recv : Place) (s : SkippedKeyStore Key) (k : MessageKey Key) : Prop :=
  (∃ p < recv, k.At sharedSecret p) ∧ k ∉ s.values

section
variable {n : ℕ} {send recv : Place} {r r' w : DoubleRatchet Key} {header : MessageHeader} {fresh : Bytes 32}
  {s s' : SkippedKeyStore Key}

namespace SkippedKeyStore.Passed

theorem mono (h : s.Passed sharedSecret p) (hpq : p ≤ q) : s.Passed sharedSecret q :=
  ⟨fun k hk => (h.before k hk).imp fun _ hp => ⟨hp.1.trans_le hpq, hp.2⟩, h.distinct⟩

theorem erase (h : s.Passed sharedSecret p) (a : Bytes 32 × ℕ) : Passed sharedSecret p (s.erase a) :=
  ⟨fun k hk => h.before k ((values_erase s a).subset hk), h.distinct.sublist (values_erase s a)⟩

theorem add [X25519] (ic : IdealCrypto sharedSecret) (h : s.Passed sharedSecret p) (hk : k.At sharedSecret p)
    {dhPublic : Bytes 32} {count : ℕ} (ha : s.add dhPublic count k = .ok s') : s'.Passed sharedSecret p.after := by
  have he := h.erase (dhPublic, count)
  refine ⟨fun k' hk' => ?_, ?_⟩
  · rw [values_add ha] at hk'
    rcases List.mem_cons.1 hk' with rfl | hk'
    · exact ⟨p, p.lt_after, hk⟩
    · exact (he.mono p.lt_after.le).before k' hk'
  · rw [values_add ha]
    refine List.nodup_cons.2 ⟨fun hmem => ?_, he.distinct⟩
    obtain ⟨q, hq, hkq⟩ := he.before k hmem
    exact hq.ne (ic.at_inj hkq hk)

end SkippedKeyStore.Passed

/-- What skipping some places of a chain leaves: nothing that was spent is kept again. -/
structure Skips (sharedSecret : Key) (recv recv' : Place) (s s' : SkippedKeyStore Key) : Prop where
  le : recv ≤ recv'
  passed : s'.Passed sharedSecret recv'
  spent : ∀ k, Spent sharedSecret recv s k → Spent sharedSecret recv' s' k

theorem Skips.refl (h : s.Passed sharedSecret recv) : Skips sharedSecret recv recv s s := ⟨le_rfl, h, fun _ h => h⟩

theorem Skips.trans {recv₁ recv₂ : Place} {s₁ s₂ : SkippedKeyStore Key} (h : Skips sharedSecret recv recv₁ s s₁)
    (h' : Skips sharedSecret recv₁ recv₂ s₁ s₂) : Skips sharedSecret recv recv₂ s s₂ :=
  ⟨h.le.trans h'.le, h'.passed, fun k hk => h'.spent k (h.spent k hk)⟩

theorem Skips.add [X25519] (ic : IdealCrypto sharedSecret) (h : s.Passed sharedSecret p) (hk : k.At sharedSecret p)
    {dhPublic : Bytes 32} {count : ℕ} (ha : s.add dhPublic count k = .ok s') : Skips sharedSecret p p.after s s' := by
  refine ⟨p.lt_after.le, h.add ic hk ha, fun k' hk' => ?_⟩
  obtain ⟨⟨q, hq, hkq⟩, hnot⟩ := hk'
  refine ⟨⟨q, hq.trans p.lt_after, hkq⟩, fun hmem => ?_⟩
  rw [SkippedKeyStore.values_add ha] at hmem
  rcases List.mem_cons.1 hmem with rfl | hmem
  · exact hq.ne (ic.at_inj hkq hk)
  · exact hnot ((SkippedKeyStore.values_erase s _).subset hmem)

/-- The keys that the loop keeps come from the places that it passes. -/
theorem skipLoop_skips [X25519] (ic : IdealCrypto sharedSecret) {remoteKey : Bytes 32} {rounds count count' : ℕ}
    {c c' : ChainKey Key} (hl : DoubleRatchet.skipLoop remoteKey rounds c count s = .ok (c', count', s'))
    (hc : c.At sharedSecret recv) (hs : s.Passed sharedSecret recv) :
    ∃ recv', recv'.root = recv.root ∧ c'.At sharedSecret recv' ∧ Skips sharedSecret recv recv' s s' := by
  induction rounds generalizing recv c count s with
  | zero =>
    obtain ⟨rfl, rfl, rfl⟩ : c = c' ∧ count = count' ∧ s = s' := by simpa [DoubleRatchet.skipLoop] using hl
    exact ⟨recv, rfl, hc, .refl hs⟩
  | succ rounds ih =>
    unfold DoubleRatchet.skipLoop at hl
    obtain ⟨s₁, ha, hl⟩ := except_bind_eq_ok.1 hl
    have hfirst := Skips.add ic hs hc.ratchet.1 ha
    obtain ⟨recv', hroot, hc', hrest⟩ := ih hl hc.ratchet.2 hfirst.passed
    exact ⟨recv', hroot, hc', hfirst.trans hrest⟩

namespace Placed

theorem encrypt (h : Placed sharedSecret n send recv r) (nonce : Bytes 12) (plaintext aad : List UInt8) :
    ∃ send', send ≤ send' ∧ Placed sharedSecret n send' recv (r.encrypt nonce plaintext aad).1 ∧
      ∀ c, r.sendingChain = some c → c.ratchet.1.At sharedSecret send ∧ send < send' := by
  unfold DoubleRatchet.encrypt
  rcases hc : r.sendingChain with _ | c
  · exact ⟨send, le_rfl, h, fun _ hc => absurd hc (by simp)⟩
  · obtain ⟨hat, hlt⟩ := h.sending c hc
    have hplaced : Placed sharedSecret n send.after recv
        { r with sendingChain := some c.ratchet.2, sendCount := u32Succ r.sendCount } := by
      refine { h with sending := ?_, send_le := Place.le_mk_zero_of_root_lt hlt }
      rintro c' ⟨⟩
      exact ⟨hat.ratchet.2, hlt⟩
    refine ⟨send.after, send.lt_after.le, ?_, ?_⟩
    · dsimp only
      split
      · exact hplaced
      · exact hplaced
    · rintro c' ⟨⟩
      exact ⟨hat.ratchet.1, send.lt_after⟩

theorem skipMessageKeys [X25519] (ic : IdealCrypto sharedSecret) (h : Placed sharedSecret n send recv r) {upTo : ℕ}
    (hs : r.skipMessageKeys upTo = .ok w) :
    ∃ recv', Placed sharedSecret n send recv' w ∧ Skips sharedSecret recv recv' r.skipped w.skipped := by
  unfold DoubleRatchet.skipMessageKeys at hs
  split at hs
  · rename_i remoteKey c hremote hc
    obtain ⟨⟨c', count', s'⟩, hl, hw⟩ := except_bind_eq_ok.1 hs
    obtain ⟨hat, hlt⟩ := h.receiving c hc
    obtain ⟨recv', hroot, hc', hskips⟩ := skipLoop_skips ic hl hat h.skipped
    obtain rfl := Except.ok.inj hw
    refine ⟨recv', { h with receiving := ?_, recv_le := ?_, skipped := hskips.passed }, hskips⟩
    · rintro c ⟨⟩
      exact ⟨hc', hroot ▸ hlt⟩
    · exact Place.le_mk_zero_of_root_lt (hroot ▸ hlt)
  · obtain rfl := Except.ok.inj hs
    exact ⟨recv, h, .refl h.skipped⟩

theorem dhRatchetStep [X25519] (h : Placed sharedSecret n send recv r) {remoteKey : Bytes 32} :
    Placed sharedSecret (n + 2) (.mk (n + 1) 0) (.mk n 0) (r.dhRatchetStep fresh remoteKey) where
  root := .succ _ (.succ _ h.root)
  sending := by
    rintro c ⟨⟩
    exact ⟨⟨_, _, .succ _ h.root, rfl⟩, Nat.lt_succ_self _⟩
  receiving := by
    rintro c ⟨⟩
    exact ⟨⟨_, _, h.root, rfl⟩, Nat.lt_add_of_pos_right Nat.two_pos⟩
  send_le := Place.le_mk_zero_of_root_lt (Nat.lt_succ_self _)
  recv_le := Place.le_mk_zero_of_root_lt (Nat.lt_add_of_pos_right Nat.two_pos)
  skipped := h.skipped.mono h.recv_le

/-- The key of a message comes from a place that is then passed, and it is not one that was spent. -/
theorem receivingKey [X25519] (ic : IdealCrypto sharedSecret) (h : Placed sharedSecret n send recv r)
    (hk : r.receivingKey fresh header = .ok (k, w)) :
    ∃ n' send' recv', Placed sharedSecret n' send' recv' w ∧ send ≤ send' ∧ Spent sharedSecret recv' w.skipped k ∧
      ∀ k', Spent sharedSecret recv r.skipped k' → k' ≠ k ∧ Spent sharedSecret recv' w.skipped k' := by
  obtain ⟨hl, rfl⟩ | ⟨-, stepped, skipped, c, hturn, hskip, hc, rfl, rfl⟩ := DoubleRatchet.receivingKey_cases hk
  · have hperm := SkippedKeyStore.values_perm_erase hl
    have hmem : k ∈ r.skipped.values := hperm.symm.subset List.mem_cons_self
    have hnot : k ∉ SkippedKeyStore.values (r.skipped.erase (header.dhPublic, header.messageNumber)) :=
      (List.nodup_cons.1 (hperm.nodup_iff.1 h.skipped.distinct)).1
    refine ⟨n, send, recv, { h with skipped := h.skipped.erase _ }, le_rfl, ⟨h.skipped.before _ hmem, hnot⟩, ?_⟩
    intro k' hk'
    refine ⟨?_, hk'.1, fun hm => hk'.2 ((SkippedKeyStore.values_erase _ _).subset hm)⟩
    rintro rfl
    exact hk'.2 hmem
  · -- Whether or not there is a new ratchet key, the receiving chain moves on.
    have hstepped : ∃ n' send' recv', Placed sharedSecret n' send' recv' stepped ∧ send ≤ send' ∧
        Skips sharedSecret recv recv' r.skipped stepped.skipped := by
      obtain ⟨-, rfl⟩ | ⟨-, old, hold, rfl⟩ := hturn
      · exact ⟨n, send, recv, h, le_rfl, .refl h.skipped⟩
      · obtain ⟨recv', hplaced, hskips⟩ := h.skipMessageKeys ic hold
        refine ⟨n + 2, .mk (n + 1) 0, .mk n 0, hplaced.dhRatchetStep, h.send_le.trans ?_, hskips.trans ?_⟩
        · exact Place.le_mk_zero_of_root_lt (Nat.lt_succ_self n)
        · refine ⟨hplaced.recv_le, hplaced.skipped.mono hplaced.recv_le, fun k' hk' => ⟨?_, hk'.2⟩⟩
          exact hk'.1.imp fun _ hp => ⟨hp.1.trans_le hplaced.recv_le, hp.2⟩
    obtain ⟨n', send', recv₁, hplaced₁, hsend, hskips₁⟩ := hstepped
    obtain ⟨recv₂, hplaced₂, hskips₂⟩ := hplaced₁.skipMessageKeys ic hskip
    have hskips := hskips₁.trans hskips₂
    obtain ⟨hat, hlt⟩ := hplaced₂.receiving c hc
    refine ⟨n', send', recv₂.after, { hplaced₂ with receiving := ?_, recv_le := ?_, skipped := ?_ }, hsend, ?_, ?_⟩
    · rintro c' ⟨⟩
      exact ⟨hat.ratchet.2, hlt⟩
    · exact Place.le_mk_zero_of_root_lt hlt
    · exact hplaced₂.skipped.mono recv₂.lt_after.le
    · refine ⟨⟨recv₂, recv₂.lt_after, hat.ratchet.1⟩, fun hmem => ?_⟩
      obtain ⟨q, hq, hkq⟩ := hplaced₂.skipped.before _ hmem
      exact hq.ne (ic.at_inj hkq hat.ratchet.1)
    · intro k' hk'
      obtain ⟨⟨q, hq, hkq⟩, hnot⟩ := hskips.spent k' hk'
      refine ⟨?_, ⟨q, hq.trans recv₂.lt_after, hkq⟩, hnot⟩
      rintro rfl
      exact hq.ne (ic.at_inj hkq hat.ratchet.1)

end Placed

/-! ### The key that opens a message -/

theorem DoubleRatchet.decrypt_ok [X25519] {ciphertext aad plaintext : List UInt8}
    (h : r.decrypt fresh header ciphertext aad = (w, .ok plaintext)) : ∃ k, r.receivingKey fresh header = .ok (k, w) := by
  unfold decrypt at h
  dsimp only at h
  split at h
  · exact absurd (congrArg Prod.snd h) (by simp)
  · rename_i w' plaintext' hattempt
    obtain ⟨⟨k, w''⟩, hk, hattempt⟩ := except_bind_eq_ok.1 hattempt
    obtain ⟨_, -, hattempt⟩ := except_bind_eq_ok.1 hattempt
    obtain ⟨rfl, rfl⟩ := Prod.mk.inj (Except.ok.inj hattempt)
    obtain rfl : w'' = w := congrArg Prod.fst h
    exact ⟨k, hk⟩

theorem DoubleRatchet.decrypt_eq [X25519] {ciphertext aad plaintext : List UInt8}
    (hk : r.receivingKey fresh header = .ok (k, w))
    (ho : Aead.decrypt k ciphertext (fullAssociatedData aad header) = .ok plaintext) :
    r.decrypt fresh header ciphertext aad = (w, .ok plaintext) := by
  unfold decrypt
  simp only [hk, ho, bind, Except.bind, pure, Except.pure]

/-- A message that is refused changes nothing. -/
theorem DoubleRatchet.decrypt_error [X25519] {ciphertext aad : List UInt8} {e : CryptoError}
    (h : r.decrypt fresh header ciphertext aad = (w, .error e)) : w = r := by
  unfold decrypt at h
  dsimp only at h
  split at h
  · exact (congrArg Prod.fst h).symm
  · exact absurd (congrArg Prod.snd h) (by simp)

/-- The key that a ratchet computes for a header, if it does; it is the same whatever secret is drawn. -/
def DoubleRatchet.openingKey [X25519] (r : DoubleRatchet Key) (header : MessageHeader) : Option (MessageKey Key) :=
  (r.receivingKey (.replicate 32 0) header).toOption.map (·.1)

/-- The two outcomes agree in what a message is received with. -/
theorem DoubleRatchet.skipMessageKeys_receiving (r' : DoubleRatchet Key) {upTo : ℕ} (hs : r.skipMessageKeys upTo = .ok w)
    (hremote : r'.dhRemote = r.dhRemote) (hchain : r'.receivingChain = r.receivingChain)
    (hcount : r'.recvCount = r.recvCount) (hskipped : r'.skipped = r.skipped) :
    ∃ w', r'.skipMessageKeys upTo = .ok w' ∧ w'.receivingChain = w.receivingChain := by
  unfold skipMessageKeys at hs ⊢
  rw [hremote, hchain, hcount, hskipped]
  rcases hr : r.dhRemote with _ | remoteKey
  · rw [hr] at hs
    obtain rfl := Except.ok.inj hs
    exact ⟨r', rfl, hchain⟩
  · rcases hc : r.receivingChain with _ | c
    · rw [hr, hc] at hs
      obtain rfl := Except.ok.inj hs
      exact ⟨r', rfl, hchain⟩
    · rw [hr, hc] at hs
      obtain ⟨out, hl, hw⟩ := except_bind_eq_ok.1 hs
      obtain rfl := Except.ok.inj hw
      exact ⟨_, except_bind_eq_ok.2 ⟨out, hl, rfl⟩, rfl⟩

theorem DoubleRatchet.openingKey_eq [X25519] (h : r.receivingKey fresh header = .ok (k, w)) :
    r.openingKey header = some k := by
  have hkey : ∃ w', r.receivingKey (.replicate 32 0) header = .ok (k, w') := by
    obtain ⟨hl, -⟩ | ⟨hl, stepped, skipped, c, hturn, hskip, hc, rfl, -⟩ := receivingKey_cases h
    · exact ⟨_, receivingKey_stored hl⟩
    · obtain ⟨heq, rfl⟩ | ⟨hne, old, hold, rfl⟩ := hturn
      · exact ⟨_, receivingKey_next hl (.inl ⟨heq, rfl⟩) hskip hc⟩
      · obtain ⟨skipped', hskip', hc'⟩ := skipMessageKeys_receiving (old.dhRatchetStep (.replicate 32 0) header.dhPublic)
          hskip rfl rfl rfl rfl
        exact ⟨_, receivingKey_next hl (.inr ⟨hne, old, hold, rfl⟩) hskip' (hc'.trans hc)⟩
  obtain ⟨w', hkey⟩ := hkey
  unfold openingKey
  rw [hkey]
  rfl

/-- A key that was used up opens nothing any more. -/
theorem Placed.openingKey_ne [X25519] (ic : IdealCrypto sharedSecret) (h : Placed sharedSecret n send recv r)
    (hk : Spent sharedSecret recv r.skipped k) (header : MessageHeader) : r.openingKey header ≠ some k := by
  intro ho
  unfold DoubleRatchet.openingKey at ho
  rcases hr : r.receivingKey (.replicate 32 0) header with e | ⟨k', w⟩
  · rw [hr] at ho
    exact absurd ho (by simp [Except.toOption])
  · rw [hr] at ho
    obtain ⟨_, _, _, -, -, -, hspent⟩ := h.receivingKey ic hr
    exact (hspent k hk).1 (Option.some.inj ho).symm

theorem DoubleRatchet.skipped_encrypt (r : DoubleRatchet Key) (nonce : Bytes 12) (plaintext aad : List UInt8) :
    (r.encrypt nonce plaintext aad).1.skipped = r.skipped := by
  unfold encrypt
  split
  · rfl
  · dsimp only
    split
    · rfl
    · rfl

/-! ### Genuine ratchets -/

/-- A ratchet that the code can hold for a conversation with this shared secret. -/
inductive Genuine [X25519] (sharedSecret : Key) : DoubleRatchet Key → Prop
  | initiator (dhSelf remote : Bytes 32) : Genuine sharedSecret (.initInitiator dhSelf sharedSecret remote)
  | responder (secret : Bytes 32) : Genuine sharedSecret (.initResponder sharedSecret secret)
  | encrypt {r : DoubleRatchet Key} (h : Genuine sharedSecret r) (nonce : Bytes 12) (plaintext aad : List UInt8) :
      Genuine sharedSecret (r.encrypt nonce plaintext aad).1
  | decrypt {r : DoubleRatchet Key} (h : Genuine sharedSecret r) (fresh : Bytes 32) (header : MessageHeader)
      (ciphertext aad : List UInt8) : Genuine sharedSecret (r.decrypt fresh header ciphertext aad).1

theorem Genuine.placed [X25519] (ic : IdealCrypto sharedSecret) (h : Genuine sharedSecret r) :
    ∃ n send recv, Placed sharedSecret n send recv r := by
  induction h with
  | initiator dhSelf remote =>
    refine ⟨1, .mk 0 0, .mk 0 0, .succ _ .zero, ?_, ?_, ?_, ?_, ?_⟩
    · rintro c ⟨⟩
      exact ⟨⟨_, _, .zero, rfl⟩, Nat.one_pos⟩
    · rintro c ⟨⟩
    · exact Place.le_mk_zero_of_root_lt Nat.one_pos
    · exact Place.le_mk_zero_of_root_lt Nat.one_pos
    · exact ⟨fun _ hk => absurd hk List.not_mem_nil, List.nodup_nil⟩
  | responder secret =>
    refine ⟨0, .mk 0 0, .mk 0 0, .zero, ?_, ?_, le_rfl, le_rfl, ?_⟩
    · rintro c ⟨⟩
    · rintro c ⟨⟩
    · exact ⟨fun _ hk => absurd hk List.not_mem_nil, List.nodup_nil⟩
  | encrypt h nonce plaintext aad ih =>
    obtain ⟨n, send, recv, hplaced⟩ := ih
    obtain ⟨send', -, hplaced', -⟩ := hplaced.encrypt nonce plaintext aad
    exact ⟨n, send', recv, hplaced'⟩
  | @decrypt r h fresh header ciphertext aad ih =>
    obtain ⟨n, send, recv, hplaced⟩ := ih
    rcases hd : r.decrypt fresh header ciphertext aad with ⟨w, e | plaintext⟩
    · rw [DoubleRatchet.decrypt_error hd]
      exact ⟨n, send, recv, hplaced⟩
    · obtain ⟨k, hk⟩ := DoubleRatchet.decrypt_ok hd
      obtain ⟨n', send', recv', hplaced', -⟩ := hplaced.receivingKey ic hk
      exact ⟨n', send', recv', hplaced'⟩

end

end
end SpiritChat
