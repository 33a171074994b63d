import SpiritChat.Chat.Device
import SpiritChat.Theorems.KeySchedule

/-! # Stand-ins for the primitives

Concrete functions with the laws of the curve, the signatures, the key derivations and the cipher, for runs that
are computed. They keep nothing secret: a derived key spells out what it was derived from. -/

namespace SpiritChat
open Lib

namespace StandIn

def addBytes {n : ℕ} (a b : Bytes n) : Bytes n :=
  ⟨List.zipWith (· + ·) a.toList b.toList, by rw [List.length_zipWith, a.length_eq, b.length_eq, Nat.min_self]⟩

theorem addBytes_comm {n : ℕ} (a b : Bytes n) : addBytes a b = addBytes b a := by
  apply Bytes.ext_toList
  exact List.zipWith_comm_of_comm UInt8.add_comm

@[reducible] def x25519 : X25519 where
  publicKey := id
  diffieHellman := addBytes

/-- The key and the end of the message. -/
def signature (key : Bytes 32) (message : List UInt8) : Bytes 64 :=
  ⟨key.toList ++ (message.reverse ++ List.replicate 32 0).take 32, by simp [key.length_eq]⟩

@[reducible] def ed25519 : Ed25519 where
  verifyingKey := id
  sign := signature
  verify key message s := decide (s = signature key message)

/-- A list that tells where it ends. -/
def frame : List UInt8 → List UInt8
  | [] => [0]
  | b :: bs => 1 :: b :: frame bs

def sealing (key : List UInt8) (nonce : Bytes 12) (aad : List UInt8) : List UInt8 := frame key ++ nonce.toList ++ frame aad

@[reducible] def symmetricPrimitives : SymmetricPrimitives (List UInt8) where
  hkdf key input info := (0 :: (input.toList ++ (info ++ key)), 1 :: (input.toList ++ (info ++ key)))
  hmac key message := 2 :: (message ++ key)
  chachaEncrypt key nonce plaintext aad := some (sealing key nonce aad ++ plaintext)
  chachaDecrypt key nonce ciphertext aad := (sealing key nonce aad).isPrefixOf? ciphertext

@[reducible] def x3dhKdf : X3dhKdf (List UInt8) := ⟨fun input => 3 :: input⟩

/-- Peer ids are the keys themselves. -/
@[reducible] def peerIds : PeerIds := ⟨some⟩

attribute [local instance] x25519 symmetricPrimitives

theorem isPrefixOf?_append (xs ys : List UInt8) : xs.isPrefixOf? (xs ++ ys) = some ys := by
  induction xs with
  | nil => rfl
  | cons x xs ih => simp [List.isPrefixOf?, ih]

theorem opens (nonce : Bytes 12) (k : MessageKey (List UInt8)) (plaintext aad ciphertext : List UInt8)
    (h : Aead.encrypt nonce k plaintext aad = .ok ciphertext) : Aead.decrypt k ciphertext aad = .ok plaintext := by
  obtain rfl := Except.ok.inj h
  have hlen : Aead.nonceLen ≤ (nonce.toList ++ (sealing k.bytes nonce aad ++ plaintext)).length := by
    rw [List.length_append, nonce.length_eq]
    exact Nat.le_add_right _ _
  have hnonce : List.take Aead.nonceLen (nonce.toList ++ (sealing k.bytes nonce aad ++ plaintext)) = nonce.toList :=
    List.take_left' nonce.length_eq
  have hrest : List.drop Aead.nonceLen (nonce.toList ++ (sealing k.bytes nonce aad ++ plaintext)) =
      sealing k.bytes nonce aad ++ plaintext := List.drop_left' nonce.length_eq
  have hopen : ∀ (n : Bytes 12) (c : List UInt8), n.toList = nonce.toList → c = sealing k.bytes nonce aad ++ plaintext →
      (sealing k.bytes n aad).isPrefixOf? c = some plaintext := by
    intro n c hn hc
    rw [Bytes.ext_toList hn, hc, isPrefixOf?_append]
  unfold Aead.decrypt
  rw [dif_pos hlen]
  have hplain := hopen ⟨_, List.length_take_of_le hlen⟩ _ hnonce hrest
  split
  · rename_i hd
    exact absurd (hd.symm.trans hplain) (by simp)
  · rename_i hd
    exact congrArg Except.ok (Option.some.inj (hd.symm.trans hplain))

theorem frame_append_inj {a b x y : List UInt8} (h : frame a ++ x = frame b ++ y) : a = b ∧ x = y := by
  induction a generalizing b with
  | nil =>
    cases b with
    | nil => exact ⟨rfl, (List.cons.inj h).2⟩
    | cons => exact absurd (List.cons.inj h).1 (by decide)
  | cons i a ih =>
    cases b with
    | nil => exact absurd (List.cons.inj h).1 (by decide)
    | cons j b =>
      obtain ⟨hhead, htail⟩ := List.cons.inj (List.cons.inj h).2
      obtain ⟨hrest, hend⟩ := ih htail
      exact ⟨by rw [hhead, hrest], hend⟩

theorem eq_append_of_isPrefixOf? {xs ys rest : List UInt8} (h : xs.isPrefixOf? ys = some rest) : ys = xs ++ rest := by
  induction xs generalizing ys with
  | nil => exact Option.some.inj h
  | cons x xs ih =>
    cases ys with
    | nil => cases h
    | cons y ys =>
      unfold List.isPrefixOf? at h
      split_ifs at h with heq
      rw [ih h, beq_iff_eq.mp heq]
      rfl

/-- Nothing but the key that sealed a ciphertext opens it. -/
theorem opens_only {nonce : Bytes 12} {k k' : MessageKey (List UInt8)} {plaintext plaintext' aad aad' ciphertext : List UInt8}
    (h : Aead.encrypt nonce k plaintext aad = .ok ciphertext) (h' : Aead.decrypt k' ciphertext aad' = .ok plaintext') :
    k' = k := by
  obtain rfl := Except.ok.inj h
  unfold Aead.decrypt at h'
  split at h'
  · split at h'
    · cases h'
    next hd =>
      have hrest := (List.drop_left' nonce.length_eq).symm.trans (eq_append_of_isPrefixOf? hd)
      unfold sealing at hrest
      simp only [List.append_assoc] at hrest
      obtain ⟨bytes⟩ := k
      obtain ⟨bytes'⟩ := k'
      exact congrArg _ (frame_append_inj hrest).1.symm
  · cases h'

theorem derived_injective {a b : UInt8} {r r' info : List UInt8} {d d' : Bytes 32}
    (h : a :: (d.toList ++ (info ++ r)) = b :: (d'.toList ++ (info ++ r'))) : r = r' ∧ d = d' := by
  obtain ⟨hd, hr⟩ := List.append_inj (List.cons.inj h).2 (d.length_eq.trans d'.length_eq.symm)
  exact ⟨List.append_cancel_left hr, Bytes.ext_toList hd⟩

/-- The stand-ins are ideal for the secrets that X3DH derives. -/
theorem idealCrypto (input : List UInt8) : IdealCrypto (x3dhKdf.hkdf input) where
  dh_comm _ _ := addBytes_comm _ _
  root_injective _ _ _ _ h := derived_injective h
  chain_injective _ _ _ _ h := derived_injective (congrArg ChainKey.bytes h)
  message_injective c c' h := by
    obtain ⟨bytes⟩ := c
    obtain ⟨bytes'⟩ := c'
    exact congrArg _ (List.cons.inj (List.cons.inj (congrArg MessageKey.bytes h)).2).2
  next_injective c c' h := by
    obtain ⟨bytes⟩ := c
    obtain ⟨bytes'⟩ := c'
    exact congrArg _ (List.cons.inj (List.cons.inj (congrArg ChainKey.bytes h)).2).2
  chain_ne_next _ _ _ h := absurd (List.cons.inj (congrArg ChainKey.bytes h)).1 (by decide)
  root_ne_secret _ _ h := absurd (List.cons.inj h).1 (by decide)
  opens := opens

end StandIn
end SpiritChat
