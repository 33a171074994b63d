import Mathlib.Logic.Function.Iterate
import SpiritChat.Crypto.Ratchet

/-! # The key schedule of a conversation

The two ends take turns in making ratchet keys: the secret number `0` is the responder's prekey, number `1`
the initiator's first one, and so on. Each secret, paired with the public key before it, gives the next root
key and a chain of message keys. With ideal primitives no two places of this schedule have the same key. -/

namespace SpiritChat
open X25519

section
variable {Key : Type} [X25519] [SymmetricPrimitives Key]

/-- The idealisation of the primitives in a conversation with a given shared secret: Diffie-Hellman commutes, the
KDFs collide neither with themselves nor with each other, and the cipher opens what it sealed. -/
structure IdealCrypto (sharedSecret : Key) : Prop where
  dh_comm : ∀ a b, diffieHellman a (publicKey b) = diffieHellman b (publicKey a)
  root_injective : ∀ (r r' : Key) d d', (rootKdf r d).1 = (rootKdf r' d').1 → r = r' ∧ d = d'
  chain_injective : ∀ (r r' : Key) d d', (rootKdf r d).2 = (rootKdf r' d').2 → r = r' ∧ d = d'
  message_injective : ∀ c c' : ChainKey Key, c.ratchet.1 = c'.ratchet.1 → c = c'
  next_injective : ∀ c c' : ChainKey Key, c.ratchet.2 = c'.ratchet.2 → c = c'
  chain_ne_next : ∀ (r : Key) d (c : ChainKey Key), (rootKdf r d).2 ≠ c.ratchet.2
  root_ne_secret : ∀ (r : Key) d, (rootKdf r d).1 ≠ sharedSecret
  opens : ∀ nonce (k : MessageKey Key) plaintext aad ciphertext, Aead.encrypt nonce k plaintext aad = .ok ciphertext →
    Aead.decrypt k ciphertext aad = .ok plaintext

omit [X25519] in
/-- A chain key some steps on. -/
def ChainKey.advance (c : ChainKey Key) (n : ℕ) : ChainKey Key := (fun c => c.ratchet.2)^[n] c

omit [X25519] in
@[simp] theorem ChainKey.advance_zero (c : ChainKey Key) : c.advance 0 = c := rfl

omit [X25519] in
theorem ChainKey.advance_succ (c : ChainKey Key) (n : ℕ) : c.advance (n + 1) = (c.advance n).ratchet.2 :=
  Function.iterate_succ_apply' _ _ _

omit [X25519] in
theorem ChainKey.advance_advance (c : ChainKey Key) (n m : ℕ) : (c.advance n).advance m = c.advance (n + m) := by
  unfold advance
  rw [Nat.add_comm, Function.iterate_add_apply]

/-- The keys that `rootKdf` makes from root number `j` on. -/
def rootAt (sharedSecret : Key) (x : ℕ → Bytes 32) : ℕ → Key
  | 0 => sharedSecret
  | j + 1 => (rootKdf (rootAt sharedSecret x j) (diffieHellman (x (j + 1)) (publicKey (x j)))).1

/-- The chain of secret number `j`, after `n` messages. There is no chain number `0`. -/
def chainAt (sharedSecret : Key) (x : ℕ → Bytes 32) (j n : ℕ) : ChainKey Key :=
  (rootKdf (rootAt sharedSecret x (j - 1)) (diffieHellman (x j) (publicKey (x (j - 1))))).2.advance n

/-- The key of message `n` on chain `j`. -/
def messageKeyAt (sharedSecret : Key) (x : ℕ → Bytes 32) (j n : ℕ) : MessageKey Key := (chainAt sharedSecret x j n).ratchet.1

variable {sharedSecret : Key} {x x' : ℕ → Bytes 32} {i j m n : ℕ}

theorem chainAt_advance : (chainAt sharedSecret x j m).advance n = chainAt sharedSecret x j (m + n) :=
  ChainKey.advance_advance _ _ _

theorem rootAt_congr (h : ∀ i ≤ j, x' i = x i) : rootAt sharedSecret x' j = rootAt sharedSecret x j := by
  induction j with
  | zero => rfl
  | succ j ih =>
    unfold rootAt
    rw [ih fun i hi => h i (by omega), h (j + 1) le_rfl, h j (by omega)]

theorem chainAt_congr (h : ∀ i ≤ j, x' i = x i) : chainAt sharedSecret x' j n = chainAt sharedSecret x j n := by
  unfold chainAt
  rw [rootAt_congr fun i hi => h i (by omega), h j le_rfl, h (j - 1) (by omega)]

theorem messageKeyAt_congr (h : ∀ i ≤ j, x' i = x i) : messageKeyAt sharedSecret x' j n = messageKeyAt sharedSecret x j n := by
  unfold messageKeyAt
  rw [chainAt_congr h]

namespace IdealCrypto

/-- The root keys of a conversation are distinct. -/
theorem rootAt_injective (ic : IdealCrypto sharedSecret) (h : rootAt sharedSecret x i = rootAt sharedSecret x j) : i = j := by
  induction i generalizing j with
  | zero =>
    cases j with
    | zero => rfl
    | succ j => exact absurd h.symm (ic.root_ne_secret _ _)
  | succ i ih =>
    cases j with
    | zero => exact absurd h (ic.root_ne_secret _ _)
    | succ j => rw [ih (ic.root_injective _ _ _ _ h).1]

/-- Chains from two links meet only if they are one chain, at one place. -/
theorem advance_inj (ic : IdealCrypto sharedSecret) {r r' : Key} {d d' : Bytes 32}
    (h : (rootKdf r d).2.advance m = (rootKdf r' d').2.advance n) : m = n ∧ r = r' ∧ d = d' := by
  induction m generalizing n with
  | zero =>
    cases n with
    | zero => exact ⟨rfl, ic.chain_injective _ _ _ _ h⟩
    | succ n =>
      rw [ChainKey.advance_succ] at h
      exact absurd h (ic.chain_ne_next _ _ _)
  | succ m ih =>
    cases n with
    | zero =>
      rw [ChainKey.advance_succ] at h
      exact absurd h.symm (ic.chain_ne_next _ _ _)
    | succ n =>
      rw [ChainKey.advance_succ, ChainKey.advance_succ] at h
      obtain ⟨rfl, hrest⟩ := ih (ic.next_injective _ _ h)
      exact ⟨rfl, hrest⟩

/-- A message key tells the root of its chain and its place there. -/
theorem messageKey_inj (ic : IdealCrypto sharedSecret) {r : Key} {d : Bytes 32}
    (h : ((rootKdf r d).2.advance m).ratchet.1 = messageKeyAt sharedSecret x j n) :
    m = n ∧ r = rootAt sharedSecret x (j - 1) := by
  obtain ⟨hm, hr, -⟩ := ic.advance_inj (ic.message_injective _ _ h)
  exact ⟨hm, hr⟩

end IdealCrypto
end
end SpiritChat
