import Mathlib.Data.List.Sort
import SpiritChat.Ledger.Difficulty
import SpiritChat.Ledger.Transaction

/-! # Blocks

The header that is hashed for the proof of work, the commitment to the transactions and the genesis block. -/

namespace SpiritChat
open Lib

def maxTxsPerBlock : ℕ := 64

def maxBlockBytes : ℕ := 16 * 1024

def genesisTimestamp : UInt64 := 1750000000

/-- What is hashed for the proof of work. -/
structure BlockHeader where
  version : UInt8
  height : UInt64
  prevHash : Hash32
  timestamp : UInt64
  txCommitment : Hash32
  difficultyTarget : CompactTarget
  nonce : UInt64
  minerPublicKey : Bytes 32
deriving DecidableEq

/-- A header with the transactions that it commits to. -/
structure Block where
  header : BlockHeader
  transactions : List Transaction
deriving DecidableEq

/-- The byte layout hashed for the proof of work: every field in a fixed order. -/
def BlockHeader.canonicalBytes (h : BlockHeader) : List UInt8 :=
  [h.version] ++ leBytes 8 h.height.toNat ++ h.prevHash.asBytes ++ leBytes 8 h.timestamp.toNat ++
    h.txCommitment.asBytes ++ leBytes 4 h.difficultyTarget.toNat ++ leBytes 8 h.nonce.toNat ++ h.minerPublicKey.toList

namespace Block

def approxSizeBytes (b : Block) : ℕ :=
  b.header.canonicalBytes.length + (b.transactions.map fun tx => tx.canonicalBytes.length).sum

section
variable [Primitives]

def hash (b : Block) : Hash32 := Hash32.of b.header.canonicalBytes

/-- The ids of the transactions, sorted and concatenated. -/
def commitmentPreimage (transactions : List Transaction) : List UInt8 :=
  (((transactions.map Transaction.id).insertionSort (· ≤ ·)).map Hash32.asBytes).flatten

/-- SHA-256 over the sorted, concatenated transaction ids. -/
def computeTxCommitment (transactions : List Transaction) : Hash32 := Hash32.of (commitmentPreimage transactions)

/-- The one block every node trusts. -/
def genesis : Block where
  header :=
    { version := 1, height := 0, prevHash := .zero, timestamp := genesisTimestamp
      txCommitment := computeTxCommitment [], difficultyTarget := initialDifficultyBits, nonce := 0
      minerPublicKey := .replicate 32 0 }
  transactions := []

end
end Block

/-! ### Equal bytes, equal data -/

/-- The bytes of a header tell all its fields. -/
theorem BlockHeader.canonicalBytes_injective : Function.Injective BlockHeader.canonicalBytes := by
  rintro ⟨v, ht, p, ts, c, d, n, m⟩ ⟨v', ht', p', ts', c', d', n', m'⟩ h
  simp only [canonicalBytes] at h
  obtain ⟨h, hm⟩ := List.append_inj h (by simp)
  obtain ⟨h, hn⟩ := List.append_inj h (by simp)
  obtain ⟨h, hd⟩ := List.append_inj h (by simp)
  obtain ⟨h, hc⟩ := List.append_inj h (by simp)
  obtain ⟨h, hts⟩ := List.append_inj h (by simp)
  obtain ⟨h, hp⟩ := List.append_inj h (by simp)
  obtain ⟨hv, hht⟩ := List.append_inj h (by simp)
  obtain rfl : v = v' := by simpa using hv
  obtain rfl := UInt64.toNat_inj.mp (leBytes_inj ht.toNat_lt ht'.toNat_lt hht)
  obtain rfl := Hash32.asBytes_inj hp
  obtain rfl := UInt64.toNat_inj.mp (leBytes_inj ts.toNat_lt ts'.toNat_lt hts)
  obtain rfl := Hash32.asBytes_inj hc
  obtain rfl := UInt32.toNat_inj.mp (leBytes_inj d.toNat_lt d'.toNat_lt hd)
  obtain rfl := UInt64.toNat_inj.mp (leBytes_inj n.toNat_lt n'.toNat_lt hn)
  obtain rfl := Bytes.ext_toList hm
  rfl

/-- The bytes of a transaction that fits into a block tell all its fields but the version, which they
    leave out. -/
theorem Transaction.canonicalBytes_inj {t u : Transaction} (hl : t.canonicalBytes.length ≤ maxBlockBytes)
    (h : t.canonicalBytes = u.canonicalBytes) : t = { u with version := t.version } := by
  obtain ⟨v, n, o, ht, a, c, s⟩ := t
  obtain ⟨v', n', o', ht', a', c', s'⟩ := u
  have hl' : (canonicalBytes ⟨v', n', o', ht', a', c', s'⟩).length ≤ maxBlockBytes := h ▸ hl
  simp only [canonicalBytes, signingPreimage, List.length_append, maxBlockBytes] at h hl hl'
  simp only [List.append_assoc] at h
  -- The length prefix is exact, so the username ends where it says.
  obtain ⟨-, h⟩ := List.append_inj h rfl
  obtain ⟨hlen, h⟩ := List.append_inj h (by simp)
  obtain ⟨hn, h⟩ := List.append_inj h (leBytes_inj (by omega) (by omega) hlen)
  obtain ⟨ho, h⟩ := List.append_inj h (by rw [o.length_eq, o'.length_eq])
  obtain ⟨hht, h⟩ := List.append_inj h (by simp)
  obtain ⟨ha, h⟩ := List.append_inj h (by simp)
  obtain ⟨hc, hs⟩ := List.append_inj h (by rw [c.length_eq, c'.length_eq])
  obtain rfl := utf8_inj hn
  obtain rfl := Bytes.ext_toList ho
  obtain rfl := UInt64.toNat_inj.mp (leBytes_inj ht.toNat_lt ht'.toNat_lt hht)
  obtain rfl := Hash32.asBytes_inj ha
  obtain rfl := Bytes.ext_toList hc
  obtain rfl := hs
  rfl

end SpiritChat
