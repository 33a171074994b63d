import SpiritChat.Crypto.Persistence
import SpiritChat.Lib.Reader

/-! # Stored ratchets

The bytes of a ratchet, as they are kept in the keychain. A symmetric key is its 32 bytes here. The entries of
the skipped keys are written in the order in which a hash map gives them, which is an argument. -/

namespace SpiritChat
open Lib

/-- An entry of the skipped keys. -/
abbrev SkippedEntry := (Bytes 32 × ℕ) × MessageKey (Bytes 32)

namespace SkippedKeyStore

/-- `SkippedKeyStore::entries`, in one of its orders. -/
def entryList (s : SkippedKeyStore (Bytes 32)) : List SkippedEntry := s.entries.map fun e => (e.1, e.2)

/-- `SkippedKeyStore::from_entries` -/
def fromEntries (entries : List SkippedEntry) : SkippedKeyStore (Bytes 32) :=
  entries.foldl (fun s e => AList.insert e.1 e.2 s) ∅

end SkippedKeyStore

/-! ### Writing -/

/-- `write_optional_public_key` -/
def writeOptionalPublicKey : Option (Bytes 32) → List UInt8
  | some key => 1 :: key.toList
  | none => [0]

/-- `write_optional_chain_key` -/
def writeOptionalChainKey : Option (ChainKey (Bytes 32)) → List UInt8
  | some key => 1 :: key.bytes.toList
  | none => [0]

def writeSkippedEntry (entry : SkippedEntry) : List UInt8 :=
  entry.1.1.toList ++ (varintEncode entry.1.2 ++ entry.2.bytes.toList)

/-- `DoubleRatchet::to_bytes`, with the skipped keys in the order `entries`. -/
def DoubleRatchet.toBytes (r : DoubleRatchet (Bytes 32)) (entries : List SkippedEntry) : List UInt8 :=
  r.dhSelf.toList ++ (writeOptionalPublicKey r.dhRemote ++ (r.rootKey.toList ++
    (writeOptionalChainKey r.sendingChain ++ (writeOptionalChainKey r.receivingChain ++
    (varintEncode r.sendCount ++ (varintEncode r.recvCount ++ (varintEncode r.previousSendingChainLength ++
    (varintEncode entries.length ++ (entries.map writeSkippedEntry).flatten))))))))

/-! ### Reading -/

namespace DoubleRatchet

def readFixed : Reader CryptoError (Bytes 32) := fun input offset =>
  match SpiritChat.readFixed 32 input offset with
  | none => .error (.decode "truncated ratchet state")
  | some bytes => .ok (bytes, offset + 32)

def readFlag : Reader CryptoError Bool := fun input offset =>
  match input[offset]? with
  | none => .error (.decode "truncated ratchet state")
  | some byte =>
    if byte = 0 then .ok (false, offset + 1)
    else if byte = 1 then .ok (true, offset + 1)
    else .error (.decode "invalid optional-field flag byte")

def readOptionalPublicKey : Reader CryptoError (Option (Bytes 32)) := fun input => do
  let flag ← readFlag input
  if flag then do
    let bytes ← readFixed input
    return some bytes
  else return none

def readOptionalChainKey : Reader CryptoError (Option (ChainKey (Bytes 32))) := fun input => do
  let flag ← readFlag input
  if flag then do
    let bytes ← readFixed input
    return some ⟨bytes⟩
  else return none

/-- `read_varint_u32`, which cuts the value off at 32 bits. -/
def readVarintU32 : Reader CryptoError ℕ := fun input offset =>
  if input.length < offset then .error (.decode "truncated ratchet state")
  else do
    let (value, consumed) ← varintDecode (input.drop offset)
    return (value % 2 ^ 32, offset + consumed)

/-- The loop over the skipped keys, which goes round `count` times. -/
def readEntries : ℕ → Reader CryptoError (List SkippedEntry)
  | 0 => fun _ => return []
  | count + 1 => fun input => do
    let dhPublic ← readFixed input
    let messageNumber ← readVarintU32 input
    let key ← readFixed input
    let entries ← readEntries count input
    return ((dhPublic, messageNumber), ⟨key⟩) :: entries

section
variable [X25519]

/-- The body of `from_bytes`. -/
def read : Reader CryptoError (DoubleRatchet (Bytes 32)) := fun input => do
  let dhSelf ← readFixed input
  let dhRemote ← readOptionalPublicKey input
  let rootKey ← readFixed input
  let sendingChain ← readOptionalChainKey input
  let receivingChain ← readOptionalChainKey input
  let sendCount ← readVarintU32 input
  let recvCount ← readVarintU32 input
  let previousSendingChainLength ← readVarintU32 input
  let skippedCount ← readVarintU32 input
  let skippedEntries ← readEntries skippedCount input
  return { dhSelf, dhSelfPublic := X25519.publicKey dhSelf, dhRemote, rootKey, sendingChain, receivingChain, sendCount
           recvCount, previousSendingChainLength, skipped := SkippedKeyStore.fromEntries skippedEntries }

def fromBytes (input : List UInt8) : Except CryptoError (DoubleRatchet (Bytes 32)) := (read input).run' 0

end

/-! ### What is written is read back -/

theorem reads_fixed (b : Bytes 32) : Reads readFixed b.toList b := by
  intro before after
  simp only [StateT.run, readFixed, readFixed_append before rfl, b.length_eq]

theorem reads_flag (flag : Bool) : Reads readFlag [if flag then 1 else 0] flag := by
  intro before after
  have hat : (before ++ ([if flag then (1 : UInt8) else 0] ++ after))[before.length]? = some (if flag then 1 else 0) := by
    rw [List.getElem?_append_right le_rfl, Nat.sub_self]
    rfl
  simp only [StateT.run, readFlag, hat]
  cases flag <;> rfl

theorem reads_optionalPublicKey (key : Option (Bytes 32)) :
    Reads readOptionalPublicKey (writeOptionalPublicKey key) key := by
  cases key with
  | none => exact (reads_flag false).bind (.pure none)
  | some b => exact (reads_flag true).bind ((reads_fixed b).map some)

theorem reads_optionalChainKey (key : Option (ChainKey (Bytes 32))) :
    Reads readOptionalChainKey (writeOptionalChainKey key) key := by
  cases key with
  | none => exact (reads_flag false).bind (.pure none)
  | some c => exact (reads_flag true).bind ((reads_fixed c.bytes).map fun b => some (ChainKey.mk b))

theorem reads_varintU32 {n : ℕ} (hn : n < 2 ^ 32) : Reads readVarintU32 (varintEncode n) n := by
  intro before after
  have hlen : ¬(before ++ (varintEncode n ++ after)).length < before.length := by
    rw [List.length_append]
    omega
  simp only [StateT.run, readVarintU32, if_neg hlen, List.drop_left,
    varintDecode_encode (show n < 2 ^ 64 from lt_trans hn (by decide)), bind, Except.bind, pure, Except.pure,
    Nat.mod_eq_of_lt hn]

theorem reads_entries {entries : List SkippedEntry} (hn : ∀ e ∈ entries, e.1.2 < 2 ^ 32) :
    Reads (readEntries entries.length) (entries.map writeSkippedEntry).flatten entries := by
  induction entries with
  | nil => exact .pure []
  | cons e entries ih =>
    obtain ⟨he, hrest⟩ := List.forall_mem_cons.mp hn
    rw [List.map_cons, List.flatten_cons, writeSkippedEntry, List.append_assoc, List.append_assoc]
    exact (reads_fixed e.1.1).bind <| (reads_varintU32 he).bind <| (reads_fixed e.2.bytes).bind <|
      (ih hrest).map fun l => ((e.1.1, e.1.2), ⟨e.2.bytes⟩) :: l

/-- The counters are in the range of their type. -/
structure InRange {Key : Type} (r : DoubleRatchet Key) : Prop where
  sendCount : r.sendCount < 2 ^ 32
  recvCount : r.recvCount < 2 ^ 32
  previous : r.previousSendingChainLength < 2 ^ 32
  numbers : ∀ k ∈ r.skipped, k.2 < 2 ^ 32
  len : r.skipped.len ≤ maxSkippedKeys

section
variable [X25519] {r : DoubleRatchet (Bytes 32)} {entries : List SkippedEntry}

/-- Everything but the public key and the skipped keys is read back as it is written. -/
theorem fromBytes_toBytes (h : r.InRange) (hp : entries.Perm r.skipped.entryList) :
    fromBytes (r.toBytes entries) =
      .ok { r with dhSelfPublic := X25519.publicKey r.dhSelf, skipped := SkippedKeyStore.fromEntries entries } := by
  have hlen : entries.length < 2 ^ 32 := by
    have hsame : entries.length = r.skipped.len := hp.length_eq.trans (List.length_map _)
    exact hsame ▸ lt_of_le_of_lt h.len (by decide)
  have hnumbers : ∀ e ∈ entries, e.1.2 < 2 ^ 32 := by
    intro e he
    obtain ⟨e', he', rfl⟩ := List.mem_map.mp (hp.subset he)
    exact h.numbers _ (AList.mem_keys.mpr (List.mem_map_of_mem he'))
  exact Reads.run' <| (reads_fixed r.dhSelf).bind <| (reads_optionalPublicKey r.dhRemote).bind <|
    (reads_fixed r.rootKey).bind <| (reads_optionalChainKey r.sendingChain).bind <|
    (reads_optionalChainKey r.receivingChain).bind <| (reads_varintU32 h.sendCount).bind <|
    (reads_varintU32 h.recvCount).bind <| (reads_varintU32 h.previous).bind <| (reads_varintU32 hlen).bind <|
    (reads_entries hnumbers).map fun l =>
      { r with dhSelfPublic := X25519.publicKey r.dhSelf, skipped := SkippedKeyStore.fromEntries l }

end
end DoubleRatchet
end SpiritChat
