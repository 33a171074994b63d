import Mathlib.Data.List.Destutter
import Mathlib.Data.List.Lex
import Mathlib.Data.List.Sort
import SpiritChat.Lib.Sha256
import SpiritChat.Ledger.Hash

/-! # The mailbox

A relay keeps sealed envelopes for recipients that are away, each under a tag that only the two ends can derive.
The relay's tables are in a database; a storage call is taken to succeed. The search for a proof-of-work stamp
is left out: a deposit comes with its stamp. -/

namespace SpiritChat
open Lib

def retentionSecs : ℕ := 14 * 24 * 60 * 60

def tagEpochSecs : UInt64 := 24 * 60 * 60

/-- `to_be_bytes` of a `u64` -/
def beBytes (x : UInt64) : List UInt8 := (leBytes 8 x.toNat).reverse

/-- HKDF-SHA256 without a salt: key material and an info to 32 bytes. -/
class TagKdf where
  hkdf : List UInt8 → List UInt8 → Bytes 32

def epochFor (now : UInt64) : UInt64 := now / tagEpochSecs

def mailboxTag [TagKdf] (sharedMaterial : List UInt8) (epoch : UInt64) : Bytes 32 :=
  -- b"spiritchat-mailbox-tag-v1"
  let info := [0x73, 0x70, 0x69, 0x72, 0x69, 0x74, 0x63, 0x68, 0x61, 0x74, 0x2d, 0x6d, 0x61, 0x69, 0x6c, 0x62, 0x6f,
    0x78, 0x2d, 0x74, 0x61, 0x67, 0x2d, 0x76, 0x31]
  TagKdf.hkdf sharedMaterial (info ++ beBytes epoch)

/-- What a sender leaves at a relay. -/
structure MailboxDeposit where
  tag : Bytes 32
  envelope : List UInt8
  depositedAt : UInt64
  powNonce : Bytes 8

/-! ### The two ends -/

/-- `Command::DepositToMailbox`: the deposit that goes into the mix. -/
def depositToMailbox [TagKdf] (sharedMaterial envelope : List UInt8) (now : UInt64) (powNonce : Bytes 8) :
    MailboxDeposit where
  tag := mailboxTag sharedMaterial (epochFor now)
  envelope := envelope
  depositedAt := now
  powNonce := powNonce

/-- `Command::RetrieveFromMailbox`: the tags that it sends a query for. -/
def retrieveFromMailbox [TagKdf] (sharedMaterial : List UInt8) (now : UInt64) : List (Bytes 32) :=
  [mailboxTag sharedMaterial (epochFor now)]

/-! ### The relay -/

/-- A row of the deposits table. -/
structure StoredDeposit where
  tag : Bytes 32
  envelope : List UInt8

/-- A row with its key. -/
structure CachedDeposit where
  key : Bytes 40
  envelope : List UInt8

def powPreimage [Primitives] (d : MailboxDeposit) : List UInt8 :=
  -- b"spiritchat-mailbox-pow-v1"
  let context := [0x73, 0x70, 0x69, 0x72, 0x69, 0x74, 0x63, 0x68, 0x61, 0x74, 0x2d, 0x6d, 0x61, 0x69, 0x6c, 0x62, 0x6f,
    0x78, 0x2d, 0x70, 0x6f, 0x77, 0x2d, 0x76, 0x31]
  context ++ d.tag.toList ++ (Primitives.sha256 d.envelope).asBytes ++ leBytes 8 d.depositedAt.toNat ++ d.powNonce.toList

/-- The time of the deposit, then a digest of it. -/
def depositKey [Primitives] (d : MailboxDeposit) : Bytes 40 :=
  ⟨beBytes d.depositedAt ++ (Primitives.sha256 (powPreimage d)).asBytes, by simp [beBytes]⟩

/-- The size of the `bincode` of a deposit: the tag, the length of the envelope and the envelope. -/
def StoredDeposit.serializedLen (d : StoredDeposit) : ℕ := 32 + 8 + d.envelope.length

/-- Keys compare byte by byte, first byte first. -/
instance : LE (Bytes 40) := ⟨fun a b => a.toList ≤ b.toList⟩

instance : DecidableLE (Bytes 40) := fun a b => inferInstanceAs (Decidable (a.toList ≤ b.toList))

/-- The relay's tables, its running total and its limit. -/
structure MailboxStore where
  /-- the table of deposits, in the order of its keys -/
  deposits : List (Bytes 40 × StoredDeposit)
  byTag : List (Bytes 32 × Bytes 40)
  totalBytes : ℕ
  limitBytes : ℕ

namespace MailboxStore

def defaultCacheLimitBytes : ℕ := 50 * 1024 * 1024

/-- `open` on a file that does not exist yet. -/
def create : MailboxStore := ⟨[], [], 0, defaultCacheLimitBytes⟩

/-- `deposits.get` -/
def get (s : MailboxStore) (key : Bytes 40) : Option StoredDeposit := (s.deposits.find? (·.1 = key)).map (·.2)

/-- `remove_locked` -/
def removeLocked (s : MailboxStore) (key : Bytes 40) (tag : Bytes 32) (envelopeLen : ℕ) : MailboxStore where
  deposits := s.deposits.filter (·.1 ≠ key)
  byTag := s.byTag.filter (· ≠ (tag, key))
  totalBytes := s.totalBytes - envelopeLen
  limitBytes := s.limitBytes

/-- Removes one deposit by its key. -/
def remove (s : MailboxStore) (key : Bytes 40) : MailboxStore :=
  match s.get key with
  | none => s
  | some stored => s.removeLocked key stored.tag stored.envelope.length

/-- The deposits under a tag, oldest first. -/
def forTag (s : MailboxStore) (tag : Bytes 32) : List CachedDeposit :=
  let keys := ((s.byTag.filter (·.1 = tag)).map (·.2)).insertionSort (· ≤ ·)
  keys.filterMap fun key => (s.get key).map fun stored => ⟨key, stored.envelope⟩

/-- `evict_oldest`: the first deposit of the table goes. -/
def evictOldest (s : MailboxStore) : MailboxStore × Bool :=
  match s.deposits with
  | [] => (s, false)
  | (key, stored) :: _ => (s.removeLocked key stored.tag stored.envelope.length, true)

def setLimitBytes (s : MailboxStore) (limit : ℕ) : MailboxStore := { s with limitBytes := limit }

/-- The tags of the multimap in its order, and `dedup`. -/
def distinctTags (s : MailboxStore) : List (Bytes 32) :=
  ((s.byTag.map (·.1)).insertionSort fun a b => a.toList ≤ b.toList).destutter (· ≠ ·)

/-- The time of a deposit, read back from its key. -/
def keyTime (key : Bytes 40) : ℕ := ofBytesBE (key.toList.take 8)

/-- The loop of `evict_expired` for so many turns, unless it returns before. -/
def evictExpiredTurns (now : UInt64) : ℕ → MailboxStore → Option MailboxStore
  | 0, _ => none
  | turns + 1, s =>
    match s.deposits with
    | [] => some s
    | (key, stored) :: _ =>
      if now.toNat - keyTime key ≤ retentionSecs then some s
      else evictExpiredTurns now turns (s.removeLocked key stored.tag stored.envelope.length)

/-- `evict_expired`; each turn that does not return leaves fewer deposits. -/
def evictExpired (now : UInt64) (s : MailboxStore) : MailboxStore :=
  (evictExpiredTurns now (s.deposits.length + 1) s).getD s

/-- The loop of `evict_until_room_for`; a turn that evicts leaves fewer deposits. -/
def evictUntilRoomFor (additional : ℕ) : ℕ → MailboxStore → MailboxStore
  | 0, s => s
  | turns + 1, s =>
    if s.totalBytes + additional ≤ s.limitBytes then s
    else
      match s.evictOldest with
      | (s, false) => s
      | (s, true) => evictUntilRoomFor additional turns s

variable [Primitives]

/-- `accept`, of a deposit that was validated. -/
def accept (s : MailboxStore) (deposit : MailboxDeposit) : MailboxStore :=
  let key := depositKey deposit
  let stored : StoredDeposit := ⟨deposit.tag, deposit.envelope⟩
  let added := stored.serializedLen
  let s := evictUntilRoomFor added (s.deposits.length + 1) s
  { deposits := (s.deposits.filter (·.1 ≠ key)).orderedInsert (·.1 ≤ ·.1) (key, stored)
    byTag := s.byTag.filter (· ≠ (stored.tag, key)) ++ [(stored.tag, key)]
    totalBytes := s.totalBytes + added
    limitBytes := s.limitBytes }

end MailboxStore
end SpiritChat
