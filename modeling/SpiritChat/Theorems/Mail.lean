import SpiritChat.Theorems.Retention

/-! # What a recipient gets from a mailbox

A query leaves the relay's store as it is, so every query for a tag is answered with the same deposit. A query
goes out under the tag of the day it is made on, so it finds the deposits of that day. -/

namespace SpiritChat
open Lib

/-! ### Queries -/

/-- The envelope in the answer to a query. -/
def RelayEffect.answer? : RelayEffect → Option (List UInt8)
  | .reply _ oldest => some oldest.envelope
  | _ => none

namespace Relay
variable {r : Relay} {tag : Bytes 32}

/-- The envelopes under a tag, oldest first. -/
def envelopes (r : Relay) (tag : Bytes 32) : List (List UInt8) := (r.mailboxStore.forTag tag).map (·.envelope)

variable [Primitives]

/-- What queries for a tag are answered with, each after the answer to the one before it. -/
def answers (r : Relay) (tag : Bytes 32) (queries : List (UInt64 × Surb)) : List (List UInt8) :=
  (r.outputs (queries.map fun query => (query.1, .mixRequest (.ok (.final (.query tag query.2)))))).filterMap (·.2.answer?)

/-- However often a recipient asks, no envelope is answered twice, and as many answers as there are deposits have each of
their envelopes. -/
def CollectedInFull (r : Relay) (tag : Bytes 32) : Prop :=
  ∀ queries, (r.answers tag queries).Nodup ∧
    ((r.answers tag queries).length = (r.envelopes tag).length → (r.answers tag queries).Perm (r.envelopes tag))

/-- A query takes nothing out of the store. -/
theorem answers_cons {query : UInt64 × Surb} {queries : List (UInt64 × Surb)} :
    r.answers tag (query :: queries) = (r.handleQuery tag query.2).filterMap RelayEffect.answer? ++ r.answers tag queries := by
  unfold answers
  rw [List.map_cons, outputs, List.filterMap_append, List.filterMap_map]
  rfl

theorem answers_eq_nil (h : ∀ surb, r.handleQuery tag surb = []) (queries : List (UInt64 × Surb)) :
    r.answers tag queries = [] := by
  induction queries with
  | nil => rfl
  | cons query queries ih =>
    rw [answers_cons, h, ih]
    rfl

omit [Primitives] in
theorem handleQuery_of_known {address : NodeAddress} {peer : PeerId} {oldest : CachedDeposit} {rest : List CachedDeposit}
    (hknown : r.knownMixRelays address = some peer) (hdeposits : r.mailboxStore.forTag tag = oldest :: rest) :
    r.handleQuery tag (fun _ => some address) = [.reply peer oldest] := by
  unfold handleQuery
  rw [hdeposits]
  dsimp only
  rw [Option.bind_some, hknown]

/-- What is under a tag can be collected exactly if there is nothing, or if no answer can be sent. -/
theorem collectedInFull_iff :
    r.CollectedInFull tag ↔ r.mailboxStore.forTag tag = [] ∨ ∀ address, r.knownMixRelays address = none := by
  constructor
  · intro h
    by_contra hstored
    obtain ⟨hne, hknown⟩ := not_or.mp hstored
    obtain ⟨oldest, rest, hdeposits⟩ := List.exists_cons_of_ne_nil hne
    obtain ⟨address, haddress⟩ := not_forall.mp hknown
    obtain ⟨peer, hpeer⟩ := Option.ne_none_iff_exists'.mp haddress
    -- The second query is answered like the first.
    have htwice := (h [(0, fun _ => some address), (0, fun _ => some address)]).1
    rw [answers_cons, answers_cons, handleQuery_of_known hpeer hdeposits] at htwice
    exact (List.nodup_cons.mp htwice).1 List.mem_cons_self
  · intro h queries
    have hsilent : ∀ surb, r.handleQuery tag surb = [] := by
      intro surb
      rcases h with hnone | hunknown
      · unfold handleQuery
        rw [hnone]
      · refine List.eq_nil_iff_forall_not_mem.mpr fun effect heffect => ?_
        obtain ⟨peer, c, rest, -, -, hpeer⟩ := reply_of_handleQuery heffect
        obtain ⟨address, -, haddress⟩ := Option.bind_eq_some_iff.mp hpeer
        rw [hunknown] at haddress
        cases haddress
    rw [answers_eq_nil hsilent]
    refine ⟨List.nodup_nil, fun hlength => ?_⟩
    rw [List.length_eq_zero_iff.mp hlength.symm]

end Relay

section
attribute [local instance] unsigned

/-- A relay that accepted two deposits under a tag, and knows one other. -/
def twoDeposits (tag : Bytes 32) : Relay where
  mailboxStore :=
    (MailboxStore.create.accept ⟨tag, [0x01], 1750000000, .replicate 8 0⟩).accept ⟨tag, [0x02], 1750000060, .replicate 8 0⟩
  knownMixRelays := Table.empty.insert (.replicate 32 9) [0x05]

/-- A query with a reply block that goes to the relay which is known. -/
def queryAt (now : UInt64) : UInt64 × Surb := (now, fun _ => some (.replicate 32 9))

theorem twoDeposits_not_collected :
    (twoDeposits (.replicate 32 7)).envelopes (.replicate 32 7) = [[0x01], [0x02]] ∧
      (twoDeposits (.replicate 32 7)).answers (.replicate 32 7) [queryAt 1750000120, queryAt 1750000180] = [[0x01], [0x01]] ∧
      ¬(twoDeposits (.replicate 32 7)).CollectedInFull (.replicate 32 7) := by
  have henv : (twoDeposits (.replicate 32 7)).envelopes (.replicate 32 7) = [[0x01], [0x02]] := by decide +kernel
  have hans : (twoDeposits (.replicate 32 7)).answers (.replicate 32 7) [queryAt 1750000120, queryAt 1750000180] =
      [[0x01], [0x01]] := by decide +kernel
  refine ⟨henv, hans, fun h => ?_⟩
  have hnodup := (h [queryAt 1750000120, queryAt 1750000180]).1
  rw [hans] at hnodup
  simp at hnodup

end

/-! ### Tags -/

/-- A query made at `retrieved` finds what was deposited at `deposited` exactly when both fall into one epoch, if
the epochs of the two times have different tags unless they are one. -/
theorem retrieveFromMailbox_finds_iff [TagKdf] {sharedMaterial envelope : List UInt8} {deposited retrieved : UInt64}
    {powNonce : Bytes 8}
    (hkdf : mailboxTag sharedMaterial (epochFor deposited) = mailboxTag sharedMaterial (epochFor retrieved) →
      epochFor deposited = epochFor retrieved) :
    (depositToMailbox sharedMaterial envelope deposited powNonce).tag ∈ retrieveFromMailbox sharedMaterial retrieved ↔
      epochFor deposited = epochFor retrieved := by
  unfold depositToMailbox retrieveFromMailbox
  rw [List.mem_singleton]
  exact ⟨hkdf, congrArg (mailboxTag sharedMaterial)⟩

section

/-- HKDF over the hash function itself. -/
@[reducible] def hkdfSha256 : TagKdf := ⟨fun material info => ⟨Sha256.hkdf [] material info, Sha256.length_hkdf _ _ _⟩⟩

attribute [local instance] hkdfSha256

theorem retrieveFromMailbox_finds_iff_nextDay :
    (depositToMailbox [0x07] [0x01] 1750031999 (.replicate 8 0)).tag ∈ retrieveFromMailbox [0x07] 1750032000 ↔
      epochFor 1750031999 = epochFor 1750032000 :=
  retrieveFromMailbox_finds_iff fun h => absurd h (by decide +kernel)

/-- A deposit of the last second of a day is not found a second later. -/
theorem retrieveFromMailbox_misses_midnight :
    (1750031999 : UInt64) ≤ 1750032000 ∧ (1750032000 : UInt64).toNat ≤ (1750031999 : UInt64).toNat + retentionSecs ∧
      (depositToMailbox [0x07] [0x01] 1750031999 (.replicate 8 0)).tag ∉ retrieveFromMailbox [0x07] 1750032000 := by
  decide +kernel

end
end SpiritChat
