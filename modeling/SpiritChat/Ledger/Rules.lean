import SpiritChat.Ledger.Validation

/-! # What the rules of the ledger say

A block extends a branch, that is the ancestors of its parent from some floor on and the owners of the
usernames there. This file states when a branch admits a block, without the chain's maps and without the
order of the checks. -/

namespace SpiritChat
open Lib

/-- What the rules read of an ancestor. -/
structure Ancestor where
  hash : Hash32
  height : ℕ
  timestamp : ℕ
  difficultyTarget : CompactTarget
deriving DecidableEq

/-- What holds of an accepted block on every branch. -/
structure Block.Sound [Primitives] (b : Block) : Prop where
  count : b.transactions.length ≤ maxTxsPerBlock
  size : b.approxSizeBytes ≤ maxBlockBytes
  commitment : b.header.txCommitment = Block.computeTxCommitment b.transactions
  signed : ∀ tx ∈ b.transactions, tx.verifySelfContained = .ok ()
  distinct : (b.transactions.map (·.username)).Nodup

namespace Rules

/-- The median of the last timestamps. -/
def median (timestamps : List ℕ) : Option ℕ :=
  let sorted := (timestamps.drop (timestamps.length - medianTimePastWindow)).insertionSort (· ≤ ·)
  sorted[sorted.length / 2]?

/-- The target a child of `p` must have, if the branch still holds the start of its interval. -/
def target (F : Type) [Float64 F] (branch : List Ancestor) (p : Ancestor) : Option CompactTarget :=
  if (p.height + 1) % retargetIntervalBlocks ≠ 0 then some p.difficultyTarget
  else
    (branch.find? fun a => a.height = p.height + 1 - retargetIntervalBlocks).map fun start =>
      retarget F p.difficultyTarget (max ((p.timestamp : ℤ) - start.timestamp) 1)
        ((retargetIntervalBlocks : ℤ) * targetBlockTimeSecs)

/-- The branch with last ancestor `p` and owners `owners` admits `b` at time `now`. -/
structure Admits (F : Type) [Float64 F] [Primitives] (branch : List Ancestor) (owners : Owners) (p : Ancestor)
    (b : Block) (now : ℕ) : Prop where
  sound : b.Sound
  height : b.header.height.toNat = p.height + 1
  target : Rules.target F branch p = some b.header.difficultyTarget
  work : b.hash.meetsTarget (expandTarget b.header.difficultyTarget) = true
  past : ∃ m, median (branch.map (·.timestamp)) = some m ∧ m < b.header.timestamp.toNat
  drift : b.header.timestamp.toNat ≤ now + maxFutureDriftSecs
  anchored : ∀ tx ∈ b.transactions, ∃ a ∈ branch, a.hash = tx.anchorBlockHash ∧
    b.header.height.toNat - a.height ≤ anchorMaxAgeBlocks
  unclaimed : ∀ tx ∈ b.transactions, owners tx.username = none

end Rules
end SpiritChat
