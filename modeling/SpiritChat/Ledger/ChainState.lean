import SpiritChat.Lib.Table
import SpiritChat.Ledger.Block

/-! # The in-memory chain

Every accepted block's metadata, the bodies above the floor, which branch is canonical and who owns which
username there. This file holds the state and what is read from it; `Validation.lean` holds the rules and
`Apply.lean` the acceptance of a block.

Heights and timestamps are `u64` in the source. They are natural numbers here: a height grows by one with
each accepted block and a timestamp is compared with a clock, so neither comes near `2 ^ 64`. -/

namespace SpiritChat
open Lib

def medianTimePastWindow : ℕ := 11

/-- Everything about a block but its transactions; never pruned. -/
structure BlockMeta (F : Type) where
  height : ℕ
  prevHash : Hash32
  timestamp : ℕ
  difficultyTarget : CompactTarget
  cumulativeWork : F

/-- Who claimed a username, and where. -/
structure UsernameOwner where
  ownerPublicKey : Bytes 32
  claimedAtHeight : ℕ
  claimedInBlock : Hash32
deriving DecidableEq

/-- The view `username → owner`. -/
abbrev Owners := Table String UsernameOwner

/-- A trusted starting point for a chain that is not genesis. -/
structure Checkpoint (F : Type) where
  height : ℕ
  hash : Hash32
  timestamp : ℕ
  difficultyTarget : CompactTarget
  cumulativeWork : F
  usernameOwner : Owners

/-- What became of a block that was accepted. -/
inductive ApplyOutcome where
  | alreadyKnown
  | extendedTip
  | addedToFork
  | reorgedTo (newHeight : ℕ)
deriving DecidableEq

/-- The state of the chain from its floor up. -/
structure Chain (F : Type) where
  blocks : Table Hash32 Block
  metas : Table Hash32 (BlockMeta F)
  tipHash : Hash32
  canonicalIndex : Table ℕ Hash32
  usernameOwner : Owners
  floorHash : Hash32
  floorHeight : ℕ
  floorUsernameOwner : Owners

/-- What the transactions of a block bind when the block is replayed. -/
def Block.claims (b : Block) (hash : Hash32) : List (String × UsernameOwner) :=
  b.transactions.map fun tx =>
    (tx.username, { ownerPublicKey := tx.ownerPublicKey, claimedAtHeight := b.header.height.toNat, claimedInBlock := hash })

/-- `checked_sub` -/
def checkedSub (a b : ℕ) : Option ℕ := if b ≤ a then some (a - b) else none

/-- The metadata of genesis. -/
def genesisMeta (F : Type) [Float64 F] : BlockMeta F where
  height := 0
  prevHash := .zero
  timestamp := genesisTimestamp.toNat
  difficultyTarget := initialDifficultyBits
  cumulativeWork := Float64.ofInt 0

namespace Chain
variable {F : Type}

section
variable [Float64 F] [Primitives]

/-- A chain that holds genesis only. -/
def new : Chain F :=
  let genesis := Block.genesis
  let hash := genesis.hash
  { blocks := Table.empty.insert hash genesis
    metas := Table.empty.insert hash (genesisMeta F)
    tipHash := hash
    canonicalIndex := Table.empty.insert 0 hash
    usernameOwner := Table.empty
    floorHash := hash
    floorHeight := 0
    floorUsernameOwner := Table.empty }

end

/-- A chain that starts from a checkpoint, whose block needs no body. -/
def fromCheckpoint (checkpoint : Checkpoint F) : Chain F where
  blocks := Table.empty
  metas := Table.empty.insert checkpoint.hash
    { height := checkpoint.height, prevHash := .zero, timestamp := checkpoint.timestamp
      difficultyTarget := checkpoint.difficultyTarget, cumulativeWork := checkpoint.cumulativeWork }
  tipHash := checkpoint.hash
  canonicalIndex := Table.empty.insert checkpoint.height checkpoint.hash
  usernameOwner := checkpoint.usernameOwner
  floorHash := checkpoint.hash
  floorHeight := checkpoint.height
  floorUsernameOwner := checkpoint.usernameOwner

/-- The tip's height; indexing the map panics if the tip is unknown. -/
def tipHeight (c : Chain F) : Ledger ℕ := do
  let m ← Exec.expect (c.metas c.tipHash)
  return m.height

def canonicalBlockAt (c : Chain F) (height : ℕ) : Option Block := do
  let hash ← c.canonicalIndex height
  c.blocks hash

/-- How often the loop of `ancestors` can go round: heights fall by one at each turn, and the turn after
    the root finds no metadata. -/
def climbBound (c : Chain F) (hash : Hash32) : ℕ :=
  match c.metas hash with
  | none => 1
  | some m => m.height + 2

/-- The loop of `ancestors`. The source pushes each hash and reverses the path at the end. -/
def climb (c : Chain F) : ℕ → Hash32 → List Hash32 → Ledger (List Hash32)
  | 0, _, _ => .error .diverges
  | fuel + 1, current, path =>
    match c.metas current with
    | none => .error (.err (.unknownBlock current))
    | some m =>
      if current = c.floorHash then .ok (current :: path)
      else c.climb fuel m.prevHash (current :: path)

/-- The ancestry of `hash` back to the floor, floor first, `hash` last. -/
def ancestors (c : Chain F) (hash : Hash32) : Ledger (List Hash32) := c.climb (c.climbBound hash) hash []

/-- One turn of the replay in `state_at`. -/
def replayStep (c : Chain F) (state : Owners) (hash : Hash32) : Ledger Owners :=
  -- The floor's effects are already in the snapshot.
  if hash = c.floorHash then .ok state
  else do
    let block ← Exec.ofOption (c.blocks hash) (.unknownBlock hash)
    return state.insertAll (block.claims hash)

/-- The view `username → owner` as of `hash`: the floor snapshot, replayed forward. -/
def stateAt (c : Chain F) (hash : Hash32) : Ledger Owners := do
  let path ← c.ancestors hash
  path.foldlM c.replayStep c.floorUsernameOwner

/-- `self.meta[hash].timestamp` for each hash. -/
def timestamps (c : Chain F) : List Hash32 → Ledger (List ℕ)
  | [] => .ok []
  | hash :: hashes => do
    let m ← Exec.expect (c.metas hash)
    let rest ← c.timestamps hashes
    return m.timestamp :: rest

/-- The median timestamp of the last blocks up to `parent`. -/
def medianTimePast (c : Chain F) (parent : Hash32) : Ledger ℕ := do
  let ancestry ← c.ancestors parent
  let windowStart := ancestry.length - medianTimePastWindow
  let timestamps ← c.timestamps (ancestry.drop windowStart)
  let sorted := timestamps.insertionSort (· ≤ ·)
  Exec.expect sorted[sorted.length / 2]?

/-- The target a block that extends `parent` must have: unchanged, or retargeted on a boundary.
    The source subtracts the timestamps as `i64`. -/
def expectedDifficulty [Float64 F] (c : Chain F) (parent : Hash32) : Ledger CompactTarget := do
  let parentMeta ← Exec.ofOption (c.metas parent) (.unknownBlock parent)
  let newHeight := parentMeta.height + 1
  if newHeight % retargetIntervalBlocks ≠ 0 then
    return parentMeta.difficultyTarget
  else
    let intervalStartHeight := newHeight - retargetIntervalBlocks
    let ancestry ← c.ancestors parent
    let idx ← Exec.ofOption (checkedSub intervalStartHeight c.floorHeight) (.unknownBlock parent)
    let start ← Exec.expect ancestry[idx]?
    let intervalStartMeta ← Exec.expect (c.metas start)
    let actualSpan := max ((parentMeta.timestamp : ℤ) - intervalStartMeta.timestamp) 1
    let expectedSpan := (retargetIntervalBlocks : ℤ) * targetBlockTimeSecs
    return retarget F parentMeta.difficultyTarget actualSpan expectedSpan

/-- A checkpoint at a canonical height. -/
def checkpointAt (c : Chain F) (height : ℕ) : Ledger (Checkpoint F) := do
  let hash ← Exec.ofOption (c.canonicalIndex height) (.heightNotFound height)
  let m ← Exec.ofOption (c.metas hash) (.unknownBlock hash)
  let usernameOwner ← c.stateAt hash
  return { height := m.height, hash, timestamp := m.timestamp, difficultyTarget := m.difficultyTarget
           cumulativeWork := m.cumulativeWork, usernameOwner }

/-- A checkpoint at the tip. -/
def checkpointAtTip (c : Chain F) : Ledger (Checkpoint F) := do
  let m ← Exec.expect (c.metas c.tipHash)
  return { height := m.height, hash := c.tipHash, timestamp := m.timestamp, difficultyTarget := m.difficultyTarget
           cumulativeWork := m.cumulativeWork, usernameOwner := c.usernameOwner }

/-- Moves the floor up to a canonical `height` and drops the bodies at or below it. -/
def pruneBodiesUpTo (c : Chain F) (height : ℕ) : Chain F × Ledger Unit :=
  if height ≤ c.floorHeight then (c, .ok ())
  else
    match c.canonicalIndex height with
    | none => (c, .ok ())
    | some newFloorHash =>
      match c.stateAt newFloorHash with
      | .error e => (c, .error e)
      | .ok newFloorState =>
        ({ c with
            blocks := c.blocks.retain fun _ block => height < block.header.height.toNat
            floorUsernameOwner := newFloorState
            floorHash := newFloorHash
            floorHeight := height }, .ok ())

end Chain
end SpiritChat
