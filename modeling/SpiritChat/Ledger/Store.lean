import SpiritChat.Ledger.Apply

/-! # The durable chain

A chain with a database file beside it. The tables hold decoded values. Every write goes through one
transaction, whose commit is given by the caller of the model: it succeeds, or it fails with the reason
reported by the database and leaves the file as it was. -/

namespace SpiritChat
open Lib

def retentionWindowBlocks : ℕ := 2016

/-- The content of the database file. -/
structure Disk (F : Type) where
  /-- `BLOCKS` -/
  blocks : Table Hash32 Block
  /-- `HEADERS` -/
  headers : Table Hash32 (BlockMeta F)
  /-- `CANONICAL_HEIGHTS` -/
  canonicalHeights : Table ℕ Hash32
  /-- `SINGLETON`, key `tip_hash` -/
  tipHash : Option Hash32
  /-- `SINGLETON`, key `checkpoint` -/
  checkpoint : Option (Checkpoint F)
  /-- `SINGLETON`, key `canonical_max_height` -/
  canonicalMaxHeight : Option ℕ

/-- A new file. -/
def Disk.empty {F : Type} : Disk F := ⟨Table.empty, Table.empty, Table.empty, none, none, none⟩

/-- What becomes of a write transaction. -/
abbrev Commit := Except String Unit

/-- The writes of a transaction, if it commits. -/
def Disk.commit {F : Type} (disk written : Disk F) : Commit → Disk F × Ledger Unit
  | .ok () => (written, .ok ())
  | .error reason => (disk, .error (.err (.storage reason)))

/-- The chain in memory and its file. -/
structure ChainStore (F : Type) where
  disk : Disk F
  chain : Chain F

section
variable {F : Type} [Float64 F] [Primitives]

/-- One block of the replay in `restore`, at the clock of its own timestamp. -/
def Chain.replayBlock (c : Chain F) (block : Block) : Ledger (Chain F) :=
  match c.tryApply block block.header.timestamp.toNat with
  | (_, .error e) => .error e
  | (c', .ok _) => .ok c'

namespace Disk

/-- The loop of `restore`. It ends at the first height without an entry. -/
def replayFrom (disk : Disk F) : ℕ → Chain F → ℕ → Ledger (Chain F)
  | 0, _, _ => .error .diverges
  | fuel + 1, chain, height =>
    match disk.canonicalHeights height with
    | none => .ok chain
    | some hash => do
      let block ← Exec.ofOption (disk.blocks hash) (.unknownBlock hash)
      let chain' ← chain.replayBlock block
      disk.replayFrom fuel chain' (height + 1)

/-- Where `restore` starts from. -/
def start (disk : Disk F) : Chain F :=
  match disk.checkpoint with
  | some checkpoint => .fromCheckpoint checkpoint
  | none => .new

/-- Rebuilds the chain from the last checkpoint and the canonical blocks above it. No entry is above the
    greatest recorded height, which bounds the turns of the loop. -/
def restore (disk : Disk F) : Ledger (Chain F) :=
  disk.replayFrom (disk.canonicalMaxHeight.getD 0 + 2) disk.start (disk.start.floorHeight + 1)

/-- What `persist_after_apply` writes for the block `hash`. -/
def persisted (disk : Disk F) (chain : Chain F) (hash : Hash32) (block : Block) (m : BlockMeta F)
    (canonicalHashes : List Hash32) (newTipHeight : ℕ) : Disk F :=
  let previousMaxHeight := disk.canonicalMaxHeight.getD 0
  let heights := disk.canonicalHeights.insertAll (Chain.indexEntries chain.floorHeight canonicalHashes)
  { disk with
    blocks := disk.blocks.insert hash block
    headers := disk.headers.insert hash m
    -- A reorg onto a shorter branch leaves stale entries above the new tip.
    canonicalHeights := heights.removeAll (List.range' (newTipHeight + 1) (previousMaxHeight - newTipHeight))
    canonicalMaxHeight := some (max newTipHeight previousMaxHeight)
    tipHash := some chain.tipHash }

end Disk

namespace ChainStore

/-- Writes a block that was just accepted, the canonical index and the tip. -/
def persistAfterApply (s : ChainStore F) (block : Block) (commit : Commit) : ChainStore F × Ledger Unit :=
  let write : Ledger (Disk F) := do
    let m ← Exec.expect (s.chain.metas block.hash)
    -- `expect("tip is always known")`
    let canonicalHashes ← match s.chain.ancestors s.chain.tipHash with
      | .error .diverges => .error .diverges
      | .error _ => .error .panic
      | .ok path => .ok path
    let newTipHeight ← s.chain.tipHeight
    return s.disk.persisted s.chain block.hash block m canonicalHashes newTipHeight
  match write with
  | .error e => (s, .error e)
  | .ok written =>
    let (disk, r) := s.disk.commit written commit
    ({ s with disk }, r)

/-- `ChainStore::open` on a file. Its writes are the creation of the tables and, in a new file, genesis. -/
def openAt (disk : Disk F) (tables genesis : Commit) : Ledger (ChainStore F) :=
  match disk.commit disk tables with
  | (_, .error e) => .error e
  | (disk, .ok ()) =>
    match disk.tipHash with
    | some _ => do
      let chain ← disk.restore
      return { disk, chain }
    | none =>
      match ({ disk, chain := .new } : ChainStore F).persistAfterApply Block.genesis genesis with
      | (_, .error e) => .error e
      | (s, .ok ()) => .ok s

/-- Validates a block and accepts it durably. -/
def tryApply (s : ChainStore F) (block : Block) (now : ℕ) (commit : Commit) : ChainStore F × Ledger ApplyOutcome :=
  match s.chain.tryApply block now with
  | (chain, .error e) => ({ s with chain }, .error e)
  | (chain, .ok .alreadyKnown) => ({ s with chain }, .ok .alreadyKnown)
  | (chain, .ok outcome) =>
    match ({ s with chain } : ChainStore F).persistAfterApply block commit with
    | (s', .error e) => (s', .error e)
    | (s', .ok ()) => (s', .ok outcome)

omit [Float64 F] [Primitives] in
/-- The second half of `prune_with_retention`: the bodies go, in memory and then on disk. -/
def dropBodies (s : ChainStore F) (newFloorHeight : ℕ) (commit : Commit) : ChainStore F × Ledger Unit :=
  match s.chain.pruneBodiesUpTo newFloorHeight with
  | (chain, .error e) => ({ s with chain }, .error e)
  | (chain, .ok ()) =>
    let kept := s.disk.blocks.retain fun _ block => newFloorHeight < block.header.height.toNat
    let (disk, r) := s.disk.commit { s.disk with blocks := kept } commit
    ({ disk, chain }, r)

omit [Float64 F] [Primitives] in
/-- Saves a checkpoint `retention` blocks behind the tip and then drops the bodies up to it. The two writes
    are two transactions. -/
def pruneWithRetention (s : ChainStore F) (retention : ℕ) (commit₁ commit₂ : Commit) : ChainStore F × Ledger Unit :=
  match s.chain.tipHeight with
  | .error e => (s, .error e)
  | .ok tipHeight =>
    match checkedSub tipHeight retention with
    | none => (s, .ok ())
    | some newFloorHeight =>
      if newFloorHeight ≤ s.chain.floorHeight then (s, .ok ())
      else
        match s.chain.checkpointAt newFloorHeight with
        | .error e => (s, .error e)
        | .ok checkpoint =>
          match s.disk.commit { s.disk with checkpoint := some checkpoint } commit₁ with
          | (disk, .error e) => ({ s with disk }, .error e)
          | (disk, .ok ()) => ({ s with disk } : ChainStore F).dropBodies newFloorHeight commit₂

omit [Float64 F] [Primitives] in
def prune (s : ChainStore F) (commit₁ commit₂ : Commit) : ChainStore F × Ledger Unit :=
  s.pruneWithRetention retentionWindowBlocks commit₁ commit₂

end ChainStore
end
end SpiritChat
