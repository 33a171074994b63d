import SpiritChat.Ledger.Validation

/-! # Accepting a block -/

namespace SpiritChat
open Lib

namespace Chain
variable {F : Type}

/-- The entries of the canonical index for a path that starts at `floorHeight`. -/
def indexEntries (floorHeight : ℕ) (path : List Hash32) : List (ℕ × Hash32) :=
  path.zipIdx.map fun e => (floorHeight + e.2, e.1)

/-- Makes `hash` the canonical tip. The index is rewritten before the state is computed. -/
def setCanonicalTip (c : Chain F) (hash : Hash32) : Chain F × Ledger Unit :=
  match c.ancestors hash with
  | .error e => (c, .error e)
  | .ok ancestry =>
    let indexed := { c with canonicalIndex := Table.empty.insertAll (indexEntries c.floorHeight ancestry) }
    match indexed.stateAt hash with
    | .error e => (indexed, .error e)
    | .ok owners => ({ indexed with usernameOwner := owners, tipHash := hash }, .ok ())

/-- Stores the metadata and the body of a block under its hash. -/
def store (c : Chain F) (hash : Hash32) (m : BlockMeta F) (b : Block) : Chain F :=
  { c with metas := c.metas.insert hash m, blocks := c.blocks.insert hash b }

variable [Float64 F] [Primitives]

/-- The metadata of a block on top of its parent's. -/
def childMeta (parentMeta : BlockMeta F) (b : Block) : BlockMeta F where
  height := b.header.height.toNat
  prevHash := b.header.prevHash
  timestamp := b.header.timestamp.toNat
  difficultyTarget := b.header.difficultyTarget
  cumulativeWork := parentMeta.cumulativeWork + workOf b.header.difficultyTarget

/-- The fork choice of `try_apply`, on a chain that already holds the block. -/
def chooseTip (c : Chain F) (b : Block) (m : BlockMeta F) : Chain F × Ledger ApplyOutcome :=
  match c.metas c.tipHash with
  | none => (c, .error .panic)
  | some tipMeta =>
    if m.cumulativeWork ≤ tipMeta.cumulativeWork then (c, .ok .addedToFork)
    else
      let extendedTip := b.header.prevHash = c.tipHash
      match c.setCanonicalTip b.hash with
      | (c', .error e) => (c', .error e)
      | (c', .ok ()) => (c', .ok (if extendedTip then .extendedTip else .reorgedTo m.height))

/-- Validates and, if valid, accepts `b`. -/
def tryApply (c : Chain F) (b : Block) (now : ℕ) : Chain F × Ledger ApplyOutcome :=
  if (c.metas b.hash).isSome then (c, .ok .alreadyKnown)
  else
    match validateBlock c b now with
    | .error e => (c, .error e)
    | .ok () =>
      match c.metas b.header.prevHash with
      -- `expect("validate_block already confirmed the parent is known")`
      | none => (c, .error .panic)
      | some parentMeta =>
        let m := childMeta parentMeta b
        (c.store b.hash m b).chooseTip b m

end Chain
end SpiritChat
