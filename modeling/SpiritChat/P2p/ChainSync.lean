import SpiritChat.Ledger.Store

/-! # Catching up with a peer

A node asks a peer for its tip and, if that is heavier than its own, for the blocks above its own height. A
handler is given the readings of the clock and what becomes of the writes, one for each block in turn. -/

namespace SpiritChat
open Lib

def maxSyncBatch : ℕ := 500

/-- The difference of two `u64`s, which wraps around below zero. -/
def wrappingSub (a b : ℕ) : ℕ := (a + 2 ^ 64 - b) % 2 ^ 64

/-- The bytes of a peer's identity. -/
abbrev PeerId := List UInt8

/-- What a node asks of a peer. -/
inductive ChainSyncRequest where
  | getTip
  | getBlocks (fromHeight count : ℕ)
  | getHeaders (fromHeight count : ℕ)
  | getUsernameOwnerSnapshot

/-- What a peer answers. -/
inductive ChainSyncResponse (F : Type) where
  | tip (height : ℕ) (hash : Hash32) (cumulativeWork : F)
  | blocks (blocks : List Block)
  | headers (headers : List BlockHeader)
  | usernameOwnerSnapshot (checkpoint : Checkpoint F)
  | notAvailable

/-- Why a sync failed: a fixed text, or the text of an error of the ledger. -/
inductive SyncFailure where
  | text (reason : String)
  | ledger (e : LedgerError)

/-- The events of a sync. -/
inductive P2pEvent where
  | chainTipChanged (height : ℕ) (hash : Hash32)
  | chainSyncCompleted (height : ℕ)
  | chainSyncFailed (peer : PeerId) (reason : SyncFailure)

/-- What a handler hands over: an event to the app, a request to the swarm. -/
inductive Effect where
  | event (e : P2pEvent)
  | send (peer : PeerId) (requestId : ℕ) (request : ChainSyncRequest)

/-- The requests of syncs that have not been answered. The swarm never gives out an identifier twice. -/
structure Pending where
  nextRequestId : ℕ
  chainSyncTip : Table ℕ PeerId
  chainSyncBlocks : Table ℕ PeerId
  fresh : ∀ id, nextRequestId ≤ id → chainSyncTip id = none ∧ chainSyncBlocks id = none

namespace Pending

def empty : Pending := ⟨0, Table.empty, Table.empty, fun _ _ => ⟨rfl, rfl⟩⟩

/-- `chain_sync_tip.insert` under the identifier of a new request. -/
def awaitTip (p : Pending) (peer : PeerId) : Pending where
  nextRequestId := p.nextRequestId + 1
  chainSyncTip := p.chainSyncTip.insert p.nextRequestId peer
  chainSyncBlocks := p.chainSyncBlocks
  fresh := fun id h => ⟨(Table.insert_of_ne (by omega)).trans (p.fresh id (by omega)).1, (p.fresh id (by omega)).2⟩

/-- `chain_sync_blocks.insert` under the identifier of a new request. -/
def awaitBlocks (p : Pending) (peer : PeerId) : Pending where
  nextRequestId := p.nextRequestId + 1
  chainSyncTip := p.chainSyncTip
  chainSyncBlocks := p.chainSyncBlocks.insert p.nextRequestId peer
  fresh := fun id h => ⟨(p.fresh id (by omega)).1, (Table.insert_of_ne (by omega)).trans (p.fresh id (by omega)).2⟩

theorem remove_eq_none {t : Table ℕ PeerId} {k id : ℕ} (h : t id = none) : t.remove k id = none := by
  rw [Table.remove_apply, h, ite_self]

/-- `chain_sync_tip.remove` -/
def removeTip (p : Pending) (id : ℕ) : Pending where
  nextRequestId := p.nextRequestId
  chainSyncTip := p.chainSyncTip.remove id
  chainSyncBlocks := p.chainSyncBlocks
  fresh := fun k h => ⟨remove_eq_none (p.fresh k h).1, (p.fresh k h).2⟩

@[simp] theorem removeTip_nextRequestId (p : Pending) (id : ℕ) : (p.removeTip id).nextRequestId = p.nextRequestId := rfl

@[simp] theorem awaitTip_nextRequestId (p : Pending) (peer : PeerId) :
    (p.awaitTip peer).nextRequestId = p.nextRequestId + 1 := rfl

/-- `chain_sync_blocks.remove` -/
def removeBlocks (p : Pending) (id : ℕ) : Pending where
  nextRequestId := p.nextRequestId
  chainSyncTip := p.chainSyncTip
  chainSyncBlocks := p.chainSyncBlocks.remove id
  fresh := fun k h => ⟨(p.fresh k h).1, remove_eq_none (p.fresh k h).2⟩

end Pending

/-- Mining that is switched on, for a key, and the number of its current search. -/
structure MiningState where
  publicKey : Bytes 32
  generation : ℕ

/-- What the event loop knows of mining. -/
structure Mining where
  active : Option MiningState
  nextGeneration : ℕ

/-- The search for a nonce runs on a thread of its own and reports its block under its generation. -/
def Mining.start (m : Mining) (publicKey : Bytes 32) : Mining where
  active := some ⟨publicKey, m.nextGeneration + 1⟩
  nextGeneration := m.nextGeneration + 1

def Mining.restartIfActive (m : Mining) : Mining :=
  match m.active with
  | some state => m.start state.publicKey
  | none => m

/-- The part of a node that a sync reads and writes. -/
structure Node (F : Type) where
  chainStore : ChainStore F
  pending : Pending
  mempool : Table Hash32 Transaction
  mining : Mining

/-- A node that has just started on a store. -/
def Node.start {F : Type} (chainStore : ChainStore F) : Node F := ⟨chainStore, .empty, Table.empty, ⟨none, 0⟩⟩

section
variable {F : Type}

/-- `tip_cumulative_work`, which expects that the tip is known. -/
def ChainStore.tipCumulativeWork (s : ChainStore F) : Ledger F := do
  let m ← Exec.expect (s.chain.metas s.chain.tipHash)
  return m.cumulativeWork

/-- The heights that `GetBlocks` is answered for. The end of the range is a saturating sum. -/
def servedHeights (fromHeight count : ℕ) : List ℕ :=
  let stop := min (fromHeight + min count maxSyncBatch) (2 ^ 64 - 1)
  List.range' fromHeight (stop - fromHeight)

def buildChainSyncResponse (chainStore : ChainStore F) : ChainSyncRequest → Ledger (ChainSyncResponse F)
  | .getTip => do
    let height ← chainStore.chain.tipHeight
    let cumulativeWork ← chainStore.tipCumulativeWork
    return .tip height chainStore.chain.tipHash cumulativeWork
  | .getBlocks fromHeight count =>
    .ok (((servedHeights fromHeight count).mapM chainStore.chain.canonicalBlockAt).elim .notAvailable .blocks)
  | .getHeaders _ _ => .ok .notAvailable
  | .getUsernameOwnerSnapshot => do
    let checkpoint ← chainStore.chain.checkpointAtTip
    return .usernameOwnerSnapshot checkpoint

variable [Float64 F] [Primitives]

/-- The loop over the blocks of a response. It stops at the first that is refused. -/
def ChainStore.applyBlocks (s : ChainStore F) (mempool : Table Hash32 Transaction) (now : ℕ → ℕ) (commit : ℕ → Commit) :
    List Block → ChainStore F × Table Hash32 Transaction × Ledger Unit
  | [] => (s, mempool, .ok ())
  | block :: blocks =>
    let mempool := mempool.removeAll (block.transactions.map Transaction.id)
    match s.tryApply block (now 0) (commit 0) with
    | (s', .error e) => (s', mempool, .error e)
    | (s', .ok _) => s'.applyBlocks mempool (fun i => now (i + 1)) (fun i => commit (i + 1)) blocks

namespace Node

/-- `Command::RequestChainSync` -/
def requestChainSync (n : Node F) (peer : PeerId) : Node F × Effect :=
  ({ n with pending := n.pending.awaitTip peer }, .send peer n.pending.nextRequestId .getTip)

omit [Primitives] in
/-- The first half of `handle_chain_sync_response`: the answer to `GetTip`. -/
def handleTip (n : Node F) (peer : PeerId) (response : ChainSyncResponse F) : Ledger (Pending × List Effect) :=
  match response with
  | .tip height _ cumulativeWork => do
    let tipCumulativeWork ← n.chainStore.tipCumulativeWork
    let tipHeight ← n.chainStore.chain.tipHeight
    if cumulativeWork ≤ tipCumulativeWork then
      return (n.pending, [.event (.chainSyncCompleted tipHeight)])
    else
      let fromHeight := tipHeight + 1
      let count := min (wrappingSub height tipHeight) maxSyncBatch
      return (n.pending.awaitBlocks peer, [.send peer n.pending.nextRequestId (.getBlocks fromHeight count)])
  | _ => .ok (n.pending, [.event (.chainSyncFailed peer (.text "peer gave a malformed tip response"))])

/-- The second half of `handle_chain_sync_response`: the answer to `GetBlocks`. -/
def handleBlocks (n : Node F) (peer : PeerId) (response : ChainSyncResponse F) (now : ℕ → ℕ) (commit : ℕ → Commit) :
    Node F × Ledger (List Effect) :=
  match response with
  | .blocks blocks =>
    let tipBefore := n.chainStore.chain.tipHash
    match n.chainStore.applyBlocks n.mempool now commit blocks with
    | (chainStore, mempool, .error (.err e)) =>
      ({ n with chainStore, mempool }, .ok [.event (.chainSyncFailed peer (.ledger e))])
    | (chainStore, mempool, .error e) => ({ n with chainStore, mempool }, .error e)
    | (chainStore, mempool, .ok ()) =>
      match chainStore.chain.tipHeight with
      | .error e => ({ n with chainStore, mempool }, .error e)
      | .ok height =>
        let tipHash := chainStore.chain.tipHash
        let mining := if tipHash ≠ tipBefore then n.mining.restartIfActive else n.mining
        ({ n with chainStore, mempool, mining },
          .ok [.event (.chainTipChanged height tipHash), .event (.chainSyncCompleted height)])
  | _ =>
    (n, .ok [.event (.chainSyncFailed peer (.text "peer had no blocks available for this range"))])

def handleChainSyncResponse (n : Node F) (requestId : ℕ) (response : ChainSyncResponse F) (now : ℕ → ℕ)
    (commit : ℕ → Commit) : Node F × Ledger (List Effect) :=
  match n.pending.chainSyncTip requestId with
  | some peer =>
    let n' := { n with pending := n.pending.removeTip requestId }
    match n'.handleTip peer response with
    | .error e => (n', .error e)
    | .ok (pending, effects) => ({ n' with pending }, .ok effects)
  | none =>
    match n.pending.chainSyncBlocks requestId with
    | some peer =>
      ({ n with pending := n.pending.removeBlocks requestId } : Node F).handleBlocks peer response now commit
    | none => (n, .ok [])

/-- One round with a peer whose store does not change: each request sent is answered from it. -/
def syncRound (n : Node F) (peer : PeerId) (peerStore : ChainStore F) (now : ℕ → ℕ) (commit : ℕ → Commit) :
    Node F × Ledger (List Effect) :=
  let n₁ := (n.requestChainSync peer).1
  match buildChainSyncResponse peerStore .getTip with
  | .error e => (n₁, .error e)
  | .ok tip =>
    match n₁.handleChainSyncResponse n.pending.nextRequestId tip now commit with
    | (n₂, .ok [.send _ requestId request]) =>
      match buildChainSyncResponse peerStore request with
      | .error e => (n₂, .error e)
      | .ok blocks => n₂.handleChainSyncResponse requestId blocks now commit
    | r => r

end Node
end
end SpiritChat
