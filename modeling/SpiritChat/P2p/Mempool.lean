import SpiritChat.P2p.ChainSync

/-! # The mempool

Claims that no block is known to hold yet, and the handlers of the event loop that add to them, take from them or move
the chain under them. A miner's search runs elsewhere; here it only reports a block. -/

namespace SpiritChat
open Lib

section
variable {F : Type} [Primitives]

/-- `is_valid_for_mempool`: whether a transaction could be in a block on top of the tip. -/
def isValidForMempool (c : Chain F) (tx : Transaction) (candidateHeight : ℕ) : Ledger Bool :=
  match tx.verifySelfContained with
  | .error _ => .ok false
  | .ok () =>
    match c.ancestors c.tipHash with
    | .error (.err _) => .ok false
    | .error e => .error e
    | .ok ancestry =>
      if tx.anchorBlockHash ∉ ancestry then .ok false
      else
        match c.metas tx.anchorBlockHash with
        | none => .ok false
        | some anchorMeta =>
          if candidateHeight - anchorMeta.height > anchorMaxAgeBlocks then .ok false
          else
            match c.stateAt c.tipHash with
            | .error (.err _) => .ok false
            | .error e => .error e
            | .ok state => .ok (state tx.username).isNone

/-- `is_valid_candidate_transaction` -/
def ChainStore.isValidCandidateTransaction (s : ChainStore F) (tx : Transaction) (candidateHeight : ℕ) : Ledger Bool :=
  isValidForMempool s.chain tx candidateHeight

end

/-- What the handlers hand over besides the effects of a sync. -/
inductive LedgerEffect where
  | sync (e : Effect)
  | ledgerSubmissionRejected (reason : LedgerError)
  | newBlockMined (height : ℕ)
  | publishBlock (block : Block)
  | publishTransaction (tx : Transaction)

/-- What the event loop is woken by. A block comes with a reading of the clock and with what becomes of the write. -/
inductive LedgerEvent (F : Type) where
  | submitUsernameClaim (tx : Transaction)
  | submitMinedBlock (block : Block) (now : ℕ) (commit : Commit)
  | startMining (publicKey : Bytes 32)
  | stopMining
  | requestChainSync (peer : PeerId)
  | gossipedBlock (block : Block) (now : ℕ) (commit : Commit)
  | gossipedTransaction (tx : Transaction)
  | miningResult (generation : ℕ) (block : Block) (now : ℕ) (commit : Commit)
  | chainSyncResponse (requestId : ℕ) (response : ChainSyncResponse F) (now : ℕ → ℕ) (commit : ℕ → Commit)

namespace Node
variable {F : Type} [Float64 F] [Primitives]

def applyAndBroadcastBlock (n : Node F) (block : Block) (now : ℕ) (commit : Commit) :
    Node F × Ledger (Option ApplyOutcome × List LedgerEffect) :=
  match n.chainStore.tryApply block now commit with
  | (chainStore, .error (.err e)) => ({ n with chainStore }, .ok (none, [.ledgerSubmissionRejected e]))
  | (chainStore, .error e) => ({ n with chainStore }, .error e)
  | (chainStore, .ok .alreadyKnown) => ({ n with chainStore }, .ok (some .alreadyKnown, []))
  | (chainStore, .ok outcome) =>
    let mempool := n.mempool.removeAll (block.transactions.map Transaction.id)
    if outcome = .addedToFork then ({ n with chainStore, mempool }, .ok (some outcome, [.publishBlock block]))
    else
      match chainStore.chain.tipHeight with
      | .error e => ({ n with chainStore, mempool }, .error e)
      | .ok height =>
        ({ n with chainStore, mempool, mining := n.mining.restartIfActive },
          .ok (some outcome, [.publishBlock block, .sync (.event (.chainTipChanged height chainStore.chain.tipHash))]))

omit [Float64 F] in
/-- `Command::SubmitUsernameClaim` -/
def submitUsernameClaim (n : Node F) (tx : Transaction) : Node F × Ledger (List LedgerEffect) :=
  match tx.verifySelfContained with
  | .error (.err e) => (n, .ok [.ledgerSubmissionRejected e])
  | .error e => (n, .error e)
  | .ok () => ({ n with mempool := n.mempool.insert tx.id tx }, .ok [.publishTransaction tx])

omit [Float64 F] in
/-- A transaction of `handle_ledger_gossip_event`. -/
def gossipedTransaction (n : Node F) (tx : Transaction) : Node F :=
  match tx.verifySelfContained with
  | .error _ => n
  | .ok () => { n with mempool := n.mempool.insert tx.id tx, mining := n.mining.restartIfActive }

/-- A report of the miner, which counts only if its attempt is the current one. -/
def miningResult (n : Node F) (generation : ℕ) (block : Block) (now : ℕ) (commit : Commit) :
    Node F × Ledger (List LedgerEffect) :=
  if n.mining.active.map MiningState.generation ≠ some generation then (n, .ok [])
  else
    match n.applyAndBroadcastBlock block now commit with
    | (n', .error e) => (n', .error e)
    | (n', .ok (some .extendedTip, effects)) => (n', .ok (effects ++ [.newBlockMined block.header.height.toNat]))
    | (n', .ok (some (.reorgedTo _), effects)) => (n', .ok (effects ++ [.newBlockMined block.header.height.toNat]))
    | (n', .ok (_, effects)) => ({ n' with mining := n'.mining.restartIfActive }, .ok effects)

/-- One turn of the event loop. -/
def handle (n : Node F) : LedgerEvent F → Node F × Ledger (List LedgerEffect)
  | .submitUsernameClaim tx => n.submitUsernameClaim tx
  | .submitMinedBlock block now commit =>
    let (n', r) := n.applyAndBroadcastBlock block now commit
    (n', r.map Prod.snd)
  | .startMining publicKey => ({ n with mining := n.mining.start publicKey }, .ok [])
  | .stopMining => ({ n with mining := { n.mining with active := none } }, .ok [])
  | .requestChainSync peer =>
    let (n', e) := n.requestChainSync peer
    (n', .ok [.sync e])
  | .gossipedBlock block now commit =>
    let (n', r) := n.applyAndBroadcastBlock block now commit
    (n', r.map Prod.snd)
  | .gossipedTransaction tx => (n.gossipedTransaction tx, .ok [])
  | .miningResult generation block now commit => n.miningResult generation block now commit
  | .chainSyncResponse requestId response now commit =>
    let (n', r) := n.handleChainSyncResponse requestId response now commit
    (n', r.map (·.map .sync))

end Node
end SpiritChat
