import SpiritChat.P2p.Mempool

/-! # Mining

The candidate on top of the tip, assembled from the mempool, and the search for its nonce. The search runs on a
thread of its own, so it is given the readings of the clock and of the stop flag. -/

namespace SpiritChat
open Lib

/-- `CHECK_INTERVAL` -/
def checkInterval : ℕ := 50000

/-- `values()` of a mempool, in whatever order the map gives them. -/
structure Values [Primitives] (mempool : Table Hash32 Transaction) (values : List Transaction) : Prop where
  keyed : (values.map Transaction.id).Nodup
  mem_iff : ∀ tx, tx ∈ values ↔ mempool tx.id = some tx

/-- `Result::ok`: what panics or does not end still does. -/
def settled {α : Type} : Ledger α → Ledger (Option α)
  | .ok a => .ok (some a)
  | .error (.err _) => .ok none
  | .error .panic => .error .panic
  | .error .diverges => .error .diverges

section
variable {F : Type} [Primitives]

namespace ChainStore

def expectedDifficulty [Float64 F] (s : ChainStore F) : Ledger CompactTarget :=
  s.chain.expectedDifficulty s.chain.tipHash

omit [Primitives] in
def medianTimePast (s : ChainStore F) : Ledger ℕ := s.chain.medianTimePast s.chain.tipHash

/-- The loop over the sorted mempool. A username counts as taken from the first transaction that names it on,
whether that one is kept or not. -/
def selectTransactions (s : ChainStore F) (height : ℕ) :
    List Transaction → List Transaction → List String → Ledger (List Transaction)
  | [], selected, _ => .ok selected
  | tx :: candidates, selected, usernames =>
    if maxTxsPerBlock ≤ selected.length then .ok selected
    else if tx.username ∈ usernames then s.selectTransactions height candidates selected usernames
    else do
      let valid ← s.isValidCandidateTransaction tx height
      s.selectTransactions height candidates (if valid then selected ++ [tx] else selected) (tx.username :: usernames)

/-- What is handed to the search: a block whose nonce is still to be found. Heights and timestamps are back in
`u64` here. -/
def candidate [Float64 F] (s : ChainStore F) (values : List Transaction) (publicKey : Bytes 32) (now : UInt64) :
    Ledger (Option Block) := do
  let difficultyTarget ← settled s.expectedDifficulty
  let medianTimePast ← settled s.medianTimePast
  match difficultyTarget, medianTimePast with
  | some difficultyTarget, some medianTimePast =>
    let tipHeight ← s.chain.tipHeight
    let height := tipHeight + 1
    let candidates := values.insertionSort fun a b => a.id ≤ b.id
    let selected ← s.selectTransactions height candidates [] []
    return some
      { header :=
          { version := 1, height := UInt64.ofNat height, prevHash := s.chain.tipHash
            timestamp := max now (UInt64.ofNat (medianTimePast + 1))
            txCommitment := Block.computeTxCommitment selected, difficultyTarget, nonce := 0
            minerPublicKey := publicKey }
        transactions := selected }
  | _, _ => return none

end ChainStore

/-- The loop of `mine`, for so many attempts. At its `n`th check it reads `stop n` and `now n`; no block is found
before it is stopped or gives up here. -/
def mineFrom (target : Hash32) (stop : ℕ → Bool) (now : ℕ → UInt64) : ℕ → ℕ → Block → Option Block
  | 0, _, _ => none
  | fuel + 1, attempts, b =>
    if b.hash.meetsTarget target then some b
    else
      let tried : Block := { b with header := { b.header with nonce := b.header.nonce + 1 } }
      let attempts := attempts + 1
      if attempts % checkInterval ≠ 0 then mineFrom target stop now fuel attempts tried
      else
        let check := attempts / checkInterval
        if stop check then none
        else mineFrom target stop now fuel attempts
          { tried with header := { tried.header with timestamp := max tried.header.timestamp (now check) } }

def mine (b : Block) (stop : ℕ → Bool) (now : ℕ → UInt64) (fuel : ℕ) : Option Block :=
  mineFrom (expandTarget b.header.difficultyTarget) stop now fuel 0 b

/-- What an attempt reports within so many tries, if anything. `now 0` is the reading the candidate is made with. -/
def spawnMiningAttempt [Float64 F] (s : ChainStore F) (values : List Transaction) (publicKey : Bytes 32)
    (stop : ℕ → Bool) (now : ℕ → UInt64) (fuel : ℕ) : Ledger (Option Block) := do
  match ← s.candidate values publicKey (now 0) with
  | none => return none
  | some b => return mine b stop now fuel

/-! ### The searches of a node -/

/-- A search on a thread of its own: the block it was handed, and what that was assembled from. -/
structure Attempt (F : Type) where
  generation : ℕ
  chainStore : ChainStore F
  mempool : Table Hash32 Transaction
  candidate : Block

/-- A node with the searches that have not ended and the queue of what the others reported. -/
structure Miner (F : Type) where
  node : Node F
  searching : List (Attempt F)
  results : List (Attempt F × Block)

omit [Primitives] in
/-- The searches whose block is still to be found, or to be taken from the queue. -/
def Miner.attempts (m : Miner F) : List (Attempt F) := m.searching ++ m.results.map Prod.fst

/-- After an event that left `node`. A handler that calls `start` does so last, so the search is handed a block
assembled from what the handler leaves. -/
def Miner.proceed [Float64 F] (m : Miner F) (node : Node F) (values : List Transaction) (now : UInt64) : Ledger (Miner F) :=
  if node.mining.nextGeneration = m.node.mining.nextGeneration then .ok { m with node }
  else
    match node.mining.active with
    | none => .ok { m with node }
    | some state => do
      let candidate ← node.chainStore.candidate values state.publicKey now
      return { m with
        node
        searching := (candidate.map fun b => ⟨state.generation, node.chainStore, node.mempool, b⟩).toList ++ m.searching }

end
end SpiritChat
