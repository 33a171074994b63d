import SpiritChat.Ledger.ChainState

/-! # Validation

Every rule a block must satisfy, as a function of the chain, the block and the clock. -/

namespace SpiritChat
open Lib

def anchorMaxAgeBlocks : ℕ := 144

def maxFutureDriftSecs : ℕ := 2 * 60 * 60

section
variable {F : Type} [Primitives]

/-- One turn of the loop over a block's transactions; `claimed` holds the usernames seen so far. -/
def validateTransaction (c : Chain F) (b : Block) (parentState : Owners) (ancestry : List Hash32)
    (claimed : List String) (tx : Transaction) : Ledger (List String) := do
  tx.verifySelfContained
  if tx.anchorBlockHash ∉ ancestry then .error (.err .anchorInvalid)
  else
    let anchorMeta ← Exec.ofOption (c.metas tx.anchorBlockHash) .anchorInvalid
    if b.header.height.toNat - anchorMeta.height > anchorMaxAgeBlocks then .error (.err .anchorInvalid)
    else if (parentState tx.username).isSome then .error (.err (.usernameAlreadyClaimed tx.username))
    else if tx.username ∈ claimed then .error (.err (.duplicateClaimInBlock tx.username))
    else .ok (tx.username :: claimed)

def validateTransactions (c : Chain F) (b : Block) : Ledger Unit :=
  if b.transactions = [] then .ok ()
  else do
    let parentState ← c.stateAt b.header.prevHash
    let ancestry ← c.ancestors b.header.prevHash
    let _ ← b.transactions.foldlM (validateTransaction c b parentState ancestry) []
    return ()

def validateBlock [Float64 F] (c : Chain F) (b : Block) (now : ℕ) : Ledger Unit :=
  if b.transactions.length > maxTxsPerBlock then
    .error (.err (.tooManyTransactions b.transactions.length maxTxsPerBlock))
  else if b.approxSizeBytes > maxBlockBytes then .error (.err (.blockTooLarge b.approxSizeBytes maxBlockBytes))
  else if b.header.txCommitment ≠ Block.computeTxCommitment b.transactions then .error (.err .txCommitmentMismatch)
  else do
    let parentMeta ← Exec.ofOption (c.metas b.header.prevHash) (.unknownParent b.header.prevHash)
    if b.header.height.toNat ≠ parentMeta.height + 1 then
      .error (.err (.heightMismatch parentMeta.height b.header.height.toNat))
    else
      let expectedTarget ← c.expectedDifficulty b.header.prevHash
      if b.header.difficultyTarget ≠ expectedTarget then
        .error (.err (.difficultyMismatch b.header.height.toNat))
      else if !b.hash.meetsTarget (expandTarget expectedTarget) then .error (.err .proofOfWorkInvalid)
      else
        let medianTimePast ← c.medianTimePast b.header.prevHash
        if b.header.timestamp.toNat ≤ medianTimePast then .error (.err .timestampTooOld)
        else if b.header.timestamp.toNat > now + maxFutureDriftSecs then .error (.err .timestampTooFarInFuture)
        else validateTransactions c b

end
end SpiritChat
