import SpiritChat.P2p.Mempool
import SpiritChat.Theorems.BlockTree
import SpiritChat.Theorems.Mirror

/-! # What becomes of a claim

A claim that entered the mempool stays there until a block with it comes. If that block is on the canonical chain, the
username has an owner and the claim is no longer valid. -/

namespace SpiritChat
open Lib

/-- What a run does to the mempool. -/
inductive PoolNote where
  | entered (tx : Transaction)
  /-- the block is new and `try_apply` took it -/
  | accepted (block : Block)
  /-- a block of a sync batch that `try_apply` did not take, or knew before -/
  | notAccepted (block : Block)

section
variable [Primitives]

/-- The note is of a block with a transaction of this id. -/
def PoolNote.Holds (id : Hash32) : PoolNote → Prop
  | .entered _ => False
  | .accepted block => id ∈ block.transactions.map Transaction.id
  | .notAccepted block => id ∈ block.transactions.map Transaction.id

variable {F : Type} [Float64 F]

/-- The blocks that an event brings. -/
def LedgerEvent.blocks : LedgerEvent F → List Block
  | .submitMinedBlock block _ _ | .gossipedBlock block _ _ | .miningResult _ block _ _ => [block]
  | .chainSyncResponse _ (.blocks blocks) _ _ => blocks
  | _ => []

/-- What the loop over a batch does, the last block first. -/
def ChainStore.syncNotes (s : ChainStore F) (now : ℕ → ℕ) (commit : ℕ → Commit) : List Block → List PoolNote
  | [] => []
  | block :: blocks =>
    match s.tryApply block (now 0) (commit 0) with
    | (_, .error _) => [.notAccepted block]
    | (s', .ok .alreadyKnown) =>
      s'.syncNotes (fun i => now (i + 1)) (fun i => commit (i + 1)) blocks ++ [.notAccepted block]
    | (s', .ok _) => s'.syncNotes (fun i => now (i + 1)) (fun i => commit (i + 1)) blocks ++ [.accepted block]

namespace Node

def blockNotes (n : Node F) (block : Block) (now : ℕ) (commit : Commit) : List PoolNote :=
  match (n.chainStore.tryApply block now commit).2 with
  | .error _ => []
  | .ok .alreadyKnown => []
  | .ok _ => [.accepted block]

omit [Float64 F] in
def transactionNotes (tx : Transaction) : List PoolNote :=
  match tx.verifySelfContained with
  | .error _ => []
  | .ok () => [.entered tx]

def resultNotes (n : Node F) (generation : ℕ) (block : Block) (now : ℕ) (commit : Commit) : List PoolNote :=
  if n.mining.active.map MiningState.generation ≠ some generation then [] else n.blockNotes block now commit

def batchNotes (n : Node F) (requestId : ℕ) (response : ChainSyncResponse F) (now : ℕ → ℕ) (commit : ℕ → Commit) :
    List PoolNote :=
  match n.pending.chainSyncTip requestId, n.pending.chainSyncBlocks requestId, response with
  | none, some _, .blocks blocks => n.chainStore.syncNotes now commit blocks
  | _, _, _ => []

/-- What an event does, the last first. -/
def notes (n : Node F) : LedgerEvent F → List PoolNote
  | .submitUsernameClaim tx => transactionNotes tx
  | .gossipedTransaction tx => transactionNotes tx
  | .submitMinedBlock block now commit => n.blockNotes block now commit
  | .gossipedBlock block now commit => n.blockNotes block now commit
  | .miningResult generation block now commit => n.resultNotes generation block now commit
  | .chainSyncResponse requestId response now commit => n.batchNotes requestId response now commit
  | .startMining _ | .stopMining | .requestChainSync _ => []

/-- A run of the event loop on a store that was opened before, with its history. -/
inductive EventLoop (F : Type) [Float64 F] : Hash32 → Node F → List PoolNote → Prop
  | start {root : Hash32} {s : ChainStore F} (hs : Chain.Reachable root s.chain) : EventLoop F root (.start s) []
  | step {root : Hash32} {n : Node F} {history : List PoolNote} (h : EventLoop F root n history) (e : LedgerEvent F)
      (hz : ∀ b ∈ e.blocks, b.hash ≠ .zero) : EventLoop F root (n.handle e).1 (n.notes e ++ history)

end Node

/-! ### What a run knows of its claims -/

variable {root : Hash32} {c c' : Chain F} {mempool : Table Hash32 Transaction} {history : List PoolNote} {b : Block}
  {s : ChainStore F} {n : Node F} {tx : Transaction} {now : ℕ} {commit : Commit}

/-- The block was taken into the chain, above its floor. -/
structure Chain.Took (c : Chain F) (b : Block) : Prop where
  body : c.blocks b.hash = some b
  height : c.floorHeight < b.header.height.toNat
  size : ∀ tx ∈ b.transactions, tx.canonicalBytes.length ≤ maxBlockBytes

/-- The invariant of the event loop. -/
structure PoolInv (root : Hash32) (c : Chain F) (mempool : Table Hash32 Transaction) (history : List PoolNote) : Prop where
  chain : Chain.Inv root c
  accepted : ∀ b, .accepted b ∈ history → c.Took b
  keyed : ∀ k tx, mempool k = some tx → tx.id = k ∧ .entered tx ∈ history
  kept : ∀ after tx before, history = after ++ .entered tx :: before →
    (mempool tx.id).isSome ∨ ∃ note ∈ after, note.Holds tx.id

namespace PoolInv

omit [Primitives] [Float64 F] in
/-- The newest note of a history, or an older one. -/
theorem split_cons {note x : PoolNote} {after before : List PoolNote} (h : note :: history = after ++ x :: before) :
    (after = [] ∧ note = x) ∨ ∃ after', after = note :: after' ∧ history = after' ++ x :: before := by
  cases after with
  | nil => exact .inl ⟨rfl, (List.cons.inj h).1⟩
  | cons y after' =>
    obtain ⟨rfl, htail⟩ := List.cons.inj h
    exact .inr ⟨after', rfl, htail⟩

theorem start (hc : Chain.Inv root c) : PoolInv root c Table.empty [] where
  chain := hc
  accepted _ h := absurd h List.not_mem_nil
  keyed _ _ h := absurd h (by simp)
  kept after tx before h := absurd h (by simp)

theorem enter (h : PoolInv root c mempool history) (tx : Transaction) :
    PoolInv root c (mempool.insert tx.id tx) (.entered tx :: history) where
  chain := h.chain
  accepted b hb := h.accepted b ((List.mem_cons.mp hb).resolve_left (by simp))
  keyed k tx' hk := by
    rcases Table.insert_eq_some.mp hk with ⟨rfl, rfl⟩ | ⟨-, hk⟩
    · exact ⟨rfl, List.mem_cons_self⟩
    · exact (h.keyed k tx' hk).imp_right (List.mem_cons_of_mem _)
  kept after tx' before hs := by
    rcases split_cons hs with ⟨-, he⟩ | ⟨after', rfl, htail⟩
    · obtain rfl := PoolNote.entered.inj he
      exact .inl (by rw [Table.insert_self]; rfl)
    · rcases h.kept after' tx' before htail with hid | ⟨note, hn, hh⟩
      · refine .inl ?_
        rw [Table.insert_apply]
        split
        · rfl
        · exact hid
      · exact .inr ⟨note, List.mem_cons_of_mem _ hn, hh⟩

/-- The transactions of a block leave the mempool. -/
theorem remove (h : PoolInv root c mempool history) {note : PoolNote} {ids : List Hash32}
    (hids : ∀ id ∈ ids, note.Holds id) (hentered : ∀ tx, note ≠ .entered tx) (hnote : ∀ b, note = .accepted b → c.Took b) :
    PoolInv root c (mempool.removeAll ids) (note :: history) where
  chain := h.chain
  accepted b hb := (List.mem_cons.mp hb).elim (fun he => hnote b he.symm) (h.accepted b)
  keyed k tx hk := by
    rw [Table.removeAll_apply] at hk
    split at hk
    · cases hk
    · exact (h.keyed k tx hk).imp_right (List.mem_cons_of_mem _)
  kept after tx before hs := by
    rcases split_cons hs with ⟨-, he⟩ | ⟨after', rfl, htail⟩
    · exact absurd he (hentered tx)
    · rw [Table.removeAll_apply]
      split
      · rename_i hmem
        exact .inr ⟨note, List.mem_cons_self, hids _ hmem⟩
      · exact (h.kept after' tx before htail).imp_right fun ⟨note', hn, hh⟩ => ⟨note', List.mem_cons_of_mem _ hn, hh⟩

theorem accept (h : PoolInv root c mempool history) (hb : c.Took b) :
    PoolInv root c (mempool.removeAll (b.transactions.map Transaction.id)) (.accepted b :: history) :=
  h.remove (fun _ hid => hid) (by simp) fun _ he => PoolNote.accepted.inj he ▸ hb

theorem refuse (h : PoolInv root c mempool history) (b : Block) :
    PoolInv root c (mempool.removeAll (b.transactions.map Transaction.id)) (.notAccepted b :: history) :=
  h.remove (fun _ hid => hid) (by simp) (by simp)

/-- A chain that keeps what it took may stand in for another. -/
theorem grow (h : PoolInv root c mempool history) (hinv : Chain.Inv root c') (hkeep : ∀ b, c.Took b → c'.Took b) :
    PoolInv root c' mempool history :=
  ⟨hinv, fun b hb => hkeep b (h.accepted b hb), h.keyed, h.kept⟩

end PoolInv

/-! ### What a block does -/

namespace Chain

/-- A block that is taken in leaves the others where they are. -/
theorem Grew.took {m : BlockMeta F} (g : c.Grew c' b m) (inv : Inv root c) {b' : Block} (h : c.Took b') : c'.Took b' where
  body := by
    obtain ⟨-, m', hm', -⟩ := inv.stored _ _ h.body
    rw [g.blocks, Table.insert_of_ne (ne_of_known g.new (by simp [hm']))]
    exact h.body
  height := g.floor.2.1 ▸ h.height
  size := h.size

theorem Grew.took_self {m : BlockMeta F} (g : c.Grew c' b m) (inv : Inv root c) (hv : validateBlock c b now = .ok ()) :
    c'.Took b where
  body := by rw [g.blocks, Table.insert_self]
  height := by
    obtain ⟨pm, l, a⟩ := inv.accepts_of_validateBlock g.new hv
    have hfloor := (inv.rooted.length_eq a.line).2
    rw [heightOf_eq a.parent] at hfloor
    rw [g.floor.2.1, a.height]
    exact Nat.lt_succ_of_le hfloor
  size tx htx := by
    obtain ⟨pm, l, a⟩ := inv.accepts_of_validateBlock g.new hv
    exact Block.length_canonicalBytes_le a.admits.sound htx

end Chain

namespace PoolInv

/-- `try_apply` moves the chain only. -/
theorem tryApply (h : PoolInv root s.chain mempool history) (hz : b.hash ≠ .zero) (now : ℕ) (commit : Commit) :
    PoolInv root (s.tryApply b now commit).1.chain mempool history := by
  have happ := ChainStore.tryApply_applied h.chain hz now commit
  generalize s.tryApply b now commit = r at happ
  cases happ with
  | known => exact h
  | rejected => exact h
  | persisted _ _ _ g => exact h.grow (h.chain.tryApply hz now) fun _ hb => g.took h.chain hb
  | lost _ _ g => exact h.grow (h.chain.tryApply hz now) fun _ hb => g.took h.chain hb

/-- A block that is new and taken is in the chain. -/
theorem took (h : PoolInv root s.chain mempool history) (hz : b.hash ≠ .zero) (now : ℕ) (commit : Commit)
    (o : ApplyOutcome) (hr : (s.tryApply b now commit).2 = .ok o) (ho : o ≠ .alreadyKnown) : (s.tryApply b now commit).1.chain.Took b := by
  have happ := ChainStore.tryApply_applied h.chain hz now commit
  generalize s.tryApply b now commit = r at happ hr
  cases happ with
  | known => exact absurd (Except.ok.inj hr).symm ho
  | rejected => cases hr
  | persisted _ _ hv g => exact g.took_self h.chain hv
  | lost => cases hr

/-- A block from a miner or from gossip. -/
theorem applyAndBroadcastBlock (h : PoolInv root n.chainStore.chain n.mempool history) (hz : b.hash ≠ .zero) (now : ℕ)
    (commit : Commit) :
    PoolInv root (n.applyAndBroadcastBlock b now commit).1.chainStore.chain (n.applyAndBroadcastBlock b now commit).1.mempool
      (n.blockNotes b now commit ++ history) := by
  have hinv := h.tryApply hz now commit
  have htook := h.took hz now commit
  unfold Node.applyAndBroadcastBlock Node.blockNotes
  generalize n.chainStore.tryApply b now commit = r at hinv htook
  rcases r with ⟨s', e | o⟩
  · cases e <;> exact hinv
  · cases o with
    | alreadyKnown => exact hinv
    | extendedTip =>
      have := hinv.accept (htook _ rfl (by simp))
      dsimp only
      rw [if_neg (by simp)]
      rcases s'.chain.tipHeight with e | height <;> exact this
    | addedToFork => exact hinv.accept (htook _ rfl (by simp))
    | reorgedTo newHeight =>
      have := hinv.accept (htook _ rfl (by simp))
      dsimp only
      rw [if_neg (by simp)]
      rcases s'.chain.tipHeight with e | height <;> exact this

/-- A batch of a sync, by induction on the batch. -/
theorem applyBlocks (h : PoolInv root s.chain mempool history) {blocks : List Block} (hz : ∀ b ∈ blocks, b.hash ≠ .zero)
    (now : ℕ → ℕ) (commit : ℕ → Commit) :
    PoolInv root (s.applyBlocks mempool now commit blocks).1.chain (s.applyBlocks mempool now commit blocks).2.1
      (s.syncNotes now commit blocks ++ history) := by
  induction blocks generalizing s mempool history now commit with
  | nil => exact h
  | cons b blocks ih =>
    have hb := hz b List.mem_cons_self
    have hrest := fun x hx => hz x (List.mem_cons_of_mem _ hx)
    have hinv := h.tryApply hb (now 0) (commit 0)
    have htook := h.took hb (now 0) (commit 0)
    unfold ChainStore.applyBlocks ChainStore.syncNotes
    generalize s.tryApply b (now 0) (commit 0) = r at hinv htook
    rcases r with ⟨s', e | o⟩
    · exact hinv.refuse b
    · cases o with
      | alreadyKnown =>
        dsimp only
        rw [List.append_assoc]
        exact ih (hinv.refuse b) hrest _ _
      | extendedTip | addedToFork | reorgedTo =>
        dsimp only
        rw [List.append_assoc]
        exact ih (hinv.accept (htook _ rfl (by simp))) hrest _ _

omit [Float64 F] in
/-- A transaction that passes its own check enters the mempool. -/
theorem submit [Float64 F] (h : PoolInv root n.chainStore.chain n.mempool history) (tx : Transaction) :
    PoolInv root (n.submitUsernameClaim tx).1.chainStore.chain (n.submitUsernameClaim tx).1.mempool
      (Node.transactionNotes tx ++ history) := by
  unfold Node.submitUsernameClaim Node.transactionNotes
  rcases tx.verifySelfContained with e | _
  · cases e <;> exact h
  · exact h.enter tx

theorem gossip (h : PoolInv root n.chainStore.chain n.mempool history) (tx : Transaction) :
    PoolInv root (n.gossipedTransaction tx).chainStore.chain (n.gossipedTransaction tx).mempool
      (Node.transactionNotes tx ++ history) := by
  unfold Node.gossipedTransaction Node.transactionNotes
  rcases tx.verifySelfContained with e | _
  · exact h
  · exact h.enter tx

theorem miningResult (h : PoolInv root n.chainStore.chain n.mempool history) (hz : b.hash ≠ .zero) (generation now : ℕ)
    (commit : Commit) :
    PoolInv root (n.miningResult generation b now commit).1.chainStore.chain (n.miningResult generation b now commit).1.mempool
      (n.resultNotes generation b now commit ++ history) := by
  have hblock := h.applyAndBroadcastBlock hz now commit
  unfold Node.miningResult Node.resultNotes
  split
  · exact h
  · generalize n.applyAndBroadcastBlock b now commit = r at hblock
    rcases r with ⟨n', e | ⟨_ | _ | _, effects⟩⟩ <;> exact hblock

/-- An answer to `GetBlocks` is a batch; no other answer moves the chain or the mempool. -/
theorem handleChainSyncResponse (h : PoolInv root n.chainStore.chain n.mempool history) {requestId : ℕ}
    {response : ChainSyncResponse F} {now : ℕ → ℕ} {commit : ℕ → Commit}
    (hz : ∀ b ∈ (LedgerEvent.chainSyncResponse requestId response now commit).blocks, b.hash ≠ .zero) :
    PoolInv root (n.handleChainSyncResponse requestId response now commit).1.chainStore.chain
      (n.handleChainSyncResponse requestId response now commit).1.mempool
      (n.batchNotes requestId response now commit ++ history) := by
  unfold Node.handleChainSyncResponse Node.batchNotes
  rcases n.pending.chainSyncTip requestId with _ | peer
  · rcases n.pending.chainSyncBlocks requestId with _ | peer
    · exact h
    · cases response with
      | blocks blocks =>
        have hbatch := h.applyBlocks hz now commit
        unfold Node.handleBlocks
        dsimp only [LedgerEvent.blocks] at hbatch ⊢
        generalize n.chainStore.applyBlocks n.mempool now commit blocks = r at hbatch
        rcases r with ⟨s', mempool', e | _⟩
        · cases e <;> exact hbatch
        · dsimp only
          rcases s'.chain.tipHeight with e | height <;> exact hbatch
      | _ => exact h
  · dsimp only
    rcases ({ n with pending := n.pending.removeTip requestId } : Node F).handleTip peer response with e | ⟨pending, effects⟩ <;>
      exact h

/-- One turn of the event loop. -/
theorem handle (h : PoolInv root n.chainStore.chain n.mempool history) (e : LedgerEvent F)
    (hz : ∀ b ∈ e.blocks, b.hash ≠ .zero) :
    PoolInv root (n.handle e).1.chainStore.chain (n.handle e).1.mempool (n.notes e ++ history) := by
  cases e with
  | submitUsernameClaim tx => exact h.submit tx
  | gossipedTransaction tx => exact h.gossip tx
  | submitMinedBlock b now commit => exact h.applyAndBroadcastBlock (hz b List.mem_cons_self) now commit
  | gossipedBlock b now commit => exact h.applyAndBroadcastBlock (hz b List.mem_cons_self) now commit
  | miningResult generation b now commit => exact h.miningResult (hz b List.mem_cons_self) generation now commit
  | chainSyncResponse requestId response now commit => exact h.handleChainSyncResponse hz
  | startMining | stopMining | requestChainSync => exact h

end PoolInv

theorem Node.EventLoop.inv (h : Node.EventLoop F root n history) : PoolInv root n.chainStore.chain n.mempool history := by
  induction h with
  | start hs => exact .start hs.inv
  | step _ e hz ih => exact ih.handle e hz

/-! ### Claims of canonical blocks -/

namespace Chain

/-- The claims of a canonical block above the floor have owners. -/
theorem Inv.claimed_of_canonical (inv : Inv root c) (hb : c.Took b)
    (hcanonical : c.canonicalIndex b.header.height.toNat = some b.hash) (htx : tx ∈ b.transactions) :
    c.usernameOwner tx.username ≠ none := by
  obtain ⟨l, hl, hidx, hown⟩ := inv.tip
  obtain ⟨t, rfl⟩ := hl.eq_cons
  have hat : t[b.header.height.toNat - c.floorHeight - 1]? = some b.hash := by
    obtain ⟨i, hi⟩ := Nat.exists_eq_add_of_lt hb.height
    have hget := hidx _ hb.height.le
    rw [hcanonical, hi, Nat.add_assoc, Nat.add_sub_cancel_left, List.getElem?_cons_succ] at hget
    rw [hi, Nat.add_assoc, Nat.add_sub_cancel_left, Nat.add_sub_cancel]
    exact hget.symm
  rw [hown]
  intro hfree
  refine notMem_usernames_of_replay hfree (List.mem_flatMap.mpr ⟨b.hash, List.mem_of_getElem? hat, ?_⟩)
  rw [hb.body]
  exact List.mem_map.mpr ⟨tx, htx, rfl⟩

/-- The mempool's check of a claim reads the owners at the tip. -/
theorem Inv.unclaimed_of_valid (inv : Inv root c) {height : ℕ} (hv : isValidForMempool c tx height = .ok true) :
    c.usernameOwner tx.username = none := by
  obtain ⟨l, hl, -, hown⟩ := inv.tip
  unfold isValidForMempool at hv
  rw [inv.rooted.ancestors_eq_ok.mpr hl, inv.stateAt_eq hl, ← hown] at hv
  split at hv
  · cases hv
  · dsimp only at hv
    split at hv
    · cases hv
    · split at hv
      · cases hv
      · split at hv
        · cases hv
        · exact Option.isNone_iff_eq_none.mp (Except.ok.inj hv)

/-- The check does not fail. -/
theorem Inv.isValidForMempool_ok (inv : Inv root c) {l : List Hash32} (hl : c.Descends c.tipHash l) (tx : Transaction)
    (height : ℕ) : ∃ valid, isValidForMempool c tx height = .ok valid := by
  unfold isValidForMempool
  rw [inv.rooted.ancestors_eq_ok.mpr hl, inv.stateAt_eq hl]
  dsimp only
  split
  · exact ⟨_, rfl⟩
  · split
    · exact ⟨_, rfl⟩
    · split
      · exact ⟨_, rfl⟩
      · split <;> exact ⟨_, rfl⟩

end Chain

/-- The transactions that a run has seen, in the mempool or in a block it took. -/
def PoolNote.Seen (history : List PoolNote) (tx : Transaction) : Prop :=
  .entered tx ∈ history ∨ ∃ b, .accepted b ∈ history ∧ tx ∈ b.transactions

/-- The claim entered the mempool and is valid on top of the tip, and is not in the mempool. -/
def Node.Loses (n : Node F) (history : List PoolNote) (tx : Transaction) : Prop :=
  .entered tx ∈ history ∧ n.mempool tx.id = none ∧ ∃ height, n.chainStore.chain.tipHeight = .ok height ∧
    n.chainStore.isValidCandidateTransaction tx (height + 1) = .ok true

/-- A claim that entered the mempool and is valid on top of the tip is still there, unless a block with it was taken
since then that is not canonical now, or a sync brought a block with it that was not taken. -/
theorem Node.EventLoop.pool_keeps_valid {after before : List PoolNote} {candidateHeight : ℕ}
    (h : Node.EventLoop F root n (after ++ .entered tx :: before))
    (hash : ∀ tx', PoolNote.Seen (after ++ .entered tx :: before) tx' → tx'.id = tx.id → tx'.canonicalBytes = tx.canonicalBytes)
    (hvalid : n.chainStore.isValidCandidateTransaction tx candidateHeight = .ok true) :
    (∃ tx', n.mempool tx.id = some tx' ∧ tx'.canonicalBytes = tx.canonicalBytes) ∨
    (∃ b, .accepted b ∈ after ∧ tx.id ∈ b.transactions.map Transaction.id ∧
      n.chainStore.chain.canonicalIndex b.header.height.toNat ≠ some b.hash) ∨
    ∃ b, .notAccepted b ∈ after ∧ tx.id ∈ b.transactions.map Transaction.id := by
  have inv := h.inv
  rcases inv.kept after tx before rfl with hin | ⟨note, hnote, hholds⟩
  · obtain ⟨tx', htx'⟩ := Option.isSome_iff_exists.mp hin
    obtain ⟨hid, hseen⟩ := inv.keyed _ _ htx'
    exact .inl ⟨tx', htx', hash tx' (.inl hseen) hid⟩
  · cases note with
    | entered => exact hholds.elim
    | notAccepted b => exact .inr (.inr ⟨b, hnote, hholds⟩)
    | accepted b =>
      refine .inr (.inl ⟨b, hnote, hholds, fun hcanonical => ?_⟩)
      obtain ⟨tx', htx', hid⟩ := List.mem_map.mp hholds
      have htook := inv.accepted b (List.mem_append_left _ hnote)
      have hbytes := hash tx' (.inr ⟨b, List.mem_append_left _ hnote, htx'⟩) hid
      have hname : tx'.username = tx.username := by
        rw [Transaction.canonicalBytes_inj (htook.size tx' htx') hbytes]
      exact inv.chain.claimed_of_canonical htook hcanonical htx' (hname ▸ inv.chain.unclaimed_of_valid hvalid)

end

/-! ### A claim and its block -/

section
attribute [local instance] signed

/-- The claim arrives, and then blocks do. -/
def Node.claimThen : List Block → Node ℚ
  | [] => ((Node.start (ChainStore.opened ℚ)).handle (.gossipedTransaction aliceClaim)).1
  | block :: blocks => ((claimThen blocks).handle (.gossipedBlock block minedAt (.ok ()))).1

namespace Node

theorem mem_blockNotes {n : Node ℚ} {block : Block} {now : ℕ} {commit : Commit} {note : PoolNote}
    (h : note ∈ n.blockNotes block now commit) : note = .accepted block := by
  unfold blockNotes at h
  split at h
  · cases h
  · cases h
  · exact List.mem_singleton.mp h

/-- The notes of such a run are of its blocks. -/
theorem ran_claimThen (blocks : List Block) (hz : ∀ b ∈ blocks, b.hash ≠ .zero) :
    ∃ after, EventLoop ℚ Block.genesis.hash (claimThen blocks) (after ++ .entered aliceClaim :: []) ∧
      ∀ note ∈ after, ∃ b ∈ blocks, note = .accepted b := by
  induction blocks with
  | nil =>
    have hstart : EventLoop ℚ Block.genesis.hash (.start (ChainStore.opened ℚ)) [] := .start (.new (by decide +kernel))
    have hnotes : (Node.start (ChainStore.opened ℚ)).notes (.gossipedTransaction aliceClaim) = [.entered aliceClaim] := by
      have hok : aliceClaim.verifySelfContained = .ok () := by decide +kernel
      change transactionNotes aliceClaim = _
      unfold transactionNotes
      rw [hok]
    have hstep := EventLoop.step hstart (.gossipedTransaction aliceClaim) (by simp [LedgerEvent.blocks])
    rw [hnotes] at hstep
    exact ⟨[], hstep, by simp⟩
  | cons b blocks ih =>
    obtain ⟨after, hran, hafter⟩ := ih fun x hx => hz x (List.mem_cons_of_mem _ hx)
    have hstep := EventLoop.step hran (.gossipedBlock b minedAt (.ok ())) fun x hx => hz x (List.mem_singleton.mp hx ▸ List.mem_cons_self)
    rw [← List.append_assoc] at hstep
    refine ⟨_, hstep, fun note hnote => ?_⟩
    rcases List.mem_append.mp hnote with hnote | hnote
    · exact ⟨b, List.mem_cons_self, mem_blockNotes hnote⟩
    · obtain ⟨x, hx, rfl⟩ := hafter note hnote
      exact ⟨x, List.mem_cons_of_mem _ hx, rfl⟩

theorem pool_keeps_valid_firstBlock : ∃ tx, (claimThen [firstBlock]).mempool aliceClaim.id = some tx ∧
    tx.canonicalBytes = aliceClaim.canonicalBytes := by
  obtain ⟨after, hran, hafter⟩ := ran_claimThen [firstBlock] (by decide +kernel)
  have hempty : ∀ b, .accepted b ∈ after → b.transactions = [] := by
    intro b hb
    obtain ⟨x, hx, he⟩ := hafter _ hb
    obtain rfl := PoolNote.accepted.inj he
    obtain rfl := List.mem_singleton.mp hx
    rfl
  have hvalid : (claimThen [firstBlock]).chainStore.isValidCandidateTransaction aliceClaim 2 = .ok true := by decide +kernel
  have hash : ∀ tx, PoolNote.Seen (after ++ .entered aliceClaim :: []) tx → tx = aliceClaim := by
    rintro tx (hentered | ⟨b, hb, htx⟩)
    · rcases List.mem_append.mp hentered with hentered | hentered
      · obtain ⟨x, -, he⟩ := hafter _ hentered
        cases he
      · exact PoolNote.entered.inj (List.mem_singleton.mp hentered)
    · rcases List.mem_append.mp hb with hb | hb
      · simp [hempty b hb] at htx
      · cases List.mem_singleton.mp hb
  rcases hran.pool_keeps_valid (fun tx hseen _ => by rw [hash tx hseen]) hvalid with hin | ⟨b, hb, hid, -⟩ | ⟨b, hb, -⟩
  · exact hin
  · simp [hempty b hb] at hid
  · obtain ⟨x, -, he⟩ := hafter _ hb
    cases he

/-- A block on a fork takes a valid claim out of the mempool, and a reorg that takes its block off the canonical chain
does not put it back. -/
theorem pool_loses_valid :
    (∃ history, EventLoop ℚ Block.genesis.hash (claimThen [claimBlock, firstBlock]) history ∧
      (claimThen [claimBlock, firstBlock]).Loses history aliceClaim) ∧
    ∃ history, EventLoop ℚ Block.genesis.hash (claimThen [secondBlock, firstBlock, claimBlock]) history ∧
      (claimThen [secondBlock, firstBlock, claimBlock]).Loses history aliceClaim := by
  constructor
  · obtain ⟨hz, hlost⟩ : (∀ b ∈ [claimBlock, firstBlock], b.hash ≠ .zero) ∧
        (claimThen [claimBlock, firstBlock]).mempool aliceClaim.id = none ∧
        (claimThen [claimBlock, firstBlock]).chainStore.chain.tipHeight = .ok 1 ∧
        (claimThen [claimBlock, firstBlock]).chainStore.isValidCandidateTransaction aliceClaim (1 + 1) = .ok true := by
      decide +kernel
    obtain ⟨after, hran, -⟩ := ran_claimThen [claimBlock, firstBlock] hz
    exact ⟨_, hran, List.mem_append_right _ List.mem_cons_self, hlost.1, 1, hlost.2⟩
  · obtain ⟨hz, hlost⟩ : (∀ b ∈ [secondBlock, firstBlock, claimBlock], b.hash ≠ .zero) ∧
        (claimThen [secondBlock, firstBlock, claimBlock]).mempool aliceClaim.id = none ∧
        (claimThen [secondBlock, firstBlock, claimBlock]).chainStore.chain.tipHeight = .ok 2 ∧
        (claimThen [secondBlock, firstBlock, claimBlock]).chainStore.isValidCandidateTransaction aliceClaim (2 + 1) =
          .ok true := by
      decide +kernel
    obtain ⟨after, hran, -⟩ := ran_claimThen [secondBlock, firstBlock, claimBlock] hz
    exact ⟨_, hran, List.mem_append_right _ List.mem_cons_self, hlost.1, 2, hlost.2⟩

end Node
end
end SpiritChat
