import SpiritChat.Theorems.Completed

/-! # When mining is stale

The search of the current generation works on the tip and the mempool that the last restart left. It is up to date as
long as no handler changes one of them without a restart. -/

namespace SpiritChat
open Lib

section
variable {F : Type} [Float64 F] [Primitives]

namespace Node
variable {n : Node F}

/-- A block that is refused leaves the tip where it was, and one on a fork has no transaction of the mempool. -/
def BlockHarmless (n : Node F) (block : Block) (now : ℕ) (commit : Commit) : Prop :=
  match (n.chainStore.tryApply block now commit).2 with
  | .ok .addedToFork => ∀ tx ∈ block.transactions, n.mempool tx.id = none
  | .ok _ => True
  | .error _ => (n.chainStore.tryApply block now commit).1.chain.tipHash = n.chainStore.chain.tipHash

/-- A batch goes through as a whole and moves the tip, or changes neither the tip nor the mempool. -/
def BatchHarmless (n : Node F) (requestId : ℕ) (response : ChainSyncResponse F) (now : ℕ → ℕ) (commit : ℕ → Commit) : Prop :=
  ∀ peer blocks, n.pending.chainSyncTip requestId = none → n.pending.chainSyncBlocks requestId = some peer →
    response = .blocks blocks →
    ((n.chainStore.applyBlocks n.mempool now commit blocks).2.2 = .ok () ∧
        (n.chainStore.applyBlocks n.mempool now commit blocks).1.chain.tipHash ≠ n.chainStore.chain.tipHash) ∨
      ((n.chainStore.applyBlocks n.mempool now commit blocks).1.chain.tipHash = n.chainStore.chain.tipHash ∧
        (n.chainStore.applyBlocks n.mempool now commit blocks).2.1 = n.mempool)

/-- The event does not change the tip or the mempool behind the back of a search. A claim of the node's own does, unless
it is refused or in the mempool already. -/
def Harmless (n : Node F) : LedgerEvent F → Prop
  | .submitUsernameClaim tx => tx.verifySelfContained = .ok () → n.mempool tx.id = some tx
  | .submitMinedBlock block now commit => n.BlockHarmless block now commit
  | .gossipedBlock block now commit => n.BlockHarmless block now commit
  | .chainSyncResponse requestId response now commit => n.BatchHarmless requestId response now commit
  | .gossipedTransaction _ | .miningResult _ _ _ _ | .startMining _ | .stopMining | .requestChainSync _ => True

end Node

namespace Miner

/-- The runs of a node and its searches in which every event is an allowed one. A search ends without a block only when
it was told to stop. -/
inductive Runs (blocks : Block → Prop) (allowed : Node F → LedgerEvent F → Prop) : Miner F → Prop
  | start {s : ChainStore F} : ChainStore.Ran blocks s → Runs blocks allowed ⟨.start s, [], []⟩
  | event {m m' : Miner F} {e : LedgerEvent F} {effects : List LedgerEffect} {values : List Transaction} {now : UInt64} :
      Runs blocks allowed m → (∀ generation block now commit, e ≠ .miningResult generation block now commit) →
      (∀ b ∈ e.blocks, blocks b) → allowed m.node e → (m.node.handle e).2 = .ok effects →
      Values (m.node.handle e).1.mempool values → m.proceed (m.node.handle e).1 values now = .ok m' → Runs blocks allowed m'
  | found {m : Miner F} {a : Attempt F} {xs ys : List (Attempt F)} {block : Block} {stop : ℕ → Bool} {now : ℕ → UInt64}
      {fuel : ℕ} : Runs blocks allowed m → m.searching = xs ++ a :: ys → mine a.candidate stop now fuel = some block →
      blocks block → Runs blocks allowed { m with searching := xs ++ ys, results := m.results ++ [(a, block)] }
  | stopped {m : Miner F} {a : Attempt F} {xs ys : List (Attempt F)} : Runs blocks allowed m → m.searching = xs ++ a :: ys →
      m.node.mining.active.map MiningState.generation ≠ some a.generation → Runs blocks allowed { m with searching := xs ++ ys }
  | reported {m m' : Miner F} {a : Attempt F} {block : Block} {rest : List (Attempt F × Block)} {now : ℕ} {commit : Commit}
      {effects : List LedgerEffect} {values : List Transaction} {reading : UInt64} : Runs blocks allowed m →
      m.results = (a, block) :: rest → blocks block →
      (m.node.handle (.miningResult a.generation block now commit)).2 = .ok effects →
      Values (m.node.handle (.miningResult a.generation block now commit)).1.mempool values →
      ({ m with results := rest } : Miner F).proceed (m.node.handle (.miningResult a.generation block now commit)).1 values
        reading = .ok m' → Runs blocks allowed m'

/-- While mining is active, the search of the current generation has not ended or its block waits in the queue, it
extends the current tip, and it was assembled from the current mempool. -/
def Fresh (m : Miner F) : Prop :=
  ∀ state, m.node.mining.active = some state → ∃ a ∈ m.attempts, a.generation = state.generation ∧
    a.candidate.header.prevHash = m.node.chainStore.chain.tipHash ∧ a.mempool = m.node.mempool ∧
    ∃ values now, Values a.mempool values ∧ a.chainStore.candidate values state.publicKey now = .ok (some a.candidate)

end Miner

/-! ### A block can always be assembled -/

namespace Chain.Whole
variable {blocks : Block → Prop} {c : Chain F}

/-- A chain from genesis on holds the start of every retarget interval. -/
theorem exists_target (w : Whole blocks c) {l : List Hash32} (hl : c.Descends c.tipHash l) :
    ∃ t, Rules.target F (c.branch l) (c.ancestorOf c.tipHash) = some t := by
  unfold Rules.target
  split_ifs with h
  · exact ⟨_, rfl⟩
  · have hlen := (w.grown.inv.rooted.length_eq hl).1
    rw [w.grown.floor.2] at hlen
    rw [ancestorOf_height] at h ⊢
    rw [find?_of_counting (w.grown.inv.rooted.height_branch hl), if_pos (w.grown.floor.2 ▸ Nat.zero_le _),
      List.getElem?_eq_getElem (by
        simp only [branch, List.length_map, hlen, retargetIntervalBlocks] at *
        omega)]
    exact ⟨_, rfl⟩

end Chain.Whole

namespace ChainStore
variable {blocks : Block → Prop} {s : ChainStore F}

theorem exists_selection (w : s.chain.Whole blocks) {l : List Hash32} (hl : s.chain.Descends s.chain.tipHash l)
    (height : ℕ) (candidates selected : List Transaction) (usernames : List String) : ∃ r, s.selectTransactions height candidates selected usernames = .ok r := by
  induction candidates generalizing selected usernames with
  | nil => exact ⟨_, rfl⟩
  | cons tx candidates ih =>
    unfold selectTransactions
    split_ifs
    · exact ⟨_, rfl⟩
    · exact ih _ _
    · obtain ⟨valid, hvalid⟩ := w.grown.inv.isValidForMempool_ok hl tx height
      unfold isValidCandidateTransaction
      rw [hvalid, Exec.ok_bind]
      exact ih _ _

/-- There is always something to mine, and it extends the tip. -/
theorem exists_candidate (w : s.chain.Whole blocks) (values : List Transaction) (publicKey : Bytes 32) (now : UInt64) :
    ∃ b, s.candidate values publicKey now = .ok (some b) ∧ b.header.prevHash = s.chain.tipHash := by
  obtain ⟨l, hl, hheight, -⟩ := w.exists_path
  obtain ⟨t, ht⟩ := w.exists_target hl
  have htarget : s.expectedDifficulty = .ok t := (w.grown.inv.rooted.expectedDifficulty_eq_ok hl).mpr ht
  have hne : (s.chain.branch l).map (·.timestamp) ≠ [] := by simpa [Chain.branch] using hl.ne_nil
  obtain ⟨m, -, hm⟩ := Rules.exists_median hne
  have hmedian : s.medianTimePast = .ok m := by
    have : s.chain.medianTimePast s.chain.tipHash = .ok m := by
      rw [w.grown.inv.rooted.medianTimePast_eq hl, hm, Exec.expect_some]
    exact this
  obtain ⟨selected, hselected⟩ := exists_selection w hl (l.length - 1 + 1) (values.insertionSort fun a b => a.id ≤ b.id) [] []
  have hcandidate : ∃ b, s.candidate values publicKey now = .ok (some b) := by
    unfold candidate
    rw [htarget, hmedian]
    simp only [settled, Exec.ok_bind, hheight, hselected]
    exact ⟨_, rfl⟩
  obtain ⟨b, hb⟩ := hcandidate
  obtain ⟨m', height, a⟩ := assembled_of_candidate hb
  exact ⟨b, hb, a.header.2.1⟩

/-- A block that is known or on a fork leaves the tip where it was. -/
theorem tipHash_tryApply (w : s.chain.Whole blocks) {b : Block} (hz : b.hash ≠ .zero) {now : ℕ} {commit : Commit} {o : ApplyOutcome}
    (hr : (s.tryApply b now commit).2 = .ok o) (ho : o = .alreadyKnown ∨ o = .addedToFork) :
    (s.tryApply b now commit).1.chain.tipHash = s.chain.tipHash := by
  have hchain : (s.chain.tryApply b now).2 = .ok o := by
    unfold tryApply at hr
    rcases hc : s.chain.tryApply b now with ⟨c, e | o'⟩
    · simp only [hc] at hr
      cases hr
    · cases o' with
      | alreadyKnown =>
        simp only [hc] at hr
        exact hr
      | addedToFork | extendedTip | reorgedTo =>
        simp only [hc] at hr
        split at hr
        · cases hr
        · exact hr
  rw [tryApply_chain w.grown.inv hz]
  have happ := w.grown.inv.tryApply_applied hz now
  generalize (s.chain.tryApply b now).1 = c' at happ
  generalize (s.chain.tryApply b now).2 = r at happ hchain
  cases happ with
  | known => rfl
  | rejected => cases hchain
  | fork => rfl
  | tip =>
    obtain rfl := Except.ok.inj hchain
    split_ifs at ho
    · rcases ho with ho | ho <;> cases ho
    · rcases ho with ho | ho <;> cases ho

end ChainStore

/-! ### What an event does to the search -/

namespace Node
variable {blocks : Block → Prop} {n n' : Node F}

/-- The event left the search alone, with the tip and the mempool as they were or not. -/
structure Kept (n n' : Node F) (harmless : Prop) : Prop where
  mining : n'.mining = n.mining
  harmless_iff : harmless ↔ n'.chainStore.chain.tipHash = n.chainStore.chain.tipHash ∧ n'.mempool = n.mempool

/-- The event started a search, left none, or left the one there was alone. -/
inductive Moves (n n' : Node F) (harmless : Prop) : Prop
  | restarted (publicKey : Bytes 32) : n'.mining = n.mining.start publicKey → harmless → Moves n n' harmless
  | idle : n'.mining.active = none → n'.mining.nextGeneration = n.mining.nextGeneration → harmless → Moves n n' harmless
  | kept : n.Kept n' harmless → Moves n n' harmless

omit [Float64 F] [Primitives] in
theorem Moves.restartIfActive {harmless : Prop} (h : n'.mining = n.mining.restartIfActive) (hh : harmless) : n.Moves n' harmless := by
  rcases ha : n.mining.active with _ | state
  · have hsame : n.mining.restartIfActive = n.mining := by
      unfold Mining.restartIfActive
      rw [ha]
    rw [hsame] at h
    exact .idle (by rw [h, ha]) (by rw [h]) hh
  · refine .restarted state.publicKey ?_ hh
    rw [h]
    unfold Mining.restartIfActive
    rw [ha]

omit [Float64 F] [Primitives] in
theorem Moves.unchanged {harmless : Prop} (h : n'.mining = n.mining) (htip : n'.chainStore = n.chainStore)
    (hpool : n'.mempool = n.mempool) (hh : harmless) : n.Moves n' harmless :=
  .kept ⟨h, fun _ => ⟨by rw [htip], hpool⟩, fun _ => hh⟩

theorem removeAll_eq_self {block : Block} {mempool : Table Hash32 Transaction} :
    mempool.removeAll (block.transactions.map Transaction.id) = mempool ↔ ∀ tx ∈ block.transactions, mempool tx.id = none := by
  constructor
  · intro h tx htx
    rw [← h, Table.removeAll_apply, if_pos (List.mem_map.mpr ⟨tx, htx, rfl⟩)]
  · intro h
    funext k
    rw [Table.removeAll_apply]
    split_ifs with hk
    · obtain ⟨tx, htx, rfl⟩ := List.mem_map.mp hk
      exact (h tx htx).symm
    · rfl

/-- A block either restarts the search, as its outcome tells, or leaves it alone. -/
theorem applyAndBroadcastBlock_moves (w : n.chainStore.chain.Whole blocks) {b : Block} (hz : b.hash ≠ .zero) {now : ℕ}
    {commit : Commit} {outcome : Option ApplyOutcome} {effects : List LedgerEffect}
    (h : (n.applyAndBroadcastBlock b now commit).2 = .ok (outcome, effects)) :
    ((n.applyAndBroadcastBlock b now commit).1.mining = n.mining.restartIfActive ∧ n.BlockHarmless b now commit ∧
        ∃ o, outcome = some o ∧ o ≠ .alreadyKnown ∧ o ≠ .addedToFork) ∨
      (n.Kept (n.applyAndBroadcastBlock b now commit).1 (n.BlockHarmless b now commit) ∧
        ∀ o, outcome = some o → o = .alreadyKnown ∨ o = .addedToFork) := by
  have hkept : ∀ o, (n.chainStore.tryApply b now commit).2 = .ok o → (o = .alreadyKnown ∨ o = .addedToFork) →
      (n.chainStore.tryApply b now commit).1.chain.tipHash = n.chainStore.chain.tipHash :=
    fun o => ChainStore.tipHash_tryApply w hz
  unfold BlockHarmless
  unfold applyAndBroadcastBlock at h ⊢
  rcases hr : n.chainStore.tryApply b now commit with ⟨s, (e | _ | _) | o⟩
  · simp only [hr] at h ⊢
    cases h
    exact .inr ⟨⟨rfl, by simp⟩, fun o ho => by cases ho⟩
  · simp only [hr] at h
    cases h
  · simp only [hr] at h
    cases h
  · rw [hr] at hkept
    cases o with
    | alreadyKnown =>
      simp only [hr] at h ⊢
      cases h
      refine .inr ⟨⟨rfl, ?_⟩, fun o ho => .inl (Option.some.inj ho).symm⟩
      exact ⟨fun _ => ⟨hkept _ rfl (.inl rfl), rfl⟩, fun _ => trivial⟩
    | addedToFork =>
      simp only [hr, ↓reduceIte] at h ⊢
      cases h
      refine .inr ⟨⟨rfl, ?_⟩, fun o ho => .inr (Option.some.inj ho).symm⟩
      exact ⟨fun hnone => ⟨hkept _ rfl (.inr rfl), removeAll_eq_self.mpr hnone⟩, fun hsame => removeAll_eq_self.mp hsame.2⟩
    | extendedTip | reorgedTo =>
      simp only [hr, reduceCtorEq, ↓reduceIte] at h ⊢
      split at h
      · cases h
      · cases h
        exact .inl ⟨rfl, trivial, _, rfl, by simp, by simp⟩

theorem mempool_of_extends {b : Block} {now : ℕ} {commit : Commit}
    (h : (n.chainStore.tryApply b now commit).2 = .ok .extendedTip) :
    (n.handle (.gossipedBlock b now commit)).1.mempool = n.mempool.removeAll (b.transactions.map Transaction.id) := by
  show (n.applyAndBroadcastBlock b now commit).1.mempool = _
  unfold applyAndBroadcastBlock
  rcases ht : n.chainStore.tryApply b now commit with ⟨s, r⟩
  rw [ht] at h
  obtain rfl := h
  dsimp only
  rw [if_neg (by simp)]
  split <;> rfl

theorem submitUsernameClaim_moves (tx : Transaction) : n.Moves (n.submitUsernameClaim tx).1 (n.Harmless (.submitUsernameClaim tx)) := by
  show n.Moves _ (tx.verifySelfContained = .ok () → n.mempool tx.id = some tx)
  unfold submitUsernameClaim
  generalize tx.verifySelfContained = verified
  rcases verified with (e | _ | _) | ⟨⟩
  · exact .unchanged rfl rfl rfl fun h => by cases h
  · exact .unchanged rfl rfl rfl fun h => by cases h
  · exact .unchanged rfl rfl rfl fun h => by cases h
  · refine .kept ⟨rfl, fun h => ⟨rfl, ?_⟩, fun h _ => ?_⟩
    · show n.mempool.insert tx.id tx = n.mempool
      funext k
      rw [Table.insert_apply]
      split_ifs with hk
      · rw [hk, h rfl]
      · rfl
    · have hself : (n.mempool.insert tx.id tx) tx.id = some tx := Table.insert_self
      have hsame : n.mempool.insert tx.id tx = n.mempool := h.2
      rwa [hsame] at hself

omit [Float64 F] in
theorem gossipedTransaction_moves (tx : Transaction) : n.Moves (n.gossipedTransaction tx) True := by
  unfold gossipedTransaction
  rcases tx.verifySelfContained with _ | _
  · exact .unchanged rfl rfl rfl trivial
  · exact .restartIfActive rfl trivial

theorem handleChainSyncResponse_moves {requestId : ℕ} {response : ChainSyncResponse F} {now : ℕ → ℕ} {commit : ℕ → Commit}
    {effects : List Effect} (h : (n.handleChainSyncResponse requestId response now commit).2 = .ok effects) :
    n.Moves (n.handleChainSyncResponse requestId response now commit).1 (n.BatchHarmless requestId response now commit) := by
  unfold handleChainSyncResponse at h ⊢
  rcases htip : n.pending.chainSyncTip requestId with _ | peer
  · rcases hblocks : n.pending.chainSyncBlocks requestId with _ | peer
    · refine .unchanged rfl rfl rfl fun peer bs _ hpeer => ?_
      rw [hblocks] at hpeer
      cases hpeer
    · simp only [htip, hblocks] at h ⊢
      cases response with
      | blocks bs =>
        have hiff : n.BatchHarmless requestId (.blocks bs) now commit ↔ _ :=
          ⟨fun hh => hh peer bs htip hblocks rfl, fun hh p xs _ _ hxs => ChainSyncResponse.blocks.inj hxs ▸ hh⟩
        rw [hiff]
        simp only [handleBlocks] at h ⊢
        rcases hr : n.chainStore.applyBlocks n.mempool now commit bs with ⟨s, mempool, (e | _ | _) | _⟩
        · simp only [hr] at h ⊢
          exact .kept ⟨rfl, by simp⟩
        · simp only [hr] at h
          cases h
        · simp only [hr] at h
          cases h
        · simp only [hr] at h ⊢
          rcases hheight : s.chain.tipHeight with _ | height
          · simp only [hheight] at h
            cases h
          · by_cases hsame : s.chain.tipHash = n.chainStore.chain.tipHash
            · exact .kept ⟨by simp [hsame], by simp [hsame]⟩
            · exact .restartIfActive (by simp [hsame]) (.inl ⟨trivial, hsame⟩)
      | tip | headers | usernameOwnerSnapshot | notAvailable =>
        exact .unchanged rfl rfl rfl fun _ _ _ _ hresponse => by cases hresponse
  · have hvacuous : n.BatchHarmless requestId response now commit := fun _ _ hnone => by
      rw [htip] at hnone
      cases hnone
    simp only [htip] at h ⊢
    split at h
    · cases h
    · exact .unchanged rfl rfl rfl hvacuous

/-- Every event but the report of a search. -/
theorem handle_moves (w : n.chainStore.chain.Whole blocks) {e : LedgerEvent F} (hz : ∀ b ∈ e.blocks, b.hash ≠ .zero)
    (hne : ∀ generation block now commit, e ≠ .miningResult generation block now commit) {effects : List LedgerEffect}
    (h : (n.handle e).2 = .ok effects) : n.Moves (n.handle e).1 (n.Harmless e) := by
  have hblock : ∀ b now commit, b.hash ≠ .zero → ∀ effects, (n.applyAndBroadcastBlock b now commit).2.map Prod.snd = .ok effects →
      n.Moves (n.applyAndBroadcastBlock b now commit).1 (n.BlockHarmless b now commit) := by
    intro b now commit hz effects h
    rcases hr : (n.applyAndBroadcastBlock b now commit).2 with _ | ⟨outcome, effects'⟩
    · rw [hr] at h
      cases h
    · rcases applyAndBroadcastBlock_moves w hz hr with ⟨hmining, hh, -⟩ | ⟨hkept, -⟩
      · exact .restartIfActive hmining hh
      · exact .kept hkept
  cases e with
  | submitUsernameClaim tx => exact submitUsernameClaim_moves tx
  | submitMinedBlock b now commit => exact hblock b now commit (hz b List.mem_cons_self) effects h
  | startMining publicKey => exact .restarted publicKey rfl trivial
  | stopMining => exact .idle rfl rfl trivial
  | requestChainSync peer => exact .unchanged rfl rfl rfl trivial
  | gossipedBlock b now commit => exact hblock b now commit (hz b List.mem_cons_self) effects h
  | gossipedTransaction tx => exact gossipedTransaction_moves tx
  | miningResult generation b now commit => exact absurd rfl (hne generation b now commit)
  | chainSyncResponse requestId response now commit =>
    rcases hr : (n.handleChainSyncResponse requestId response now commit).2 with _ | effects'
    · have hmap : (n.handleChainSyncResponse requestId response now commit).2.map (·.map LedgerEffect.sync) = .ok effects := h
      rw [hr] at hmap
      cases hmap
    · exact handleChainSyncResponse_moves hr

/-- A report of the current search always restarts it, and no other changes anything. -/
theorem miningResult_moves (w : n.chainStore.chain.Whole blocks) {b : Block} (hz : b.hash ≠ .zero) {now generation : ℕ}
    {commit : Commit} {effects : List LedgerEffect} (h : (n.miningResult generation b now commit).2 = .ok effects) :
    (n.mining.active.map MiningState.generation = some generation ∧
        (n.miningResult generation b now commit).1.mining = n.mining.restartIfActive) ∨
      (n.mining.active.map MiningState.generation ≠ some generation ∧ (n.miningResult generation b now commit).1 = n) := by
  unfold miningResult at h ⊢
  split_ifs at h ⊢ with hcurrent
  · exact .inr ⟨hcurrent, rfl⟩
  · refine .inl ⟨not_not.mp hcurrent, ?_⟩
    rcases hr : n.applyAndBroadcastBlock b now commit with ⟨n₁, _ | ⟨outcome, effects₁⟩⟩
    · simp only [hr] at h
      cases h
    · have hmoves := applyAndBroadcastBlock_moves w hz (congrArg Prod.snd hr)
      rw [hr] at hmoves
      rcases hmoves with ⟨hmining, -, o, rfl, hknown, hfork⟩ | ⟨hkept, ho⟩
      · cases o with
        | alreadyKnown => exact absurd rfl hknown
        | addedToFork => exact absurd rfl hfork
        | extendedTip | reorgedTo => exact hmining
      · have hrestart : n₁.mining.restartIfActive = n.mining.restartIfActive := congrArg _ hkept.mining
        cases outcome with
        | none => exact hrestart
        | some o =>
          rcases ho o rfl with rfl | rfl
          · exact hrestart
          · exact hrestart

theorem handle_whole (cf : CollisionFree blocks) (w : n.chainStore.chain.Whole blocks) {e : LedgerEvent F}
    (hb : ∀ b ∈ e.blocks, blocks b) : (n.handle e).1.chainStore.chain.Whole blocks := by
  by_cases hne : ∀ id response now commit, e ≠ .chainSyncResponse id response now commit
  · rcases n.handle_chainStore e hne with hsame | ⟨b, hmem, now, commit, happ⟩
    · rwa [hsame]
    · have hsub : b = .genesis ∨ blocks b := .inr (hb b hmem)
      rw [happ, ChainStore.tryApply_chain w.grown.inv (cf.nonzero b hsub)]
      exact w.tryApply cf hsub now
  · push Not at hne
    obtain ⟨id, response, now, commit, rfl⟩ := hne
    show (n.handleChainSyncResponse id response now commit).1.chainStore.chain.Whole blocks
    unfold handleChainSyncResponse
    split
    · dsimp only
      split <;> exact w
    · split
      · cases response with
        | blocks bs =>
          rw [handleBlocks_chainStore]
          exact (ChainStore.applyBlocks_whole n.mempool now commit cf (fun b hmem => .inr (hb b hmem)) w).1
        | tip | headers | usernameOwnerSnapshot | notAvailable => exact w
      · exact w

end Node

/-! ### The searches of a run -/

namespace Miner
variable {blocks : Block → Prop} {m m' : Miner F} {node : Node F}

/-- A generation has one search, and the generations count up. -/
structure Inv (blocks : Block → Prop) (m : Miner F) : Prop where
  whole : m.node.chainStore.chain.Whole blocks
  bounded : ∀ a ∈ m.attempts, a.generation ≤ m.node.mining.nextGeneration
  unique : ∀ a ∈ m.attempts, ∀ b ∈ m.attempts, a.generation = b.generation → a = b

theorem Inv.of_subset {searching : List (Attempt F)} {results : List (Attempt F × Block)} (inv : m.Inv blocks)
    (h : ∀ a ∈ ({ m with searching, results } : Miner F).attempts, a ∈ m.attempts) :
    ({ m with searching, results } : Miner F).Inv blocks :=
  ⟨inv.whole, fun a ha => inv.bounded a (h a ha), fun a ha b hb => inv.unique a (h a ha) b (h b hb)⟩

/-- The event loop gets past every restart. -/
theorem exists_proceed (w : node.chainStore.chain.Whole blocks) (m : Miner F) (values : List Transaction) (now : UInt64) :
    ∃ m', m.proceed node values now = .ok m' ∧ m'.node = node := by
  unfold proceed
  split
  · exact ⟨_, rfl, rfl⟩
  · split
    · exact ⟨_, rfl, rfl⟩
    · rename_i state _
      obtain ⟨b, hb, -⟩ := ChainStore.exists_candidate w values state.publicKey now
      rw [hb]
      exact ⟨_, rfl, rfl⟩

/-- An event that starts no search. -/
theorem proceed_same {values : List Transaction} {now : UInt64} (hgen : node.mining.nextGeneration = m.node.mining.nextGeneration)
    (h : m.proceed node values now = .ok m') : m' = { m with node } := by
  unfold proceed at h
  rw [if_pos hgen] at h
  exact (Except.ok.inj h).symm

/-- An event that starts a search: it is the only one of its generation, and up to date. -/
theorem proceed_restarted (inv : m.Inv blocks) (w : node.chainStore.chain.Whole blocks) {publicKey : Bytes 32}
    {values : List Transaction} {now : UInt64} (hmining : node.mining = m.node.mining.start publicKey)
    (hvalues : Values node.mempool values) (h : m.proceed node values now = .ok m') : m'.Inv blocks ∧ m'.Fresh := by
  obtain ⟨b, hb, hprev⟩ := ChainStore.exists_candidate w values publicKey now
  have hgen : node.mining.nextGeneration = m.node.mining.nextGeneration + 1 := by rw [hmining]; rfl
  have hactive : node.mining.active = some ⟨publicKey, m.node.mining.nextGeneration + 1⟩ := by rw [hmining]; rfl
  unfold proceed at h
  rw [if_neg (by omega), hactive] at h
  simp only [hb, Exec.ok_bind] at h
  obtain rfl := Except.ok.inj h
  have hold : ∀ a ∈ m.attempts, a.generation < m.node.mining.nextGeneration + 1 := fun a ha => Nat.lt_succ_of_le (inv.bounded a ha)
  refine ⟨⟨w, ?_, ?_⟩, ?_⟩
  · intro a ha
    show a.generation ≤ node.mining.nextGeneration
    rw [hgen]
    rcases List.mem_cons.mp ha with rfl | ha
    · exact le_refl _
    · exact (hold a ha).le
  · intro a ha b hb hab
    rcases List.mem_cons.mp ha with rfl | ha <;> rcases List.mem_cons.mp hb with rfl | hb
    · rfl
    · exact absurd (hold b hb) (by rw [← hab]; exact lt_irrefl _)
    · exact absurd (hold a ha) (by rw [hab]; exact lt_irrefl _)
    · exact inv.unique a ha b hb hab
  · intro state hstate
    obtain rfl := Option.some.inj (hactive.symm.trans hstate)
    exact ⟨_, List.mem_cons_self, rfl, hprev, rfl, values, now, hvalues, hb⟩

/-- What an event does to a search that is up to date. -/
theorem proceed_fresh (inv : m.Inv blocks) (w : node.chainStore.chain.Whole blocks) {harmless : Prop}
    {values : List Transaction} {now : UInt64} (hmoves : m.node.Moves node harmless) (hvalues : Values node.mempool values)
    (h : m.proceed node values now = .ok m') (hfresh : m.Fresh) :
    m'.Inv blocks ∧ (m'.Fresh ↔ (m.node.mining.active.isSome → harmless)) := by
  cases hmoves with
  | restarted publicKey hmining hh =>
    obtain ⟨inv', hfresh'⟩ := proceed_restarted inv w hmining hvalues h
    exact ⟨inv', fun _ _ => hh, fun _ => hfresh'⟩
  | idle hactive hgen hh =>
    obtain rfl := proceed_same hgen h
    refine ⟨⟨w, fun a ha => hgen ▸ inv.bounded a ha, inv.unique⟩, fun _ _ => hh, fun _ state hstate => ?_⟩
    rw [hactive] at hstate
    cases hstate
  | kept hkept =>
    have hgen : node.mining.nextGeneration = m.node.mining.nextGeneration := congrArg _ hkept.mining
    have hactive : node.mining.active = m.node.mining.active := congrArg _ hkept.mining
    obtain rfl := proceed_same hgen h
    refine ⟨⟨w, fun a ha => hgen ▸ inv.bounded a ha, inv.unique⟩, fun hfresh' hsome => ?_, fun hh state hstate => ?_⟩
    · -- The search is the one that was up to date before.
      obtain ⟨state, hstate⟩ := Option.isSome_iff_exists.mp hsome
      obtain ⟨a, ha, hagen, hprev, hpool, -⟩ := hfresh state hstate
      obtain ⟨a', ha', hagen', hprev', hpool', -⟩ := hfresh' state (hactive.trans hstate)
      obtain rfl := inv.unique a ha a' ha' (hagen.trans hagen'.symm)
      exact hkept.harmless_iff.mpr ⟨hprev'.symm.trans hprev, hpool'.symm.trans hpool⟩
    · have hstate' := hactive.symm.trans hstate
      obtain ⟨htip, hpool⟩ := hkept.harmless_iff.mp (hh (Option.isSome_iff_exists.mpr ⟨state, hstate'⟩))
      obtain ⟨a, ha, hagen, hprev, hpool', hassembled⟩ := hfresh state hstate'
      exact ⟨a, ha, hagen, hprev.trans htip.symm, hpool'.trans hpool.symm, hassembled⟩

theorem Runs.fresh (cf : CollisionFree blocks)
    (h : Runs blocks (fun n e => n.mining.active.isSome → n.Harmless e) m) : m.Inv blocks ∧ m.Fresh := by
  induction h with
  | start hs =>
    refine ⟨⟨(hs.whole cf).1, fun _ ha => absurd ha List.not_mem_nil, fun _ ha => absurd ha List.not_mem_nil⟩, ?_⟩
    intro state hstate
    cases hstate
  | @event m m' e effects values now _ hne hb hallowed hok hvalues hp ih =>
    have hz := fun b hmem => cf.nonzero b (.inr (hb b hmem))
    have hmoves := Node.handle_moves ih.1.whole hz hne hok
    obtain ⟨inv', hiff⟩ := proceed_fresh ih.1 (Node.handle_whole cf ih.1.whole hb) hmoves hvalues hp ih.2
    exact ⟨inv', hiff.mpr hallowed⟩
  | @found m a xs ys block stop now fuel _ hsearching _ _ ih =>
    have hmem : ∀ x, x ∈ ({ m with searching := xs ++ ys, results := m.results ++ [(a, block)] } : Miner F).attempts ↔
        x ∈ m.attempts := by
      intro x
      simp only [attempts, hsearching, List.map_append, List.map_cons, List.map_nil, List.mem_append, List.mem_cons,
        List.not_mem_nil, or_false]
      tauto
    refine ⟨ih.1.of_subset fun x hx => (hmem x).mp hx, fun state hstate => ?_⟩
    obtain ⟨x, hx, hfresh⟩ := ih.2 state hstate
    exact ⟨x, (hmem x).mpr hx, hfresh⟩
  | @stopped m a xs ys _ hsearching hstale ih =>
    refine ⟨ih.1.of_subset fun x hx => ?_, fun state hstate => ?_⟩
    · simp only [attempts, hsearching, List.mem_append, List.mem_cons] at hx ⊢
      tauto
    · obtain ⟨x, hx, hgen, hfresh⟩ := ih.2 state hstate
      have hne : x ≠ a := by
        rintro rfl
        exact hstale (by rw [hstate, hgen]; rfl)
      refine ⟨x, ?_, hgen, hfresh⟩
      simp only [attempts, hsearching, List.mem_append, List.mem_cons] at hx ⊢
      tauto
  | @reported m m' a block rest now commit effects values reading _ hresults hblock hok hvalues hp ih =>
    have hb : ∀ b ∈ (LedgerEvent.miningResult a.generation block now commit : LedgerEvent F).blocks, blocks b :=
      fun b hmem => List.mem_singleton.mp hmem ▸ hblock
    have w' := Node.handle_whole cf ih.1.whole hb
    have inv' : ({ m with results := rest } : Miner F).Inv blocks := ih.1.of_subset fun x hx => by
      simp only [attempts, hresults, List.map_cons, List.mem_append, List.mem_cons] at hx ⊢
      tauto
    rcases Node.miningResult_moves ih.1.whole (cf.nonzero block (.inr hblock)) hok with ⟨hcurrent, hmining⟩ | ⟨hstale, hsame⟩
    · obtain ⟨state, hstate, -⟩ := Option.map_eq_some_iff.mp hcurrent
      have hstart : m.node.mining.restartIfActive = m.node.mining.start state.publicKey := by
        unfold Mining.restartIfActive
        rw [hstate]
      exact proceed_restarted inv' w' (hmining.trans hstart) hvalues hp
    · have hnode : (m.node.handle (.miningResult a.generation block now commit)).1 = m.node := hsame
      rw [hnode] at hp
      obtain rfl := proceed_same rfl hp
      refine ⟨inv', fun state hstate => ?_⟩
      obtain ⟨x, hx, hgen, hfresh⟩ := ih.2 state hstate
      have hne : x ≠ a := by
        rintro rfl
        exact hstale ((congrArg _ hstate).trans (congrArg some hgen.symm))
      refine ⟨x, ?_, hgen, hfresh⟩
      simp only [attempts, hresults, List.map_cons, List.mem_append, List.mem_cons] at hx ⊢
      tauto

/-- A harmless event goes through. -/
theorem Runs.exists_event (cf : CollisionFree blocks) (h : Runs blocks (fun n e => n.mining.active.isSome → n.Harmless e) m)
    (hnode : m.node = node) (e : LedgerEvent F) {values : List Transaction}
    (hne : ∀ generation block now commit, e ≠ .miningResult generation block now commit) (hb : ∀ b ∈ e.blocks, blocks b)
    (hharmless : node.mining.active.isSome → node.Harmless e) (hok : (node.handle e).2.fault? = none)
    (hvalues : Values (node.handle e).1.mempool values) (now : UInt64) :
    ∃ m', m'.node = (node.handle e).1 ∧ Runs blocks (fun n e => n.mining.active.isSome → n.Harmless e) m' := by
  subst hnode
  have w := Node.handle_whole cf (h.fresh cf).1.whole hb
  obtain ⟨m', hp, hnode⟩ := exists_proceed w m values now
  rcases hr : (m.node.handle e).2 with fault | effects
  · rw [hr] at hok
    cases hok
  · exact ⟨m', hnode, h.event hne hb hharmless hr hvalues hp⟩

end Miner

/-- As long as no event changes the tip or the mempool behind the back of a search, mining is never stale, and an event
that does makes it so. -/
theorem mining_fresh {blocks : Block → Prop} (cf : CollisionFree blocks) {m : Miner F}
    (h : Miner.Runs blocks (fun n e => n.mining.active.isSome → n.Harmless e) m) :
    m.Fresh ∧ ∀ e m' effects values now, (∀ generation block now commit, e ≠ .miningResult generation block now commit) →
      (∀ b ∈ e.blocks, blocks b) → (m.node.handle e).2 = .ok effects → Values (m.node.handle e).1.mempool values →
      m.proceed (m.node.handle e).1 values now = .ok m' → (m'.Fresh ↔ (m.node.mining.active.isSome → m.node.Harmless e)) := by
  obtain ⟨inv, hfresh⟩ := h.fresh cf
  refine ⟨hfresh, fun e m' effects values now hne hb hok hvalues hp => ?_⟩
  have hz := fun b hmem => cf.nonzero b (.inr (hb b hmem))
  exact (Miner.proceed_fresh inv (Node.handle_whole cf inv.whole hb) (Node.handle_moves inv.whole hz hne hok) hvalues hp
    hfresh).2

end

section
attribute [local instance] signed

namespace Miner

theorem collisionFree_none : CollisionFree fun _ => False :=
  (collisionFree_of_hashed (by decide +kernel) (by decide +kernel) : CollisionFree (· ∈ [])).mono fun _ h => h.elim

theorem ran_opened (blocks : Block → Prop) : ChainStore.Ran blocks (ChainStore.opened ℚ) :=
  .opened ((ChainStore.openAt_empty (collisionFree_none.nonzero _ (.inl rfl))).mpr ⟨rfl, rfl, rfl⟩)

/-- A new node that was told to mine. -/
def minerNode : Node ℚ := ((Node.start (ChainStore.opened ℚ)).handle (.startMining aliceKey)).1

theorem exists_mining {blocks : Block → Prop} (cf : CollisionFree blocks) : ∃ m : Miner ℚ, m.node = minerNode ∧
    ∀ allowed : Node ℚ → LedgerEvent ℚ → Prop, (∀ n publicKey, allowed n (.startMining publicKey)) → Runs blocks allowed m := by
  have w : minerNode.chainStore.chain.Whole blocks := ((ran_opened blocks).whole cf).1
  obtain ⟨m, hp, hnode⟩ := exists_proceed w ⟨.start (ChainStore.opened ℚ), [], []⟩ [] 1750000300
  refine ⟨m, hnode, fun allowed hallowed => ?_⟩
  exact (Runs.start (ran_opened blocks)).event (fun _ _ _ _ h => by cases h) (fun _ h => absurd h List.not_mem_nil)
    (hallowed _ _) rfl .empty hp

/-- The node after it heard of a claim. -/
@[irreducible] def claimedNode : Node ℚ := (minerNode.handle (.gossipedTransaction aliceClaim)).1

theorem claimedNode_mempool : claimedNode.mempool = Table.empty.insert aliceClaim.id aliceClaim := by
  have hok : aliceClaim.verifySelfContained = .ok () := by decide +kernel
  unfold claimedNode
  show (minerNode.gossipedTransaction aliceClaim).mempool = _
  unfold Node.gossipedTransaction
  rw [hok]
  rfl

/-- The node after it took a block with the claim. -/
@[irreducible] def extendedNode : Node ℚ := (claimedNode.handle (.gossipedBlock claimBlock minedAt (.ok ()))).1

theorem values_extendedNode (h : (claimedNode.chainStore.tryApply claimBlock minedAt (.ok ())).2 = .ok .extendedTip) :
    Values (claimedNode.handle (.gossipedBlock claimBlock minedAt (.ok ()))).1.mempool [] := by
  refine ⟨List.nodup_nil, fun tx => ?_⟩
  rw [Node.mempool_of_extends h, claimedNode_mempool, claimBlock, List.map_singleton, Table.removeAll_apply, Table.insert_apply]
  simp only [List.mem_singleton, List.not_mem_nil, false_iff]
  split_ifs <;> simp

end Miner

open Miner in
/-- The search goes on with the claim, and then on top of the block. -/
theorem mining_fresh_extended : ∃ m : Miner ℚ, m.node.mining.active.isSome ∧
    m.node.chainStore.chain.tipHash = claimBlock.hash ∧ m.Fresh := by
  have cf : CollisionFree (· ∈ [claimBlock]) := collisionFree_of_hashed (by decide +kernel) (by decide +kernel)
  obtain ⟨hclaimed, hextended, hresult, hactive, htip⟩ :
      (minerNode.handle (.gossipedTransaction aliceClaim)).2.fault? = none ∧
      (claimedNode.handle (.gossipedBlock claimBlock minedAt (.ok ()))).2.fault? = none ∧
      (claimedNode.chainStore.tryApply claimBlock minedAt (.ok ())).2 = .ok .extendedTip ∧
      extendedNode.mining.active.isSome ∧ extendedNode.chainStore.chain.tipHash = claimBlock.hash := by decide +kernel
  obtain ⟨m, hnode, hruns⟩ := exists_mining cf
  have hvalues : Values (minerNode.handle (.gossipedTransaction aliceClaim)).1.mempool [aliceClaim] := by
    rw [← claimedNode, claimedNode_mempool]
    exact .singleton aliceClaim
  obtain ⟨m₁, hnode₁, h₁⟩ := (hruns _ fun _ _ _ => trivial).exists_event cf hnode (.gossipedTransaction aliceClaim)
    (fun _ _ _ _ h => by cases h) (fun _ h => absurd h List.not_mem_nil) (fun _ => trivial) hclaimed
    hvalues 1750000310
  have hharmless : claimedNode.Harmless (.gossipedBlock claimBlock minedAt (.ok ())) := by
    show claimedNode.BlockHarmless claimBlock minedAt (.ok ())
    unfold Node.BlockHarmless
    rw [hresult]
    trivial
  rw [← claimedNode] at hnode₁
  obtain ⟨m₂, hnode₂, h₂⟩ := h₁.exists_event cf hnode₁ (.gossipedBlock claimBlock minedAt (.ok ()))
    (fun _ _ _ _ h => by cases h) (fun _ h => h) (fun _ => hharmless) hextended (values_extendedNode hresult) 1750000320
  rw [← extendedNode] at hnode₂
  exact ⟨m₂, hnode₂ ▸ hactive, hnode₂ ▸ htip, (mining_fresh cf h₂).1⟩

/-- A node that mines is given a claim of its own, and goes on mining without it. -/
theorem mining_stale_after_claim : ∃ (blocks : Block → Prop) (m : Miner ℚ), CollisionFree blocks ∧
    Miner.Runs blocks (fun _ _ => True) m ∧ ¬m.Fresh := by
  obtain ⟨m, hnode, hruns⟩ := Miner.exists_mining Miner.collisionFree_none
  have hok : aliceClaim.verifySelfContained = .ok () := by decide +kernel
  have hhandle : ∀ n : Node ℚ, n.handle (.submitUsernameClaim aliceClaim) =
      ({ n with mempool := n.mempool.insert aliceClaim.id aliceClaim }, .ok [.publishTransaction aliceClaim]) := by
    intro n
    show n.submitUsernameClaim aliceClaim = _
    unfold Node.submitUsernameClaim
    rw [hok]
  have hvalues : Values (m.node.handle (.submitUsernameClaim aliceClaim)).1.mempool [aliceClaim] := by
    rw [hhandle, hnode]
    exact .singleton aliceClaim
  have hresult : (m.node.handle (.submitUsernameClaim aliceClaim)).2 = .ok [.publishTransaction aliceClaim] := by rw [hhandle]
  have hblocks : ∀ b ∈ (LedgerEvent.submitUsernameClaim aliceClaim : LedgerEvent ℚ).blocks, False :=
    fun _ h => absurd h List.not_mem_nil
  have hevent : ∀ generation block now commit,
      (LedgerEvent.submitUsernameClaim aliceClaim : LedgerEvent ℚ) ≠ .miningResult generation block now commit :=
    fun _ _ _ _ h => by cases h
  obtain ⟨inv, hfresh⟩ := (hruns _ fun _ _ _ => trivial).fresh Miner.collisionFree_none
  have w := Node.handle_whole Miner.collisionFree_none inv.whole hblocks
  obtain ⟨m', hp, -⟩ := Miner.exists_proceed w m [aliceClaim] 1750000300
  refine ⟨_, m', Miner.collisionFree_none, (hruns _ fun _ _ => trivial).event hevent hblocks trivial hresult hvalues hp, ?_⟩
  have hmoves := Node.handle_moves inv.whole (fun b h => (hblocks b h).elim) hevent hresult
  rw [(Miner.proceed_fresh inv w hmoves hvalues hp hfresh).2]
  intro hharmless
  have hpool : m.node.mempool aliceClaim.id = some aliceClaim := hharmless (by rw [hnode]; rfl) hok
  rw [hnode] at hpool
  cases hpool

end
end SpiritChat
