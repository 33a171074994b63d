import SpiritChat.Theorems.Catchup
import SpiritChat.Theorems.Counted
import SpiritChat.Theorems.Mempool

/-! # When a sync has completed

A round asks for one batch of blocks above the node's own height. It completes when the batch went through, whether
the batch led to what the peer had announced or not. -/

namespace SpiritChat
open Lib

/-- What a peer announced, and the height of the node's own tip then. -/
structure Round (F : Type) where
  ownHeight : ℕ
  height : ℕ
  hash : Hash32
  work : F

/-- A round that completed, with the node's store before and after the answer that completed it, and the peer's store
when it gave that answer. -/
structure Completion (F : Type) where
  round : Round F
  before : ChainStore F
  after : ChainStore F
  peer : ChainStore F

def Effect.completes : Effect → Bool
  | .event (.chainSyncCompleted _) => true
  | _ => false

section
variable {F : Type}

namespace Round

/-- What the node asks for in the round. -/
def request (r : Round F) : ChainSyncRequest :=
  .getBlocks (r.ownHeight + 1) (min (wrappingSub r.height r.ownHeight) maxSyncBatch)

/-- The heights that this is answered for. -/
def served (r : Round F) : List ℕ :=
  servedHeights (r.ownHeight + 1) (min (wrappingSub r.height r.ownHeight) maxSyncBatch)

/-- A request that the node sends in the round is in flight from then on. -/
def opened (r : Round F) (inFlight : Table ℕ (ChainSyncRequest × Round F)) :
    List Effect → Table ℕ (ChainSyncRequest × Round F)
  | [.send _ id request] => inFlight.insert id (request, r)
  | _ => inFlight

end Round

namespace Completion

/-- The node's tip weighs what was announced. -/
def Truthful (c : Completion F) [LE F] : Prop := ∃ w, c.after.tipCumulativeWork = .ok w ∧ c.round.work ≤ w

/-- Before the answer the node's tip weighs that much already, or a block of the answer does. -/
def Reached (c : Completion F) [LE F] : Prop :=
  (∃ w, c.before.tipCumulativeWork = .ok w ∧ c.round.work ≤ w) ∨
    ∃ k ∈ c.round.served, ∃ h m, c.peer.chain.canonicalIndex k = some h ∧ c.peer.chain.metas h = some m ∧
      c.round.work ≤ m.cumulativeWork

/-- The announced tip is one to 500 heights above the node's own, and the peer still has it. -/
structure InBatch (c : Completion F) : Prop where
  above : c.round.ownHeight < c.round.height
  within : c.round.height ≤ c.round.ownHeight + maxSyncBatch
  width : c.round.height + 1 < 2 ^ 64
  kept : c.peer.chain.canonicalIndex c.round.height = some c.round.hash

/-- The completion that comes with these effects, if one does. -/
def among (c : Completion F) (effects : List Effect) : List (Completion F) :=
  if effects.any Effect.completes then [c] else []

end Completion

variable [Float64 F] [Primitives]

/-- The runs of a node, with its requests for blocks that are in flight and the rounds that have completed. The peers
run the same code on the same network: each answer comes from a store of theirs, whichever it is by then. -/
inductive Syncs (blocks : Block → Prop) : Node F → Table ℕ (ChainSyncRequest × Round F) → List (Completion F) → Prop
  | start {s : ChainStore F} : ChainStore.Ran blocks s → Syncs blocks (.start s) Table.empty []
  | event {n : Node F} {inFlight : Table ℕ (ChainSyncRequest × Round F)} {done : List (Completion F)} (e : LedgerEvent F) :
      Syncs blocks n inFlight done → (∀ b ∈ e.blocks, blocks b) → (∀ id response now commit, e ≠ .chainSyncResponse id response now commit) →
      Syncs blocks (n.handle e).1 inFlight done
  | failed {n : Node F} {inFlight : Table ℕ (ChainSyncRequest × Round F)} {done : List (Completion F)} (id : ℕ) :
      Syncs blocks n inFlight done →
      Syncs blocks { n with pending := (n.pending.removeTip id).removeBlocks id } inFlight done
  | tipAnswered {n : Node F} {inFlight : Table ℕ (ChainSyncRequest × Round F)} {done : List (Completion F)} {id : ℕ}
      {b : ChainStore F} {round : Round F} {effects : List Effect} (now : ℕ → ℕ) (commit : ℕ → Commit) :
      Syncs blocks n inFlight done → ChainStore.Ran blocks b → (n.pending.chainSyncTip id).isSome →
      buildChainSyncResponse b .getTip = .ok (.tip round.height round.hash round.work) →
      n.chainStore.chain.tipHeight = .ok round.ownHeight →
      (n.handleChainSyncResponse id (.tip round.height round.hash round.work) now commit).2 = .ok effects →
      Syncs blocks (n.handleChainSyncResponse id (.tip round.height round.hash round.work) now commit).1
        (round.opened inFlight effects)
        (Completion.among ⟨round, n.chainStore,
          (n.handleChainSyncResponse id (.tip round.height round.hash round.work) now commit).1.chainStore, b⟩ effects ++ done)
  | blocksAnswered {n : Node F} {inFlight : Table ℕ (ChainSyncRequest × Round F)} {done : List (Completion F)} {id : ℕ}
      {b : ChainStore F} {round : Round F} {request : ChainSyncRequest} {response : ChainSyncResponse F}
      {effects : List Effect} (now : ℕ → ℕ) (commit : ℕ → Commit) :
      Syncs blocks n inFlight done → ChainStore.Ran blocks b → inFlight id = some (request, round) →
      n.pending.chainSyncTip id = none → buildChainSyncResponse b request = .ok response →
      (n.handleChainSyncResponse id response now commit).2 = .ok effects →
      Syncs blocks (n.handleChainSyncResponse id response now commit).1 inFlight
        (Completion.among ⟨round, n.chainStore, (n.handleChainSyncResponse id response now commit).1.chainStore, b⟩ effects ++ done)

/-! ### One answer -/

/-- What a peer announced is the tip that a store of its had. -/
def Round.Announced (blocks : Block → Prop) (r : Round F) : Prop :=
  ∃ b : ChainStore F, ChainStore.Ran blocks b ∧ buildChainSyncResponse b .getTip = .ok (.tip r.height r.hash r.work)

variable {blocks : Block → Prop} {r : Round F} {c : Completion F} {n : Node F}

theorem Round.Announced.exists_meta (h : r.Announced blocks) (cf : CollisionFree blocks) :
    ∃ (c : Chain F) (m : BlockMeta F), c.Whole blocks ∧ c.metas r.hash = some m ∧ m.cumulativeWork = r.work := by
  obtain ⟨b, hb, h⟩ := h
  obtain ⟨height, -, h⟩ := except_bind_eq_ok.mp h
  obtain ⟨work, hwork, h⟩ := except_bind_eq_ok.mp h
  obtain ⟨m, hm, rfl⟩ := Node.tipCumulativeWork_eq_ok.mp hwork
  have htip := ChainSyncResponse.tip.inj (Except.ok.inj h)
  exact ⟨b.chain, m, (hb.whole cf).1, htip.2.1 ▸ hm, htip.2.2⟩

/-- A block of the answer at a height asked for is among the blocks given, so it is known once they all are. -/
theorem ChainStore.applyBlocks_known {s : ChainStore F} {mempool : Table Hash32 Transaction} {now : ℕ → ℕ}
    {commit : ℕ → Commit} {bs : List Block} (cf : CollisionFree blocks) (w : s.chain.Whole blocks)
    (hbs : ∀ b ∈ bs, b = .genesis ∨ blocks b) (hok : (s.applyBlocks mempool now commit bs).2.2 = .ok ()) :
    ∀ b ∈ bs, ((s.applyBlocks mempool now commit bs).1.chain.metas b.hash).isSome := by
  induction bs generalizing s mempool now commit with
  | nil => exact fun b hb => absurd hb List.not_mem_nil
  | cons b bs ih =>
    have hb := hbs b List.mem_cons_self
    have hz := cf.nonzero b hb
    have w₁ := w.tryApply cf hb (now 0)
    rw [← tryApply_chain w.grown.inv hz (now 0) (commit 0)] at w₁
    have happ := tryApply_applied w.grown.inv hz (now 0) (commit 0)
    unfold applyBlocks at hok ⊢
    rcases hr : s.tryApply b (now 0) (commit 0) with ⟨s₁, e | o⟩
    · simp only [hr] at hok
      cases hok
    · simp only [hr] at hok w₁ happ ⊢
      have hrest := fun x hx => hbs x (List.mem_cons_of_mem b hx)
      have hkept := (applyBlocks_whole (mempool.removeAll (b.transactions.map Transaction.id)) (fun i => now (i + 1))
        (fun i => commit (i + 1)) cf hrest w₁).2.1
      have hknown : (s₁.chain.metas b.hash).isSome := by
        cases happ with
        | known hk => exact hk
        | persisted _ _ _ g =>
          have hm := g.metas
          rw [hm, Table.insert_self]
          rfl
      intro x hx
      rcases List.mem_cons.mp hx with rfl | hx
      · obtain ⟨m, hm⟩ := Option.isSome_iff_exists.mp hknown
        exact Option.isSome_iff_exists.mpr ⟨m, hkept _ m hm⟩
      · exact ih w₁ hrest hok x hx

/-- All that is said of a completion. -/
def Completion.Sound (c : Completion F) : Prop := (c.Truthful ↔ c.Reached) ∧ (c.InBatch → c.Reached)

theorem Chain.Whole.genesis_known {c : Chain F} (w : c.Whole blocks) : (c.metas Block.genesis.hash).isSome := by
  obtain ⟨l, hl, -⟩ := w.exists_path
  obtain ⟨t, rfl⟩ := hl.eq_cons
  rw [← w.grown.floor.1]
  exact w.grown.inv.known hl _ List.mem_cons_self

/-- The tip as the heaviest block known. -/
theorem Chain.Whole.le_tip {s : ChainStore F} (w : s.chain.Whole blocks) {h : Hash32} {m : BlockMeta F}
    (hm : s.chain.metas h = some m) : ∃ work, s.tipCumulativeWork = .ok work ∧ m.cumulativeWork ≤ work := by
  obtain ⟨tm, htm, hmax⟩ := w.grown.best
  exact ⟨_, Node.tipCumulativeWork_eq_ok.mpr ⟨tm, htm, rfl⟩, hmax h m hm⟩

/-- A round whose batch went through. -/
theorem Completion.sound_of_applied (cf : CollisionFree blocks) {mempool : Table Hash32 Transaction} {now : ℕ → ℕ}
    {commit : ℕ → Commit} {bs : List Block} (w : c.before.chain.Whole blocks) (w' : c.peer.chain.Whole blocks)
    (ha : c.round.Announced blocks) (hbs : c.round.served.mapM c.peer.chain.canonicalBlockAt = some bs)
    (hafter : (c.before.applyBlocks mempool now commit bs).1 = c.after)
    (hok : (c.before.applyBlocks mempool now commit bs).2.2 = .ok ()) : c.Sound := by
  have hsub := w'.bodies_of_mapM hbs
  obtain ⟨w₁, hkeep, horigin⟩ := ChainStore.applyBlocks_whole mempool now commit cf hsub w
  have hknown := ChainStore.applyBlocks_known cf w hsub hok
  rw [hafter] at w₁ hkeep horigin hknown
  refine ⟨⟨?_, ?_⟩, ?_⟩
  · rintro ⟨work, hwork, hle⟩
    obtain ⟨tm, htm, rfl⟩ := Node.tipCumulativeWork_eq_ok.mp hwork
    rcases horigin _ (Option.isSome_iff_exists.mpr ⟨tm, htm⟩) with hk | ⟨b, hb, hx⟩
    · obtain ⟨m, hm⟩ := Option.isSome_iff_exists.mp hk
      obtain rfl := Option.some.inj ((hkeep _ m hm).symm.trans htm)
      obtain ⟨work, hwork, hmax⟩ := w.le_tip hm
      exact .inl ⟨work, hwork, hle.trans hmax⟩
    · obtain ⟨k, hk, hblock⟩ := exists_of_mem_mapM hbs hb
      obtain ⟨h, hcan, hbody⟩ := Option.bind_eq_some_iff.mp hblock
      obtain ⟨rfl, m, hm, -⟩ := w'.grown.inv.stored h b hbody
      have heq := w₁.meta_eq w' cf (hknown b hb) (Option.isSome_iff_exists.mpr ⟨m, hm⟩)
      rw [hx, htm, ← hx, hm] at heq
      exact .inr ⟨k, hk, _, m, hcan, hm, Option.some.inj heq ▸ hle⟩
  · rintro (⟨work, hwork, hle⟩ | ⟨k, hk, h, m, hcan, hm, hle⟩)
    · obtain ⟨tm, htm, rfl⟩ := Node.tipCumulativeWork_eq_ok.mp hwork
      obtain ⟨work, hwork, hmax⟩ := w₁.le_tip (hkeep _ tm htm)
      exact ⟨work, hwork, hle.trans hmax⟩
    · obtain ⟨b, hb, hblock⟩ := exists_mem_of_mapM hbs hk
      obtain ⟨h', hcan', hbody⟩ := Option.bind_eq_some_iff.mp hblock
      obtain rfl := Option.some.inj (hcan.symm.trans hcan')
      obtain ⟨rfl, -⟩ := w'.grown.inv.stored h b hbody
      have hm₁ := (w₁.meta_eq w' cf (hknown b hb) (Option.isSome_iff_exists.mpr ⟨m, hm⟩)).trans hm
      obtain ⟨work, hwork, hmax⟩ := w₁.le_tip hm₁
      exact ⟨work, hwork, hle.trans hmax⟩
  · intro hin
    obtain ⟨c', m, wa, hm, hwork⟩ := ha.exists_meta cf
    obtain ⟨l, hl, -, hidx⟩ := w'.exists_path
    have hk := w'.grown.inv.known hl _ (List.mem_of_getElem? ((hidx _).symm.trans hin.kept))
    have hm' := (w'.meta_eq wa cf hk (Option.isSome_iff_exists.mpr ⟨m, hm⟩)).trans hm
    refine .inr ⟨c.round.height, ?_, _, m, hin.kept, hm', hwork.ge⟩
    unfold Round.served
    rw [Node.servedHeights_requested hin.above hin.within hin.width, List.mem_range'_1]
    have := hin.above
    omega

/-! ### The runs -/

namespace Node

theorem applyAndBroadcastBlock_chainStore (b : Block) (now : ℕ) (commit : Commit) :
    (n.applyAndBroadcastBlock b now commit).1.chainStore = (n.chainStore.tryApply b now commit).1 := by
  unfold applyAndBroadcastBlock
  rcases n.chainStore.tryApply b now commit with ⟨s, (_ | _ | _) | o⟩
  · rfl
  · rfl
  · rfl
  · cases o with
    | alreadyKnown => rfl
    | addedToFork => rfl
    | extendedTip =>
      dsimp only
      rw [if_neg (by decide)]
      split <;> rfl
    | reorgedTo newTip =>
      dsimp only
      rw [if_neg (by simp)]
      split <;> rfl

theorem miningResult_chainStore (generation : ℕ) (b : Block) (now : ℕ) (commit : Commit) :
    (n.miningResult generation b now commit).1.chainStore = n.chainStore ∨
      (n.miningResult generation b now commit).1.chainStore = (n.chainStore.tryApply b now commit).1 := by
  unfold miningResult
  split_ifs with hcurrent
  · exact .inl rfl
  · right
    rw [← applyAndBroadcastBlock_chainStore]
    rcases n.applyAndBroadcastBlock b now commit with ⟨n', _ | ⟨_ | o, effects⟩⟩
    · rfl
    · rfl
    · cases o <;> rfl

/-- An event other than the answer of a peer brings at most one block. -/
theorem handle_chainStore (n : Node F) (e : LedgerEvent F) (hne : ∀ id response now commit, e ≠ .chainSyncResponse id response now commit) :
    (n.handle e).1.chainStore = n.chainStore ∨
      ∃ b ∈ e.blocks, ∃ now commit, (n.handle e).1.chainStore = (n.chainStore.tryApply b now commit).1 := by
  cases e with
  | submitUsernameClaim tx =>
    left
    simp only [handle, submitUsernameClaim]
    rcases tx.verifySelfContained with (_ | _ | _) | _ <;> rfl
  | submitMinedBlock b now commit =>
    exact .inr ⟨b, List.mem_singleton_self b, now, commit, applyAndBroadcastBlock_chainStore b now commit⟩
  | startMining => exact .inl rfl
  | stopMining => exact .inl rfl
  | requestChainSync => exact .inl rfl
  | gossipedBlock b now commit =>
    exact .inr ⟨b, List.mem_singleton_self b, now, commit, applyAndBroadcastBlock_chainStore b now commit⟩
  | gossipedTransaction tx =>
    left
    simp only [handle, gossipedTransaction]
    rcases tx.verifySelfContained with _ | _ <;> rfl
  | miningResult generation b now commit =>
    exact (miningResult_chainStore generation b now commit).imp_right fun h => ⟨b, List.mem_singleton_self b, now, commit, h⟩
  | chainSyncResponse id response now commit => exact absurd rfl (hne id response now commit)

/-- What holds of the node and of its requests between two events. -/
structure SyncInv (blocks : Block → Prop) (n : Node F) (inFlight : Table ℕ (ChainSyncRequest × Round F)) : Prop where
  whole : n.chainStore.chain.Whole blocks
  asked : ∀ id request r, inFlight id = some (request, r) → request = r.request ∧ r.Announced blocks

/-- The two outcomes of an answer to `GetTip`. -/
theorem tip_answered {id : ℕ} {peer : PeerId} {r : Round F} {now : ℕ → ℕ} {commit : ℕ → Commit} {effects : List Effect}
    (hpeer : n.pending.chainSyncTip id = some peer) (hown : n.chainStore.chain.tipHeight = .ok r.ownHeight)
    (h : (n.handleChainSyncResponse id (.tip r.height r.hash r.work) now commit).2 = .ok effects) :
    (n.handleChainSyncResponse id (.tip r.height r.hash r.work) now commit).1.chainStore = n.chainStore ∧
      ((effects = [.event (.chainSyncCompleted r.ownHeight)] ∧ ∃ w, n.chainStore.tipCumulativeWork = .ok w ∧ r.work ≤ w) ∨
        ∃ id', effects = [.send peer id' r.request]) := by
  simp only [handleChainSyncResponse, hpeer] at h ⊢
  rcases ht : ({ n with pending := n.pending.removeTip id } : Node F).handleTip peer (.tip r.height r.hash r.work) with
    _ | ⟨pending, effects'⟩
  · simp only [ht] at h
    cases h
  · simp only [ht] at h ⊢
    obtain rfl := Except.ok.inj h
    refine ⟨trivial, ?_⟩
    obtain ⟨w, hw, ht⟩ := except_bind_eq_ok.mp ht
    rw [hown, Exec.ok_bind] at ht
    split_ifs at ht with hle
    · cases ht
      exact .inl ⟨rfl, w, hw, hle⟩
    · cases ht
      exact .inr ⟨_, rfl⟩

/-- An answer to `GetBlocks` adds its blocks, and a batch that completes a round went through as a whole. -/
theorem blocks_answered (cf : CollisionFree blocks) (w : n.chainStore.chain.Whole blocks) {b : ChainStore F}
    (w' : b.chain.Whole blocks) {id : ℕ} {response : ChainSyncResponse F} {now : ℕ → ℕ} {commit : ℕ → Commit}
    {effects : List Effect} (hnone : n.pending.chainSyncTip id = none)
    (hresponse : response = (r.served.mapM b.chain.canonicalBlockAt).elim .notAvailable .blocks)
    (h : (n.handleChainSyncResponse id response now commit).2 = .ok effects) :
    (n.handleChainSyncResponse id response now commit).1.chainStore.chain.Whole blocks ∧
      (effects.any Effect.completes → ∃ bs, r.served.mapM b.chain.canonicalBlockAt = some bs ∧
        (n.chainStore.applyBlocks n.mempool now commit bs).1 = (n.handleChainSyncResponse id response now commit).1.chainStore ∧
        (n.chainStore.applyBlocks n.mempool now commit bs).2.2 = .ok ()) := by
  simp only [handleChainSyncResponse, hnone] at h ⊢
  rcases hpeer : n.pending.chainSyncBlocks id with _ | peer
  · simp only [hpeer] at h ⊢
    cases h
    exact ⟨w, fun h => by cases h⟩
  · simp only [hpeer] at h ⊢
    rcases hbs : r.served.mapM b.chain.canonicalBlockAt with _ | bs
    · rw [hbs, Option.elim_none] at hresponse
      subst hresponse
      cases h
      exact ⟨w, fun h => by cases h⟩
    · rw [hbs, Option.elim_some] at hresponse
      subst hresponse
      rw [handleBlocks_chainStore]
      refine ⟨(ChainStore.applyBlocks_whole n.mempool now commit cf (w'.bodies_of_mapM hbs) w).1, fun hdone => ?_⟩
      refine ⟨bs, rfl, rfl, ?_⟩
      simp only [handleBlocks] at h
      rcases hr : n.chainStore.applyBlocks n.mempool now commit bs with ⟨s', mempool, (e | _ | _) | _⟩
      · rw [hr] at h
        cases h
        cases hdone
      · rw [hr] at h
        cases h
      · rw [hr] at h
        cases h
      · rfl

theorem handleBlocks_of_applied (peer : PeerId) {now : ℕ → ℕ} {commit : ℕ → Commit} {bs : List Block}
    (hok : (n.chainStore.applyBlocks n.mempool now commit bs).2.2 = .ok ())
    (w : (n.chainStore.applyBlocks n.mempool now commit bs).1.chain.Whole blocks) :
    ∃ height hash, (n.handleBlocks peer (.blocks bs) now commit).2 =
      .ok [.event (.chainTipChanged height hash), .event (.chainSyncCompleted height)] := by
  obtain ⟨l, -, hheight, -⟩ := w.exists_path
  simp only [handleBlocks]
  rcases hr : n.chainStore.applyBlocks n.mempool now commit bs with ⟨s', mempool, r⟩
  rw [hr] at hok hheight
  cases hok
  simp only [hheight]
  exact ⟨_, _, rfl⟩

end Node

theorem Syncs.sound (cf : CollisionFree blocks) {inFlight : Table ℕ (ChainSyncRequest × Round F)}
    {done : List (Completion F)} (h : Syncs blocks n inFlight done) :
    n.SyncInv blocks inFlight ∧ ∀ c ∈ done, c.Sound := by
  induction h with
  | start hs => exact ⟨⟨(hs.whole cf).1, fun _ _ _ h => by cases h⟩, fun _ h => absurd h List.not_mem_nil⟩
  | @event n inFlight done e _ hb hne ih =>
    obtain ⟨⟨w, asked⟩, hsound⟩ := ih
    refine ⟨⟨?_, asked⟩, hsound⟩
    rcases n.handle_chainStore e hne with hsame | ⟨b, hmem, now, commit, happ⟩
    · rwa [hsame]
    · have hsub : b = .genesis ∨ blocks b := .inr (hb b hmem)
      rw [happ, ChainStore.tryApply_chain w.grown.inv (cf.nonzero b hsub)]
      exact w.tryApply cf hsub now
  | failed id _ ih => exact ⟨⟨ih.1.whole, ih.1.asked⟩, ih.2⟩
  | @tipAnswered n inFlight done id b r effects now commit _ hb hid htip hown heffects ih =>
    obtain ⟨⟨w, asked⟩, hsound⟩ := ih
    obtain ⟨peer, hpeer⟩ := Option.isSome_iff_exists.mp hid
    obtain ⟨hsame, ⟨rfl, hle⟩ | ⟨id', rfl⟩⟩ := Node.tip_answered hpeer hown heffects
    · refine ⟨⟨hsame.symm ▸ w, asked⟩, fun c hc => ?_⟩
      rcases List.mem_cons.mp hc with rfl | hc
      · refine ⟨⟨fun _ => .inl hle, fun _ => ?_⟩, fun _ => .inl hle⟩
        unfold Completion.Truthful
        rwa [hsame]
      · exact hsound c hc
    · refine ⟨⟨hsame.symm ▸ w, fun k q r' hk => ?_⟩, hsound⟩
      rcases Table.insert_eq_some.mp hk with ⟨-, he⟩ | ⟨-, hk⟩
      · cases he
        exact ⟨rfl, b, hb, htip⟩
      · exact asked k q r' hk
  | @blocksAnswered n inFlight done id b r request response effects now commit _ hb hflight hnone hresponse heffects ih =>
    obtain ⟨⟨w, asked⟩, hsound⟩ := ih
    obtain ⟨rfl, ha⟩ := asked id request r hflight
    obtain ⟨w', -⟩ := hb.whole cf
    obtain ⟨w₁, hbatch⟩ := Node.blocks_answered cf w w' hnone (Except.ok.inj hresponse).symm heffects
    refine ⟨⟨w₁, asked⟩, fun c hc => ?_⟩
    rcases List.mem_append.mp hc with hc | hc
    · unfold Completion.among at hc
      split_ifs at hc with hdone
      · obtain rfl := List.mem_singleton.mp hc
        obtain ⟨bs, hbs, hafter, hok⟩ := hbatch hdone
        exact Completion.sound_of_applied cf w w' ha hbs hafter hok
      · cases hc
    · exact hsound c hc

/-- When a peer is heavier and its batch goes through, a run goes on to where the round completes. -/
theorem Syncs.completes (cf : CollisionFree blocks) {inFlight : Table ℕ (ChainSyncRequest × Round F)}
    {done : List (Completion F)} (h : Syncs blocks n inFlight done) {b : ChainStore F} (hb : ChainStore.Ran blocks b)
    (peer : PeerId) (now : ℕ → ℕ) (commit : ℕ → Commit) (r : Round F) {work : F} {bs : List Block}
    (hown : n.chainStore.chain.tipHeight = .ok r.ownHeight) (hwork : n.chainStore.tipCumulativeWork = .ok work)
    (htip : buildChainSyncResponse b .getTip = .ok (.tip r.height r.hash r.work)) (hlt : work < r.work)
    (hbs : r.served.mapM b.chain.canonicalBlockAt = some bs)
    (hok : (n.chainStore.applyBlocks n.mempool now commit bs).2.2 = .ok ()) :
    ∃ n' inFlight' after, Syncs blocks n' inFlight' (⟨r, n.chainStore, after, b⟩ :: done) := by
  have hasked := h.event (.requestChainSync peer) (fun _ h => absurd h List.not_mem_nil) (fun _ _ _ _ h => by cases h)
  have hfirst : (n.pending.awaitTip peer).chainSyncTip n.pending.nextRequestId = some peer := Table.insert_self
  have hheavier := Node.handleTip_heavier (n := { n with pending := (n.pending.awaitTip peer).removeTip n.pending.nextRequestId })
    peer r.height r.hash hown hwork hlt
  have hanswer : ((n.handle (.requestChainSync peer)).1.handleChainSyncResponse n.pending.nextRequestId
      (.tip r.height r.hash r.work) now commit) =
      ({ n with pending := ((n.pending.awaitTip peer).removeTip n.pending.nextRequestId).awaitBlocks peer },
        .ok [.send peer (n.pending.nextRequestId + 1) r.request]) := by
    simp only [Node.handle, Node.requestChainSync, Node.handleChainSyncResponse, hfirst, hheavier, Round.request]
    rfl
  have hopened := hasked.tipAnswered now commit hb (Option.isSome_iff_exists.mpr ⟨peer, hfirst⟩) htip hown
    (congrArg Prod.snd hanswer)
  rw [hanswer] at hopened
  have hsecond : (((n.pending.awaitTip peer).removeTip n.pending.nextRequestId).awaitBlocks peer).chainSyncBlocks
      (n.pending.nextRequestId + 1) = some peer := Table.insert_self
  have hnone : (((n.pending.awaitTip peer).removeTip n.pending.nextRequestId).awaitBlocks peer).chainSyncTip
      (n.pending.nextRequestId + 1) = none :=
    Pending.remove_eq_none ((Table.insert_of_ne (by omega)).trans (n.pending.fresh _ (by omega)).1)
  have hresponse : buildChainSyncResponse b r.request = .ok (.blocks bs) := by
    have hserved : buildChainSyncResponse b r.request =
      .ok ((r.served.mapM b.chain.canonicalBlockAt).elim .notAvailable .blocks) := rfl
    rw [hserved, hbs, Option.elim_some]
  obtain ⟨w, -⟩ := hb.whole cf
  have w₁ := (ChainStore.applyBlocks_whole n.mempool now commit cf (w.bodies_of_mapM hbs) (h.sound cf).1.whole).1
  let pending := ((n.pending.awaitTip peer).removeTip n.pending.nextRequestId).awaitBlocks peer
  obtain ⟨height, hash, hdone⟩ := Node.handleBlocks_of_applied
    (n := { n with pending := pending.removeBlocks (n.pending.nextRequestId + 1) }) peer hok w₁
  have hclosed := hopened.blocksAnswered now commit hb Table.insert_self hnone hresponse (by
    simp only [Node.handleChainSyncResponse, hnone, hsecond]
    exact hdone)
  exact ⟨_, _, _, hclosed⟩

/-- A completion tells the truth exactly when the node already had the work announced or a block of the answer has
it. That is so whenever the announced tip is at most one batch above the node's own and is still the peer's. -/
theorem completed_truthful_iff (cf : CollisionFree blocks) {inFlight : Table ℕ (ChainSyncRequest × Round F)}
    {done : List (Completion F)} (h : Syncs blocks n inFlight done) :
    ∀ c ∈ done, (c.Truthful ↔ c.Reached) ∧ (c.InBatch → c.Reached) :=
  (Syncs.sound cf h).2

end

/-! ### A peer that is more than one batch ahead -/

namespace Counted
attribute [local instance] counting

/-- As many blocks as a batch holds, and one more. -/
def Mined (b : Block) : Prop := ∃ k ≤ 501, b = blockAt k

theorem collisionFree : CollisionFree Mined where
  nonzero b _ := hash_eq b ▸ hashAt_ne_zero _
  injective := by
    -- A hash tells a header from the empty commitment, and its height if it is a header.
    have hshape : ∀ x b, (b = .genesis ∨ Mined b) → b.Hashes x →
        x = [] ∨ ∃ k ≤ 501, x = (blockAt k).header.canonicalBytes := by
      intro x b hb hx
      obtain ⟨k, hk, rfl⟩ : Mined b := by
        rcases hb with rfl | hb
        · exact ⟨0, by omega, rfl⟩
        · exact hb
      rcases hx with rfl | rfl | ⟨tx, htx, -⟩
      · exact .inr ⟨k, hk, rfl⟩
      · exact .inl rfl
      · cases htx
    have hne : ∀ k, Hash32.of (blockAt k).header.canonicalBytes ≠ Hash32.of [] := by
      intro k h
      have hbyte := congrArg (fun h => h.asBytes[23]?) ((hash_eq (blockAt k)).symm.trans h)
      cases hbyte
    rintro x ⟨b, hb, hx⟩ y ⟨b', hb', hy⟩ hxy
    rcases hshape x b hb hx with rfl | ⟨i, hi, rfl⟩ <;> rcases hshape y b' hb' hy with rfl | ⟨j, hj, rfl⟩
    · rfl
    · exact absurd hxy.symm (hne j)
    · exact absurd hxy (hne i)
    · have hij := hashAt_inj (by omega) (by omega) ((hash_blockWith (by omega)).symm.trans (hxy.trans (hash_blockWith (by omega))))
      rw [hij]

/-! ### The chain of the peer -/

/-- The place of each block in the tree. -/
theorem derives {k : ℕ} (hk : k ≤ 501) : ∃ m, Derives ℚ (fun b _ => b = .genesis ∨ Mined b) (hashAt k)
    ((List.range (k + 1)).map ancestorAt) Table.empty m ∧ m.ancestor (hashAt k) = ancestorAt k ∧
    m.cumulativeWork = k * workOf initialDifficultyBits := by
  induction k with
  | zero =>
    have htime : timeAt 0 = genesisTimestamp.toNat := by decide
    have hm : (genesisMeta ℚ).ancestor (hashAt 0) = ancestorAt 0 := by
      unfold ancestorAt
      rw [htime]
      rfl
    have hd := (Derives.genesis : Derives ℚ (fun b _ => b = .genesis ∨ Mined b) _ _ _ _)
    rw [hash_genesis, hm] at hd
    refine ⟨_, hd, hm, ?_⟩
    rw [Nat.cast_zero, zero_mul]
    rfl
  | succ k ih =>
    obtain ⟨m, hd, hm, hwork⟩ := ih (by omega)
    have hadm := (Fits.nil k Table.empty).admits retarget_kept (by omega)
    have hprev : hashAt k = (blockAt (k + 1)).header.prevHash := rfl
    rw [← hm, hprev] at hadm
    rw [hprev] at hd
    have hsub : blockAt (k + 1) = .genesis ∨ Mined (blockAt (k + 1)) := .inr ⟨k + 1, hk, rfl⟩
    have hnext := Derives.child hd hsub hadm
    have hmeta : (Chain.childMeta m (blockAt (k + 1))).ancestor (hashAt (k + 1)) = ancestorAt (k + 1) := by
      simp only [BlockMeta.ancestor, Chain.childMeta, height_blockWith (k := k + 1) (by omega), time_blockWith (k := k + 1) (by omega)]
      rfl
    rw [hash_blockWith (by omega), hmeta] at hnext
    refine ⟨_, ?_, hmeta, ?_⟩
    · rw [List.range_succ, List.map_append]
      exact hnext
    · show m.cumulativeWork + workOf initialDifficultyBits = _
      rw [hwork, Nat.cast_succ, add_one_mul]

/-- The store of a peer that has mined so many blocks. -/
def store : ℕ → ChainStore ℚ
  | 0 => ChainStore.opened ℚ
  | k + 1 => ((store k).tryApply (blockAt (k + 1)) clock (.ok ())).1

theorem collisionFree_known : CollisionFree fun b => ∃ _ : ℕ, b = .genesis ∨ Mined b :=
  Chain.collisionFree_known collisionFree

theorem ran_store {k : ℕ} (hk : k ≤ 501) : ChainStore.Ran Mined (store k) := by
  induction k with
  | zero => exact .opened ((ChainStore.openAt_empty (collisionFree.nonzero _ (.inl rfl))).mpr ⟨rfl, rfl, rfl⟩)
  | succ k ih => exact .tryApply clock (.ok ()) (ih (by omega)) ⟨k + 1, hk, rfl⟩

theorem whole_store {k : ℕ} (hk : k ≤ 501) : (store k).chain.Whole Mined := ((ran_store hk).whole collisionFree).1

/-- What a chain knows at the hash of a block. -/
theorem metas_hashAt {c : Chain ℚ} (w : c.Whole Mined) {k : ℕ} (hk : k ≤ 501) {m : BlockMeta ℚ}
    (hm : c.metas (hashAt k) = some m) :
    m.cumulativeWork = k * workOf initialDifficultyBits ∧ c.ancestorOf (hashAt k) = ancestorAt k ∧
      ∃ l, c.Descends (hashAt k) l ∧ c.branch l = (List.range (k + 1)).map ancestorAt ∧ c.ownersOn l = Table.empty := by
  obtain ⟨l, hl⟩ := w.grown.line _ (Option.isSome_iff_exists.mpr ⟨m, hm⟩)
  obtain ⟨m', hd, hancestor, hwork⟩ := derives hk
  obtain ⟨hbranch, howners, rfl⟩ := (w.grown.derives _ l m hl hm).unique collisionFree_known hd
  exact ⟨hwork, (Chain.ancestorOf_eq hm).trans hancestor, l, hl, hbranch, howners⟩

theorem tipHash_store {k : ℕ} (hk : k ≤ 501) : (store k).chain.tipHash = hashAt k := by
  induction k with
  | zero => exact hash_genesis
  | succ k ih =>
    have w := whole_store (k := k) (by omega)
    have htip := ih (by omega)
    obtain ⟨tm, htm, hmax⟩ := w.grown.best
    rw [htip] at htm
    obtain ⟨hwork, hancestor, l, hl, hbranch, howners⟩ := metas_hashAt w (by omega) htm
    have hprev : hashAt k = (blockAt (k + 1)).header.prevHash := rfl
    have hadm := (Fits.nil k Table.empty).admits retarget_kept (by omega)
    rw [← hbranch, ← howners, ← hancestor, hprev] at hadm
    rw [hprev] at hl
    have hv := (w.grown.inv.rooted.validateBlock_eq_ok hl (w.grown.inv.bodies_of_descends hl)).mpr hadm
    have hnew : (store k).chain.metas (blockAt (k + 1)).hash = none := by
      rw [hash_blockWith (by omega)]
      refine Option.eq_none_iff_forall_ne_some.mpr fun m' hm' => ?_
      have hheavy := hmax _ m' hm'
      rw [hwork, (metas_hashAt w hk hm').1, Nat.cast_succ, add_one_mul] at hheavy
      exact absurd hheavy (not_le.mpr (lt_add_of_pos_right _ (workOf_pos _)))
    have hz := collisionFree.nonzero (blockAt (k + 1)) (.inr ⟨k + 1, hk, rfl⟩)
    have hext := ChainStore.tryApply_of_extends w.grown.inv (fun v t => lt_add_of_pos_right v (workOf_pos t)) hz hnew
      htip.symm hv
    exact (hext.1 (.ok ())).trans (hash_blockWith (by omega))

theorem tip_store {k : ℕ} (hk : k ≤ 501) : (store k).chain.tipHeight = .ok k ∧
    (store k).tipCumulativeWork = .ok (k * workOf initialDifficultyBits) := by
  have w := whole_store hk
  obtain ⟨tm, htm, -⟩ := w.grown.best
  obtain ⟨l, hl, hheight, -⟩ := w.exists_path
  have htm' := htm
  rw [tipHash_store hk] at htm' hl
  obtain ⟨hwork, -, l', hl', hbranch, -⟩ := metas_hashAt w hk htm'
  obtain rfl := hl.unique hl'
  have hlen := congrArg List.length hbranch
  simp only [Chain.branch, List.length_map, List.length_range] at hlen
  rw [hlen] at hheight
  exact ⟨hheight, Node.tipCumulativeWork_eq_ok.mpr ⟨tm, htm, hwork⟩⟩

/-- What such a peer announces to a new node. -/
def round (k : ℕ) : Round ℚ := ⟨0, k, hashAt k, k * workOf initialDifficultyBits⟩

theorem served_round {k : ℕ} (hk : k ≤ 501) : (round k).served = List.range' 1 (min k 500) := by
  have hsub : wrappingSub k 0 = k := by
    unfold wrappingSub
    omega
  have hstop : min (1 + min k 500) (2 ^ 64 - 1) - 1 = min k 500 := by omega
  show servedHeights 1 (min (wrappingSub k 0) maxSyncBatch) = _
  simp only [servedHeights, hsub, maxSyncBatch, min_assoc, min_self, hstop]

/-- The node asks for the batch, which goes through. -/
theorem synced {k : ℕ} (hpos : 0 < k) (hk : k ≤ 501) :
    ∃ n inFlight after, Syncs Mined n inFlight [⟨round k, store 0, after, store k⟩] := by
  have w := whole_store (k := 0) (by omega)
  have w' := whole_store hk
  obtain ⟨hown, hlight⟩ := tip_store (k := 0) (by omega)
  obtain ⟨hheight, hwork⟩ := tip_store hk
  obtain ⟨bs, hbs⟩ : ∃ bs, (List.range' 1 (min k 500)).mapM (store k).chain.canonicalBlockAt = some bs := by
    refine exists_mapM fun i hi => ?_
    obtain ⟨hfrom, hto⟩ := List.mem_range'_1.mp hi
    obtain ⟨x, hx⟩ := w'.exists_canonical hheight (show i ≤ k by omega)
    exact w'.exists_canonicalBlock (by omega) hx
  obtain ⟨first, hfirst⟩ := w'.exists_canonical hheight (Nat.zero_le k)
  obtain ⟨last, hlast⟩ := w'.exists_canonical hheight (show 0 + min k 500 ≤ k by omega)
  have hknown : ((store 0).chain.metas first).isSome := by
    obtain ⟨l, hl, -, hidx⟩ := w'.exists_path
    obtain ⟨t, rfl⟩ := hl.eq_cons
    have hf := (hidx 0).symm.trans hfirst
    rw [w'.grown.floor.1] at hf
    obtain rfl := Option.some.inj hf
    exact w.genesis_known
  have hdue : ∀ (i n : ℕ) b, (store k).chain.canonicalBlockAt n = some b → b.header.timestamp.toNat ≤ clock + maxFutureDriftSecs := by
    intro i n b hb
    obtain ⟨x, -, hbody⟩ := Option.bind_eq_some_iff.mp hb
    obtain ⟨j, hj, rfl⟩ : Mined b := by
      rcases w'.bodies x b hbody with rfl | hb
      · exact ⟨0, by omega, rfl⟩
      · exact hb
    rw [time_blockWith (by omega)]
    exact le_add_right (timeAt_le_clock (by omega))
  have hok : ((store 0).applyBlocks Table.empty (fun _ => clock) (fun _ => .ok ()) bs).2.2 = .ok () :=
    (ChainStore.applyBlocks_canonical Table.empty collisionFree w w' hdue hbs hfirst hknown hlast).1
  rw [← served_round hk] at hbs
  refine Syncs.completes collisionFree (.start (ran_store (k := 0) (by omega))) (ran_store hk) [] (fun _ => clock)
    (fun _ => .ok ()) (round k) hown hlight ?_ ?_ hbs hok
  · simp only [buildChainSyncResponse, hheight, hwork, tipHash_store hk, Exec.ok_bind]
    rfl
  · exact mul_lt_mul_of_pos_right (Nat.cast_lt.mpr hpos) (workOf_pos _)

theorem inBatch {k : ℕ} (hpos : 0 < k) (hk : k ≤ 500) (after : ChainStore ℚ) :
    (⟨round k, store 0, after, store k⟩ : Completion ℚ).InBatch where
  above := hpos
  within := hk.trans (Nat.le_add_left _ _)
  width := show k + 1 < 2 ^ 64 by omega
  kept := by
    have hkept := ((whole_store (by omega)).canonical_tip (tip_store (k := k) (by omega)).1 k).mpr rfl
    rwa [tipHash_store (by omega)] at hkept

theorem not_reached {k : ℕ} (hpos : 500 < k) (hk : k ≤ 501) (after : ChainStore ℚ) :
    ¬(⟨round k, store 0, after, store k⟩ : Completion ℚ).Reached := by
  have w := whole_store hk
  obtain ⟨hheight, hwork⟩ := tip_store hk
  rintro (⟨v, hv, hle⟩ | ⟨i, hi, x, m, hcan, hm, hle⟩)
  · obtain rfl := Except.ok.inj ((tip_store (k := 0) (by omega)).2.symm.trans hv)
    have hlt : ((0 : ℕ) : ℚ) * workOf initialDifficultyBits < k * workOf initialDifficultyBits :=
      mul_lt_mul_of_pos_right (Nat.cast_lt.mpr (by omega)) (workOf_pos _)
    exact absurd hle (not_le.mpr hlt)
  · obtain ⟨tm, htm, hw⟩ := Node.tipCumulativeWork_eq_ok.mp hwork
    have hne : x ≠ (store k).chain.tipHash := by
      rintro rfl
      have hi' := (w.canonical_tip hheight i).mp hcan
      have hserved := (served_round hk) ▸ hi
      rw [List.mem_range'_1] at hserved
      omega
    have hlt := w.lighter hcan hne hm htm
    rw [hw] at hlt
    exact absurd hle (not_le.mpr hlt)

end Counted

section
open Counted
attribute [local instance] counting

/-- A peer that is one block ahead. -/
theorem completed_truthful_iff_first : ∃ after, (⟨Counted.round 1, store 0, after, store 1⟩ : Completion ℚ).Truthful := by
  obtain ⟨n, inFlight, after, h⟩ := synced (k := 1) (by decide) (by decide)
  obtain ⟨hiff, hreached⟩ := completed_truthful_iff collisionFree h _ List.mem_cons_self
  exact ⟨after, hiff.mpr (hreached (inBatch (by decide) (by decide) after))⟩

/-- A peer that is 501 blocks ahead gives 500 of them, and the round completes with a tip lighter than the announced
one. -/
theorem completed_short_of_announced : ∃ (n : Node ℚ) (inFlight : Table ℕ (ChainSyncRequest × Round ℚ))
    (done : List (Completion ℚ)), CollisionFree Mined ∧ Syncs Mined n inFlight done ∧ ∃ c ∈ done, ¬c.Truthful := by
  obtain ⟨n, inFlight, after, h⟩ := synced (k := 501) (by decide) (by decide)
  refine ⟨n, inFlight, _, collisionFree, h, _, List.mem_cons_self, fun ht => ?_⟩
  have hsound := (Syncs.sound collisionFree h).2 _ List.mem_cons_self
  exact not_reached (by decide) (by decide) after (hsound.1.mp ht)

end
end SpiritChat
