import SpiritChat.Theorems.Catchup

/-! # The range of a sync

Whether to ask a peer for blocks is decided by work, and for which by heights. Both come from the peer. -/

namespace SpiritChat
open Lib

/-- A sum of `u64`s that is one. -/
def checkedAdd (a b : ℕ) : Option ℕ := if a + b < 2 ^ 64 then some (a + b) else none

/-- The range that a heavier tip is followed by, if no operation leaves the `u64`s. -/
def tipRange (tipHeight height : ℕ) : Option (ℕ × ℕ) := do
  let fromHeight ← checkedAdd tipHeight 1
  let ahead ← checkedSub height tipHeight
  return (fromHeight, min ahead maxSyncBatch)

/-- The blocks that are asked for are some, not too many, and counted without leaving the `u64`s. -/
def AsksInRange (tipHeight height : ℕ) (effects : List Effect) : Prop :=
  ∀ peer requestId fromHeight count, .send peer requestId (.getBlocks fromHeight count) ∈ effects →
    tipRange tipHeight height = some (fromHeight, count) ∧ 1 ≤ count ∧ count ≤ maxSyncBatch

section
variable {tipHeight height : ℕ}

theorem tipRange_of_lt (h : tipHeight < height) (hlt : height < 2 ^ 64) :
    tipRange tipHeight height = some (tipHeight + 1, min (height - tipHeight) maxSyncBatch) := by
  unfold tipRange checkedAdd checkedSub
  rw [if_pos (by omega), if_pos h.le]
  rfl

theorem wrappingSub_of_le (h : tipHeight ≤ height) (hlt : height < 2 ^ 64) : wrappingSub height tipHeight = height - tipHeight := by
  unfold wrappingSub
  omega

/-- Below the own height nothing is in range, and at the own height no block is asked for. -/
theorem tipRange_of_le (h : height ≤ tipHeight) {fromHeight count : ℕ} (hr : tipRange tipHeight height = some (fromHeight, count)) :
    count = 0 := by
  unfold tipRange at hr
  obtain ⟨_, -, hr⟩ := Option.bind_eq_some_iff.mp hr
  obtain ⟨ahead, hahead, hr⟩ := Option.bind_eq_some_iff.mp hr
  obtain ⟨-, rfl⟩ := Prod.mk.inj (Option.some.inj hr)
  unfold checkedSub at hahead
  split_ifs at hahead
  obtain rfl := Option.some.inj hahead
  omega

end

theorem length_servedHeights_le (fromHeight count : ℕ) : (servedHeights fromHeight count).length ≤ maxSyncBatch := by
  unfold servedHeights
  rw [List.length_range']
  omega

theorem lt_of_mem_servedHeights {fromHeight count h : ℕ} (hh : h ∈ servedHeights fromHeight count) : h < 2 ^ 64 := by
  unfold servedHeights at hh
  rw [List.mem_range'_1] at hh
  omega

variable {F : Type}

theorem length_of_getBlocks {s : ChainStore F} {fromHeight count : ℕ} {blocks : List Block}
    (h : buildChainSyncResponse s (.getBlocks fromHeight count) = .ok (.blocks blocks)) : blocks.length ≤ maxSyncBatch := by
  unfold buildChainSyncResponse at h
  have h := Except.ok.inj h
  rcases hmap : (servedHeights fromHeight count).mapM s.chain.canonicalBlockAt with _ | bs
  · rw [hmap] at h
    cases h
  · rw [hmap] at h
    obtain rfl := ChainSyncResponse.blocks.inj h
    have hlen := (mapM_eq_some.mp hmap).length_eq
    exact hlen ▸ length_servedHeights_le fromHeight count

/-- A request for blocks is always answered in range. A tip is followed by a request in range exactly if it is not heavier
than the own one or is higher. -/
theorem sync_in_range_iff [Float64 F] {n : Node F} {m : BlockMeta F} (hm : n.chainStore.chain.metas n.chainStore.chain.tipHash = some m)
    (peer : PeerId) {height : ℕ} (hlt : height < 2 ^ 64) (hash : Hash32) (cumulativeWork : F) :
    ((∀ pending effects, n.handleTip peer (.tip height hash cumulativeWork) = .ok (pending, effects) →
        AsksInRange m.height height effects) ↔ cumulativeWork ≤ m.cumulativeWork ∨ m.height < height) ∧
      ∀ (s : ChainStore F) (fromHeight count : ℕ),
        (servedHeights fromHeight count).length ≤ maxSyncBatch ∧ (∀ h ∈ servedHeights fromHeight count, h < 2 ^ 64) ∧
        ∀ blocks, buildChainSyncResponse s (.getBlocks fromHeight count) = .ok (.blocks blocks) → blocks.length ≤ maxSyncBatch := by
  refine ⟨?_, fun s fromHeight count => ⟨length_servedHeights_le _ _, fun h => lt_of_mem_servedHeights, fun blocks => length_of_getBlocks⟩⟩
  have htip : n.chainStore.chain.tipHeight = .ok m.height := by
    simp only [Chain.tipHeight, hm, Exec.expect_some, Exec.ok_bind, pure, Except.pure]
  have hwork : n.chainStore.tipCumulativeWork = .ok m.cumulativeWork := by
    simp only [ChainStore.tipCumulativeWork, hm, Exec.expect_some, Exec.ok_bind, pure, Except.pure]
  by_cases hheavier : cumulativeWork ≤ m.cumulativeWork
  · -- No blocks are asked for.
    refine iff_of_true (fun pending effects h => ?_) (.inl hheavier)
    simp only [Node.handleTip, hwork, htip, Exec.ok_bind, if_pos hheavier, pure, Except.pure] at h
    obtain ⟨-, rfl⟩ := Prod.mk.inj (Except.ok.inj h)
    intro peer' requestId fromHeight count hmem
    cases List.mem_singleton.mp hmem
  · have hsent := Node.handleTip_heavier peer height hash htip hwork (not_le.mp hheavier)
    rw [or_iff_right hheavier, hsent]
    constructor
    · intro h
      obtain ⟨hrange, hcount, -⟩ := h _ _ rfl _ _ _ _ (List.mem_singleton_self _)
      by_contra hle
      have := tipRange_of_le (not_lt.mp hle) hrange
      omega
    · rintro hhigher pending effects h peer' requestId fromHeight count hmem
      obtain ⟨-, rfl⟩ := Prod.mk.inj (Except.ok.inj h)
      cases List.mem_singleton.mp hmem
      rw [wrappingSub_of_le hhigher.le hlt, tipRange_of_lt hhigher hlt]
      refine ⟨rfl, ?_, min_le_right _ _⟩
      unfold maxSyncBatch
      omega

section
attribute [local instance] unsigned
open ChainStore

theorem tip_afterFirst : ∃ m, afterFirst.chain.metas afterFirst.chain.tipHash = some m ∧ m.height = 1 ∧ m.cumulativeWork < 1000000 := by
  obtain ⟨m, hm⟩ := Option.isSome_iff_exists.mp (show (afterFirst.chain.metas afterFirst.chain.tipHash).isSome from by decide +kernel)
  have hfields : (afterFirst.chain.metas afterFirst.chain.tipHash).map (fun m => (m.height, decide (m.cumulativeWork < 1000000))) =
      some (1, true) := by decide +kernel
  rw [hm] at hfields
  obtain ⟨hheight, hwork⟩ := Prod.mk.inj (Option.some.inj hfields)
  exact ⟨m, hm, hheight, of_decide_eq_true hwork⟩

theorem sync_in_range_iff_afterFirst : ∃ m, afterFirst.chain.metas afterFirst.chain.tipHash = some m ∧ m.height = 1 ∧
    ∀ pending effects, (Node.start afterFirst).handleTip [1] (.tip 2 Block.genesis.hash 1000000) = .ok (pending, effects) →
      AsksInRange m.height 2 effects := by
  obtain ⟨m, hm, hheight, -⟩ := tip_afterFirst
  have hlt : 2 < 2 ^ 64 := by omega
  have hm' : (Node.start afterFirst).chainStore.chain.metas (Node.start afterFirst).chainStore.chain.tipHash = some m := by
    simp only [Node.start]
    exact hm
  have h := (sync_in_range_iff hm' [1] hlt Block.genesis.hash 1000000).1
  exact ⟨m, hm, hheight, h.mpr (.inr (by rw [hheight]; decide))⟩

/-- A node with one block of its own, and peers that claim more work for none or for as many. -/
theorem sync_out_of_range : ∃ pending,
    (Node.start afterFirst).handleTip [1] (.tip 0 Block.genesis.hash 1000000) = .ok (pending, [.send [1] 0 (.getBlocks 2 500)]) ∧
    (Node.start afterFirst).handleTip [1] (.tip 1 Block.genesis.hash 1000000) = .ok (pending, [.send [1] 0 (.getBlocks 2 0)]) ∧
    afterFirst.chain.tipHeight = .ok 1 ∧ checkedSub 0 1 = none := by
  obtain ⟨m, hm, hheight, hwork⟩ := tip_afterFirst
  have htip : (Node.start afterFirst).chainStore.chain.tipHeight = .ok 1 := by
    simp only [Chain.tipHeight, Node.start, hm, Exec.expect_some, Exec.ok_bind, pure, Except.pure, hheight]
  have hown : (Node.start afterFirst).chainStore.tipCumulativeWork = .ok m.cumulativeWork := by
    simp only [ChainStore.tipCumulativeWork, Node.start, hm, Exec.expect_some, Exec.ok_bind, pure, Except.pure]
  exact ⟨_, Node.handleTip_heavier [1] 0 Block.genesis.hash htip hown hwork,
    Node.handleTip_heavier [1] 1 Block.genesis.hash htip hown hwork, htip, rfl⟩

end
end SpiritChat
