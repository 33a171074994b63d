import SpiritChat.Lib.Rank
import SpiritChat.Theorems.Reachable

/-! # The median time past

On a chain that was never pruned the median of a block is at least that of its parent. The window loses at most one
element when a block comes, and the block is later than the old median. -/

namespace SpiritChat
open Lib

namespace Rules

/-- The last timestamps, of which the median is taken. -/
def window (timestamps : List ℕ) : List ℕ := timestamps.drop (timestamps.length - medianTimePastWindow)

theorem median_eq (timestamps : List ℕ) : median timestamps = upperMedian (window timestamps) := by
  simp [median, upperMedian, window, List.length_insertionSort]

theorem exists_median {timestamps : List ℕ} (h : timestamps ≠ []) : ∃ m ∈ timestamps, median timestamps = some m := by
  have hlen := List.length_pos_of_ne_nil h
  have hne : window timestamps ≠ [] := by
    refine List.ne_nil_of_length_pos ?_
    simp only [window, List.length_drop, medianTimePastWindow]
    omega
  obtain ⟨m, hm, hmedian⟩ := exists_upperMedian hne
  exact ⟨m, List.mem_of_mem_drop hm, (median_eq timestamps).trans hmedian⟩

/-- A window that is full drops its first element, and one that is not drops none. -/
theorem window_append (timestamps : List ℕ) (t : ℕ) :
    ∃ kept : List ℕ, window (timestamps ++ [t]) = kept ++ [t] ∧ kept.Sublist (window timestamps) ∧
      (window timestamps).length ≤ kept.length + 1 := by
  refine ⟨timestamps.drop (timestamps.length + 1 - medianTimePastWindow), ?_, ?_, ?_⟩
  · have hpos : 0 < medianTimePastWindow := by decide
    rw [window, List.length_append, List.length_singleton, List.drop_append_of_le_length (by omega)]
  · exact List.drop_sublist_drop_left _ (by omega)
  · simp only [window, List.length_drop]
    omega

/-- A timestamp after the median does not lower it. -/
theorem median_append {timestamps : List ℕ} {t m v : ℕ} (h : median timestamps = some m) (ht : m < t)
    (hv : median (timestamps ++ [t]) = some v) : m ≤ v := by
  obtain ⟨kept, heq, hsub, hlen⟩ := window_append timestamps t
  rw [median_eq] at h hv
  rw [heq] at hv
  exact upperMedian_slide hsub hlen h hv ht.le

end Rules

namespace Chain
variable {F : Type} [Float64 F] [Primitives] {c : Chain F} {root h : Hash32} {l : List Hash32} {b : Block}
  {pm : BlockMeta F}

/-- A chain that started at `root` and took blocks. Its floor is where it started. -/
inductive Unpruned : Hash32 → Chain F → Prop
  | new : Block.genesis.hash ≠ .zero → Unpruned Block.genesis.hash Chain.new
  | fromCheckpoint {cp : Checkpoint F} : cp.hash ≠ .zero → Unpruned cp.hash (Chain.fromCheckpoint cp)
  | tryApply {root : Hash32} {c : Chain F} (b : Block) (now : ℕ) : Unpruned root c → b.hash ≠ .zero →
      Unpruned root (c.tryApply b now).1

theorem Unpruned.reachable (hc : Unpruned root c) : Reachable root c := by
  induction hc with
  | new hz => exact .new hz
  | fromCheckpoint hz => exact .fromCheckpoint hz
  | tryApply b now _ hz ih => exact .tryApply b now ih hz

/-- The timestamp of the block is after the median of the path to its parent. -/
def After (c : Chain F) (m : BlockMeta F) : Prop :=
  ∃ l med, c.Descends m.prevHash l ∧ Rules.median ((c.branch l).map (·.timestamp)) = some med ∧ med < m.timestamp

/-- Every block but the root came after the median of its time. -/
structure Timely (root : Hash32) (c : Chain F) : Prop where
  floor : c.floorHash = root
  after : ∀ h m, c.metas h = some m → h ≠ root → c.After m

/-! ### The invariant -/

omit [Float64 F] [Primitives] in
theorem Timely.single {m : BlockMeta F} (hm : c.metas = Table.empty.insert c.floorHash m) : Timely c.floorHash c where
  floor := rfl
  after := by
    intro h m' hm' hne
    rw [hm, Table.insert_of_ne hne] at hm'
    cases hm'

/-- A block that is stored comes after the median, and does not change the paths there were. -/
theorem Timely.accepted (t : Timely root c) (inv : Inv root c) (hz : b.hash ≠ .zero) {now : ℕ} (a : c.Accepts b now pm l) :
    Timely root (c.accepted b pm) where
  floor := t.floor
  after := by
    have hkept : ∀ {m : BlockMeta F}, c.After m → (c.accepted b pm).After m := by
      rintro m ⟨l, med, hl, hmed, hlt⟩
      have hk := inv.known hl
      refine ⟨l, med, (descends_store inv a.new hz (ne_of_known a.new (hk _ hl.mem_self))).mpr hl, ?_, hlt⟩
      rw [branch_store_of_known a.new hk]
      exact hmed
    intro h m hm hne
    rcases Table.insert_eq_some.mp hm with ⟨rfl, rfl⟩ | ⟨-, hm⟩
    · obtain ⟨med, hmed, hlt⟩ := a.admits.past
      exact hkept ⟨l, med, a.line, hmed, hlt⟩
    · exact hkept (t.after h m hm hne)

theorem Timely.tryApply (t : Timely root c) (inv : Inv root c) (hz : b.hash ≠ .zero) (now : ℕ) :
    Timely root (c.tryApply b now).1 := by
  have h := inv.tryApply_applied hz now
  generalize (c.tryApply b now).1 = c' at h
  generalize (c.tryApply b now).2 = r at h
  cases h with
  | known => exact t
  | rejected => exact t
  | fork a => exact t.accepted inv hz a
  | tip a =>
    -- A new tip changes neither the metadata nor the floor.
    have t' := t.accepted inv hz a
    exact ⟨t'.floor, t'.after⟩

theorem Unpruned.timely (hc : Unpruned root c) : Timely root c := by
  induction hc with
  | new => exact Timely.single (c := Chain.new) rfl
  | fromCheckpoint => exact Timely.single (c := Chain.fromCheckpoint _) rfl
  | tryApply b now hc hz ih => exact ih.tryApply hc.reachable.inv hz now

/-! ### Block by block -/

/-- The path of a block that is not the root goes through its parent. -/
theorem Timely.descends (t : Timely root c) (inv : Inv root c) {m : BlockMeta F} (hm : c.metas h = some m) (hne : h ≠ root)
    (hl : c.Descends m.prevHash l) : c.Descends h (l ++ [h]) := by
  obtain ⟨p, hp⟩ := Option.isSome_iff_exists.mp (inv.known hl _ hl.mem_self)
  exact .child (t.floor ▸ hne) (parentOf_eq_some.mpr ⟨m, p, hm, rfl, hp⟩) hl

/-- The median of a block is there and is at least its parent's. -/
theorem medianTimePast_monotone (hc : Unpruned root c) {m : BlockMeta F} (hm : c.metas h = some m) (hne : h ≠ root) :
    ∃ parent own, c.medianTimePast m.prevHash = .ok parent ∧ c.medianTimePast h = .ok own ∧ parent ≤ own := by
  have inv := hc.reachable.inv
  obtain ⟨l, med, hl, hmed, hlt⟩ := hc.timely.after h m hm hne
  have hl' := hc.timely.descends inv hm hne hl
  have htimes : (c.branch (l ++ [h])).map (·.timestamp) = (c.branch l).map (·.timestamp) ++ [m.timestamp] := by
    simp [branch, ancestorOf_eq hm]
  have hne' : (c.branch (l ++ [h])).map (·.timestamp) ≠ [] := by simp [htimes]
  obtain ⟨own, -, hown⟩ := Rules.exists_median hne'
  refine ⟨med, own, ?_, ?_, ?_⟩
  · rw [inv.rooted.medianTimePast_eq hl, hmed, Exec.expect_some]
  · rw [inv.rooted.medianTimePast_eq hl', hown, Exec.expect_some]
  · rw [htimes] at hown
    exact Rules.median_append hmed hlt hown

end Chain

section
attribute [local instance] unsigned

/-- After the first block. -/
theorem medianTimePast_monotone_first :
    ∃ parent own, ((Chain.new : Chain ℚ).tryApply firstBlock minedAt).1.medianTimePast Block.genesis.hash = .ok parent ∧
      ((Chain.new : Chain ℚ).tryApply firstBlock minedAt).1.medianTimePast firstBlock.hash = .ok own ∧ parent ≤ own := by
  have hgenesis : Block.genesis.hash ≠ .zero := by decide +kernel
  have hz : firstBlock.hash ≠ .zero := by decide +kernel
  have hm : (((Chain.new : Chain ℚ).tryApply firstBlock minedAt).1.metas firstBlock.hash).map (·.prevHash) =
      some Block.genesis.hash := by decide +kernel
  obtain ⟨m, hm, hprev⟩ := Option.map_eq_some_iff.mp hm
  have h := Chain.medianTimePast_monotone (.tryApply firstBlock minedAt (.new hgenesis) hz) hm (by decide +kernel)
  rwa [hprev] at h

end
end SpiritChat
