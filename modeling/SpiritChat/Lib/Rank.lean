import Mathlib.Data.List.Sort

/-! # The middle of a list

The element in the middle of a sorted list is at least `m` if few elements are below `m`. So a list may lose and gain
elements without its middle going down. -/

namespace Lib
variable {α : Type} [LinearOrder α] {l l' : List α} {m t v : α}

/-- An element of a sorted list is at least `m` if no more elements than those before it are below `m`. -/
theorem le_getElem_iff_countP (hl : l.Pairwise (· ≤ ·)) {k : ℕ} (hk : k < l.length) : m ≤ l[k] ↔ l.countP (· < m) ≤ k := by
  induction l generalizing k with
  | nil => cases hk
  | cons x l ih =>
    obtain ⟨hx, hl⟩ := List.pairwise_cons.mp hl
    have hnone : m ≤ x → (x :: l).countP (· < m) = 0 := by
      intro hm
      refine List.countP_eq_zero.mpr fun y hy => ?_
      rcases List.mem_cons.mp hy with rfl | hy
      · simpa using hm
      · simpa using hm.trans (hx y hy)
    cases k with
    | zero =>
      rw [Nat.le_zero]
      refine ⟨hnone, fun h0 => ?_⟩
      have := List.countP_eq_zero.mp h0 x List.mem_cons_self
      simpa using this
    | succ k =>
      have hk : k < l.length := Nat.lt_of_succ_lt_succ hk
      rw [List.getElem_cons_succ]
      rcases le_or_gt m x with hm | hm
      · rw [hnone hm]
        exact ⟨fun _ => Nat.zero_le _, fun _ => hm.trans (hx _ (List.getElem_mem hk))⟩
      · rw [List.countP_cons_of_pos (by simpa using hm), ih hl hk]
        omega

/-- The element in the middle of the sorted list, the upper one of two. -/
def upperMedian (l : List α) : Option α := (l.insertionSort (· ≤ ·))[l.length / 2]?

theorem exists_upperMedian (h : l ≠ []) : ∃ m ∈ l, upperMedian l = some m := by
  have hlt : l.length / 2 < (l.insertionSort (· ≤ ·)).length := by
    have := List.length_pos_of_ne_nil h
    rw [List.length_insertionSort]
    omega
  exact ⟨_, (List.mem_insertionSort _).mp (List.getElem_mem hlt), List.getElem?_eq_getElem hlt⟩

theorem le_upperMedian_iff (h : upperMedian l = some v) : m ≤ v ↔ l.countP (· < m) ≤ l.length / 2 := by
  obtain ⟨hlt, rfl⟩ := List.getElem?_eq_some_iff.mp h
  rw [le_getElem_iff_countP (List.pairwise_insertionSort _ _) hlt, (List.perm_insertionSort _ l).countP_eq]

/-- A list that drops elements and takes one that is not below its middle. It may drop only as many as keep the middle
where it is. -/
theorem upperMedian_slide (hsub : l'.Sublist l) (hlen : l.length ≤ l'.length + 1) (h : upperMedian l = some m)
    (hv : upperMedian (l' ++ [t]) = some v) (ht : m ≤ t) : m ≤ v := by
  have hbelow := (le_upperMedian_iff h).mp le_rfl
  have hnone : [t].countP (fun x => decide (x < m)) = 0 := List.countP_eq_zero.mpr (by simpa using ht)
  have hfew := hsub.countP_le (p := fun x => decide (x < m))
  rw [le_upperMedian_iff hv, List.countP_append, hnone, Nat.add_zero, List.length_append, List.length_singleton]
  omega

end Lib
