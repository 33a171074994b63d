import Mathlib.Data.List.Destutter
import Mathlib.Data.List.Sort

/-! # Tables in the order of their keys

A database table as the list of its rows. Its readers look a key up, walk it from the least key on, and write one row
at a time. -/

namespace Lib

section
variable {κ ν : Type} [DecidableEq κ]

/-- The value under a key. -/
def lookup (l : List (κ × ν)) (k : κ) : Option ν := (l.find? (·.1 = k)).map (·.2)

/-- The table without the row of a key. -/
def eraseKey (l : List (κ × ν)) (k : κ) : List (κ × ν) := l.filter (·.1 ≠ k)

/-- The table with a row for a key in place of the one it has. -/
def put (r : κ → κ → Prop) [DecidableRel r] (l : List (κ × ν)) (k : κ) (v : ν) : List (κ × ν) :=
  (eraseKey l k).orderedInsert (fun a b => r a.1 b.1) (k, v)

/-- The sum of a size over the values of a table. -/
def weight (f : ν → ℕ) : List (κ × ν) → ℕ
  | [] => 0
  | e :: l => f e.2 + weight f l

/-- Least key first, one row a key. -/
def Ordered (r : κ → κ → Prop) (l : List (κ × ν)) : Prop := l.Pairwise fun a b => r a.1 b.1 ∧ a.1 ≠ b.1

variable {r : κ → κ → Prop} {f : ν → ℕ} {l l' : List (κ × ν)} {k k' : κ} {v v' : ν} {e : κ × ν}

theorem mem_eraseKey : e ∈ eraseKey l k ↔ e ∈ l ∧ e.1 ≠ k := by simp [eraseKey]

theorem eraseKey_of_notMem (h : ∀ e ∈ l, e.1 ≠ k) : eraseKey l k = l :=
  List.filter_eq_self.mpr fun e he => decide_eq_true (h e he)

theorem lookup_eq_none : lookup l k = none ↔ ∀ e ∈ l, e.1 ≠ k := by
  simp [lookup]

theorem mem_of_lookup (h : lookup l k = some v) : (k, v) ∈ l := by
  obtain ⟨⟨k', v'⟩, he, rfl⟩ := Option.map_eq_some_iff.mp h
  have hk : k' = k := by simpa using List.find?_some he
  exact hk ▸ List.mem_of_find?_eq_some he

omit [DecidableEq κ] in
theorem weight_cons : weight f (e :: l) = f e.2 + weight f l := rfl

omit [DecidableEq κ] in
theorem weight_perm (h : l.Perm l') : weight f l = weight f l' := by
  induction h with
  | nil => rfl
  | cons e _ ih => rw [weight_cons, weight_cons, ih]
  | swap e e' l => rw [weight_cons, weight_cons, weight_cons, weight_cons, Nat.add_left_comm]
  | trans _ _ ih ih' => exact ih.trans ih'

theorem weight_eraseKey_le (l : List (κ × ν)) (k : κ) : weight f (eraseKey l k) ≤ weight f l := by
  induction l with
  | nil => exact Nat.le_refl _
  | cons e l ih =>
    by_cases he : e.1 = k
    · rw [eraseKey, List.filter_cons_of_neg (by simpa using he), weight_cons]
      exact ih.trans (Nat.le_add_left _ _)
    · rw [eraseKey, List.filter_cons_of_pos (by simpa using he), weight_cons, weight_cons]
      exact Nat.add_le_add_left ih _

namespace Ordered

omit [DecidableEq κ] in
theorem nil : Ordered r ([] : List (κ × ν)) := List.Pairwise.nil

omit [DecidableEq κ] in
theorem tail (h : Ordered r (e :: l)) : Ordered r l := (List.pairwise_cons.mp h).2

omit [DecidableEq κ] in
theorem ne_head (h : Ordered r (e :: l)) : ∀ e' ∈ l, e'.1 ≠ e.1 :=
  fun e' he' => ((List.pairwise_cons.mp h).1 e' he').2.symm

omit [DecidableEq κ] in
theorem le_of_mem [Std.Refl r] (h : Ordered r (e :: l)) : ∀ e' ∈ e :: l, r e.1 e'.1 := by
  rintro e' (_ | ⟨_, he'⟩)
  · exact refl_of r e.1
  · exact ((List.pairwise_cons.mp h).1 e' he').1

omit [DecidableEq κ] in
theorem sublist (h : Ordered r l) (hs : l'.Sublist l) : Ordered r l' := List.Pairwise.sublist hs h

theorem eraseKey (h : Ordered r l) : Ordered r (eraseKey l k) := h.sublist List.filter_sublist

theorem eraseKey_head (h : Ordered r ((k, v) :: l)) : Lib.eraseKey ((k, v) :: l) k = l := by
  rw [Lib.eraseKey, List.filter_cons_of_neg (by simp)]
  exact eraseKey_of_notMem h.ne_head

omit [DecidableEq κ] in
theorem eq_of_mem (h : Ordered r l) (he : (k, v) ∈ l) (he' : (k, v') ∈ l) : v = v' := by
  induction l with
  | nil => exact absurd he List.not_mem_nil
  | cons e l ih =>
    rcases List.mem_cons.mp he with rfl | hl <;> rcases List.mem_cons.mp he' with heq | hl'
    · exact (Prod.mk.inj heq).2.symm
    · exact (h.ne_head _ hl' rfl).elim
    · exact (h.ne_head _ hl (show k = e.1 from congrArg Prod.fst heq)).elim
    · exact ih h.tail hl hl'

theorem lookup_eq_some (h : Ordered r l) : lookup l k = some v ↔ (k, v) ∈ l := by
  refine ⟨mem_of_lookup, fun hm => ?_⟩
  cases hl : lookup l k with
  | none => exact absurd rfl (lookup_eq_none.mp hl _ hm)
  | some v' => rw [h.eq_of_mem (mem_of_lookup hl) hm]

/-- What goes with a row, the others do not weigh. -/
theorem weight_eraseKey (h : Ordered r l) (hm : (k, v) ∈ l) : weight f (Lib.eraseKey l k) + f v = weight f l := by
  induction l with
  | nil => exact absurd hm List.not_mem_nil
  | cons e l ih =>
    rcases List.mem_cons.mp hm with rfl | hl
    · rw [h.eraseKey_head, weight_cons, Nat.add_comm]
    · have hne : e.1 ≠ k := (h.ne_head _ hl).symm
      rw [Lib.eraseKey, List.filter_cons_of_pos (by simpa using hne), weight_cons, weight_cons, Nat.add_assoc]
      exact congrArg _ (ih h.tail hl)

theorem weight_eraseKey_eq (h : Ordered r l) (hf : ∀ v, 0 < f v) :
    weight f (Lib.eraseKey l k) = weight f l ↔ ∀ e ∈ l, e.1 ≠ k := by
  constructor
  · rintro heq ⟨k', v⟩ he (rfl : k' = k)
    have hv := hf v
    rw [← h.weight_eraseKey he] at heq
    omega
  · intro hall
    rw [eraseKey_of_notMem hall]

end Ordered

section
variable [DecidableRel r]

theorem mem_put : e ∈ put r l k v ↔ e = (k, v) ∨ e ∈ l ∧ e.1 ≠ k := by
  rw [put, List.mem_orderedInsert, mem_eraseKey]

theorem weight_put : weight f (put r l k v) = f v + weight f (eraseKey l k) := by
  rw [put, weight_perm (List.perm_orderedInsert _ _ _), weight_cons]

theorem Ordered.put [Std.Total r] [IsTrans κ r] (h : Ordered r l) : Ordered r (put r l k v) := by
  have htotal : Std.Total fun a b : κ × ν => r a.1 b.1 := ⟨fun a b => total_of r a.1 b.1⟩
  have htrans : IsTrans (κ × ν) fun a b => r a.1 b.1 := ⟨fun a b c => trans_of r⟩
  have herase : Ordered r (Lib.eraseKey l k) := h.eraseKey
  have hsorted : (Lib.put r l k v).Pairwise fun a b => r a.1 b.1 :=
    List.Pairwise.orderedInsert _ _ (herase.imp And.left)
  have hdistinct : (Lib.put r l k v).Pairwise fun a b => a.1 ≠ b.1 := by
    refine (List.perm_orderedInsert _ _ _).symm.pairwise ?_ fun h => h.symm
    refine List.pairwise_cons.mpr ⟨fun e he => ?_, herase.imp And.right⟩
    exact (mem_eraseKey.mp he).2.symm
  exact hsorted.and hdistinct

end
end

/-- A list of images is the image of a list. -/
theorem exists_map_eq {α β : Type} {f : α → β} {p : α → Prop} {l : List β} (h : ∀ b ∈ l, ∃ a, p a ∧ f a = b) :
    ∃ as : List α, as.map f = l ∧ ∀ a ∈ as, p a := by
  induction l with
  | nil => exact ⟨[], rfl, fun _ ha => absurd ha List.not_mem_nil⟩
  | cons b l ih =>
    obtain ⟨a, ha, rfl⟩ := h b List.mem_cons_self
    obtain ⟨as, rfl, has⟩ := ih fun b hb => h b (List.mem_cons_of_mem _ hb)
    exact ⟨a :: as, rfl, List.forall_mem_cons.mpr ⟨ha, has⟩⟩

/-- `Vec::dedup` of a vector that was sorted leaves one of each. -/
theorem destutter_insertionSort {α : Type} [DecidableEq α] {r : α → α → Prop} [DecidableRel r] [Std.Total r] [IsTrans α r]
    [Std.Antisymm r] (l : List α) : ((l.insertionSort r).destutter (· ≠ ·)) = (l.insertionSort r).dedup :=
  (List.pairwise_insertionSort r l).destutter_eq_dedup

end Lib
