import Mathlib.Logic.Function.Basic

/-! # Maps

A hash map or a database table as a partial function: what its readers can tell about it. -/

namespace Lib

/-- A map from keys to values. -/
abbrev Table (κ ν : Type) := κ → Option ν

namespace Table
variable {κ ν : Type} [DecidableEq κ] {m : Table κ ν} {k k' : κ} {v v' : ν}

/-- The map without entries. -/
def empty : Table κ ν := fun _ => none

/-- The map with `k` bound to `v`. -/
def insert (m : Table κ ν) (k : κ) (v : ν) : Table κ ν := Function.update m k (some v)

/-- The map without an entry for `k`. -/
def remove (m : Table κ ν) (k : κ) : Table κ ν := Function.update m k none

omit [DecidableEq κ] in
/-- The entries for which `keep` holds. -/
def retain (m : Table κ ν) (keep : κ → ν → Bool) : Table κ ν := fun k => (m k).filter (keep k)

omit [DecidableEq κ] in
@[simp] theorem empty_apply (k : κ) : (empty : Table κ ν) k = none := rfl

@[simp] theorem insert_self : m.insert k v k = some v := by simp [insert]

theorem insert_of_ne (h : k' ≠ k) : m.insert k v k' = m k' := by simp [insert, h]

theorem insert_apply : m.insert k v k' = if k' = k then some v else m k' := by
  by_cases h : k' = k <;> simp [insert, h]

@[simp] theorem remove_self : m.remove k k = none := by simp [remove]

theorem remove_apply : m.remove k k' = if k' = k then none else m k' := by
  by_cases h : k' = k <;> simp [remove, h]

theorem insert_eq_some : m.insert k v k' = some v' ↔ (k' = k ∧ v = v') ∨ (k' ≠ k ∧ m k' = some v') := by
  by_cases h : k' = k <;> simp [insert, h]

/-- Bindings of distinct keys can be made in either order. -/
theorem insert_comm (h : k ≠ k') : (m.insert k v).insert k' v' = (m.insert k' v').insert k v := by
  simp only [insert]
  exact Function.update_comm h _ _ _

omit [DecidableEq κ] in
theorem retain_eq_some {keep : κ → ν → Bool} : m.retain keep k = some v ↔ m k = some v ∧ keep k v = true := by
  simp [retain, Option.filter_eq_some_iff]

/-- Binds each entry of a list in turn. -/
def insertAll (m : Table κ ν) (entries : List (κ × ν)) : Table κ ν :=
  entries.foldl (fun t e => t.insert e.1 e.2) m

@[simp] theorem insertAll_nil : m.insertAll [] = m := rfl

@[simp] theorem insertAll_cons {e : κ × ν} {es : List (κ × ν)} :
    m.insertAll (e :: es) = (m.insert e.1 e.2).insertAll es := rfl

theorem insertAll_append {es fs : List (κ × ν)} : m.insertAll (es ++ fs) = (m.insertAll es).insertAll fs := by
  simp [insertAll]

theorem insertAll_of_notMem {es : List (κ × ν)} (h : k ∉ es.map Prod.fst) : m.insertAll es k = m k := by
  induction es generalizing m with
  | nil => rfl
  | cons e es ih =>
    simp only [List.map_cons, List.mem_cons, not_or] at h
    rw [insertAll_cons, ih h.2, insert_of_ne h.1]

/-- An entry of the result is one of the list or an old one. -/
theorem insertAll_eq_some {es : List (κ × ν)} (h : m.insertAll es k = some v) : (k, v) ∈ es ∨ m k = some v := by
  induction es generalizing m with
  | nil => exact Or.inr h
  | cons e es ih =>
    rcases ih h with h | h
    · exact Or.inl (List.mem_cons_of_mem _ h)
    · rcases insert_eq_some.mp h with ⟨rfl, rfl⟩ | ⟨-, h⟩
      · exact Or.inl List.mem_cons_self
      · exact Or.inr h

theorem insertAll_eq_none {es : List (κ × ν)} : m.insertAll es k = none ↔ m k = none ∧ k ∉ es.map Prod.fst := by
  induction es generalizing m with
  | nil => simp
  | cons e es ih =>
    rw [insertAll_cons, ih, insert_apply, List.map_cons, List.mem_cons]
    by_cases h : k = e.1 <;> simp [h]

/-- A list that binds every key once can be bound in any order. -/
theorem insertAll_perm {es fs : List (κ × ν)} (h : es.Perm fs) (hd : (es.map Prod.fst).Nodup) :
    m.insertAll es = m.insertAll fs := by
  induction h generalizing m with
  | nil => rfl
  | cons e _ ih =>
    simp only [List.map_cons, List.nodup_cons] at hd
    exact ih hd.2
  | swap e f es =>
    simp only [List.map_cons, List.nodup_cons, List.mem_cons, not_or] at hd
    simp only [insertAll_cons]
    rw [insert_comm (Ne.symm hd.1.1)]
  | trans h₁ _ ih₁ ih₂ => exact (ih₁ hd).trans (ih₂ ((h₁.map Prod.fst).nodup_iff.mp hd))

/-- The map without the entries of some keys. -/
def removeAll (m : Table κ ν) (keys : List κ) : Table κ ν := keys.foldl remove m

theorem removeAll_apply {keys : List κ} : m.removeAll keys k = if k ∈ keys then none else m k := by
  induction keys generalizing m with
  | nil => rfl
  | cons x keys ih =>
    rw [removeAll, List.foldl_cons, ← removeAll, ih, remove_apply]
    by_cases hx : k = x <;> simp [hx]

end Table
end Lib
