import Mathlib.Data.List.Basic

/-! # Records

A map with string keys that lists its values in the order in which their keys were added. -/

namespace Lib

structure Record (α : Type) where
  entries : List (String × α)
deriving DecidableEq

namespace Record
variable {α : Type} {r : Record α} {k k' : String} {v v' : α}

def empty : Record α := ⟨[]⟩

def getEntry (k : String) : List (String × α) → Option α
  | [] => none
  | (k', v) :: entries => if k' = k then some v else getEntry k entries

def get (r : Record α) (k : String) : Option α := getEntry k r.entries

def setEntry (k : String) (v : α) : List (String × α) → List (String × α)
  | [] => [(k, v)]
  | (k', v') :: entries => if k' = k then (k, v) :: entries else (k', v') :: setEntry k v entries

/-- The record with `k` bound to `v`, in place if it was bound before. -/
def set (r : Record α) (k : String) (v : α) : Record α := ⟨setEntry k v r.entries⟩

def values (r : Record α) : List α := r.entries.map Prod.snd

/-- Binds each entry of a list in turn. -/
def fromEntries (entries : List (String × α)) : Record α := entries.foldl (fun r e => r.set e.1 e.2) empty

@[simp] theorem get_empty : (empty : Record α).get k = none := rfl

@[simp] theorem values_empty : (empty : Record α).values = [] := rfl

theorem get_set : (r.set k v).get k' = if k = k' then some v else r.get k' := by
  obtain ⟨entries⟩ := r
  change getEntry k' (setEntry k v entries) = if k = k' then some v else getEntry k' entries
  induction entries with
  | nil => rfl
  | cons e entries ih =>
    obtain ⟨l, w⟩ := e
    rw [setEntry]
    split
    · rename_i hl
      rw [getEntry, getEntry, hl]
      split
      · rfl
      · rfl
    · rename_i hl
      rw [getEntry, getEntry, ih]
      by_cases h : k = k'
      · rw [if_pos h, if_pos h, if_neg fun hk => hl (hk.trans h.symm)]
      · rw [if_neg h, if_neg h]

theorem mem_values_set (h : v' ∈ (r.set k v).values) : v' = v ∨ v' ∈ r.values := by
  obtain ⟨entries⟩ := r
  change v' ∈ (setEntry k v entries).map Prod.snd at h
  change v' = v ∨ v' ∈ entries.map Prod.snd
  induction entries with
  | nil => exact .inl (List.mem_singleton.1 h)
  | cons e entries ih =>
    obtain ⟨l, w⟩ := e
    rw [setEntry] at h
    split at h
    · rcases List.mem_cons.1 h with rfl | h
      · exact .inl rfl
      · exact .inr (List.mem_cons_of_mem _ h)
    · rcases List.mem_cons.1 h with rfl | h
      · exact .inr List.mem_cons_self
      · exact (ih h).imp_right (List.mem_cons_of_mem _)

theorem mem_values_fromEntries {entries : List (String × α)} (h : v ∈ (fromEntries entries).values) :
    v ∈ entries.map Prod.snd := by
  suffices hfold : ∀ r : Record α, v ∈ (entries.foldl (fun r e => r.set e.1 e.2) r).values →
      v ∈ entries.map Prod.snd ∨ v ∈ r.values from (hfold empty h).resolve_right List.not_mem_nil
  clear h
  induction entries with
  | nil => exact fun r h => .inr h
  | cons e entries ih =>
    intro r h
    rcases ih _ h with h | h
    · exact .inl (List.mem_cons_of_mem _ h)
    · rcases mem_values_set h with rfl | h
      · exact .inl List.mem_cons_self
      · exact .inr h

end Record
end Lib
