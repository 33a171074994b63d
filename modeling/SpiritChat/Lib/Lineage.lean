import Mathlib.Data.List.Nodup

/-! # Lines of descent in a tree of parent pointers

`parent k` is the key that `k` points to. A lineage of `k` is the list of keys from a chosen floor up to
`k`, each pointing to the one before it; it stops at the first floor it meets, so a key has at most one. -/

namespace Lib

/-- The keys from the floor `f` up to a key, floor first. -/
inductive Lineage {κ : Type} (parent : κ → Option κ) (f : κ) : κ → List κ → Prop
  | floor : Lineage parent f f [f]
  | child {k p : κ} {l : List κ} : k ≠ f → parent k = some p → Lineage parent f p l → Lineage parent f k (l ++ [k])

namespace Lineage
variable {κ : Type} {parent parent' : κ → Option κ} {f g k : κ} {l l' l₁ l₂ : List κ}

theorem ne_nil (h : Lineage parent f k l) : l ≠ [] := by
  cases h <;> simp

theorem getLast? (h : Lineage parent f k l) : l.getLast? = some k := by
  cases h <;> simp

theorem eq_concat (h : Lineage parent f k l) : ∃ l', l = l' ++ [k] := by
  cases h with
  | floor => exact ⟨[], rfl⟩
  | child => exact ⟨_, rfl⟩

theorem mem_self (h : Lineage parent f k l) : k ∈ l := List.mem_of_getLast? h.getLast?

theorem head? (h : Lineage parent f k l) : l.head? = some f := by
  induction h with
  | floor => rfl
  | child _ _ h ih => rw [List.head?_append, ih]; rfl

theorem eq_cons (h : Lineage parent f k l) : ∃ l', l = f :: l' := by
  obtain ⟨l', hl⟩ := List.head?_eq_some_iff.mp h.head?
  exact ⟨l', hl⟩

theorem floor_mem (h : Lineage parent f k l) : f ∈ l := List.mem_of_head? h.head?

theorem eq_floor (h : Lineage parent f f l) : l = [f] := by
  cases h with
  | floor => rfl
  | child hne => exact absurd rfl hne

/-- Above the floor a lineage continues that of the parent. -/
theorem exists_child (h : Lineage parent f k l) (hne : k ≠ f) :
    ∃ p l', parent k = some p ∧ Lineage parent f p l' ∧ l = l' ++ [k] := by
  cases h with
  | floor => exact absurd rfl hne
  | child _ hp h => exact ⟨_, _, hp, h, rfl⟩

/-- A key has one lineage. -/
theorem unique (h : Lineage parent f k l) (h' : Lineage parent f k l') : l = l' := by
  induction h generalizing l' with
  | floor => exact h'.eq_floor.symm
  | child hne hp _ ih =>
    cases h' with
    | floor => exact absurd rfl hne
    | child _ hp' h' =>
      rw [hp, Option.some.injEq] at hp'
      subst hp'
      rw [ih h']

/-- The part of a lineage up to one of its members is that member's lineage. -/
theorem of_append {a : κ} (h : Lineage parent f k (l₁ ++ a :: l₂)) : Lineage parent f a (l₁ ++ [a]) := by
  generalize hl : l₁ ++ a :: l₂ = l at h
  induction h generalizing l₁ l₂ with
  | floor =>
    rw [List.append_eq_cons_iff] at hl
    rcases hl with ⟨rfl, hl⟩ | ⟨_, rfl, hl⟩
    · cases hl
      exact .floor
    · simp at hl
  | @child c p l hne hp h ih =>
    rcases List.eq_nil_or_concat l₂ with rfl | ⟨l₃, b, rfl⟩
    · obtain ⟨rfl, rfl⟩ := List.append_singleton_inj.mp hl
      exact .child hne hp h
    · rw [List.concat_eq_append, ← List.cons_append, ← List.append_assoc] at hl
      exact ih (List.append_singleton_inj.mp hl).1

theorem exists_of_mem {a : κ} (h : Lineage parent f k l) (ha : a ∈ l) : ∃ l₁, Lineage parent f a l₁ ∧ l₁ <+: l := by
  obtain ⟨l₁, l₂, rfl⟩ := List.append_of_mem ha
  exact ⟨_, h.of_append, ⟨l₂, by simp⟩⟩

/-- A lineage has no repetition. -/
theorem nodup (h : Lineage parent f k l) : l.Nodup := by
  induction h with
  | floor => simp
  | @child c p l hne hp h ih =>
    refine List.nodup_append.mpr ⟨ih, by simp, fun a ha b hb => ?_⟩
    obtain rfl := List.mem_singleton.mp hb
    rintro rfl
    obtain ⟨l₁, h₁, hle⟩ := h.exists_of_mem ha
    have heq := h₁.unique (.child hne hp h)
    have := hle.length_le
    rw [heq, List.length_append, List.length_singleton] at this
    omega

/-- Consecutive members of a lineage are linked by `parent`. -/
theorem parent_of_append {a b : κ} (h : Lineage parent f k (l₁ ++ a :: b :: l₂)) : parent b = some a ∧ b ≠ f := by
  have h' : Lineage parent f b ((l₁ ++ [a]) ++ [b]) := by
    have hsplit : Lineage parent f k ((l₁ ++ [a]) ++ b :: l₂) := by simpa using h
    exact hsplit.of_append
  generalize hl : (l₁ ++ [a]) ++ [b] = l at h'
  cases h' with
  | floor => simp [List.append_eq_cons_iff] at hl
  | child hne hp h'' =>
    obtain ⟨rfl, -⟩ := List.append_singleton_inj.mp hl
    have := h''.getLast?
    simp only [List.getLast?_append, List.getLast?_singleton, Option.some_or, Option.some.injEq] at this
    subst this
    exact ⟨hp, hne⟩

/-- The floor can move up to any member of the lineage. -/
theorem raise (h : Lineage parent f k (l₁ ++ g :: l₂)) : Lineage parent g k (g :: l₂) := by
  generalize hl : l₁ ++ g :: l₂ = l at h
  induction h generalizing l₁ l₂ with
  | floor =>
    rw [List.append_eq_cons_iff] at hl
    rcases hl with ⟨rfl, hl⟩ | ⟨_, rfl, hl⟩
    · cases hl
      exact .floor
    · simp at hl
  | @child c p l hne hp h ih =>
    rcases List.eq_nil_or_concat l₂ with rfl | ⟨l₃, b, rfl⟩
    · obtain ⟨rfl, rfl⟩ := List.append_singleton_inj.mp hl
      exact .floor
    · rw [List.concat_eq_append, ← List.cons_append, ← List.append_assoc] at hl
      obtain ⟨rfl, rfl⟩ := List.append_singleton_inj.mp hl
      have hnd := (Lineage.child hne hp h).nodup
      rw [List.concat_eq_append, ← List.cons_append]
      refine .child ?_ hp (ih rfl)
      rintro rfl
      simp [List.nodup_append] at hnd

/-- A lineage above `g` continues the lineage of `g`. -/
theorem trans (h₁ : Lineage parent f g (l₁ ++ [g])) (h₂ : Lineage parent g k (g :: l₂)) (hf : f ∉ l₂) :
    Lineage parent f k (l₁ ++ g :: l₂) := by
  generalize hl : g :: l₂ = l at h₂
  induction h₂ generalizing l₂ with
  | floor =>
    simp only [List.cons.injEq, true_and] at hl
    subst hl
    exact h₁
  | @child c p l hne hp h ih =>
    obtain ⟨l₃, rfl⟩ := h.eq_cons
    simp only [List.cons_append, List.cons.injEq, true_and] at hl
    subst hl
    simp only [List.mem_append, List.mem_singleton, not_or] at hf
    have := Lineage.child (Ne.symm hf.2) hp (ih hf.1 rfl)
    simpa using this

/-- A lineage only reads the pointers of its members. -/
theorem congr (h : Lineage parent f k l) (hp : ∀ a ∈ l, a ≠ f → parent' a = parent a) : Lineage parent' f k l := by
  induction h with
  | floor => exact .floor
  | @child c p l hne hpar h ih =>
    refine .child hne ?_ (ih fun a ha => hp a (List.mem_append_left _ ha))
    rw [hp c (by simp) hne, hpar]

/-- Along a lineage a height that drops by one at each pointer counts the position. -/
theorem height_getElem? {height : κ → ℕ} (hh : ∀ a p, parent a = some p → height a = height p + 1)
    (h : Lineage parent f k l) {i : ℕ} {a : κ} (hi : l[i]? = some a) : height a = height f + i := by
  induction h generalizing i a with
  | floor =>
    cases i with
    | zero => simp at hi; simp [hi]
    | succ i => simp at hi
  | @child c p l hne hp h ih =>
    rw [List.getElem?_append] at hi
    split at hi
    · exact ih hi
    · rename_i hlen
      have hi' : i - l.length = 0 := by
        by_contra hne
        obtain ⟨j, hj⟩ := Nat.exists_eq_succ_of_ne_zero hne
        rw [hj] at hi
        simp at hi
      rw [hi'] at hi
      simp only [List.getElem?_cons_zero, Option.some.injEq] at hi
      subst hi
      have hlast := h.getLast?
      rw [List.getLast?_eq_getElem?] at hlast
      have := ih hlast
      have hpos : 0 < l.length := List.length_pos_iff.mpr h.ne_nil
      rw [hh c p hp, this]
      omega

/-- The last position of a lineage is the height of its key above the floor. -/
theorem length_eq {height : κ → ℕ} (hh : ∀ a p, parent a = some p → height a = height p + 1)
    (h : Lineage parent f k l) : l.length = height k - height f + 1 ∧ height f ≤ height k := by
  have hlast := h.getLast?
  rw [List.getLast?_eq_getElem?] at hlast
  have := h.height_getElem? hh hlast
  have hpos : 0 < l.length := List.length_pos_iff.mpr h.ne_nil
  omega

/-- With heights, a lineage above `g` continues the lineage of `g`. -/
theorem trans_of_height {height : κ → ℕ} (hh : ∀ a p, parent a = some p → height a = height p + 1)
    (h₁ : Lineage parent f g (l₁ ++ [g])) (h₂ : Lineage parent g k (g :: l₂)) :
    Lineage parent f k (l₁ ++ g :: l₂) := by
  refine h₁.trans h₂ fun hmem => ?_
  -- The lower floor is not above the upper one.
  obtain ⟨i, hi⟩ := List.getElem?_of_mem hmem
  have hup := h₂.height_getElem? hh (i := i + 1) (by simpa using hi)
  have hlow := (h₁.length_eq hh).2
  omega

end Lineage
end Lib
