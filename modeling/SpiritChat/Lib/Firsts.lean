import Mathlib.Data.List.Nodup
import Mathlib.Data.List.Basic

/-! # The first of each key

One pass over a list that keeps the first element of each key. -/

namespace Lib

section
variable {α κ : Type} [DecidableEq κ] {key : α → κ} {seen : List κ} {l : List α} {a : α}

/-- The elements whose key neither is in `seen` nor was passed before. -/
def firsts (key : α → κ) : List κ → List α → List α
  | _, [] => []
  | seen, a :: l => if key a ∈ seen then firsts key seen l else a :: firsts key (key a :: seen) l

theorem firsts_cons_of_mem (h : key a ∈ seen) : firsts key seen (a :: l) = firsts key seen l := if_pos h

theorem firsts_cons_of_notMem (h : key a ∉ seen) : firsts key seen (a :: l) = a :: firsts key (key a :: seen) l := if_neg h

theorem mem_firsts : a ∈ firsts key seen l ↔ key a ∉ seen ∧ ∃ l₁ l₂, l = l₁ ++ a :: l₂ ∧ ∀ b ∈ l₁, key b ≠ key a := by
  induction l generalizing seen with
  | nil => simp [firsts]
  | cons b l ih =>
    by_cases hb : key b ∈ seen
    · rw [firsts_cons_of_mem hb, ih]
      refine and_congr_right fun ha => ?_
      constructor
      · rintro ⟨l₁, l₂, rfl, hl⟩
        refine ⟨b :: l₁, l₂, rfl, ?_⟩
        rintro c (_ | ⟨_, hc⟩)
        · exact fun he => ha (he ▸ hb)
        · exact hl c hc
      · rintro ⟨_ | ⟨c, l₁⟩, l₂, he, hl⟩
        · obtain ⟨rfl, -⟩ := List.cons.inj he
          exact absurd hb ha
        · obtain ⟨rfl, rfl⟩ := List.cons.inj he
          exact ⟨l₁, l₂, rfl, fun c hc => hl c (List.mem_cons_of_mem _ hc)⟩
    · rw [firsts_cons_of_notMem hb, List.mem_cons, ih, List.mem_cons, not_or]
      constructor
      · rintro (rfl | ⟨⟨hab, ha⟩, l₁, l₂, rfl, hl⟩)
        · exact ⟨hb, [], l, rfl, fun _ h => absurd h List.not_mem_nil⟩
        · refine ⟨ha, b :: l₁, l₂, rfl, ?_⟩
          rintro c (_ | ⟨_, hc⟩)
          · exact fun he => hab he.symm
          · exact hl c hc
      · rintro ⟨ha, _ | ⟨c, l₁⟩, l₂, he, hl⟩
        · exact .inl (List.cons.inj he).1.symm
        · obtain ⟨rfl, rfl⟩ := List.cons.inj he
          have hne := hl b List.mem_cons_self
          exact .inr ⟨⟨fun h => hne h.symm, ha⟩, l₁, l₂, rfl, fun c hc => hl c (List.mem_cons_of_mem _ hc)⟩

/-- In a sorted list the first element of a key is its least one. -/
theorem mem_firsts_of_sorted {r : α → α → Prop} (hrefl : ∀ x, r x x) (hsorted : l.Pairwise r) (hnodup : l.Nodup)
    (hinj : ∀ x ∈ l, ∀ y ∈ l, r x y → r y x → x = y) :
    a ∈ firsts key [] l ↔ a ∈ l ∧ ∀ b ∈ l, key b = key a → r a b := by
  rw [mem_firsts]
  constructor
  · rintro ⟨-, l₁, l₂, rfl, hl⟩
    refine ⟨List.mem_append_right _ List.mem_cons_self, fun b hb he => ?_⟩
    rcases List.mem_append.mp hb with hb | hb
    · exact absurd he (hl b hb)
    · rcases List.mem_cons.mp hb with rfl | hb
      · exact hrefl b
      · exact List.rel_of_pairwise_cons (List.pairwise_append.mp hsorted).2.1 hb
  · rintro ⟨ha, hleast⟩
    obtain ⟨l₁, l₂, rfl⟩ := List.mem_iff_append.mp ha
    refine ⟨List.not_mem_nil, l₁, l₂, rfl, fun b hb he => ?_⟩
    have hb' : b ∈ l₁ ++ a :: l₂ := List.mem_append_left _ hb
    obtain rfl := hinj a ha b hb' (hleast b hb' he) ((List.pairwise_append.mp hsorted).2.2 b hb a List.mem_cons_self)
    exact (List.nodup_append.mp hnodup).2.2 a hb a List.mem_cons_self rfl

theorem nodup_map_firsts : ((firsts key seen l).map key).Nodup := by
  induction l generalizing seen with
  | nil => exact List.nodup_nil
  | cons b l ih =>
    by_cases hb : key b ∈ seen
    · rw [firsts_cons_of_mem hb]
      exact ih
    · rw [firsts_cons_of_notMem hb, List.map_cons, List.nodup_cons]
      refine ⟨fun hmem => ?_, ih⟩
      obtain ⟨c, hc, he⟩ := List.mem_map.mp hmem
      exact (mem_firsts.mp hc).1 (he ▸ List.mem_cons_self)

end
end Lib
