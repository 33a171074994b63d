import Mathlib.Algebra.Order.Group.Multiset
import SpiritChat.Lib.Table

/-! # Questions and their answers

What is asked is answered once, waits in a queue, is open under a key of its own, or was turned away. -/

namespace Lib

/-- Where all questions have gone. Each answer fits the question it is for. -/
def Account {K Q A : Type} (fits : Q → A → Prop) (asked refused : Multiset Q) (queue : List Q) (calls : Table K Q)
    (answers : List A) : Prop :=
  ∃ (answered : Multiset Q) (pending : Multiset (K × Q)), asked = answered + (queue + (pending.map Prod.snd + refused)) ∧
    Multiset.Rel fits answered answers ∧ (pending.map Prod.fst).Nodup ∧ ∀ k q, (k, q) ∈ pending ↔ calls k = some q

namespace Account
variable {K Q A : Type} {fits : Q → A → Prop} {asked refused : Multiset Q} {queue : List Q} {calls : Table K Q} {answers : List A}
  {k k' : K} {q : Q} {a : A}

theorem empty : Account fits 0 0 [] (Table.empty : Table K Q) [] :=
  ⟨0, 0, rfl, .zero, Multiset.nodup_zero, fun k q => by simp⟩

/-- A question that is turned away. -/
theorem refuse (h : Account fits asked refused queue calls answers) (q : Q) :
    Account fits (q ::ₘ asked) (q ::ₘ refused) queue calls answers := by
  obtain ⟨answered, pending, rfl, hfits, hkeys, hcalls⟩ := h
  refine ⟨answered, pending, ?_, hfits, hkeys, hcalls⟩
  simp only [Multiset.add_cons]

/-- A question that has to wait. -/
theorem enqueue (h : Account fits asked refused queue calls answers) (q : Q) :
    Account fits (q ::ₘ asked) refused (queue ++ [q]) calls answers := by
  obtain ⟨answered, pending, rfl, hfits, hkeys, hcalls⟩ := h
  refine ⟨answered, pending, ?_, hfits, hkeys, hcalls⟩
  rw [← Multiset.coe_add, Multiset.coe_singleton, ← Multiset.singleton_add]
  simp only [add_assoc, add_left_comm]

/-- The first question of the queue is turned away. -/
theorem dequeue_refuse (h : Account fits asked refused (q :: queue) calls answers) :
    Account fits asked (q ::ₘ refused) queue calls answers := by
  obtain ⟨answered, pending, rfl, hfits, hkeys, hcalls⟩ := h
  refine ⟨answered, pending, ?_, hfits, hkeys, hcalls⟩
  simp only [← Multiset.cons_coe, Multiset.add_cons, Multiset.cons_add]

/-- When nothing is open, each question has one answer exactly when none was turned away and none waits. -/
theorem settled_iff (h : Account fits asked refused queue (Table.empty : Table K Q) answers) :
    Multiset.Rel fits asked answers ↔ refused = 0 ∧ queue = [] := by
  obtain ⟨answered, pending, rfl, hfits, hkeys, hcalls⟩ := h
  obtain rfl : pending = 0 := Multiset.eq_zero_of_forall_notMem fun ⟨k, q⟩ hmem => by
    have := (hcalls k q).mp hmem
    cases this
  simp only [Multiset.map_zero, zero_add]
  constructor
  · intro hall
    have hcard := Multiset.card_eq_card_of_rel hall
    rw [← Multiset.card_eq_card_of_rel hfits, Multiset.card_add, Multiset.card_add, Multiset.coe_card] at hcard
    exact ⟨Multiset.card_eq_zero.mp (by omega), List.length_eq_zero_iff.mp (by omega)⟩
  · rintro ⟨rfl, rfl⟩
    rwa [add_zero, Multiset.coe_nil, add_zero]

variable [DecidableEq K]

/-- A question that is put under a new key. -/
theorem call (h : Account fits asked refused queue calls answers) (hk : calls k = none) (q : Q) :
    Account fits (q ::ₘ asked) refused queue (calls.insert k q) answers := by
  obtain ⟨answered, pending, rfl, hfits, hkeys, hcalls⟩ := h
  refine ⟨answered, (k, q) ::ₘ pending, ?_, hfits, ?_, fun k' q' => ?_⟩
  · simp only [Multiset.map_cons, Multiset.add_cons, Multiset.cons_add]
  · rw [Multiset.map_cons, Multiset.nodup_cons]
    refine ⟨fun hmem => ?_, hkeys⟩
    obtain ⟨⟨k', q'⟩, hin, rfl⟩ := Multiset.mem_map.mp hmem
    have hopen := (hcalls _ _).mp hin
    rw [hk] at hopen
    cases hopen
  · rw [Multiset.mem_cons, Table.insert_eq_some, hcalls, Prod.mk.injEq]
    constructor
    · rintro (⟨rfl, rfl⟩ | hmem)
      · exact .inl ⟨rfl, rfl⟩
      · refine .inr ⟨?_, hmem⟩
        rintro rfl
        rw [hk] at hmem
        cases hmem
    · rintro (⟨rfl, rfl⟩ | ⟨-, hmem⟩)
      · exact .inl ⟨rfl, rfl⟩
      · exact .inr hmem

/-- The first question of the queue is put under a new key. -/
theorem dequeue (h : Account fits asked refused (q :: queue) calls answers) (hk : calls k = none) :
    Account fits asked refused queue (calls.insert k q) answers := by
  obtain ⟨answered, pending, rfl, hfits, hkeys, hcalls⟩ := h
  have hrest : Account fits (answered + (queue + (pending.map Prod.snd + refused))) refused queue calls answers :=
    ⟨answered, pending, rfl, hfits, hkeys, hcalls⟩
  rw [← Multiset.cons_coe, Multiset.cons_add, Multiset.add_cons]
  exact hrest.call hk q

/-- The question under a key is taken out. -/
theorem take (h : Account fits asked refused queue calls answers) (hk : calls k = some q) :
    ∃ asked', asked = q ::ₘ asked' ∧ Account fits asked' refused queue (calls.remove k) answers := by
  obtain ⟨answered, pending, rfl, hfits, hkeys, hcalls⟩ := h
  obtain ⟨rest, rfl⟩ := Multiset.exists_cons_of_mem ((hcalls k q).mpr hk)
  rw [Multiset.map_cons, Multiset.nodup_cons] at hkeys
  refine ⟨answered + (queue + (rest.map Prod.snd + refused)), ?_, answered, rest, rfl, hfits, hkeys.2, fun k' q' => ?_⟩
  · simp only [Multiset.map_cons, Multiset.add_cons, Multiset.cons_add]
  · rw [Table.remove_apply]
    split_ifs with hkk
    · subst hkk
      refine ⟨fun hmem => absurd (Multiset.mem_map.mpr ⟨_, hmem, rfl⟩) hkeys.1, fun h => by cases h⟩
    · rw [← hcalls, Multiset.mem_cons, Prod.mk.injEq]
      exact ⟨.inr, fun hmem => hmem.resolve_left fun he => hkk he.1⟩

/-- The question under a key is answered. -/
theorem answer (h : Account fits asked refused queue calls answers) (hk : calls k = some q) (ha : fits q a) :
    Account fits asked refused queue (calls.remove k) (answers ++ [a]) := by
  obtain ⟨asked', rfl, answered, pending, rfl, hfits, hkeys, hcalls⟩ := h.take hk
  refine ⟨q ::ₘ answered, pending, (Multiset.cons_add _ _ _).symm, ?_, hkeys, hcalls⟩
  rw [← Multiset.coe_add, add_comm, Multiset.coe_singleton, Multiset.singleton_add]
  exact .cons ha hfits

end Account
end Lib
