import Mathlib.Data.Nat.Log
import Mathlib.Tactic.Ring
import SpiritChat.Lib.Bytes

/-! # Big-endian numbers

A byte string as a number in base 256. -/

namespace Lib

variable {xs ys : List UInt8} {b : UInt8}

@[simp] theorem ofBytesBE_nil : ofBytesBE [] = 0 := rfl

theorem ofBytesBE_append (xs ys : List UInt8) : ofBytesBE (xs ++ ys) = ofBytesBE xs * 256 ^ ys.length + ofBytesBE ys := by
  induction ys using List.reverseRecOn with
  | nil => simp
  | append_singleton ys y ih =>
    rw [← List.append_assoc, ofBytesBE_concat, ofBytesBE_concat, ih, List.length_append, List.length_singleton, Nat.pow_succ]
    ring

theorem ofBytesBE_singleton (b : UInt8) : ofBytesBE [b] = b.toNat := by
  rw [← List.nil_append [b], ofBytesBE_concat, ofBytesBE_nil, Nat.mul_zero, Nat.zero_add]

theorem ofBytesBE_cons (b : UInt8) (xs : List UInt8) : ofBytesBE (b :: xs) = b.toNat * 256 ^ xs.length + ofBytesBE xs := by
  rw [← List.singleton_append, ofBytesBE_append, ofBytesBE_singleton]

@[simp] theorem ofBytesBE_replicate_zero (n : ℕ) : ofBytesBE (List.replicate n 0) = 0 := by
  induction n with
  | zero => rfl
  | succ n ih => simp [List.replicate_succ, ofBytesBE_cons, ih]

theorem ofBytesBE_lt (xs : List UInt8) : ofBytesBE xs < 256 ^ xs.length := by
  induction xs with
  | nil => exact Nat.one_pos
  | cons b xs ih =>
    have hb := b.toNat_lt
    rw [ofBytesBE_cons, List.length_cons, Nat.pow_succ]
    calc b.toNat * 256 ^ xs.length + ofBytesBE xs < b.toNat * 256 ^ xs.length + 256 ^ xs.length := Nat.add_lt_add_left ih _
      _ = (b.toNat + 1) * 256 ^ xs.length := by ring
      _ ≤ 256 * 256 ^ xs.length := Nat.mul_le_mul_right _ hb
      _ = 256 ^ xs.length * 256 := Nat.mul_comm _ _

/-- The bytes of a number that fits, the other way round. -/
theorem ofBytesBE_reverse_leBytes {n x : ℕ} (h : x < 256 ^ n) : ofBytesBE (leBytes n x).reverse = x := by
  induction n generalizing x with
  | zero =>
    rw [Nat.pow_zero] at h
    exact (Nat.lt_one_iff.mp h).symm
  | succ n ih =>
    have hdiv : x / 256 < 256 ^ n := Nat.div_lt_of_lt_mul (by rw [Nat.mul_comm, ← Nat.pow_succ]; exact h)
    rw [leBytes, List.reverse_cons, ofBytesBE_concat, ih hdiv, UInt8.toNat_ofNat']
    exact Nat.div_add_mod x 256

/-- Leading zeros do not count; the first other byte is the first digit. -/
theorem ofBytesBE_zeros_append (n : ℕ) (xs : List UInt8) : ofBytesBE (List.replicate n 0 ++ xs) = ofBytesBE xs := by
  rw [ofBytesBE_append, ofBytesBE_replicate_zero, Nat.zero_mul, Nat.zero_add]

theorem ofBytesBE_eq_zero : ofBytesBE xs = 0 ↔ ∀ b ∈ xs, b = 0 := by
  constructor
  · intro h b hb
    have hxs : xs = List.replicate xs.length 0 := ofBytesBE_inj (by simp) (by rw [h, ofBytesBE_replicate_zero])
    rw [hxs] at hb
    exact List.eq_of_mem_replicate hb
  · intro h
    rw [List.eq_replicate_of_mem h, ofBytesBE_replicate_zero]

/-- Byte strings of one length are in the order of their numbers. -/
theorem le_iff_ofBytesBE_le (hl : xs.length = ys.length) : xs ≤ ys ↔ ofBytesBE xs ≤ ofBytesBE ys := by
  induction xs generalizing ys with
  | nil =>
    obtain rfl := List.length_eq_zero_iff.mp hl.symm
    exact iff_of_true (List.nil_le _) le_rfl
  | cons x xs ih =>
    obtain _ | ⟨y, ys⟩ := ys
    · exact absurd hl (Nat.succ_ne_zero _)
    have hlen : xs.length = ys.length := Nat.succ.inj hl
    have hx := ofBytesBE_lt xs
    have hy := ofBytesBE_lt ys
    rw [List.cons_le_cons_iff, ih hlen, ofBytesBE_cons, ofBytesBE_cons, hlen, UInt8.lt_iff_toNat_lt, ← UInt8.toNat_inj]
    rw [hlen] at hx
    generalize 256 ^ ys.length = m at *
    constructor
    · rintro (h | ⟨h, hle⟩)
      · calc x.toNat * m + ofBytesBE xs ≤ (x.toNat + 1) * m := by rw [Nat.add_one_mul]; omega
          _ ≤ y.toNat * m := Nat.mul_le_mul_right m h
          _ ≤ y.toNat * m + ofBytesBE ys := Nat.le_add_right _ _
      · rw [h]
        exact Nat.add_le_add_left hle _
    · intro h
      rcases Nat.lt_trichotomy x.toNat y.toNat with hlt | heq | hgt
      · exact .inl hlt
      · rw [heq] at h
        exact .inr ⟨heq, Nat.le_of_add_le_add_left h⟩
      · have hmul : (y.toNat + 1) * m ≤ x.toNat * m := Nat.mul_le_mul_right m hgt
        rw [Nat.add_one_mul] at hmul
        omega

/-- The first bytes of a number are its quotient. -/
theorem ofBytesBE_append_div {n : ℕ} (h : ys.length = n) : ofBytesBE (xs ++ ys) / 256 ^ n = ofBytesBE xs := by
  subst h
  rw [ofBytesBE_append, Nat.mul_comm, Nat.mul_add_div (Nat.pow_pos (by decide)), Nat.div_eq_of_lt (ofBytesBE_lt ys), Nat.add_zero]
end Lib
