import Mathlib.Algebra.GroupWithZero.Nat
import Mathlib.Data.List.Induction

/-! # Byte strings of fixed layout

Little-endian numbers and concatenations whose parts can be told apart. -/

namespace Lib

/-- `to_le_bytes` of an unsigned number of `n` bytes. -/
def leBytes : ℕ → ℕ → List UInt8
  | 0, _ => []
  | n + 1, x => UInt8.ofNat x :: leBytes n (x / 256)

@[simp] theorem length_leBytes (n x : ℕ) : (leBytes n x).length = n := by
  induction n generalizing x with
  | zero => rfl
  | succ n ih => simp [leBytes, ih]

/-- A number below `256 ^ n` is known from its `n` bytes. -/
theorem leBytes_inj {n x y : ℕ} (hx : x < 256 ^ n) (hy : y < 256 ^ n) (h : leBytes n x = leBytes n y) : x = y := by
  induction n generalizing x y with
  | zero => simp at hx hy; omega
  | succ n ih =>
    simp only [leBytes, List.cons.injEq] at h
    have hmod := congrArg UInt8.toNat h.1
    simp only [UInt8.toNat_ofNat'] at hmod
    have hdiv := ih (by rw [Nat.pow_succ] at hx; omega) (by rw [Nat.pow_succ] at hy; omega) h.2
    omega

/-- The number that a big-endian byte string stands for. -/
def ofBytesBE (bytes : List UInt8) : ℕ := bytes.foldl (fun n b => 256 * n + b.toNat) 0

theorem ofBytesBE_concat (bytes : List UInt8) (b : UInt8) :
    ofBytesBE (bytes ++ [b]) = 256 * ofBytesBE bytes + b.toNat := by
  simp [ofBytesBE]

/-- Byte strings of one length are told apart by their numbers. -/
theorem ofBytesBE_inj {xs ys : List UInt8} (hl : xs.length = ys.length) (h : ofBytesBE xs = ofBytesBE ys) :
    xs = ys := by
  induction xs using List.reverseRecOn generalizing ys with
  | nil => simpa using hl.symm
  | append_singleton xs x ih =>
    rcases List.eq_nil_or_concat ys with rfl | ⟨ys, y, rfl⟩
    · simp at hl
    · rw [List.concat_eq_append] at hl h ⊢
      rw [ofBytesBE_concat, ofBytesBE_concat] at h
      have hx := x.toNat_lt
      have hy := y.toNat_lt
      rw [ih (by simpa using hl) (by omega), UInt8.toNat_inj.mp (show x.toNat = y.toNat by omega)]

/-- Blocks of one positive length can be read off their concatenation. -/
theorem flatten_inj_of_length {α : Type} {n : ℕ} (hn : 0 < n) :
    ∀ {xs ys : List (List α)}, (∀ x ∈ xs, x.length = n) → (∀ y ∈ ys, y.length = n) → xs.flatten = ys.flatten → xs = ys
  | [], [], _, _, _ => rfl
  | [], y :: ys, _, hy, h => by
    have hy' := hy y (by simp)
    have hlen := congrArg List.length h
    simp only [List.flatten_nil, List.length_nil, List.flatten_cons, List.length_append] at hlen
    omega
  | x :: xs, [], hx, _, h => by
    have hx' := hx x (by simp)
    have hlen := congrArg List.length h
    simp only [List.flatten_nil, List.length_nil, List.flatten_cons, List.length_append] at hlen
    omega
  | x :: xs, y :: ys, hx, hy, h => by
    simp only [List.flatten_cons] at h
    obtain ⟨rfl, ht⟩ := List.append_inj h ((hx x (by simp)).trans (hy y (by simp)).symm)
    rw [flatten_inj_of_length hn (fun x' h' => hx x' (by simp [h'])) (fun y' h' => hy y' (by simp [h'])) ht]

end Lib
