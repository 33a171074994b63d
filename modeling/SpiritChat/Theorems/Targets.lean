import Mathlib.Order.Bounds.Basic
import SpiritChat.Ledger.Difficulty
import SpiritChat.Lib.Digits

/-! # Compact targets

What a compact target stands for, and that `compact_from_target` rounds a target down to the next one that has a compact
form. -/

namespace SpiritChat
open Lib

/-- `mantissa * 256 ^ (exponent - 3)`, where that is a number of 256 bits. -/
def targetValue (exponent mantissa : ℕ) : ℕ :=
  if 32 < exponent then 0 else if 3 ≤ exponent then mantissa * 256 ^ (exponent - 3) else mantissa / 256 ^ (3 - exponent)

/-! ### Expansion -/

theorem toNat_mantissa (bits : UInt32) : (bits &&& 0x00ffffff).toNat = bits.toNat % 2 ^ 24 := by
  rw [UInt32.toNat_and]
  exact Nat.and_two_pow_sub_one_eq_mod bits.toNat 24

theorem toNat_exponent (bits : UInt32) : (bits >>> 24).toNat = bits.toNat / 2 ^ 24 := by
  rw [UInt32.toNat_shiftRight]
  exact Nat.shiftRight_eq_div_pow _ _

/-- The three bytes of a mantissa. -/
theorem mantissa_bytes {m : UInt32} (h : m.toNat < 2 ^ 24) :
    ofBytesBE [(m >>> 16).toUInt8, (m >>> 8).toUInt8, m.toUInt8] = m.toNat := by
  have h16 : (m >>> 16).toNat = m.toNat / 2 ^ 16 := by
    rw [UInt32.toNat_shiftRight]
    exact Nat.shiftRight_eq_div_pow _ _
  have h8 : (m >>> 8).toNat = m.toNat / 2 ^ 8 := by
    rw [UInt32.toNat_shiftRight]
    exact Nat.shiftRight_eq_div_pow _ _
  simp only [ofBytesBE_cons, ofBytesBE_nil, List.length_cons, List.length_nil, UInt32.toNat_toUInt8, h16, h8]
  omega

theorem set_append_zeros (xs ys : List UInt8) (b : UInt8) (n : ℕ) (hn : n = xs.length) :
    (xs ++ 0 :: ys).set n b = xs ++ b :: ys := by
  rw [List.set_append_right _ _ hn.ge, hn, Nat.sub_self, List.set_cons_zero]

/-- The mantissa's bytes end up side by side. -/
theorem put_bytes (start : ℕ) (h : start ≤ 29) (b₀ b₁ b₂ : UInt8) :
    ((((List.replicate 32 (0 : UInt8)).set start b₀).set (start + 1) b₁).set (start + 2) b₂) =
      List.replicate start 0 ++ ([b₀, b₁, b₂] ++ List.replicate (29 - start) 0) := by
  have hzeros : List.replicate 32 (0 : UInt8) = List.replicate start 0 ++ 0 :: 0 :: 0 :: List.replicate (29 - start) 0 := by
    rw [← List.replicate_succ, ← List.replicate_succ, ← List.replicate_succ, List.replicate_append_replicate]
    congr 1
    omega
  have h₁ : List.replicate start (0 : UInt8) ++ b₀ :: 0 :: 0 :: List.replicate (29 - start) 0 =
      (List.replicate start 0 ++ [b₀]) ++ 0 :: 0 :: List.replicate (29 - start) 0 := by simp
  have h₂ : (List.replicate start (0 : UInt8) ++ [b₀]) ++ b₁ :: 0 :: List.replicate (29 - start) 0 =
      (List.replicate start 0 ++ [b₀, b₁]) ++ 0 :: List.replicate (29 - start) 0 := by simp
  rw [hzeros, set_append_zeros _ _ _ _ (by simp), h₁, set_append_zeros _ _ _ _ (by simp), h₂, set_append_zeros _ _ _ _ (by simp)]
  simp

theorem toNat_expandTarget (bits : CompactTarget) :
    (expandTarget bits).toNat = targetValue (bits.toNat / 2 ^ 24) (bits.toNat % 2 ^ 24) := by
  have hm : (bits &&& 0x00ffffff).toNat < 2 ^ 24 := by
    rw [toNat_mantissa]
    exact Nat.mod_lt _ (by decide)
  show ofBytesBE (expandBytes bits) = _
  rw [← toNat_mantissa, ← toNat_exponent]
  unfold expandBytes
  dsimp only
  generalize bits &&& 0x00ffffff = m at hm
  generalize (bits >>> 24).toNat = exponent
  unfold targetValue
  by_cases hzero : m = 0
  · rw [if_pos hzero, hzero, ofBytesBE_replicate_zero]
    simp
  rw [if_neg hzero]
  by_cases hshort : exponent < 3
  · have hle : ¬3 ≤ exponent := by omega
    have hshifted : m.toNat >>> (8 * (3 - exponent)) = m.toNat / 256 ^ (3 - exponent) := by
      rw [Nat.shiftRight_eq_div_pow, Nat.pow_mul]
    rw [if_neg hle, if_neg (by omega), if_neg hle, List.take_replicate, ofBytesBE_zeros_append, hshifted, ofBytesBE_reverse_leBytes]
    exact (Nat.div_le_self _ _).trans_lt (hm.trans (by decide))
  · have hle : 3 ≤ exponent := by omega
    rw [if_pos hle, if_pos hle]
    by_cases hlarge : 32 < exponent
    · rw [if_pos hlarge, if_pos hlarge, ofBytesBE_replicate_zero]
    · rw [if_neg hlarge, if_neg hlarge, if_pos (by omega), if_pos (by omega), if_pos (by omega), put_bytes _ (by omega),
        ofBytesBE_zeros_append, ofBytesBE_append, mantissa_bytes hm, ofBytesBE_replicate_zero, List.length_replicate,
        show 29 - (32 - exponent) = exponent - 3 by omega, Nat.add_zero]

/-! ### Compaction -/

/-- A nonzero target: its first byte that counts, and where it stands. -/
theorem first_byte {bytes : List UInt8} (h : ∃ b ∈ bytes, b ≠ 0) :
    ∃ i b rest, bytes = List.replicate i 0 ++ b :: rest ∧ b ≠ 0 ∧ bytes.findIdx? (· ≠ 0) = some i := by
  induction bytes with
  | nil => exact absurd h (by simp)
  | cons b bytes ih =>
    by_cases hb : b = 0
    · obtain ⟨i, b', rest, rfl, hb', hi⟩ := ih (by
        obtain ⟨b', hmem, hb'⟩ := h
        rcases List.mem_cons.mp hmem with rfl | hmem
        · exact absurd hb hb'
        · exact ⟨b', hmem, hb'⟩)
      refine ⟨i + 1, b', rest, by rw [hb]; rfl, hb', ?_⟩
      rw [List.findIdx?_cons, hi]
      simp [hb]
    · exact ⟨0, b, bytes, rfl, hb, by simp [List.findIdx?_cons, hb]⟩

/-- The parts of a compact form stand side by side in its bits. -/
theorem toNat_compact {exponent : ℕ} (he : exponent ≤ 32) (b₀ b₁ b₂ : UInt8) :
    ((UInt32.ofNat exponent <<< 24) ||| ((b₀.toUInt32 <<< 16) ||| (b₁.toUInt32 <<< 8) ||| b₂.toUInt32)).toNat =
      exponent * 2 ^ 24 + (b₀.toNat * 2 ^ 16 + b₁.toNat * 2 ^ 8 + b₂.toNat) := by
  have h₀ := b₀.toNat_lt
  have h₁ := b₁.toNat_lt
  have h₂ := b₂.toNat_lt
  have hor : ∀ a b k : ℕ, b < 2 ^ k → a * 2 ^ k ||| b = a * 2 ^ k + b := fun a b k hb => by
    rw [← Nat.shiftLeft_eq, ← Nat.shiftLeft_add_eq_or_of_lt hb]
  have hshift : ∀ (x : UInt32) (k : ℕ), k < 32 → x.toNat * 2 ^ k < 2 ^ 32 → (x <<< UInt32.ofNat k).toNat = x.toNat * 2 ^ k :=
    fun x k hk hx => by
      rw [UInt32.toNat_shiftLeft, UInt32.toNat_ofNat_of_lt' (hk.trans (by decide)), Nat.mod_eq_of_lt hk, Nat.shiftLeft_eq, Nat.mod_eq_of_lt hx]
  have hexponent : (UInt32.ofNat exponent).toNat = exponent := UInt32.toNat_ofNat_of_lt' (he.trans_lt (by decide))
  have h24 : (UInt32.ofNat exponent <<< 24).toNat = exponent * 2 ^ 24 := by
    have := hshift (UInt32.ofNat exponent) 24 (by decide) (by rw [hexponent]; omega)
    rwa [hexponent] at this
  have h16 : (b₀.toUInt32 <<< 16).toNat = b₀.toNat * 2 ^ 16 := by
    have := hshift b₀.toUInt32 16 (by decide) (by rw [UInt8.toNat_toUInt32]; omega)
    rwa [UInt8.toNat_toUInt32] at this
  have h8 : (b₁.toUInt32 <<< 8).toNat = b₁.toNat * 2 ^ 8 := by
    have := hshift b₁.toUInt32 8 (by decide) (by rw [UInt8.toNat_toUInt32]; omega)
    rwa [UInt8.toNat_toUInt32] at this
  have hhigh : b₀.toNat * 2 ^ 16 + b₁.toNat * 2 ^ 8 = (b₀.toNat * 2 ^ 8 + b₁.toNat) * 2 ^ 8 := by omega
  rw [UInt32.toNat_or, UInt32.toNat_or, UInt32.toNat_or, h24, h16, h8, UInt8.toNat_toUInt32, hor _ _ 16 (by omega), hhigh,
    hor _ _ 8 (by omega), hor _ _ 24 (by omega)]

/-- The first three digits, with zeros for those that are missing. -/
theorem leading_digits (b : UInt8) (rest : List UInt8) :
    b.toNat * 2 ^ 16 + (rest.getD 0 0).toNat * 2 ^ 8 + (rest.getD 1 0).toNat =
      ofBytesBE (b :: rest) * 256 ^ (3 - (rest.length + 1)) / 256 ^ (rest.length + 1 - 3) := by
  match rest with
  | [] => simp [ofBytesBE_cons]
  | [c] =>
    simp [ofBytesBE_cons]
    omega
  | c :: d :: rest =>
    have hsplit : ofBytesBE (b :: c :: d :: rest) = ofBytesBE [b, c, d] * 256 ^ rest.length + ofBytesBE rest :=
      ofBytesBE_append [b, c, d] rest
    have hlen : (c :: d :: rest).length + 1 = rest.length + 3 := rfl
    rw [hlen, show 3 - (rest.length + 3) = 0 by omega, Nat.pow_zero, Nat.mul_one, Nat.add_sub_cancel, hsplit,
      Nat.mul_comm (ofBytesBE _), Nat.mul_add_div (Nat.pow_pos (by decide)), Nat.div_eq_of_lt (ofBytesBE_lt rest)]
    simp [ofBytesBE_cons]
    omega

/-- The exponent of a compact form is the target's length, and the mantissa its first three bytes. -/
theorem compactFromTarget_parts {target : Hash32} (h : target.toNat ≠ 0) :
    ∃ e, 1 ≤ e ∧ e ≤ 32 ∧ 256 ^ (e - 1) ≤ target.toNat ∧ target.toNat < 256 ^ e ∧ (compactFromTarget target).toNat / 2 ^ 24 = e ∧
      (compactFromTarget target).toNat % 2 ^ 24 = target.toNat * 256 ^ (3 - e) / 256 ^ (e - 3) := by
  have hex : ∃ b ∈ target.asBytes, b ≠ 0 := by
    by_contra hall
    push Not at hall
    exact h (ofBytesBE_eq_zero.mpr hall)
  obtain ⟨i, b, rest, hbytes, hb, hi⟩ := first_byte hex
  have hlen : i + (rest.length + 1) = 32 := by
    have := target.length_asBytes
    rw [hbytes, List.length_append, List.length_replicate, List.length_cons] at this
    exact this
  have hvalue : target.toNat = ofBytesBE (b :: rest) := by
    show ofBytesBE target.asBytes = _
    rw [hbytes, ofBytesBE_zeros_append]
  have hbpos : 1 ≤ b.toNat := Nat.one_le_iff_ne_zero.mpr fun h0 => hb (UInt8.toNat_inj.mp h0)
  have hcompact : (compactFromTarget target).toNat = (rest.length + 1) * 2 ^ 24 +
      (b.toNat * 2 ^ 16 + (rest.getD 0 0).toNat * 2 ^ 8 + (rest.getD 1 0).toNat) := by
    have hget : ∀ k, target.asBytes.getD (i + k) 0 = (b :: rest).getD k 0 := fun k => by
      rw [hbytes, List.getD_eq_getElem?_getD, List.getElem?_append_right (by simp), List.length_replicate, Nat.add_sub_cancel_left,
        List.getD_eq_getElem?_getD]
    unfold compactFromTarget
    dsimp only
    rw [hi]
    dsimp only
    rw [show 32 - i = rest.length + 1 by omega, hget 1, hget 2, show target.asBytes.getD i 0 = b from hget 0]
    exact toNat_compact (by omega) _ _ _
  have hmantissa : b.toNat * 2 ^ 16 + (rest.getD 0 0).toNat * 2 ^ 8 + (rest.getD 1 0).toNat < 2 ^ 24 := by
    have h₀ := b.toNat_lt
    have h₁ := (rest.getD 0 0).toNat_lt
    have h₂ := (rest.getD 1 0).toNat_lt
    omega
  refine ⟨rest.length + 1, by omega, by omega, ?_, ?_, ?_, ?_⟩
  · rw [hvalue, ofBytesBE_cons, Nat.add_sub_cancel]
    exact (Nat.le_mul_of_pos_left _ hbpos).trans (Nat.le_add_right _ _)
  · rw [hvalue]
    exact ofBytesBE_lt (b :: rest)
  · omega
  · rw [hvalue, ← leading_digits, hcompact]
    omega

/-! ### Rounding down -/

theorem targetValue_lt {exponent mantissa : ℕ} (h : mantissa < 2 ^ 24) : targetValue exponent mantissa < 256 ^ exponent := by
  have h' : mantissa < 256 ^ 3 := h
  unfold targetValue
  split_ifs with hlarge hle
  · exact Nat.pow_pos (by decide)
  · calc mantissa * 256 ^ (exponent - 3) < 256 ^ 3 * 256 ^ (exponent - 3) := Nat.mul_lt_mul_of_pos_right h' (Nat.pow_pos (by decide))
      _ = 256 ^ exponent := by rw [← Nat.pow_add, show 3 + (exponent - 3) = exponent by omega]
  · refine Nat.div_lt_of_lt_mul (h'.trans_eq ?_)
    rw [← Nat.pow_add, show 3 - exponent + exponent = 3 by omega]

theorem le_floor_of_dvd {d v n : ℕ} (hd : d ∣ v) (h : v ≤ n) : v ≤ n / d * d := by
  obtain ⟨k, rfl⟩ := hd
  rcases Nat.eq_zero_or_pos d with rfl | hpos
  · simp
  · rw [Nat.mul_comm]
    exact Nat.mul_le_mul_right _ ((Nat.le_div_iff_mul_le hpos).mpr (by rwa [Nat.mul_comm]))

/-- What is cut off a target is what lies behind its first three bytes. -/
theorem toNat_expand_compact {target : Hash32} (h : target.toNat ≠ 0) :
    ∃ e, 1 ≤ e ∧ 256 ^ (e - 1) ≤ target.toNat ∧
      (expandTarget (compactFromTarget target)).toNat = target.toNat / 256 ^ (e - 3) * 256 ^ (e - 3) := by
  obtain ⟨e, h1, h32, hle, -, hexponent, hmantissa⟩ := compactFromTarget_parts h
  refine ⟨e, h1, hle, ?_⟩
  rw [toNat_expandTarget, hexponent, hmantissa]
  unfold targetValue
  rw [if_neg (by omega)]
  split_ifs with h3
  · rw [show 3 - e = 0 by omega, Nat.pow_zero, Nat.mul_one]
  · rw [show e - 3 = 0 by omega, Nat.pow_zero, Nat.div_one, Nat.div_one, Nat.mul_one]
    exact Nat.mul_div_cancel _ (Nat.pow_pos (by decide))

/-- The targets that have a compact form. -/
def compactTargets : Set ℕ := {v | ∃ bits, v = (expandTarget bits).toNat}

/-- The compact form of a target stands for the greatest one that is not above it. -/
theorem isGreatest_compact (target : Hash32) :
    IsGreatest {v ∈ compactTargets | v ≤ target.toNat} (expandTarget (compactFromTarget target)).toNat := by
  rcases eq_or_ne target.toNat 0 with hzero | hne
  · have hcompact : compactFromTarget target = 0 := by
      unfold compactFromTarget
      dsimp only
      rw [List.findIdx?_eq_none_iff.mpr fun b hb => by simp [ofBytesBE_eq_zero.mp hzero b hb]]
    have hvalue : (expandTarget (compactFromTarget target)).toNat = 0 := by
      rw [hcompact, toNat_expandTarget]
      rfl
    refine ⟨⟨⟨_, rfl⟩, hvalue.trans_le (Nat.zero_le _)⟩, fun v hv => ?_⟩
    have := hv.2
    omega
  obtain ⟨e, h1, hle, hvalue⟩ := toNat_expand_compact hne
  refine ⟨⟨⟨_, rfl⟩, ?_⟩, ?_⟩
  · rw [hvalue]
    exact Nat.div_mul_le_self _ _
  rintro v ⟨⟨bits, rfl⟩, hv⟩
  rw [hvalue]
  rw [toNat_expandTarget] at hv ⊢
  have hm : bits.toNat % 2 ^ 24 < 2 ^ 24 := Nat.mod_lt _ (by decide)
  generalize bits.toNat / 2 ^ 24 = exponent at hv ⊢
  generalize bits.toNat % 2 ^ 24 = mantissa at hv hm ⊢
  by_cases hlt : exponent < e
  · -- A shorter number is below the target's first digit.
    have hfirst : 256 ^ (e - 1) ≤ target.toNat / 256 ^ (e - 3) * 256 ^ (e - 3) :=
      le_floor_of_dvd (Nat.pow_dvd_pow _ (by omega)) hle
    exact ((targetValue_lt hm).le.trans (Nat.pow_le_pow_right (by decide) (by omega))).trans hfirst
  · refine le_floor_of_dvd ?_ hv
    unfold targetValue
    split_ifs with hlarge h3
    · exact dvd_zero _
    · exact (Nat.pow_dvd_pow _ (by omega)).mul_left _
    · rw [show e - 3 = 0 by omega, Nat.pow_zero]
      exact one_dvd _

/-- Compaction and expansion are adjoint: a target is rounded down to the next one with a compact form, in order, and one
that has a compact form is kept. -/
theorem compact_lower_adjoint :
    (∀ target, IsGreatest {v ∈ compactTargets | v ≤ target.toNat} (expandTarget (compactFromTarget target)).toNat) ∧
    (∀ target target' : Hash32, target.toNat ≤ target'.toNat →
      (expandTarget (compactFromTarget target)).toNat ≤ (expandTarget (compactFromTarget target')).toNat) ∧
    ∀ bits, expandTarget (compactFromTarget (expandTarget bits)) = expandTarget bits := by
  refine ⟨isGreatest_compact, fun target target' h => ?_, fun bits => ?_⟩
  · exact (isGreatest_compact target).mono (isGreatest_compact target') fun v hv => ⟨hv.1, hv.2.trans h⟩
  · have h := isGreatest_compact (expandTarget bits)
    exact Hash32.toNat_inj.mp (le_antisymm h.1.2 (h.2 ⟨⟨bits, rfl⟩, le_refl _⟩))

end SpiritChat
