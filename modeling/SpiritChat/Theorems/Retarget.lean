import Mathlib.Algebra.Order.Floor.Semifield
import SpiritChat.Ledger.Binary64
import SpiritChat.Theorems.Targets

/-! # Retargeting in binary64

A compact target has a binary64 number, so scaling it up and reading its bytes back does not lose anything that was there
before. What is lost is the whole target, once it is scaled past the largest one: that is rounded to `2 ^ 256`. -/

namespace SpiritChat
open Lib

namespace Binary64
variable {x : ℚ} {v : Binary64}

theorem val_ofRat (h : Representable 53 x) : (ofRat x).val = x := h.roundTo_eq

theorem val_ofInt_natCast {n : ℕ} (h : n < 2 ^ 53) : (Float64.ofInt (n : ℤ) : Binary64).val = n := by
  show (ofRat ((n : ℤ) : ℚ)).val = n
  rw [Int.cast_natCast]
  exact val_ofRat (.of_nat h)

theorem val_four : (Float64.ofInt 4 : Binary64).val = 4 := val_ofInt_natCast (n := 4) (by decide)

theorem val_quarter : (Float64.ofInt 1 / Float64.ofInt 4 : Binary64).val = 1 / 4 := by
  have hone : (Float64.ofInt 1 : Binary64).val = ((1 : ℕ) : ℚ) := val_ofInt_natCast (n := 1) (by decide)
  have hquarter := (representable_zpow (p := 53) (by decide) (-2)).roundTo_eq
  show roundTo 53 ((Float64.ofInt 1 : Binary64).val / (Float64.ofInt 4 : Binary64).val) = _
  rw [hone, val_four, Nat.cast_one]
  rwa [show (2 : ℚ) ^ (-2 : ℤ) = 1 / 4 by norm_num] at hquarter

/-- One step of `target_as_f64`. Only the sum is rounded. -/
theorem val_step (v : Binary64) (b : UInt8) :
    (v * Float64.ofInt 256 + Float64.ofInt b.toNat).val = roundTo 53 (v.val * 256 + b.toNat) := by
  have h256 : (Float64.ofInt 256 : Binary64).val = 256 := val_ofInt_natCast (n := 256) (by decide)
  have hb : (Float64.ofInt (b.toNat : ℤ) : Binary64).val = b.toNat := val_ofInt_natCast (b.toNat_lt.trans (by decide))
  have hmul : (v * Float64.ofInt 256).val = v.val * 256 := by
    show (ofRat (v.val * (Float64.ofInt 256 : Binary64).val)).val = _
    have h := v.representable.mul_zpow 8
    rw [show (2 : ℚ) ^ (8 : ℤ) = 256 by norm_num] at h
    rw [h256, val_ofRat h]
  show roundTo 53 ((v * Float64.ofInt 256).val + (Float64.ofInt (b.toNat : ℤ) : Binary64).val) = _
  rw [hmul, hb]

/-- `target_as_f64` on part of a target. -/
def readBytes (bytes : List UInt8) : Binary64 :=
  bytes.foldl (fun value byte => value * Float64.ofInt 256 + Float64.ofInt byte.toNat) (Float64.ofInt 0)

theorem readBytes_nil : (readBytes []).val = 0 := by
  have h : (Float64.ofInt 0 : Binary64).val = ((0 : ℕ) : ℚ) := val_ofInt_natCast (n := 0) (by decide)
  rwa [Nat.cast_zero] at h

theorem readBytes_concat (bytes : List UInt8) (b : UInt8) :
    (readBytes (bytes ++ [b])).val = roundTo 53 ((readBytes bytes).val * 256 + b.toNat) := by
  unfold readBytes
  rw [List.foldl_append]
  exact val_step _ _

/-- A number is read exactly, if what was read at each byte has few bits. -/
theorem val_readBytes {bytes : List UInt8} (h : ∀ j, Representable 53 ((ofBytesBE bytes / 256 ^ j : ℕ) : ℚ)) :
    (readBytes bytes).val = ofBytesBE bytes := by
  induction bytes using List.reverseRecOn with
  | nil => exact readBytes_nil
  | append_singleton bytes b ih =>
    have hdiv : ofBytesBE bytes = ofBytesBE (bytes ++ [b]) / 256 := by
      have := b.toNat_lt
      rw [ofBytesBE_concat]
      omega
    have hprefix : ∀ j, Representable 53 ((ofBytesBE bytes / 256 ^ j : ℕ) : ℚ) := fun j => by
      have := h (j + 1)
      rwa [Nat.pow_succ, Nat.mul_comm, ← Nat.div_div_eq_div_mul, ← hdiv] at this
    have hwhole := h 0
    rw [Nat.pow_zero, Nat.div_one] at hwhole
    have hsum : ((ofBytesBE bytes : ℕ) : ℚ) * 256 + b.toNat = (ofBytesBE (bytes ++ [b]) : ℕ) := by
      rw [ofBytesBE_concat]
      push_cast
      ring
    rw [readBytes_concat, ih hprefix, hsum, hwhole.roundTo_eq]

/-- A number is more than half of a unit below a power of two from the seventh byte on. -/
theorem val_readBytes_max (k : ℕ) : (readBytes (List.replicate k 0xff)).val = if k < 7 then 256 ^ k - 1 else 256 ^ k := by
  induction k with
  | zero =>
    rw [if_pos (by decide)]
    exact readBytes_nil.trans (by norm_num)
  | succ k ih =>
    have hff : ((0xff : UInt8).toNat : ℚ) = 255 := by
      rw [show (0xff : UInt8).toNat = 255 by decide]
      norm_num
    have hpow : ∀ i : ℕ, (256 : ℚ) ^ i = 2 ^ ((8 * i : ℕ) : ℤ) := fun i => by
      rw [zpow_natCast, pow_mul]
      norm_num
    rw [List.replicate_succ', readBytes_concat, ih, hff]
    by_cases hk : k < 6
    · rw [if_pos (by omega), if_pos (by omega)]
      have hsum : ((256 : ℚ) ^ k - 1) * 256 + 255 = ((256 ^ (k + 1) - 1 : ℕ) : ℚ) := by
        rw [Nat.cast_sub (Nat.one_le_pow _ _ (by decide))]
        push_cast
        ring
      have hlt : 256 ^ (k + 1) ≤ 256 ^ 6 := Nat.pow_le_pow_right (by decide) (by omega)
      rw [hsum, (Representable.of_nat (p := 53) (by omega)).roundTo_eq, Nat.cast_sub (Nat.one_le_pow _ _ (by decide))]
      push_cast
      ring
    · rw [if_neg (show ¬k + 1 < 7 by omega), hpow (k + 1)]
      have hbig : (2 : ℚ) ^ (((8 * (k + 1) : ℕ) : ℤ) - (53 : ℕ) - 1) ≥ 4 := by
        calc (4 : ℚ) = 2 ^ (2 : ℤ) := by norm_num
          _ ≤ _ := zpow_le_zpow_right₀ (by norm_num) (by omega)
      have hnext : (256 : ℚ) ^ k * 256 = 2 ^ ((8 * (k + 1) : ℕ) : ℤ) := by rw [← pow_succ, hpow]
      refine roundTo_eq_zpow (by decide) ?_ ?_
      · split_ifs <;> linarith
      · split_ifs with hsix
        · have := two_zpow_pos (((8 * (k + 1) : ℕ) : ℤ) - (53 : ℕ))
          linarith
        · have hbigger : (2 : ℚ) ^ (((8 * (k + 1) : ℕ) : ℤ) - (53 : ℕ)) ≥ 2048 := by
            calc (2048 : ℚ) = 2 ^ (11 : ℤ) := by norm_num
              _ ≤ _ := zpow_le_zpow_right₀ (by norm_num) (by omega)
          linarith

theorem val_maxTarget : (targetAsF64 maxTarget : Binary64).val = 2 ^ 256 := by
  have h := val_readBytes_max 32
  rw [if_neg (by decide)] at h
  exact h.trans (by norm_num)

/-! ### The bytes of a number -/

theorem toNat_toByte {x : ℚ} (h : ⌊x⌋₊ < 256) : (toByte x).toNat = ⌊x⌋₊ := by
  unfold toByte
  rw [min_eq_left (by omega), UInt8.toNat_ofNat', Nat.mod_eq_of_lt h]

theorem ofBytesBE_f64Bytes (n : ℕ) (v : Binary64) (h0 : 0 ≤ v.val) (bytes : List UInt8) :
    ofBytesBE (f64Bytes n v bytes) = ⌊v.val⌋₊ % 256 ^ n * 256 ^ bytes.length + ofBytesBE bytes := by
  induction n generalizing v bytes with
  | zero =>
    rw [Nat.pow_zero, Nat.mod_one, Nat.zero_mul, Nat.zero_add]
    rfl
  | succ n ih =>
    have h256 : (Float64.ofInt 256 : Binary64).val = 256 := val_ofInt_natCast (n := 256) (by decide)
    have hq0 : 0 ≤ v.val / 256 := div_nonneg h0 (by norm_num)
    have hquotient : Representable 53 (v.val / 256) := by
      have h := v.representable.mul_zpow (-8)
      rwa [show (2 : ℚ) ^ (-8 : ℤ) = 256⁻¹ by norm_num, ← div_eq_mul_inv] at h
    have hdiv : (v / Float64.ofInt 256).val = v.val / 256 := by
      show roundTo 53 (v.val / (Float64.ofInt 256 : Binary64).val) = _
      rw [h256, hquotient.roundTo_eq]
    have hfloor : (Float64.floor (v / Float64.ofInt 256)).val = ⌊v.val / 256⌋ := by
      show roundTo 53 ⌊(v / Float64.ofInt 256).val⌋ = _
      rw [hdiv, (hquotient.floor hq0).roundTo_eq]
    have hrem : (Float64.rem v (Float64.ofInt 256)).val = v.val - 256 * ⌊v.val / 256⌋ := by
      show roundTo 53 (v.val - (Float64.ofInt 256 : Binary64).val *
        ((if 0 ≤ v.val / (Float64.ofInt 256 : Binary64).val then ⌊v.val / (Float64.ofInt 256 : Binary64).val⌋
          else ⌈v.val / (Float64.ofInt 256 : Binary64).val⌉ : ℤ) : ℚ)) = _
      have h := v.representable.rem h0 8
      rw [show (2 : ℚ) ^ 8 = 256 by norm_num] at h
      rw [h256, if_pos hq0, h.roundTo_eq]
    have hnat : ((⌊v.val / 256⌋ : ℤ) : ℚ) = ((⌊v.val⌋₊ / 256 : ℕ) : ℚ) := by
      rw [← Nat.floor_div_ofNat, natCast_floor_eq_intCast_floor hq0]
    have hbyte : (Float64.toU8 (Float64.rem v (Float64.ofInt 256))).toNat = ⌊v.val⌋₊ % 256 := by
      have hval : ⌊v.val - 256 * ⌊v.val / 256⌋⌋₊ = ⌊v.val⌋₊ % 256 := by
        rw [hnat, show (256 : ℚ) * ((⌊v.val⌋₊ / 256 : ℕ) : ℚ) = ((256 * (⌊v.val⌋₊ / 256) : ℕ) : ℚ) by push_cast; ring,
          Nat.floor_sub_natCast]
        omega
      show (toByte (Float64.rem v (Float64.ofInt 256)).val).toNat = _
      rw [hrem, toNat_toByte (by rw [hval]; exact Nat.mod_lt _ (by decide)), hval]
    show ofBytesBE (f64Bytes n (Float64.floor (v / Float64.ofInt 256))
      (Float64.toU8 (Float64.rem v (Float64.ofInt 256)) :: bytes)) = _
    rw [ih _ (by rw [hfloor]; exact_mod_cast Int.floor_nonneg.mpr hq0), hfloor, hnat, Nat.floor_natCast, ofBytesBE_cons, hbyte,
      List.length_cons, show 256 ^ (n + 1) = 256 * 256 ^ n from Nat.pow_succ', Nat.mod_mul]
    ring

theorem toNat_f64AsTarget (h0 : 0 ≤ v.val) : (f64AsTarget v).toNat = if v.val < 2 ^ 256 then ⌊v.val⌋₊ else 0 := by
  have hzero : (Float64.ofInt 0 : Binary64).val = ((0 : ℕ) : ℚ) := val_ofInt_natCast (n := 0) (by decide)
  have hneg : ¬v < Float64.ofInt 0 := by
    show ¬v.val < (Float64.ofInt 0 : Binary64).val
    rw [hzero, Nat.cast_zero]
    exact not_lt.mpr h0
  have hbytes : ∀ w : Binary64, 0 ≤ w.val → ofBytesBE (f64Bytes 32 w []) = ⌊w.val⌋₊ % 256 ^ 32 := fun w hw => by
    rw [ofBytesBE_f64Bytes 32 w hw, List.length_nil, Nat.pow_zero, Nat.mul_one, ofBytesBE_nil, Nat.add_zero]
  show ofBytesBE (f64Bytes 32 (if (if v < Float64.ofInt 0 then Float64.ofInt 0 else v) > targetAsF64 maxTarget then
    targetAsF64 maxTarget else if v < Float64.ofInt 0 then Float64.ofInt 0 else v) []) = _
  rw [if_neg hneg]
  have hmax : (⌊(2 : ℚ) ^ 256⌋₊ : ℕ) % 256 ^ 32 = 0 := by
    rw [show (2 : ℚ) ^ 256 = ((2 ^ 256 : ℕ) : ℚ) by norm_num, Nat.floor_natCast]
    norm_num
  have hpos : (0 : ℚ) ≤ 2 ^ 256 := by positivity
  by_cases hlt : v.val < 2 ^ 256
  · have hle : ¬v > targetAsF64 maxTarget := by
      show ¬(targetAsF64 maxTarget : Binary64).val < v.val
      rw [val_maxTarget]
      exact not_lt.mpr hlt.le
    have hfloor : ⌊v.val⌋₊ < 256 ^ 32 := by
      rw [Nat.floor_lt h0]
      exact hlt.trans_eq (by norm_num)
    rw [if_neg hle, hbytes v h0, if_pos hlt, Nat.mod_eq_of_lt hfloor]
  · rw [if_neg hlt]
    split_ifs with hgt
    · rw [hbytes _ (by rw [val_maxTarget]; exact hpos), val_maxTarget, hmax]
    · have heq : v.val = 2 ^ 256 := by
        refine le_antisymm ?_ (not_lt.mp hlt)
        rw [← val_maxTarget]
        exact not_lt.mp hgt
      rw [hbytes v h0, heq, hmax]

/-- The target of a compact form has at most 24 bits, wherever they stand. -/
theorem representable_target (bits : CompactTarget) (j : ℕ) :
    Representable 53 (((expandTarget bits).toNat / 256 ^ j : ℕ) : ℚ) := by
  have hm : bits.toNat % 2 ^ 24 < 2 ^ 24 := Nat.mod_lt _ (by decide)
  rw [toNat_expandTarget]
  generalize bits.toNat % 2 ^ 24 = mantissa at hm ⊢
  have hsmall : ∀ d, Representable 53 ((mantissa / d : ℕ) : ℚ) := fun d =>
    .of_nat ((Nat.div_le_self _ _).trans_lt (hm.trans (by decide)))
  unfold targetValue
  split_ifs with hlarge h3
  · rw [Nat.zero_div]
    exact .of_nat (by decide)
  · rcases le_or_gt j (bits.toNat / 2 ^ 24 - 3) with hj | hj
    · have hdiv : mantissa * 256 ^ (bits.toNat / 2 ^ 24 - 3) / 256 ^ j = mantissa * 256 ^ (bits.toNat / 2 ^ 24 - 3 - j) := by
        rw [Nat.mul_div_assoc _ (Nat.pow_dvd_pow _ hj), Nat.pow_div hj (by decide)]
      have h := (Representable.of_nat (p := 53) (hm.trans (by decide))).mul_zpow (8 * (bits.toNat / 2 ^ 24 - 3 - j : ℕ))
      rw [hdiv]
      push_cast
      rwa [zpow_mul, zpow_natCast, show (2 : ℚ) ^ (8 : ℤ) = 256 by norm_num] at h
    · obtain ⟨i, rfl⟩ : ∃ i, j = bits.toNat / 2 ^ 24 - 3 + i := ⟨_, (Nat.add_sub_cancel' hj.le).symm⟩
      rw [Nat.pow_add, ← Nat.div_div_eq_div_mul, Nat.mul_div_cancel _ (Nat.pow_pos (by decide))]
      exact hsmall _
  · rw [Nat.div_div_eq_div_mul]
    exact hsmall _

theorem val_targetAsF64 (bits : CompactTarget) : (targetAsF64 (expandTarget bits) : Binary64).val = (expandTarget bits).toNat :=
  val_readBytes fun j => representable_target bits j

end Binary64

/-! ### Retargeting upwards -/

/-- By how much longer the blocks took than expected, in binary64, but at most 4 times. -/
def spanRatio (actual expected : ℤ) : ℚ := min 4 (roundTo 53 (roundTo 53 actual / roundTo 53 expected))

theorem one_le_roundTo_div {x y : ℚ} (h1 : 1 ≤ y) (h : y ≤ x) : 1 ≤ roundTo 53 (roundTo 53 x / roundTo 53 y) := by
  have hpos : 0 < roundTo 53 y := roundTo_pos (by decide) (by linarith)
  have hle : roundTo 53 y ≤ roundTo 53 x := roundTo_mono (by decide) (by linarith) h
  have hone : roundTo 53 (1 : ℚ) = 1 := by
    have := (representable_zpow (p := 53) (by decide) 0).roundTo_eq
    rwa [zpow_zero] at this
  calc (1 : ℚ) = roundTo 53 1 := hone.symm
    _ ≤ _ := roundTo_mono (by decide) (by norm_num) ((one_le_div hpos).mpr hle)

theorem one_le_spanRatio {actual expected : ℤ} (h1 : 1 ≤ expected) (h : expected ≤ actual) : 1 ≤ spanRatio actual expected :=
  le_min (by norm_num) (one_le_roundTo_div (by exact_mod_cast h1) (by exact_mod_cast h))

open Binary64 in
theorem val_ratio {actual expected : ℤ} (h1 : 1 ≤ expected) (h : expected ≤ actual) :
    (clamp (Float64.ofInt actual / Float64.ofInt expected) (Float64.ofInt 1 / Float64.ofInt 4) (Float64.ofInt 4) : Binary64).val =
      spanRatio actual expected := by
  have hquotient : (Float64.ofInt actual / Float64.ofInt expected : Binary64).val =
      roundTo 53 (roundTo 53 actual / roundTo 53 expected) := rfl
  have hle := one_le_roundTo_div (x := (actual : ℚ)) (y := (expected : ℚ)) (by exact_mod_cast h1) (by exact_mod_cast h)
  unfold clamp spanRatio
  rw [if_neg]
  · split_ifs with hgt
    · have hgt : (Float64.ofInt 4 : Binary64).val < (Float64.ofInt actual / Float64.ofInt expected : Binary64).val := hgt
      rw [val_four, hquotient] at hgt
      rw [val_four, min_eq_left hgt.le]
    · have hgt : ¬(Float64.ofInt 4 : Binary64).val < (Float64.ofInt actual / Float64.ofInt expected : Binary64).val := hgt
      rw [val_four, hquotient] at hgt
      rw [hquotient, min_eq_right (not_lt.mp hgt)]
  · show ¬(Float64.ofInt actual / Float64.ofInt expected : Binary64).val < (Float64.ofInt 1 / Float64.ofInt 4 : Binary64).val
    rw [hquotient, val_quarter]
    linarith

/-- What `retarget` scales the target to. -/
theorem toNat_retarget (bits : CompactTarget) {actual expected : ℤ} (h1 : 1 ≤ expected) (h : expected ≤ actual) :
    ∃ target : Hash32, retarget Binary64 bits actual expected = compactFromTarget target ∧
      target.toNat = if roundTo 53 ((expandTarget bits).toNat * spanRatio actual expected) < 2 ^ 256
        then ⌊roundTo 53 ((expandTarget bits).toNat * spanRatio actual expected)⌋₊ else 0 := by
  have hscaled : (targetAsF64 (expandTarget bits) * clamp (Float64.ofInt actual / Float64.ofInt expected)
      (Float64.ofInt 1 / Float64.ofInt 4) (Float64.ofInt 4) : Binary64).val =
        roundTo 53 ((expandTarget bits).toNat * spanRatio actual expected) := by
    rw [← val_ratio h1 h, ← Binary64.val_targetAsF64]
    rfl
  have hratio := one_le_spanRatio h1 h
  refine ⟨_, rfl, ?_⟩
  rw [Binary64.toNat_f64AsTarget, hscaled]
  rw [hscaled]
  exact roundTo_nonneg (by decide) (mul_nonneg (Nat.cast_nonneg _) (by linarith))

/-- Slow blocks make the target easier, if it has not been scaled past the largest one. From there on it turns to zero. -/
theorem retarget_le_iff {bits : CompactTarget} (hbits : (expandTarget bits).toNat ≠ 0) {actual expected : ℤ}
    (h1 : 1 ≤ expected) (h : expected ≤ actual) :
    (expandTarget bits).toNat ≤ (expandTarget (retarget Binary64 bits actual expected)).toNat ↔
      (expandTarget bits).toNat * spanRatio actual expected < 2 ^ 256 - 2 ^ 202 := by
  obtain ⟨target, hretarget, htarget⟩ := toNat_retarget bits h1 h
  have hratio := one_le_spanRatio h1 h
  have hgreatest := isGreatest_compact target
  rw [hretarget]
  have hscaled : ((expandTarget bits).toNat : ℚ) ≤ (expandTarget bits).toNat * spanRatio actual expected :=
    le_mul_of_one_le_right (Nat.cast_nonneg _) hratio
  have hnonneg : (0 : ℚ) ≤ (expandTarget bits).toNat := Nat.cast_nonneg _
  have hhalf : (2 : ℚ) ^ (256 : ℤ) - 2 ^ ((256 : ℤ) - (53 : ℕ) - 1) = 2 ^ 256 - 2 ^ 202 := by norm_num
  constructor
  · intro hle
    by_contra hover
    have hround : 2 ^ 256 ≤ roundTo 53 ((expandTarget bits).toNat * spanRatio actual expected) := by
      have hpow := roundTo_eq_zpow (p := 53) (k := 256) (x := 2 ^ 256 - 2 ^ 202) (by decide) hhalf.le (by norm_num)
      calc (2 : ℚ) ^ 256 = roundTo 53 (2 ^ 256 - 2 ^ 202) := by rw [hpow]; norm_num
        _ ≤ _ := roundTo_mono (by decide) (by norm_num) (not_lt.mp hover)
    rw [if_neg (not_lt.mpr hround)] at htarget
    have := hgreatest.1.2
    omega
  · intro hlt
    have hround : roundTo 53 ((expandTarget bits).toNat * spanRatio actual expected) < 2 ^ 256 := by
      have := roundTo_lt (p := 53) (k := 256) (by decide) (hnonneg.trans hscaled) (hlt.trans_eq hhalf.symm)
      exact this.trans_eq (by norm_num)
    rw [if_pos hround] at htarget
    have hexact : roundTo 53 ((expandTarget bits).toNat : ℚ) = (expandTarget bits).toNat := by
      have := (Binary64.representable_target bits 0).roundTo_eq
      rwa [Nat.pow_zero, Nat.div_one] at this
    refine hgreatest.2 ⟨⟨bits, rfl⟩, ?_⟩
    rw [htarget]
    refine Nat.le_floor ?_
    calc ((expandTarget bits).toNat : ℚ) = roundTo 53 (expandTarget bits).toNat := hexact.symm
      _ ≤ _ := roundTo_mono (by decide) hnonneg hscaled

theorem spanRatio_double : spanRatio 600 300 = 2 := by
  have h : ∀ n : ℕ, n < 2 ^ 53 → roundTo 53 (n : ℚ) = n := fun n hn => (Representable.of_nat hn).roundTo_eq
  have h600 : roundTo 53 ((600 : ℤ) : ℚ) = 600 := h 600 (by decide)
  have h300 : roundTo 53 ((300 : ℤ) : ℚ) = 300 := h 300 (by decide)
  have h2 : roundTo 53 (2 : ℚ) = 2 := h 2 (by decide)
  unfold spanRatio
  rw [h600, h300, show (600 : ℚ) / 300 = 2 by norm_num, h2]
  norm_num

theorem retarget_le_iff_initial :
    (expandTarget initialDifficultyBits).toNat ≤ (expandTarget (retarget Binary64 initialDifficultyBits 600 300)).toNat := by
  have hvalue : (expandTarget initialDifficultyBits).toNat = 0xffffff * 256 ^ 27 := toNat_expandTarget _
  refine (retarget_le_iff (by rw [hvalue]; decide) (by decide) (by decide)).mpr ?_
  rw [hvalue, spanRatio_double]
  norm_num

/-- Twice the largest target, and no block meets it. -/
theorem retarget_to_zero : (expandTarget 0x20ffffff).toNat = 0xffffff * 256 ^ 29 ∧
    (expandTarget (retarget Binary64 0x20ffffff 600 300)).toNat = 0 := by
  have hvalue : (expandTarget 0x20ffffff).toNat = 0xffffff * 256 ^ 29 := toNat_expandTarget _
  refine ⟨hvalue, ?_⟩
  obtain ⟨target, hretarget, htarget⟩ := @toNat_retarget 0x20ffffff 600 300 (by decide) (by decide)
  have hround : (2 : ℚ) ^ 256 ≤ roundTo 53 (((0xffffff * 256 ^ 29 : ℕ) : ℚ) * 2) := by
    have hpow := (representable_zpow (p := 53) (by decide) 256).roundTo_eq
    calc (2 : ℚ) ^ 256 = roundTo 53 (2 ^ (256 : ℤ)) := by rw [hpow]; norm_num
      _ ≤ _ := roundTo_mono (by decide) (by norm_num) (by norm_num)
  rw [hvalue, spanRatio_double, if_neg (not_lt.mpr hround)] at htarget
  rw [hretarget]
  exact Nat.le_zero.mp ((isGreatest_compact target).1.2.trans_eq htarget)

/-! ### Retargeting downwards -/

/-- A compact target has 24 bits that count. -/
theorem exists_mantissa (bits : CompactTarget) : ∃ m e : ℕ, m < 2 ^ 24 ∧ (expandTarget bits).toNat = m * 256 ^ e := by
  have hm : bits.toNat % 2 ^ 24 < 2 ^ 24 := Nat.mod_lt _ (by decide)
  rw [toNat_expandTarget]
  unfold targetValue
  split_ifs
  · exact ⟨0, 0, by decide, rfl⟩
  · exact ⟨_, _, hm, rfl⟩
  · exact ⟨_, 0, (Nat.div_le_self _ _).trans_lt hm, by rw [Nat.pow_zero, Nat.mul_one]⟩

/-- A target scaled by `511 / 512` has no more than 53 bits. -/
theorem representable_scaled (bits : CompactTarget) : Representable 53 ((expandTarget bits).toNat * (511 / 512) : ℚ) := by
  obtain ⟨m, e, hm, htarget⟩ := exists_mantissa bits
  have h := (Representable.of_nat (p := 53) (show m * 511 < 2 ^ 53 by omega)).mul_zpow (8 * (e : ℤ) - 9)
  have hvalue : ((expandTarget bits).toNat * (511 / 512) : ℚ) = ((m * 511 : ℕ) : ℚ) * 2 ^ (8 * (e : ℤ) - 9) := by
    rw [htarget, zpow_sub₀ two_ne_zero, zpow_mul, zpow_natCast]
    push_cast
    norm_num
    ring
  rwa [hvalue]

section
variable {actual expected : ℤ}

/-- What the target is scaled by when the blocks were fast by one part in 512 or more. -/
theorem ratio_le (h0 : 0 ≤ actual) (hsize : expected < 2 ^ 53) (hpos : 0 < expected) (h : 512 * actual ≤ 511 * expected) :
    0 ≤ (clamp (Float64.ofInt actual / Float64.ofInt expected) (Float64.ofInt 1 / Float64.ofInt 4) (Float64.ofInt 4) : Binary64).val ∧
      (clamp (Float64.ofInt actual / Float64.ofInt expected) (Float64.ofInt 1 / Float64.ofInt 4) (Float64.ofInt 4) : Binary64).val ≤
        511 / 512 := by
  lift actual to ℕ using h0
  lift expected to ℕ using hpos.le
  have hquotient : (Float64.ofInt (actual : ℤ) / Float64.ofInt (expected : ℤ) : Binary64).val = roundTo 53 ((actual : ℚ) / expected) := by
    show roundTo 53 ((Float64.ofInt (actual : ℤ) : Binary64).val / (Float64.ofInt (expected : ℤ) : Binary64).val) = _
    rw [Binary64.val_ofInt_natCast (by omega), Binary64.val_ofInt_natCast (by omega)]
  have hbound : roundTo 53 (511 / 512 : ℚ) = 511 / 512 := by
    have h511 := ((Representable.of_nat (p := 53) (n := 511) (by decide)).mul_zpow (-9)).roundTo_eq
    rwa [show (((511 : ℕ) : ℚ) * 2 ^ (-9 : ℤ)) = 511 / 512 by norm_num] at h511
  have hq0 : 0 ≤ (actual : ℚ) / expected := by positivity
  have hq : (actual : ℚ) / expected ≤ 511 / 512 := by
    have hexpected : (0 : ℚ) < expected := by exact_mod_cast hpos
    have hcast : (512 * actual : ℚ) ≤ 511 * expected := by exact_mod_cast h
    rw [div_le_iff₀ hexpected]
    linarith
  have hround0 : 0 ≤ (Float64.ofInt (actual : ℤ) / Float64.ofInt (expected : ℤ) : Binary64).val := by
    rw [hquotient]
    exact roundTo_nonneg (by decide) hq0
  have hround : (Float64.ofInt (actual : ℤ) / Float64.ofInt (expected : ℤ) : Binary64).val ≤ 511 / 512 := by
    rw [hquotient, ← hbound]
    exact roundTo_mono (by decide) hq0 hq
  unfold clamp
  split_ifs with hless hmore
  · rw [Binary64.val_quarter]
    norm_num
  · have hmore : (Float64.ofInt 4 : Binary64).val < (Float64.ofInt (actual : ℤ) / Float64.ofInt (expected : ℤ) : Binary64).val := hmore
    rw [Binary64.val_four] at hmore
    linarith
  · exact ⟨hround0, hround⟩

/-- Fast blocks make the target harder. -/
theorem retarget_lt {bits : CompactTarget} (hbits : (expandTarget bits).toNat ≠ 0) (h0 : 0 ≤ actual) (hsize : expected < 2 ^ 53)
    (hpos : 0 < expected) (h : 512 * actual ≤ 511 * expected) :
    (expandTarget (retarget Binary64 bits actual expected)).toNat < (expandTarget bits).toNat := by
  obtain ⟨hr0, hr⟩ := ratio_le h0 hsize hpos h
  unfold retarget
  dsimp only
  generalize (clamp (Float64.ofInt actual / Float64.ofInt expected) (Float64.ofInt 1 / Float64.ofInt 4) (Float64.ofInt 4) : Binary64) = r
    at hr0 hr ⊢
  have hnonneg : (0 : ℚ) ≤ (expandTarget bits).toNat := Nat.cast_nonneg _
  have hscaled : (targetAsF64 (expandTarget bits) * r).val = roundTo 53 ((expandTarget bits).toNat * r.val) := by
    rw [← Binary64.val_targetAsF64]
    rfl
  have hscaled0 : 0 ≤ (targetAsF64 (expandTarget bits) * r).val := by
    rw [hscaled]
    exact roundTo_nonneg (by decide) (mul_nonneg hnonneg hr0)
  have hle : (targetAsF64 (expandTarget bits) * r).val ≤ (expandTarget bits).toNat * (511 / 512) := by
    rw [hscaled, ← (representable_scaled bits).roundTo_eq]
    exact roundTo_mono (by decide) (mul_nonneg hnonneg hr0) (mul_le_mul_of_nonneg_left hr hnonneg)
  have htarget : (f64AsTarget (targetAsF64 (expandTarget bits) * r)).toNat ≤ ⌊(targetAsF64 (expandTarget bits) * r).val⌋₊ := by
    rw [Binary64.toNat_f64AsTarget hscaled0]
    split_ifs
    · exact le_rfl
    · exact Nat.zero_le _
  have hpositive : (0 : ℚ) < (expandTarget bits).toNat := by exact_mod_cast Nat.pos_of_ne_zero hbits
  refine ((isGreatest_compact _).1.2.trans htarget).trans_lt ((Nat.floor_lt hscaled0).mpr (hle.trans_lt ?_))
  linarith

end
end SpiritChat
