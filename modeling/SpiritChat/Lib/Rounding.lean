import Mathlib.Data.Int.Log
import Mathlib.Data.Rat.Floor
import Mathlib.Tactic.FieldSimp
import Mathlib.Tactic.Linarith
import Mathlib.Tactic.Positivity

/-! # Rounding to nearest, ties to even

Rational numbers rounded to a number of significant bits, with an exponent of any size. -/

namespace Lib

/-- The nearest integer, and the even one of two. -/
def roundHalfEven (x : ℚ) : ℤ :=
  if x - ⌊x⌋ < 1 / 2 then ⌊x⌋
  else if 1 / 2 < x - ⌊x⌋ then ⌊x⌋ + 1
  else if ⌊x⌋ % 2 = 0 then ⌊x⌋ else ⌊x⌋ + 1

section
variable {x y : ℚ} {n : ℤ}

theorem floor_le_roundHalfEven (x : ℚ) : ⌊x⌋ ≤ roundHalfEven x := by
  unfold roundHalfEven
  split_ifs <;> omega

theorem roundHalfEven_le_floor_add_one (x : ℚ) : roundHalfEven x ≤ ⌊x⌋ + 1 := by
  unfold roundHalfEven
  split_ifs <;> omega

@[simp] theorem roundHalfEven_intCast (n : ℤ) : roundHalfEven n = n := by
  unfold roundHalfEven
  rw [Int.floor_intCast, sub_self, if_pos (by norm_num)]

theorem le_roundHalfEven (h : n ≤ x) : n ≤ roundHalfEven x := (Int.le_floor.mpr h).trans (floor_le_roundHalfEven x)

theorem roundHalfEven_mono (h : x ≤ y) : roundHalfEven x ≤ roundHalfEven y := by
  rcases (Int.floor_mono h).lt_or_eq with hlt | heq
  · exact (roundHalfEven_le_floor_add_one x).trans ((Int.add_one_le_iff.mpr hlt).trans (floor_le_roundHalfEven y))
  · unfold roundHalfEven
    rw [← heq]
    split_ifs <;> first | omega | linarith

theorem roundHalfEven_le (h : x ≤ n) : roundHalfEven x ≤ n := by
  have := roundHalfEven_mono h
  rwa [roundHalfEven_intCast] at this

theorem roundHalfEven_lt (h : x < n - 1 / 2) : roundHalfEven x < n := by
  have hfloor : ⌊x⌋ < n := Int.floor_lt.mpr (by linarith)
  rcases (Int.add_one_le_iff.mpr hfloor).lt_or_eq with hlt | heq
  · exact (roundHalfEven_le_floor_add_one x).trans_lt hlt
  · have hn : (n : ℚ) = ⌊x⌋ + 1 := by exact_mod_cast heq.symm
    unfold roundHalfEven
    rw [if_pos (by linarith)]
    exact hfloor

/-- An even number is what half a unit below it is rounded to. -/
theorem roundHalfEven_eq_of_even (hn : n % 2 = 0) (hle : n - 1 / 2 ≤ x) (h : x ≤ n) : roundHalfEven x = n := by
  refine le_antisymm (roundHalfEven_le h) (not_lt.mp fun hlt => ?_)
  have hfloor : ⌊x⌋ = n - 1 := by
    have h1 : ⌊x⌋ < n := (floor_le_roundHalfEven x).trans_lt hlt
    have h2 : n - 1 ≤ ⌊x⌋ := Int.le_floor.mpr (by push_cast; linarith)
    omega
  have hcast : (⌊x⌋ : ℚ) = n - 1 := by exact_mod_cast hfloor
  unfold roundHalfEven at hlt
  rw [if_neg (by linarith)] at hlt
  split_ifs at hlt <;> omega

/-! ### A number of significant bits -/

theorem two_zpow_pos (k : ℤ) : (0 : ℚ) < 2 ^ k := zpow_pos two_pos k

/-- The unit in the last of `p` places. -/
def ulp (p : ℕ) (x : ℚ) : ℚ := 2 ^ (Int.log 2 |x| - p + 1)

def roundTo (p : ℕ) (x : ℚ) : ℚ := roundHalfEven (x / ulp p x) * ulp p x

/-- `m * 2 ^ e` with `p` bits in `m`. -/
def Representable (p : ℕ) (x : ℚ) : Prop := ∃ m e : ℤ, |m| < 2 ^ p ∧ x = m * 2 ^ e

variable {p : ℕ} {k : ℤ}

theorem ulp_pos (p : ℕ) (x : ℚ) : 0 < ulp p x := two_zpow_pos _

theorem log_eq (hle : 2 ^ k ≤ x) (hlt : x < 2 ^ (k + 1)) : Int.log 2 |x| = k := by
  have hpos : 0 < x := (two_zpow_pos k).trans_le hle
  rw [abs_of_pos hpos]
  refine le_antisymm (Int.lt_add_one_iff.mp ?_) ?_
  · exact (Int.lt_zpow_iff_log_lt (by decide) hpos).mp (by exact_mod_cast hlt)
  · exact (Int.zpow_le_iff_le_log (by decide) hpos).mp (by exact_mod_cast hle)

theorem ulp_eq (hle : 2 ^ k ≤ x) (hlt : x < 2 ^ (k + 1)) : ulp p x = 2 ^ (k - p + 1) := by
  unfold ulp
  rw [log_eq hle hlt]

/-- Between which powers of two a number lies. -/
theorem exists_log (h : 0 < x) : ∃ k : ℤ, 2 ^ k ≤ x ∧ x < 2 ^ (k + 1) := by
  refine ⟨Int.log 2 x, ?_, ?_⟩
  · exact_mod_cast Int.zpow_log_le_self (by decide) h
  · exact_mod_cast Int.lt_zpow_succ_log_self (b := 2) (by decide) x

@[simp] theorem roundTo_zero (p : ℕ) : roundTo p 0 = 0 := by
  have h := roundHalfEven_intCast 0
  rw [Int.cast_zero] at h
  unfold roundTo
  rw [zero_div, h, Int.cast_zero, zero_mul]

/-- What is a multiple of its unit is kept. -/
theorem roundTo_of_int (h : x = n * ulp p x) : roundTo p x = x := by
  have hdiv : x / ulp p x = n := (div_eq_iff (ulp_pos p x).ne').mpr h
  unfold roundTo
  rw [hdiv, roundHalfEven_intCast]
  exact h.symm

theorem Representable.roundTo_eq (h : Representable p x) : roundTo p x = x := by
  obtain ⟨m, e, hm, rfl⟩ := h
  rcases eq_or_ne m 0 with rfl | hne
  · rw [Int.cast_zero, zero_mul, roundTo_zero]
  have habs : |(m : ℚ) * 2 ^ e| = (|m| : ℤ) * 2 ^ e := by rw [abs_mul, abs_of_pos (two_zpow_pos e), Int.cast_abs]
  have hlog : Int.log 2 |(m : ℚ) * 2 ^ e| < e + p := by
    refine (Int.lt_zpow_iff_log_lt (by decide) ?_).mp ?_
    · exact abs_pos.mpr (mul_ne_zero (Int.cast_ne_zero.mpr hne) (two_zpow_pos e).ne')
    · rw [habs, Nat.cast_ofNat, zpow_add₀ two_ne_zero, zpow_natCast, mul_comm]
      exact mul_lt_mul_of_pos_left (by exact_mod_cast hm) (two_zpow_pos e)
  obtain ⟨i, hi⟩ := Int.eq_ofNat_of_zero_le (show 0 ≤ e - (Int.log 2 |(m : ℚ) * 2 ^ e| - p + 1) by omega)
  refine roundTo_of_int (n := m * 2 ^ i) ?_
  unfold ulp
  rw [Int.cast_mul, Int.cast_pow, Int.cast_ofNat, mul_assoc, ← zpow_natCast, ← zpow_add₀ two_ne_zero, ← hi, sub_add_cancel]

theorem representable_of_le (hp : 0 < p) {m e : ℤ} (hm : |m| ≤ 2 ^ p) : Representable p (m * 2 ^ e) := by
  rcases hm.lt_or_eq with hlt | heq
  · exact ⟨m, e, hlt, rfl⟩
  · -- The power of two itself has one bit too many, and all but its first are zero.
    obtain ⟨q, rfl⟩ : ∃ q, p = q + 1 := ⟨p - 1, by omega⟩
    have hq : (2 : ℤ) ^ q < 2 ^ (q + 1) := pow_lt_pow_right₀ (by decide) (Nat.lt_succ_self q)
    rcases abs_choice m with h | h
    · refine ⟨2 ^ q, e + 1, by rwa [abs_of_pos (by positivity)], ?_⟩
      rw [← h, heq, zpow_add₀ two_ne_zero]
      push_cast
      ring
    · refine ⟨-2 ^ q, e + 1, by rwa [abs_neg, abs_of_pos (by positivity)], ?_⟩
      rw [show m = -2 ^ (q + 1) by omega, zpow_add₀ two_ne_zero]
      push_cast
      ring

theorem representable_zpow (hp : 0 < p) (k : ℤ) : Representable p (2 ^ k) := by
  have h : Representable p ((1 : ℤ) * 2 ^ k) := representable_of_le hp (by rw [abs_one]; exact one_le_pow₀ (by decide))
  rwa [Int.cast_one, one_mul] at h

theorem representable_roundTo (hp : 0 < p) (x : ℚ) : Representable p (roundTo p x) := by
  refine representable_of_le hp ?_
  have hlt : |x| < 2 ^ p * ulp p x := by
    unfold ulp
    rw [← zpow_natCast, ← zpow_add₀ two_ne_zero, show (p : ℤ) + (Int.log 2 |x| - p + 1) = Int.log 2 |x| + 1 by omega]
    exact_mod_cast Int.lt_zpow_succ_log_self (b := 2) (by decide) |x|
  obtain ⟨hlow, hhigh⟩ := abs_lt.mp hlt
  refine abs_le.mpr ⟨le_roundHalfEven ?_, roundHalfEven_le ?_⟩
  · rw [le_div_iff₀ (ulp_pos p x)]
    push_cast
    linarith
  · rw [div_le_iff₀ (ulp_pos p x)]
    push_cast
    linarith

/-! ### Order -/

theorem roundTo_of_binade (hle : 2 ^ k ≤ x) (hlt : x < 2 ^ (k + 1)) :
    roundTo p x = roundHalfEven (x / 2 ^ (k - p + 1)) * 2 ^ (k - p + 1) := by
  unfold roundTo
  rw [ulp_eq hle hlt]

/-- Rounding does not leave the binade. -/
theorem roundTo_bounds (hp : 0 < p) (hle : 2 ^ k ≤ x) (hlt : x < 2 ^ (k + 1)) : 2 ^ k ≤ roundTo p x ∧ roundTo p x ≤ 2 ^ (k + 1) := by
  obtain ⟨q, rfl⟩ : ∃ q, p = q + 1 := ⟨p - 1, by omega⟩
  have hunit := two_zpow_pos (k - (q + 1 : ℕ) + 1)
  have hk : (2 : ℚ) ^ k = (2 ^ q : ℤ) * 2 ^ (k - (q + 1 : ℕ) + 1) := by
    push_cast
    rw [← zpow_natCast, ← zpow_add₀ two_ne_zero, show (q : ℤ) + (k - (q + 1) + 1) = k by omega]
  have hk' : (2 : ℚ) ^ (k + 1) = (2 ^ (q + 1) : ℤ) * 2 ^ (k - (q + 1 : ℕ) + 1) := by
    push_cast
    rw [← zpow_natCast, ← zpow_add₀ two_ne_zero]
    congr 1
    push_cast
    omega
  rw [roundTo_of_binade hle hlt, hk, hk']
  rw [hk] at hle
  rw [hk'] at hlt
  constructor
  · refine mul_le_mul_of_nonneg_right ?_ hunit.le
    exact_mod_cast le_roundHalfEven ((le_div_iff₀ hunit).mpr hle)
  · refine mul_le_mul_of_nonneg_right ?_ hunit.le
    exact_mod_cast roundHalfEven_le ((div_le_iff₀ hunit).mpr hlt.le)

theorem roundTo_pos (hp : 0 < p) (h : 0 < x) : 0 < roundTo p x := by
  obtain ⟨k, hle, hlt⟩ := exists_log h
  exact (two_zpow_pos k).trans_le (roundTo_bounds hp hle hlt).1

theorem roundTo_mono (hp : 0 < p) (hx : 0 ≤ x) (h : x ≤ y) : roundTo p x ≤ roundTo p y := by
  rcases hx.eq_or_lt with rfl | hx
  · rcases h.eq_or_lt with rfl | hy
    · exact le_refl _
    · rw [roundTo_zero]
      exact (roundTo_pos hp hy).le
  obtain ⟨k, hle, hlt⟩ := exists_log hx
  obtain ⟨k', hle', hlt'⟩ := exists_log (hx.trans_le h)
  have hkk : k < k' + 1 := (zpow_lt_zpow_iff_right₀ (by norm_num : (1 : ℚ) < 2)).mp (hle.trans_lt (h.trans_lt hlt'))
  rcases (Int.lt_add_one_iff.mp hkk).lt_or_eq with hlower | rfl
  · calc roundTo p x ≤ 2 ^ (k + 1) := (roundTo_bounds hp hle hlt).2
      _ ≤ 2 ^ k' := zpow_le_zpow_right₀ (by norm_num) hlower
      _ ≤ roundTo p y := (roundTo_bounds hp hle' hlt').1
  · have hunit := two_zpow_pos (k - p + 1)
    rw [roundTo_of_binade hle hlt, roundTo_of_binade hle' hlt']
    refine mul_le_mul_of_nonneg_right ?_ hunit.le
    exact_mod_cast roundHalfEven_mono (div_le_div_of_nonneg_right h hunit.le)

theorem roundTo_nonneg (hp : 0 < p) (h : 0 ≤ x) : 0 ≤ roundTo p x := by
  have := roundTo_mono hp (le_refl 0) h
  rwa [roundTo_zero] at this

/-! ### Next to a power of two -/

theorem zpow_sub_one (k : ℤ) : (2 : ℚ) ^ (k - 1) = 2 ^ k / 2 := by rw [zpow_sub₀ two_ne_zero, zpow_one]

/-- Below half a unit from a power of two, rounding stays below it. -/
theorem roundTo_lt (hp : 0 < p) (hx : 0 ≤ x) (h : x < 2 ^ k - 2 ^ (k - p - 1)) : roundTo p x < 2 ^ k := by
  have hhalf := zpow_sub_one k
  have hpos := two_zpow_pos k
  rcases lt_or_ge x (2 ^ (k - 1)) with hlt | hle
  · have hmono := roundTo_mono hp hx hlt.le
    rw [(representable_zpow hp (k - 1)).roundTo_eq] at hmono
    linarith
  · have hlt : x < 2 ^ (k - 1 + 1) := by
      rw [sub_add_cancel]
      linarith [two_zpow_pos (k - p - 1)]
    have hunit := two_zpow_pos (k - 1 - p + 1)
    have hexp : k - 1 - p + 1 = k - p := by omega
    rw [roundTo_of_binade hle hlt]
    rw [hexp] at hunit ⊢
    have hk : (2 : ℚ) ^ k = 2 ^ p * 2 ^ (k - p) := by rw [← zpow_natCast, ← zpow_add₀ two_ne_zero, add_sub_cancel]
    have hround : roundHalfEven (x / 2 ^ (k - p)) < 2 ^ p := by
      refine roundHalfEven_lt ?_
      rw [div_lt_iff₀ hunit]
      rw [zpow_sub_one, hk] at h
      push_cast
      linarith
    rw [hk]
    exact mul_lt_mul_of_pos_right (by exact_mod_cast hround) hunit

/-- Half a unit around a power of two, the unit being smaller below it than above. -/
theorem roundTo_eq_zpow (hp : 0 < p) (hle : 2 ^ k - 2 ^ (k - p - 1) ≤ x) (hlt : x < 2 ^ k + 2 ^ (k - p)) :
    roundTo p x = 2 ^ k := by
  have hk : (2 : ℚ) ^ k = 2 ^ p * 2 ^ (k - p) := by rw [← zpow_natCast, ← zpow_add₀ two_ne_zero, add_sub_cancel]
  have hunit := two_zpow_pos (k - p)
  have hhalf := zpow_sub_one (k - p)
  have hpk := zpow_sub_one k
  have htwo : (2 : ℚ) ≤ 2 ^ p := by
    calc (2 : ℚ) = 2 ^ 1 := (pow_one 2).symm
      _ ≤ 2 ^ p := pow_le_pow_right₀ (by norm_num) hp
  rcases lt_or_ge x (2 ^ k) with hbelow | habove
  · have hbinade : (2 : ℚ) ^ (k - 1) ≤ x := by
      have : (2 : ℚ) * 2 ^ (k - p) ≤ 2 ^ p * 2 ^ (k - p) := mul_le_mul_of_nonneg_right htwo hunit.le
      linarith
    have hexp : k - 1 - p + 1 = k - p := by omega
    have heven : (2 ^ p : ℤ) % 2 = 0 := Int.emod_eq_zero_of_dvd (dvd_pow_self 2 hp.ne')
    rw [roundTo_of_binade hbinade (by rwa [sub_add_cancel]), hexp, roundHalfEven_eq_of_even heven, hk]
    · push_cast
      rfl
    · rw [le_div_iff₀ hunit]
      push_cast
      linarith
    · rw [div_le_iff₀ hunit]
      push_cast
      linarith
  · obtain ⟨q, rfl⟩ : ∃ q, p = q + 1 := ⟨p - 1, by omega⟩
    have hbinade : x < 2 ^ (k + 1) := by
      have : (2 : ℚ) ^ (k + 1) = 2 ^ k * 2 := by rw [zpow_add₀ two_ne_zero, zpow_one]
      have : (1 : ℚ) * 2 ^ (k - (q + 1 : ℕ)) ≤ 2 ^ (q + 1) * 2 ^ (k - (q + 1 : ℕ)) :=
        mul_le_mul_of_nonneg_right (by linarith) hunit.le
      linarith
    have hunit' := two_zpow_pos (k - (q + 1 : ℕ) + 1)
    have hdouble : (2 : ℚ) ^ (k - (q + 1 : ℕ) + 1) = 2 ^ (k - (q + 1 : ℕ)) * 2 := by rw [zpow_add₀ two_ne_zero, zpow_one]
    have hk' : (2 : ℚ) ^ k = 2 ^ q * 2 ^ (k - (q + 1 : ℕ) + 1) := by
      rw [hdouble, hk]
      ring
    have hround : roundHalfEven (x / 2 ^ (k - (q + 1 : ℕ) + 1)) = 2 ^ q := by
      refine le_antisymm (Int.lt_add_one_iff.mp (roundHalfEven_lt ?_)) (le_roundHalfEven ?_)
      · rw [div_lt_iff₀ hunit', Int.cast_add, Int.cast_pow, Int.cast_ofNat, Int.cast_one]
        linarith
      · rw [le_div_iff₀ hunit', Int.cast_pow, Int.cast_ofNat]
        linarith
    rw [roundTo_of_binade habove hbinade, hround, hk']
    push_cast
    rfl

/-! ### What is computed exactly -/

theorem Representable.of_nat {n : ℕ} (h : n < 2 ^ p) : Representable p n :=
  ⟨n, 0, by rw [abs_of_nonneg (Int.natCast_nonneg n)]; exact_mod_cast h, by rw [zpow_zero, mul_one, Int.cast_natCast]⟩

theorem Representable.mul_zpow (h : Representable p x) (k : ℤ) : Representable p (x * 2 ^ k) := by
  obtain ⟨m, e, hm, rfl⟩ := h
  exact ⟨m, e + k, hm, by rw [zpow_add₀ two_ne_zero, mul_assoc]⟩

/-- A number is a multiple of `2 ^ e`, or has few bits altogether. -/
theorem Representable.floor (h : Representable p x) (h0 : 0 ≤ x) : Representable p ⌊x⌋ := by
  have hm : ∀ m e : ℤ, |m| < 2 ^ p → x = m * 2 ^ e → Representable p ⌊x⌋ := by
    intro m e hm hx
    have hpos := two_zpow_pos e
    rcases le_or_gt 0 e with he | he
    · obtain ⟨i, rfl⟩ := Int.eq_ofNat_of_zero_le he
      have hint : x = ((m * 2 ^ i : ℤ) : ℚ) := by
        rw [hx]
        push_cast
        rw [zpow_natCast]
      rw [hint, Int.floor_intCast, ← hint]
      exact h
    · have hone : (2 : ℚ) ^ e ≤ 1 := zpow_le_one_of_nonpos₀ (by norm_num) he.le
      have hm0 : (0 : ℚ) ≤ m := by
        rw [hx] at h0
        exact nonneg_of_mul_nonneg_left h0 hpos
      have hfloor : (⌊x⌋ : ℤ) ≤ m := by
        have hle : x ≤ m := by
          rw [hx]
          exact mul_le_of_le_one_right hm0 hone
        exact_mod_cast (Int.floor_le x).trans hle
      refine ⟨⌊x⌋, 0, ?_, by rw [zpow_zero, mul_one]⟩
      rw [abs_of_nonneg (Int.floor_nonneg.mpr h0)]
      exact hfloor.trans_lt ((le_abs_self m).trans_lt hm)
  obtain ⟨m, e, hm', hx⟩ := h
  exact hm m e hm' hx

/-- What is left after the multiples of a power of two. -/
theorem Representable.rem (h : Representable p x) (h0 : 0 ≤ x) (j : ℕ) : Representable p (x - 2 ^ j * ⌊x / 2 ^ j⌋) := by
  obtain ⟨m, e, hm, hx⟩ := h
  have hpos := two_zpow_pos e
  have hj : (0 : ℚ) < 2 ^ j := pow_pos two_pos j
  have hq : 0 ≤ ⌊x / 2 ^ j⌋ := Int.floor_nonneg.mpr (div_nonneg h0 hj.le)
  rcases le_or_gt (j : ℤ) e with he | he
  · obtain ⟨i, hi⟩ := Int.eq_ofNat_of_zero_le (show 0 ≤ e - j by omega)
    have hint : x / 2 ^ j = ((m * 2 ^ i : ℤ) : ℚ) := by
      rw [div_eq_iff hj.ne', hx, show e = (i : ℤ) + j by omega, zpow_add₀ two_ne_zero, zpow_natCast, zpow_natCast]
      push_cast
      ring
    rw [hint, Int.floor_intCast, ← hint, mul_div_cancel₀ _ hj.ne', sub_self]
    exact ⟨0, 0, by simp, by simp⟩
  · obtain ⟨i, hi⟩ := Int.eq_ofNat_of_zero_le (show 0 ≤ j - e by omega)
    have hsplit : (2 : ℚ) ^ j = 2 ^ i * 2 ^ e := by
      rw [← zpow_natCast, ← zpow_natCast, ← zpow_add₀ two_ne_zero, show (i : ℤ) + e = j by omega]
    have hrem : x - 2 ^ j * ⌊x / 2 ^ j⌋ = ((m - 2 ^ i * ⌊x / 2 ^ j⌋ : ℤ) : ℚ) * 2 ^ e := by
      push_cast
      rw [sub_mul, ← hx, mul_right_comm, ← hsplit]
    have hnonneg : 0 ≤ x - 2 ^ j * ⌊x / 2 ^ j⌋ := by
      have := (le_div_iff₀ hj).mp (Int.floor_le (x / 2 ^ j))
      linarith
    refine ⟨m - 2 ^ i * ⌊x / 2 ^ j⌋, e, ?_, hrem⟩
    have hlow : 0 ≤ m - 2 ^ i * ⌊x / 2 ^ j⌋ := by
      rw [hrem] at hnonneg
      exact_mod_cast nonneg_of_mul_nonneg_left hnonneg hpos
    rw [abs_of_nonneg hlow]
    have hle : m - 2 ^ i * ⌊x / 2 ^ j⌋ ≤ m := by
      have : 0 ≤ 2 ^ i * ⌊x / 2 ^ j⌋ := mul_nonneg (pow_nonneg (by decide) i) hq
      omega
    exact hle.trans_lt ((le_abs_self m).trans_lt hm)

end
end Lib
