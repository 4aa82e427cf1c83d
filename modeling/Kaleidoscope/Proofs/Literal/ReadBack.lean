import Kaleidoscope.Proofs.Literal.Nearest
import Kaleidoscope.Proofs.Literal.Rounding
import Kaleidoscope.Proofs.Literal.Spelling
import Mathlib.Tactic.LinearCombination

/-!
# Numbers are read back from their texts

The double that a decimal literal is read as is the one that the decimal rounds to. The text of a
finite number rounds to it, so the number is what the text is read as.
-/

namespace Kaleidoscope.Literal

open Decimal Float.Model UnpackedFloat

section
variable {m m' n : Nat} {e e' : Int} {q : ℚ} {acc : Accuracy}

/-! ## Products and quotients -/

theorem toNat_round (small : e ≤ max (m.log2 + 1 + e - 53) (-1074))
    (h : Extends (.ofMantissaAndAccuracy m acc) q) (rounds : (fractionAt n).Rounds (q * 2 ^ e)) :
    (Float.Model.pack (roundWithAccuracy .binary64 .positive m e acc)).toBits.toNat =
      min n infiniteBits := by
  obtain ⟨m', e', canonical, here, eq⟩ := round_rounds .positive small h
  rw [eq, ← eq_of_rounds here rounds, finiteOrZero]
  by_cases none : m' = 0
  · subst none
    obtain rfl : e' = -1074 := by
      have full := canonical.full
      omega
    decide
  · rw [dif_neg none]
    exact toNat_pack canonical (Nat.pos_of_ne_zero none)

theorem toNat_mul (full : 2 ^ 52 ≤ m) (pos : 0 < m) (pos' : 0 < m')
    (rounds : (fractionAt n).Rounds (m * 2 ^ e * (m' * 2 ^ e'))) :
    (Float.Model.pack (UnpackedFloat.mul .binary64 (.finite .positive m e pos)
      (.finite .positive m' e' pos'))).toBits.toNat = min n infiniteBits := by
  have bits : 52 ≤ (m * m').log2 :=
    (Nat.le_log2 (Nat.mul_pos pos pos').ne').mpr (full.trans (Nat.le_mul_of_pos_right m pos'))
  have product : ((m * m' : Nat) : ℚ) * 2 ^ (e + e') = m * 2 ^ e * (m' * 2 ^ e') := by
    rw [zpow_add₀ two_ne_zero]
    push_cast
    ring
  rw [← product] at rounds
  exact toNat_round (by omega) (Extends.exact (m * m')) rounds

theorem Extends.fraction (m : Nat) {num den : Nat} (pos : 0 < den) (proper : num < den) :
    Extends (.ofMantissaAndAccuracy m (accuracyOfFraction num den)) (m + num / den) := by
  have pos' : (0 : ℚ) < den := by exact_mod_cast pos
  have proper' : (num : ℚ) < den := by exact_mod_cast proper
  have less : (num : ℚ) / den < 1 := (div_lt_one pos').mpr proper'
  unfold accuracyOfFraction
  by_cases zero : num = 0
  · rw [if_pos zero, zero, Nat.cast_zero, zero_div, add_zero]
    exact .exact m
  · rw [if_neg zero]
    have some : (0 : ℚ) < num := by exact_mod_cast Nat.pos_of_ne_zero zero
    have above : (0 : ℚ) < num / den := div_pos some pos'
    rcases Nat.lt_trichotomy (2 * num) den with order | order | order
    · rw [Nat.compare_eq_lt.mpr order]
      have half : (num : ℚ) / den < 1 / 2 := by
        rw [div_lt_div_iff₀ pos' two_pos]
        exact_mod_cast (by omega : num * 2 < 1 * den)
      refine ⟨num / den, above.le, half, ?_, ?_⟩
      · simp [ExtendedMantissa.ofMantissaAndAccuracy, above.ne']
      · simp [ExtendedMantissa.ofMantissaAndAccuracy]
    · rw [Nat.compare_eq_eq.mpr order]
      have half : (num : ℚ) / den = 1 / 2 := by
        rw [div_eq_div_iff pos'.ne' two_ne_zero]
        exact_mod_cast (by omega : num * 2 = 1 * den)
      refine ⟨0, le_refl 0, by norm_num, ?_, ?_⟩
      · simp [ExtendedMantissa.ofMantissaAndAccuracy]
      · simp [ExtendedMantissa.ofMantissaAndAccuracy, half]
    · rw [Nat.compare_eq_gt.mpr order]
      have half : 1 / 2 < (num : ℚ) / den := by
        rw [div_lt_div_iff₀ two_pos pos']
        exact_mod_cast (by omega : 1 * den < num * 2)
      refine ⟨num / den - 1 / 2, by linarith, by linarith, ?_, ?_⟩
      · have rest : (num : ℚ) / den - 1 / 2 ≠ 0 := by linarith
        simpa [ExtendedMantissa.ofMantissaAndAccuracy] using rest
      · simp [ExtendedMantissa.ofMantissaAndAccuracy]

/-- The dividend is shifted far enough for the quotient to fill a mantissa. -/
theorem quotient_small (pos : 0 < m) (pos' : 0 < m') (d : Int) :
    let target := min d (max ((m.log2 : Int) - m'.log2 + d - 53) (-1074))
    target ≤ max ((m <<< (d - target).toNat / m').log2 + 1 + target - 53) (-1074) := by
  intro target
  have enough (k : Nat) (room : m'.log2 + 1 + k ≤ m.log2 + (d - target).toNat) :
      k ≤ (m <<< (d - target).toNat / m').log2 := by
    have fits : 2 ^ k ≤ m <<< (d - target).toNat / m' := by
      rw [Nat.le_div_iff_mul_le pos', Nat.shiftLeft_eq]
      calc 2 ^ k * m' ≤ 2 ^ k * 2 ^ (m'.log2 + 1) := Nat.mul_le_mul_left _ Nat.lt_log2_self.le
        _ = 2 ^ (m'.log2 + 1 + k) := by rw [← Nat.pow_add, Nat.add_comm]
        _ ≤ 2 ^ (m.log2 + (d - target).toNat) := Nat.pow_le_pow_right (by decide) room
        _ = 2 ^ m.log2 * 2 ^ (d - target).toNat := Nat.pow_add ..
        _ ≤ m * 2 ^ (d - target).toNat := Nat.mul_le_mul_right _ (Nat.log2_self_le pos.ne')
    exact (Nat.le_log2 (Nat.ne_of_gt (lt_of_lt_of_le (Nat.two_pow_pos k) fits))).mpr fits
  by_cases last : target ≤ -1074
  · exact le_max_of_le_right last
  · have full := enough 52 (by omega)
    omega

theorem divCore_eq (m m' : Nat) (e e' : Int) :
    let target := min (e - e') (max ((m.log2 : Int) - m'.log2 + (e - e') - 53) (-1074))
    let shifted := m <<< (e - e' - target).toNat
    divCore .binary64 m e m' e' =
      (shifted / m', target, accuracyOfFraction (shifted % m') m') := by
  have totals : totalExponent m e - totalExponent m' e' = m.log2 - m'.log2 + (e - e') := by
    unfold totalExponent
    ring
  unfold divCore
  rw [totals]
  rfl

theorem toNat_div (pos : 0 < m) (pos' : 0 < m')
    (rounds : (fractionAt n).Rounds (m * 2 ^ e / (m' * 2 ^ e'))) :
    (Float.Model.pack (UnpackedFloat.div .binary64 (.finite .positive m e pos)
      (.finite .positive m' e' pos'))).toBits.toNat = min n infiniteBits := by
  have small := quotient_small pos pos' (e - e')
  have core := divCore_eq m m' e e'
  have least : min (e - e') (max ((m.log2 : Int) - m'.log2 + (e - e') - 53) (-1074)) ≤ e - e' :=
    min_le_left _ _
  dsimp only at small core
  generalize min (e - e') (max ((m.log2 : Int) - m'.log2 + (e - e') - 53) (-1074)) = target
    at small core least
  generalize shift : (e - e' - target).toNat = k at small core
  have value : ((m <<< k / m' : Nat) + (m <<< k % m' : Nat) / (m' : ℚ)) * 2 ^ target =
      m * 2 ^ e / (m' * 2 ^ e') := by
    have ne : (m' : ℚ) ≠ 0 := by exact_mod_cast pos'.ne'
    have whole : (m <<< k : Nat) = (m' : ℚ) * (m <<< k / m' : Nat) + (m <<< k % m' : Nat) := by
      exact_mod_cast (Nat.div_add_mod (m <<< k) m').symm
    have places : (2 : ℚ) ^ e = 2 ^ k * 2 ^ target * 2 ^ e' := by
      rw [← zpow_natCast, ← zpow_add₀ two_ne_zero, ← zpow_add₀ two_ne_zero]
      congr 1
      omega
    have dividend : ((m <<< k / m' : Nat) + (m <<< k % m' : Nat) / (m' : ℚ)) * m' = m * 2 ^ k := by
      rw [add_mul, div_mul_cancel₀ _ ne, mul_comm, ← whole, Nat.shiftLeft_eq]
      push_cast
      ring
    rw [places, eq_div_iff (mul_ne_zero ne (zpow_ne_zero e' two_ne_zero))]
    linear_combination 2 ^ target * 2 ^ e' * dividend
  rw [← value] at rounds
  have quotient : UnpackedFloat.div .binary64 (.finite .positive m e pos) (.finite .positive m' e' pos') =
      roundWithAccuracy .binary64 .positive (divCore .binary64 m e m' e').1
        (divCore .binary64 m e m' e').2.1 (divCore .binary64 m e m' e').2.2 := rfl
  rw [quotient, core]
  exact toNat_round small (Extends.fraction _ pos' (Nat.mod_lt _ pos')) rounds

/-! ## Decimals -/

theorem toNat_ofScientific (pos : 0 < m) (most : e ≤ 2048)
    (least : -(2048 + m.log2 : Int) ≤ e) (rounds : (fractionAt n).Rounds (m * 10 ^ e)) :
    (Float.Model.ofScientific m e).toBits.toNat = min n infiniteBits := by
  have nonzero : m ≠ 0 := pos.ne'
  unfold Float.Model.ofScientific UnpackedFloat.ofScientific
  rw [dif_neg nonzero, if_neg (by simpa using most), if_neg (by simpa using least)]
  -- a power of ten is multiplied exactly, and its inverse is divided by: either way one rounding
  by_cases up : 0 ≤ e
  · have value : ((m <<< 53 : Nat) : ℚ) * 2 ^ (-53 : Int) * ((10 ^ e.toNat : Nat) * 2 ^ (0 : Int)) =
        m * 10 ^ e := by
      have power : (10 : ℚ) ^ e = 10 ^ e.toNat := by
        rw [← zpow_natCast, Int.toNat_of_nonneg up]
      rw [power, Nat.shiftLeft_eq]
      push_cast
      norm_num
      ring
    rw [← value] at rounds
    have full : 2 ^ 52 ≤ m <<< 53 := by
      rw [Nat.shiftLeft_eq]
      omega
    rw [if_pos up]
    exact toNat_mul full _ _ rounds
  · have value : (m : ℚ) * 2 ^ (0 : Int) / ((10 ^ (-e).toNat : Nat) * 2 ^ (0 : Int)) = m * 10 ^ e := by
      have power : (10 : ℚ) ^ e = (10 ^ (-e).toNat)⁻¹ := by
        rw [← zpow_natCast, ← zpow_neg, Int.toNat_of_nonneg (by omega), neg_neg]
      rw [power]
      push_cast
      rw [mul_one, mul_one, div_eq_mul_inv]
    rw [← value] at rounds
    rw [if_neg up]
    exact toNat_div _ _ rounds

/-! ### Powers of ten that are doubles -/

structure Represents (v : Float) (m : Nat) (e : Int) (q : ℚ) : Prop where
  full : 2 ^ 52 ≤ m
  unpacked : ∃ pos, v.toModel.unpack = .finite .positive m e pos
  value : (m : ℚ) * 2 ^ e = q

theorem powers_exact : ∀ k : Fin Float.exactlyRepresentablePowersOfTen.size,
    let n := (Float.exactlyRepresentablePowersOfTen[k]).toBits.toNat
    0 < n ∧ n < infiniteBits ∧ 2 ^ 52 ≤ (fractionAt n).mantissa ∧
      (fractionAt n).mantissa * 2 ^ (fractionAt n).exponent.toNat =
        10 ^ k.val * 2 ^ (-(fractionAt n).exponent).toNat := by
  decide +kernel

theorem power_represents {k : Nat} (small : k < Float.exactlyRepresentablePowersOfTen.size) :
    ∃ m e, Represents (Float.exactlyRepresentablePowersOfTen[k]) m e (10 ^ k) := by
  obtain ⟨some, finite, full, scaled⟩ := powers_exact ⟨k, small⟩
  refine ⟨_, _, full, unpack_finite rfl some finite, ?_⟩
  generalize fractionAt _ = x at scaled
  have scaled : (x.mantissa : ℚ) * 2 ^ x.exponent.toNat = 10 ^ k * 2 ^ (-x.exponent).toNat := by
    exact_mod_cast scaled
  rw [Fraction.pow_toNat 2 two_ne_zero, ← mul_assoc] at scaled
  exact mul_right_cancel₀ (by positivity) scaled

theorem shiftLeft_full (pos : 0 < m) (fits : m < 2 ^ 53) :
    2 ^ 52 ≤ m <<< (52 - m.log2) ∧ m <<< (52 - m.log2) < 2 ^ 53 := by
  have bits := (Nat.log2_lt pos.ne').mpr fits
  have places : m.log2 + (52 - m.log2) = 52 := by omega
  rw [Nat.shiftLeft_eq]
  constructor
  · calc 2 ^ 52 = 2 ^ m.log2 * 2 ^ (52 - m.log2) := by rw [← Nat.pow_add, places]
      _ ≤ m * 2 ^ (52 - m.log2) := Nat.mul_le_mul_right _ (Nat.log2_self_le pos.ne')
  · calc m * 2 ^ (52 - m.log2) < 2 ^ (m.log2 + 1) * 2 ^ (52 - m.log2) :=
          Nat.mul_lt_mul_of_pos_right Nat.lt_log2_self (Nat.two_pow_pos _)
      _ = 2 ^ 53 := by rw [← Nat.pow_add, Nat.add_right_comm, places]

theorem normalize_rounds (pos : 0 < m) (e : Int) : ∃ n, (fractionAt n).Rounds (m * 2 ^ e) ∧
    (Float.Model.pack (UnpackedFloat.normalize .binary64 (m : Int) e .positive)).toBits.toNat =
      min n infiniteBits := by
  have gt : compare (m : Int) 0 = .gt := compare_gt_iff_gt.mpr (by exact_mod_cast pos)
  let k := (e - max ((m.log2 : Int) + 1 + e - 53) (-1074)).toNat
  have unfolded : UnpackedFloat.normalize .binary64 (m : Int) e .positive =
      roundWithAccuracy .binary64 .positive (m <<< k) (e - k) .exact := by
    rw [UnpackedFloat.normalize, gt]
    rfl
  have small : e - k ≤ max (((m <<< k).log2 : Int) + 1 + (e - k) - 53) (-1074) := by
    by_cases wide : m.log2 < 52
    · have full : 2 ^ 52 ≤ m <<< (52 - m.log2) := (shiftLeft_full pos
        ((Nat.log2_lt pos.ne').mp (by omega))).1
      by_cases least : e - k ≤ -1074
      · exact le_max_of_le_right least
      · rw [show 52 - m.log2 = k by omega] at full
        have bits := (Nat.le_log2 (show m <<< k ≠ 0 by omega)).mpr full
        omega
    · have none : k = 0 := by omega
      rw [none, Nat.shiftLeft_zero]
      omega
  have value : ((m <<< k : Nat) : ℚ) * 2 ^ (e - k) = m * 2 ^ e := by
    rw [Nat.shiftLeft_eq, zpow_sub₀ two_ne_zero, zpow_natCast]
    push_cast
    rw [mul_assoc, mul_div_cancel₀ _ (by positivity)]
  obtain ⟨m', e', canonical, rounds, eq⟩ := round_rounds .positive small (Extends.exact (m <<< k))
  rw [value] at rounds
  refine ⟨_, rounds, ?_⟩
  rw [unfolded]
  exact toNat_round small (Extends.exact (m <<< k)) (value ▸ rounds)

theorem integer_roundsTo (wide : m < 2 ^ 64) : RoundsTo m.toUInt64.toFloat m := by
  have same : m.toUInt64.toNat = m := UInt64.toNat_ofNat_of_lt' wide
  have whole : m.toUInt64.toFloat.toBits =
      (Float.Model.pack (UnpackedFloat.normalize .binary64 (m.toUInt64.toNat : Int) 0 .positive)).toBits := rfl
  rw [same] at whole
  rcases Nat.eq_zero_or_pos m with rfl | pos
  · have rounds := valueAt_rounds 0
    rw [valueAt_zero] at rounds
    exact ⟨0, by exact_mod_cast rounds, by decide +kernel⟩
  · obtain ⟨n, rounds, bits⟩ := normalize_rounds pos 0
    rw [zpow_zero, mul_one] at rounds
    exact ⟨n, rounds, (congrArg UInt64.toNat whole).trans bits⟩

theorem integer_bits (pos : 0 < m) (fits : m < 2 ^ 53) :
    ∃ n, valueAt n = m ∧ 1023 * 2 ^ 52 ≤ n ∧ n < 1076 * 2 ^ 52 := by
  obtain ⟨full, more⟩ := shiftLeft_full pos fits
  have least : 52 - m.log2 ≤ 52 := Nat.sub_le 52 m.log2
  generalize 52 - m.log2 = k at full more least
  have canonical : Canonical (m <<< k) (-k) := ⟨more, by omega, .inl full⟩
  refine ⟨bitsAt (m <<< k) (-k), ?_, ?_, ?_⟩
  · rw [valueAt, fractionAt_bitsAt canonical, Nat.shiftLeft_eq, zpow_neg, zpow_natCast]
    push_cast
    rw [mul_assoc, mul_inv_cancel₀ (by positivity), mul_one]
  all_goals
    unfold bitsAt
    omega

theorem integer_represents (pos : 0 < m) (fits : m < 2 ^ 53) :
    ∃ m' e, Represents m.toUInt64.toFloat m' e m := by
  obtain ⟨n, value, least, most⟩ := integer_bits pos fits
  have finite : n < infiniteBits := by
    unfold infiniteBits
    omega
  have bits := (integer_roundsTo (fits.trans (by decide))).toNat_eq (value ▸ valueAt_rounds n)
  rw [Nat.min_eq_left finite.le] at bits
  exact ⟨_, _, (mantissa_bounds (by omega)).1, unpack_finite bits (by omega) finite, value⟩

theorem Represents.mul {v w : Float} {q' : ℚ} (h : Represents v m e q) (h' : Represents w m' e' q')
    (finite : n < infiniteBits) (rounds : (fractionAt n).Rounds (q * q')) :
    (v * w).toBits.toNat = n := by
  obtain ⟨pos, unpacked⟩ := h.unpacked
  obtain ⟨pos', unpacked'⟩ := h'.unpacked
  have product : (v * w).toBits =
      (Float.Model.pack (UnpackedFloat.mul .binary64 v.toModel.unpack w.toModel.unpack)).toBits := rfl
  rw [← h.value, ← h'.value] at rounds
  rw [product, unpacked, unpacked']
  exact (toNat_mul h.full pos pos' rounds).trans (Nat.min_eq_left finite.le)

theorem Represents.div {v w : Float} {q' : ℚ} (h : Represents v m e q) (h' : Represents w m' e' q')
    (finite : n < infiniteBits) (rounds : (fractionAt n).Rounds (q / q')) :
    (v / w).toBits.toNat = n := by
  obtain ⟨pos, unpacked⟩ := h.unpacked
  obtain ⟨pos', unpacked'⟩ := h'.unpacked
  have quotient : (v / w).toBits =
      (Float.Model.pack (UnpackedFloat.div .binary64 v.toModel.unpack w.toModel.unpack)).toBits := rfl
  rw [← h.value, ← h'.value] at rounds
  rw [quotient, unpacked, unpacked']
  exact (toNat_div pos pos' rounds).trans (Nat.min_eq_left finite.le)

/-- A decimal is read as the double that it rounds to. -/
theorem toNat_scientific (finite : n < infiniteBits) (pos : 0 < m) (most : e ≤ 2048)
    (least : -(2048 + m.log2 : Int) ≤ e) (rounds : (fractionAt n).Rounds (m * 10 ^ e)) :
    (Float.ofScientific m (decide (e < 0)) e.natAbs).toBits.toNat = n := by
  have sign : decide (e < 0) = true ↔ e < 0 := decide_eq_true_iff
  unfold Float.ofScientific
  split
  · rename_i fast
    -- short numbers are computed on doubles, where both operands are exact
    obtain ⟨m', e', digits⟩ := integer_represents pos fast.1
    have size : Float.exactlyRepresentablePowersOfTen.size = 23 := rfl
    obtain ⟨m'', e'', power⟩ := power_represents (k := e.natAbs) (by omega)
    split
    · rename_i down
      have negative := sign.mp down
      have tens : (10 : ℚ) ^ e = (10 ^ e.natAbs)⁻¹ := by
        rw [← zpow_natCast, ← zpow_neg]
        congr 1
        omega
      rw [tens, ← div_eq_mul_inv] at rounds
      exact digits.div power finite rounds
    · rename_i up
      have positive := mt sign.mpr up
      have tens : (10 : ℚ) ^ e = 10 ^ e.natAbs := by
        rw [← zpow_natCast]
        congr 1
        omega
      rw [tens] at rounds
      exact digits.mul power finite rounds
  · have same : (if decide (e < 0) = true then Int.negOfNat e.natAbs else Int.ofNat e.natAbs) = e := by
      split
      · rename_i down
        have negative := sign.mp down
        rw [Int.negOfNat_eq, Int.ofNat_eq_natCast]
        omega
      · rename_i up
        have positive := mt sign.mpr up
        rw [Int.ofNat_eq_natCast]
        omega
    rw [same]
    exact (toNat_ofScientific pos most least rounds).trans (Nat.min_eq_left finite.le)

/-! ### The text of a number -/

theorem length_toDigits_bounds (pos : 0 < m) :
    10 ^ ((Nat.toDigits 10 m).length - 1) ≤ m ∧ m < 10 ^ (Nat.toDigits 10 m).length := by
  have some : 0 < (Nat.toDigits 10 m).length := List.length_pos_iff.mpr Nat.toDigits_ne_nil
  refine ⟨?_, (Nat.length_toDigits_le_iff (by decide) some).mp le_rfl⟩
  rcases Nat.eq_zero_or_pos ((Nat.toDigits 10 m).length - 1) with single | more
  · rw [single]
    exact pos
  · apply Nat.le_of_not_lt
    intro less
    have shorter := (Nat.length_toDigits_le_iff (by decide) more).mpr less
    omega

theorem toNat_nearest {d : Digits} (some : 0 < n) (finite : n < infiniteBits)
    (rounds : (fractionAt n).Rounds d.value) : (nearest d.digits d.exponent).toBits.toNat = n := by
  have legal := fractionAt_legal some finite
  -- the decimal is between `10 ^ -400` and `10 ^ 400`, so it is not taken for zero or infinity
  have above := (Fraction.le_low legal).trans rounds.le.1
  have below := rounds.le.2.trans_lt (Fraction.high_lt legal)
  have pos : 0 < d.digits := by
    rw [Nat.pos_iff_ne_zero]
    intro none
    rw [Digits.value, none, Nat.cast_zero, zero_mul] at above
    exact absurd above (not_le_of_gt (by positivity))
  obtain ⟨least, most⟩ := length_toDigits_bounds pos
  unfold nearest
  dsimp only
  generalize (Nat.toDigits 10 d.digits).length = length at least most
  have tens (k : Nat) : (10 : ℚ) ^ (k + d.exponent) = (10 ^ k : Nat) * 10 ^ d.exponent := by
    rw [zpow_add₀ (by norm_num), zpow_natCast]
    push_cast
    rfl
  have scale : (0 : ℚ) < 10 ^ d.exponent := by positivity
  have up : ((length - 1 : Nat) : Int) + d.exponent < 400 := by
    rw [← zpow_lt_zpow_iff_right₀ (show (1 : ℚ) < 10 by norm_num), tens]
    exact (mul_le_mul_of_nonneg_right (Nat.cast_le.mpr least) scale.le).trans_lt below
  have down : -400 < (length : Int) + d.exponent := by
    rw [← zpow_lt_zpow_iff_right₀ (show (1 : ℚ) < 10 by norm_num), tens]
    exact above.trans_lt (mul_lt_mul_of_pos_right (Nat.cast_lt.mpr most) scale)
  have bits : length - 1 ≤ d.digits.log2 := by
    apply (Nat.le_log2 pos.ne').mpr
    exact (Nat.pow_le_pow_left (by decide) (length - 1)).trans least
  rw [if_neg (by omega), if_neg (by omega)]
  exact toNat_scientific finite pos (by omega) (by omega) rounds

/-- A finite number without a sign is read back from its text. -/
theorem decimalValue_spell {v : Float} (finite : v.toBits.toNat < infiniteBits) :
    decimalValue (spell v).toList = v := by
  apply eq_of_toBits
  rcases spell_finite finite with ⟨zero, text⟩ | ⟨other, -, -, rounds⟩
  · rw [zero, text]
    decide +kernel
  · have some : 0 < v.toBits.toNat := by
      rw [Nat.pos_iff_ne_zero]
      exact fun none => other (UInt64.toNat_inj.mp none)
    rw [← UInt64.toNat_inj, decimalValue_eq]
    exact toNat_nearest some finite rounds

end

end Kaleidoscope.Literal
