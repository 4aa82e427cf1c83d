import Kaleidoscope.Proofs.Literal.ReadBack

/-!
# Digits added to doubles

A double times a radix is exact, and a sum is rounded once. A digit added to a large double is lost.
-/

namespace Kaleidoscope.Literal

open Decimal Float.Model UnpackedFloat

section
variable {m n n' : Nat} {e : Int} {q : ℚ} {v w : Float}

/-! ## Places -/

theorem fractionAt_add (full : 2 ^ 53 ≤ n) (k : Nat) : fractionAt (n + k * 2 ^ 52) =
    { fractionAt n with exponent := (fractionAt n).exponent + k } := by
  have place : (n + k * 2 ^ 52) / 2 ^ 52 = n / 2 ^ 52 + k := Nat.add_mul_div_right n k (by decide)
  have mantissa : (n + k * 2 ^ 52) % 2 ^ 52 = n % 2 ^ 52 := Nat.add_mul_mod_self_right n k _
  have more : 1 < n / 2 ^ 52 := by omega
  unfold fractionAt
  rw [place, mantissa, if_neg (by omega), if_neg (by omega)]
  simp only [more, Nat.lt_add_right k more, and_true]
  congr 1
  push_cast
  ring

/-- A double with its bits moved by `k` exponents is `2 ^ k` times as large. -/
theorem valueAt_add (full : 2 ^ 53 ≤ n) (k : Nat) : valueAt (n + k * 2 ^ 52) = valueAt n * 2 ^ k := by
  unfold valueAt
  rw [fractionAt_add full, zpow_add₀ two_ne_zero, zpow_natCast, mul_assoc]

theorem rounds_add (full : 2 ^ 53 ≤ n) (k : Nat) :
    (fractionAt (n + k * 2 ^ 52)).Rounds (q * 2 ^ k) ↔ (fractionAt n).Rounds q := by
  have pos : (0 : ℚ) < 2 ^ k := by positivity
  have quarter : (fractionAt (n + k * 2 ^ 52)).quarter = (fractionAt n).quarter * 2 ^ k := by
    unfold Fraction.quarter
    rw [fractionAt_add full, ← zpow_natCast, ← zpow_add₀ two_ne_zero]
    congr 1
    dsimp only
    ring
  unfold Fraction.Rounds Fraction.low Fraction.high
  rw [quarter, fractionAt_add full]
  simp only [← mul_assoc, mul_le_mul_iff_left₀ pos, mul_lt_mul_iff_left₀ pos]

/-! ## Operands -/

theorem digit_operand : ∀ d : Fin 16,
    (Float.ofNat d).toBits = d.val.toUInt64.toFloat.toBits ∧
      (0 + Float.ofNat d : Float).toBits = (Float.ofNat d).toBits ∧
      (Float.ofBits 0x7FF0000000000000 + Float.ofNat d).toBits = 0x7FF0000000000000 := by
  decide +kernel

theorem radix_operand : ∀ k : Fin 5,
    (Float.ofNat (2 ^ k.val)).toBits.toNat = (1023 + k) * 2 ^ 52 ∧
      (0 * Float.ofNat (2 ^ k.val) : Float).toBits = (0 : Float).toBits ∧
      (Float.ofBits 0x7FF0000000000000 * Float.ofNat (2 ^ k.val)).toBits = 0x7FF0000000000000 := by
  decide +kernel

theorem eq_infinity (bits : v.toBits.toNat = min n infiniteBits) (infinite : infiniteBits ≤ n) :
    v = Float.ofBits 0x7FF0000000000000 := by
  apply eq_of_toBits
  rw [← UInt64.toNat_inj, bits, Nat.min_eq_right infinite]
  decide +kernel

theorem decreaseExponent_value {t : Int} (least : t ≤ e) :
    ((decreaseExponent m e t).1 : ℚ) * 2 ^ t = m * 2 ^ e := by
  have shift : (decreaseExponent m e t).1 = m <<< (e - t).toNat := rfl
  rw [shift, Nat.shiftLeft_eq]
  push_cast
  rw [mul_assoc, ← zpow_natCast, ← zpow_add₀ two_ne_zero]
  congr 2
  omega

theorem add_roundsTo (bits : v.toBits.toNat = n) (some : 0 < n) (finite : n < infiniteBits)
    (bits' : w.toBits.toNat = n') (some' : 0 < n') (finite' : n' < infiniteBits) :
    RoundsTo (v + w) (valueAt n + valueAt n') := by
  obtain ⟨pos, unpacked⟩ := unpack_finite bits some finite
  obtain ⟨pos', unpacked'⟩ := unpack_finite bits' some' finite'
  have sum : (v + w).toBits =
      (Float.Model.pack (UnpackedFloat.add .binary64 v.toModel.unpack w.toModel.unpack)).toBits := rfl
  rw [unpacked, unpacked'] at sum
  unfold valueAt
  generalize (fractionAt n).mantissa = m, (fractionAt n).exponent = e at *
  generalize (fractionAt n').mantissa = m', (fractionAt n').exponent = e' at *
  let a := (decreaseExponent m e (min e e')).1
  let b := (decreaseExponent m' e' (min e e')).1
  have added : UnpackedFloat.add .binary64 (.finite .positive m e pos) (.finite .positive m' e' pos') =
      UnpackedFloat.normalize .binary64 ((a + b : Nat) : Int) (min e e') .positive := rfl
  have left := decreaseExponent_value (m := m) (min_le_left e e')
  have right := decreaseExponent_value (m := m') (min_le_right e e')
  have least : 0 < a := by
    rw [← Nat.cast_pos (α := ℚ)]
    have product : (0 : ℚ) < a * 2 ^ min e e' := by
      rw [left]
      positivity
    exact pos_of_mul_pos_left product (by positivity)
  obtain ⟨r, rounds, eq⟩ := normalize_rounds (Nat.add_pos_left least b) (min e e')
  rw [Nat.cast_add, add_mul, left, right] at rounds
  refine ⟨r, rounds, ?_⟩
  rw [sum, added]
  exact eq

theorem bitsAt_fractionAt (n : Nat) :
    Canonical (fractionAt n).mantissa (fractionAt n).exponent ∧
      bitsAt (fractionAt n).mantissa (fractionAt n).exponent = n := by
  unfold fractionAt bitsAt
  split
  · refine ⟨⟨?_, ?_, ?_⟩, ?_⟩ <;> dsimp only <;> omega
  · refine ⟨⟨?_, ?_, ?_⟩, ?_⟩ <;> dsimp only <;> omega

theorem add_zero_bits (bits : v.toBits.toNat = n) (some : 0 < n) (finite : n < infiniteBits) :
    (v + Float.ofNat 0).toBits.toNat = n := by
  obtain ⟨pos, unpacked⟩ := unpack_finite bits some finite
  obtain ⟨canonical, same⟩ := bitsAt_fractionAt n
  have none : (Float.ofNat 0).toBits = 0 := by decide +kernel
  have unpacked' : (Float.ofNat 0).toModel.unpack =
      UnpackedFloat.unpack .binary64 (Float.ofNat 0).toBits.toBitVec := rfl
  have zero : UnpackedFloat.unpack .binary64 (0 : UInt64).toBitVec = .zero .positive := rfl
  have sum : (v + Float.ofNat 0).toBits = (Float.Model.pack (UnpackedFloat.add .binary64
      v.toModel.unpack (Float.ofNat 0).toModel.unpack)).toBits := rfl
  have whole (m e pos) : UnpackedFloat.add .binary64 (.finite .positive m e pos) (.zero .positive) =
    .finite .positive m e pos := rfl
  rw [sum, unpacked, unpacked', none, zero, whole, toNat_pack canonical pos, same, Nat.min_eq_left finite.le]

theorem digit_roundsTo (d : Fin 16) : RoundsTo (Float.ofNat d) d.val := by
  obtain ⟨n, rounds, bits⟩ := integer_roundsTo (m := d) (d.isLt.trans (by decide))
  exact ⟨n, rounds, (congrArg UInt64.toNat (digit_operand d).1).trans bits⟩

theorem add_digit_roundsTo (bits : v.toBits.toNat = n) (some : 0 < n) (finite : n < infiniteBits)
    (d : Fin 16) : RoundsTo (v + Float.ofNat d) (valueAt n + d.val) := by
  rcases Nat.eq_zero_or_pos d.val with none | digit
  · rw [none, Nat.cast_zero, add_zero]
    exact ⟨n, valueAt_rounds n, (add_zero_bits bits some finite).trans (Nat.min_eq_left finite.le).symm⟩
  · obtain ⟨n', value, least, most⟩ := integer_bits digit (d.isLt.trans (by decide))
    have finite' : n' < infiniteBits := by
      unfold infiniteBits
      omega
    have bits' := (digit_roundsTo d).toNat_eq (value ▸ valueAt_rounds n')
    rw [Nat.min_eq_left finite'.le] at bits'
    rw [← value]
    exact add_roundsTo bits some finite bits' (by omega) finite'

theorem valueAt_power (k : Nat) : valueAt ((1023 + k) * 2 ^ 52) = 2 ^ k := by
  have one : valueAt (1023 * 2 ^ 52) = 1 := by
    norm_num [valueAt, fractionAt]
  rw [add_mul, valueAt_add (by decide), one, one_mul]

theorem mul_radix_bits (bits : v.toBits.toNat = min n infiniteBits) (full : 2 ^ 53 ≤ n) (k : Fin 5) :
    (v * Float.ofNat (2 ^ k.val)).toBits.toNat = min (n + k * 2 ^ 52) infiniteBits := by
  rcases Nat.lt_or_ge n infiniteBits with finite | infinite
  · rw [Nat.min_eq_left finite.le] at bits
    obtain ⟨pos, unpacked⟩ := unpack_finite bits (by omega) finite
    have size := k.isLt
    obtain ⟨pos', unpacked'⟩ := unpack_finite (radix_operand k).1 (by omega) (by unfold infiniteBits; omega)
    have product : (v * Float.ofNat (2 ^ k.val)).toBits = (Float.Model.pack (UnpackedFloat.mul .binary64
        v.toModel.unpack (Float.ofNat (2 ^ k.val)).toModel.unpack)).toBits := rfl
    rw [product, unpacked, unpacked']
    apply toNat_mul (mantissa_bounds (by omega)).1
    rw [← valueAt, ← valueAt, valueAt_power, ← valueAt_add full]
    exact valueAt_rounds _
  · rw [eq_infinity bits infinite, (radix_operand k).2.2,
      Nat.min_eq_right (infinite.trans (Nat.le_add_right _ _))]
    rfl

/-- A digit behind a full mantissa is lost. -/
theorem add_digit_lost (bits : v.toBits.toNat = min n infiniteBits) (d : Fin 16) (k : Fin 5)
    (small : d.val < 2 ^ k.val) (wide : (1076 + k) * 2 ^ 52 ≤ n) :
    (v + Float.ofNat d).toBits.toNat = min n infiniteBits := by
  rcases Nat.lt_or_ge n infiniteBits with finite | infinite
  · rw [Nat.min_eq_left finite.le] at bits
    -- the digit is less than half of the last place
    have below : valueAt n + d.val < (fractionAt n).high := by
      have place : k.val + 1 ≤ (fractionAt n).exponent := by
        rw [exponent_fractionAt (by omega)]
        omega
      rw [high_eq_add, add_lt_add_iff_left]
      calc (d.val : ℚ) < 2 ^ k.val := by exact_mod_cast small
        _ = 2 ^ ((k.val + 1 : Nat) : Int) / 2 := by
          rw [zpow_natCast, pow_succ]
          ring
        _ ≤ 2 ^ (fractionAt n).exponent / 2 := by
          apply div_le_div_of_nonneg_right _ (by norm_num)
          exact zpow_le_zpow_right₀ (by norm_num) (by exact_mod_cast place)
    have rounds := (valueAt_rounds n).of_le (le_add_of_nonneg_right (Nat.cast_nonneg d.val)) below
    exact (add_digit_roundsTo bits (by omega) finite d).toNat_eq rounds
  · rw [eq_infinity bits infinite, (digit_operand d).2.2, Nat.min_eq_right infinite]
    rfl

end

end Kaleidoscope.Literal
