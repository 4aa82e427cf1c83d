import Kaleidoscope.Proofs.Literal.Magnitude

/-!
# Rounding to the nearest double

Arithmetic on doubles rounds a mantissa with two bits behind it, one for the half and one for
whatever is below. It comes to the double that the exact number rounds to.
-/

namespace Kaleidoscope.Literal

open Decimal Float.Model UnpackedFloat

section
variable {em : ExtendedMantissa} {q : ℚ} {m n k : Nat} {e : Int}

/-! ## The bits behind a mantissa -/

def Extends (em : ExtendedMantissa) (q : ℚ) : Prop :=
  ∃ below : ℚ, 0 ≤ below ∧ below < 1 / 2 ∧ (below = 0 ↔ em.stickyBit = false) ∧
    q = em.mantissa + (if em.roundBit then 1 / 2 else 0) + below

theorem Extends.exact (m : Nat) : Extends (.ofMantissaAndAccuracy m .exact) m := by
  refine ⟨0, le_refl 0, by norm_num, ?_, ?_⟩ <;> simp [ExtendedMantissa.ofMantissaAndAccuracy]

theorem Extends.shiftRightOne (h : Extends em q) : Extends em.shiftRightOne (q / 2) := by
  obtain ⟨below, least, less, sticky, rfl⟩ := h
  have split : (em.mantissa : ℚ) = 2 * (em.mantissa / 2 : Nat) + (em.mantissa % 2 : Nat) := by
    exact_mod_cast (Nat.div_add_mod em.mantissa 2).symm
  have last : (if em.shiftRightOne.roundBit then (1 / 2 : ℚ) else 0) = (em.mantissa % 2 : Nat) / 2 := by
    rcases Nat.mod_two_eq_zero_or_one em.mantissa with bit | bit <;>
      simp [ExtendedMantissa.shiftRightOne, bit]
  refine ⟨(if em.roundBit then 1 / 4 else 0) + below / 2, ?_, ?_, ?_, ?_⟩
  · split <;> linarith
  · split <;> linarith
  · cases round : em.roundBit
    · simp [ExtendedMantissa.shiftRightOne, round, sticky]
    · have some : (1 / 4 : ℚ) + below / 2 ≠ 0 := by linarith
      simpa [ExtendedMantissa.shiftRightOne, round] using some
  · rw [last, split, ExtendedMantissa.shiftRightOne]
    split <;> ring

theorem Extends.shiftRight (h : Extends em q) (k : Nat) : Extends (em >>> k) (q / 2 ^ k) := by
  induction k with
  | zero =>
    rw [pow_zero, div_one]
    exact h
  | succ k ih =>
    rw [pow_succ, ← div_div]
    exact ih.shiftRightOne

/-- `m` is nearest to `q`, and even if `q` is halfway between two integers. -/
def IsNearest (m : Nat) (q : ℚ) : Prop :=
  if m % 2 = 0 then (m : ℚ) - 1 / 2 ≤ q ∧ q ≤ m + 1 / 2 else (m : ℚ) - 1 / 2 < q ∧ q < m + 1 / 2

theorem Extends.bounds (h : Extends em q) : (em.mantissa : ℚ) ≤ q ∧ q < em.mantissa + 1 := by
  obtain ⟨below, least, less, -, rfl⟩ := h
  split <;> constructor <;> linarith

theorem rounded_bounds (em : ExtendedMantissa) :
    em.mantissa ≤ em.roundedMantissa ∧ em.roundedMantissa ≤ em.mantissa + 1 := by
  obtain ⟨m, round, sticky⟩ := em
  cases round <;> cases sticky <;>
    simp [ExtendedMantissa.roundedMantissa, ExtendedMantissa.accuracy, Accuracy.roundToNearestEven]
  omega

theorem IsNearest.of_lt (above : (m : ℚ) - 1 / 2 < q) (below : q < m + 1 / 2) : IsNearest m q := by
  unfold IsNearest
  split
  · exact ⟨above.le, below.le⟩
  · exact ⟨above, below⟩

theorem Extends.rounded (h : Extends em q) : IsNearest em.roundedMantissa q := by
  obtain ⟨below, least, less, sticky, rfl⟩ := h
  obtain ⟨m, round, rest⟩ := em
  dsimp only at sticky ⊢
  cases round with
  | false =>
    have down : ExtendedMantissa.roundedMantissa ⟨m, false, rest⟩ = m := by cases rest <;> rfl
    rw [down, if_neg (by decide)]
    apply IsNearest.of_lt <;> linarith
  | true =>
    rw [if_pos rfl]
    cases rest with
    | false =>
      have even : ExtendedMantissa.roundedMantissa ⟨m, true, false⟩ = m + m % 2 := rfl
      rw [even, sticky.mpr rfl, IsNearest, if_pos (by omega)]
      rcases Nat.mod_two_eq_zero_or_one m with bit | bit
      · rw [bit, Nat.cast_add, Nat.cast_zero]
        constructor <;> linarith
      · rw [bit, Nat.cast_add, Nat.cast_one]
        constructor <;> linarith
    | true =>
      have up : ExtendedMantissa.roundedMantissa ⟨m, true, true⟩ = m + 1 := rfl
      have some : below ≠ 0 := mt sticky.mp (by decide)
      have pos : 0 < below := lt_of_le_of_ne least some.symm
      rw [up]
      apply IsNearest.of_lt
      · push_cast
        linarith
      · push_cast
        linarith

/-! ## The double with a mantissa and an exponent -/

/-- The bits of the double `m * 2 ^ e`. A mantissa one bit too long carries into the exponent. -/
def bitsAt (m : Nat) (e : Int) : Nat := (e + 1074).toNat * 2 ^ 52 + m

structure Canonical (m : Nat) (e : Int) : Prop where
  fits : m < 2 ^ 53
  least : -1074 ≤ e
  full : 2 ^ 52 ≤ m ∨ e = -1074

theorem fractionAt_bitsAt (canonical : Canonical m e) :
    fractionAt (bitsAt m e) = ⟨m, e, decide (m = 2 ^ 52 ∧ -1074 < e)⟩ := by
  obtain ⟨fits, least, full⟩ := canonical
  unfold fractionAt bitsAt
  by_cases low : m < 2 ^ 52
  · obtain rfl : e = -1074 := by omega
    rw [if_pos (by omega), decide_eq_false (by omega)]
    simp
  · rw [if_neg (by omega)]
    congr 1
    · omega
    · omega
    · simp only [decide_eq_decide]
      omega

theorem bitsAt_carry (least : -1074 ≤ e) : bitsAt (2 ^ 53) e = bitsAt (2 ^ 52) (e + 1) := by
  unfold bitsAt
  omega

theorem IsNearest.le (h : IsNearest m q) : (m : ℚ) - 1 / 2 ≤ q ∧ q ≤ m + 1 / 2 := by
  unfold IsNearest at h
  split at h
  · exact h
  · exact ⟨h.1.le, h.2.le⟩

/-- The interval of a fraction in units of its last place. -/
theorem rounds_iff (m : Nat) (e : Int) (narrow : Bool) (q : ℚ) :
    (⟨m, e, narrow⟩ : Fraction).Rounds (q * 2 ^ e) ↔
      if m % 2 = 0 then (m : ℚ) - (if narrow then 1 / 4 else 1 / 2) ≤ q ∧ q ≤ m + 1 / 2
      else (m : ℚ) - (if narrow then 1 / 4 else 1 / 2) < q ∧ q < m + 1 / 2 := by
  have pos : (0 : ℚ) < 2 ^ e := by positivity
  have quarter : (2 : ℚ) ^ (e - 2) = 2 ^ e / 4 := by
    rw [zpow_sub₀ two_ne_zero]
    norm_num
  have low : (4 * (m : ℚ) - if narrow then 1 else 2) * 2 ^ (e - 2) =
      (m - if narrow then 1 / 4 else 1 / 2) * 2 ^ e := by
    rw [quarter]
    split <;> ring
  have high : (4 * (m : ℚ) + 2) * 2 ^ (e - 2) = (m + 1 / 2) * 2 ^ e := by
    rw [quarter]
    ring
  unfold Fraction.Rounds Fraction.low Fraction.high Fraction.quarter
  rw [low, high, mul_le_mul_iff_left₀ pos, mul_le_mul_iff_left₀ pos, mul_lt_mul_iff_left₀ pos,
    mul_lt_mul_iff_left₀ pos]

theorem rounds_of_nearest (canonical : Canonical m e) (near : IsNearest m q)
    (above : -1074 < e → 2 ^ 52 ≤ q) : (fractionAt (bitsAt m e)).Rounds (q * 2 ^ e) := by
  rw [fractionAt_bitsAt canonical, rounds_iff]
  by_cases narrow : m = 2 ^ 52 ∧ -1074 < e
  · have least := above narrow.2
    have below := near.le.2
    obtain ⟨rfl, -⟩ := narrow
    rw [if_pos (by decide)]
    push_cast at below ⊢
    refine ⟨?_, below⟩
    split <;> linarith
  · rw [decide_eq_false narrow]
    exact near

/-- A mantissa that rounds up to one bit more starts the next exponent. -/
theorem rounds_of_carry (least : -1074 ≤ e) (near : IsNearest (2 ^ 53) q) :
    (fractionAt (bitsAt (2 ^ 53) e)).Rounds (q * 2 ^ e) := by
  have canonical : Canonical (2 ^ 52) (e + 1) := ⟨by decide, by omega, .inl le_rfl⟩
  have narrow : -1074 < e + 1 := by omega
  have half : q * 2 ^ e = q / 2 * 2 ^ (e + 1) := by
    rw [zpow_add_one₀ two_ne_zero]
    ring
  obtain ⟨above, below⟩ := near.le
  rw [bitsAt_carry least, fractionAt_bitsAt canonical, half, rounds_iff, decide_eq_true ⟨rfl, narrow⟩,
    if_pos (by decide), if_pos rfl]
  push_cast at above below ⊢
  constructor <;> linarith

/-! ## Rounding -/

theorem mantissa_shiftRight (em : ExtendedMantissa) (k : Nat) :
    (em >>> k).mantissa = em.mantissa / 2 ^ k := by
  induction k with
  | zero => exact (Nat.div_one em.mantissa).symm
  | succ k ih =>
    have step : (em >>> (k + 1)).mantissa = (em >>> k).mantissa / 2 := rfl
    rw [step, ih, Nat.div_div_eq_div_mul, pow_succ]

theorem mantissa_ofMantissaAndAccuracy (m : Nat) (acc : Accuracy) :
    (ExtendedMantissa.ofMantissaAndAccuracy m acc).mantissa = m := by
  rcases acc with _ | _ | _ | _ <;> rfl

variable {acc : Accuracy}

theorem shifted_bounds (small : e ≤ max (m.log2 + 1 + e - 53) (-1074)) :
    let k := (max (m.log2 + 1 + e - 53) (-1074) - e).toNat
    m / 2 ^ k < 2 ^ 53 ∧ -1074 ≤ e + k ∧ (-1074 < e + k → 2 ^ 52 ≤ m / 2 ^ k) := by
  intro k
  refine ⟨?_, by omega, ?_⟩
  · rw [Nat.div_lt_iff_lt_mul (Nat.two_pow_pos k), ← Nat.pow_add]
    calc m < 2 ^ (m.log2 + 1) := Nat.lt_log2_self
      _ ≤ 2 ^ (53 + k) := Nat.pow_le_pow_right (by decide) (by omega)
  · intro more
    have some : m ≠ 0 := by
      rintro rfl
      have none : (0 : Nat).log2 = 0 := Nat.log2_zero
      omega
    rw [Nat.le_div_iff_mul_le (Nat.two_pow_pos k), ← Nat.pow_add]
    calc 2 ^ (52 + k) = 2 ^ m.log2 := by
          congr 1
          omega
      _ ≤ m := Nat.log2_self_le some

theorem shiftToTargetExponent_eq (m : Nat) (e : Int) (acc : Accuracy) :
    let k := (max (m.log2 + 1 + e - 53) (-1074) - e).toNat
    shiftToTargetExponent .binary64 m e acc =
      (ExtendedMantissa.ofMantissaAndAccuracy m acc >>> k, e + k) := rfl

theorem shiftToTargetExponent_fits (fits : m < 2 ^ 53) (least : -1074 ≤ e) :
    shiftToTargetExponent .binary64 m e .exact = (⟨m, false, false⟩, e) := by
  have bits : m.log2 ≤ 52 := by
    by_cases zero : m = 0
    · rw [zero, Nat.log2_zero]
      exact Nat.zero_le 52
    · exact Nat.le_of_lt_succ ((Nat.log2_lt zero).mpr fits)
  have none : (max (m.log2 + 1 + e - 53) (-1074) - e).toNat = 0 := by omega
  rw [shiftToTargetExponent_eq, none]
  exact Prod.ext rfl (add_zero e)

theorem shiftToTargetExponent_carry (least : -1074 ≤ e) :
    shiftToTargetExponent .binary64 (2 ^ 53) e .exact = (⟨2 ^ 52, false, false⟩, e + 1) := by
  have one : (max ((2 ^ 53 : Nat).log2 + 1 + e - 53) (-1074) - e).toNat = 1 := by
    rw [Nat.log2_two_pow]
    omega
  rw [shiftToTargetExponent_eq, one]
  rfl

def finiteOrZero (sign : Sign) (m : Nat) (e : Int) : UnpackedFloat :=
  if some : m = 0 then .zero sign else .finite sign m e (Nat.pos_of_ne_zero some)

/-- Rounding comes to the double that the exact number rounds to. -/
theorem round_rounds (sign : Sign) (small : e ≤ max (m.log2 + 1 + e - 53) (-1074))
    (h : Extends (.ofMantissaAndAccuracy m acc) q) :
    ∃ m' e', Canonical m' e' ∧ (fractionAt (bitsAt m' e')).Rounds (q * 2 ^ e) ∧
      roundWithAccuracy .binary64 sign m e acc = finiteOrZero sign m' e' := by
  obtain ⟨fits, least, full⟩ := shifted_bounds small
  have shifted := shiftToTargetExponent_eq m e acc
  generalize (max (m.log2 + 1 + e - 53) (-1074) - e).toNat = k at fits least full shifted
  have behind := h.shiftRight k
  have mantissa := mantissa_shiftRight (.ofMantissaAndAccuracy m acc) k
  rw [mantissa_ofMantissaAndAccuracy] at mantissa
  dsimp only at shifted
  generalize ExtendedMantissa.ofMantissaAndAccuracy m acc >>> k = em at behind mantissa shifted
  rw [← mantissa] at fits full
  have units : q * 2 ^ e = q / 2 ^ k * 2 ^ (e + k) := by
    rw [zpow_add₀ two_ne_zero, zpow_natCast, mul_comm ((2 : ℚ) ^ e), ← mul_assoc,
      div_mul_cancel₀ q (by positivity)]
  obtain ⟨up, down⟩ := rounded_bounds em
  have near := behind.rounded
  have unfolded : roundWithAccuracy .binary64 sign m e acc =
      finiteOrZero sign (shiftToTargetExponent .binary64 em.roundedMantissa (e + k) .exact).1.mantissa
        (shiftToTargetExponent .binary64 em.roundedMantissa (e + k) .exact).2 := by
    unfold roundWithAccuracy
    rw [shifted]
    rfl
  rw [unfolded, units]
  -- rounding up can take a mantissa of ones to a power of two, which is then shifted once more
  by_cases carry : em.roundedMantissa < 2 ^ 53
  · rw [shiftToTargetExponent_fits carry least]
    have canonical : Canonical em.roundedMantissa (e + k) := ⟨carry, least, by omega⟩
    refine ⟨_, _, canonical, rounds_of_nearest canonical near ?_, rfl⟩
    intro more
    have full : (2 ^ 52 : Nat) ≤ (em.mantissa : ℚ) := Nat.cast_le.mpr (full more)
    push_cast at full
    exact full.trans behind.bounds.1
  · have eq : em.roundedMantissa = 2 ^ 53 := by omega
    rw [eq] at near ⊢
    rw [shiftToTargetExponent_carry least]
    refine ⟨2 ^ 52, e + k + 1, ⟨by decide, by omega, .inl le_rfl⟩, ?_, rfl⟩
    rw [← bitsAt_carry least]
    exact rounds_of_carry least near

/-! ## Bits -/

theorem toNat_packComponents (exponent : BitVec 11) (mantissa : BitVec 52) :
    (packComponents .binary64 .positive exponent mantissa).toNat =
      exponent.toNat * 2 ^ 52 + mantissa.toNat := by
  unfold packComponents
  rw [BitVec.toNat_append, BitVec.toNat_append, ← Nat.shiftLeft_add_eq_or_of_lt mantissa.isLt,
    ← Nat.shiftLeft_add_eq_or_of_lt exponent.isLt, Nat.shiftLeft_eq]
  simp [Sign.toBitVec]

theorem log2_canonical (canonical : Canonical m e) (some : 0 < m) :
    m.log2 + 1 = 53 ↔ 2 ^ 52 ≤ m := by
  have fits := (Nat.log2_lt (Nat.ne_of_gt some)).mpr canonical.fits
  have full := Nat.le_log2 (Nat.ne_of_gt some) (k := 52)
  omega

theorem pack_eq (some : 0 < m) : UnpackedFloat.pack .binary64 (.finite .positive m e some) =
    if 2 ^ 11 ≤ (e + 1023 + 52).toNat + 1 then packedInfinity .binary64 .positive
    else if m.log2 + 1 = 53 then
      packComponents .binary64 .positive (BitVec.ofNat 11 (e + 1023 + 52).toNat) (BitVec.ofNat 52 m)
    else packComponents .binary64 .positive 0#11 (BitVec.ofNat 52 m) := rfl

theorem toNat_pack_finite (canonical : Canonical m e) (some : 0 < m) (finite : bitsAt m e < infiniteBits) :
    (Float.Model.pack (.finite .positive m e some)).toBits.toNat = bitsAt m e := by
  have bits := log2_canonical canonical some
  obtain ⟨fits, least, full⟩ := canonical
  unfold bitsAt infiniteBits at finite
  unfold bitsAt
  have whole : (Float.Model.pack (.finite .positive m e some)).toBits.toNat =
      (UnpackedFloat.pack .binary64 (.finite .positive m e some)).toNat := rfl
  rw [whole, pack_eq, if_neg (by omega)]
  split
  all_goals
    rw [toNat_packComponents, BitVec.toNat_ofNat, BitVec.toNat_ofNat]
    omega

theorem toNat_pack_infinite (some : 0 < m) (large : 971 < e) :
    (Float.Model.pack (.finite .positive m e some)).toBits.toNat = infiniteBits := by
  have whole : (Float.Model.pack (.finite .positive m e some)).toBits.toNat =
      (UnpackedFloat.pack .binary64 (.finite .positive m e some)).toNat := rfl
  have most : 2 ^ 11 ≤ (e + 1023 + 52).toNat + 1 := by omega
  rw [whole, pack_eq, if_pos most]
  decide

theorem toNat_pack (canonical : Canonical m e) (some : 0 < m) :
    (Float.Model.pack (.finite .positive m e some)).toBits.toNat = min (bitsAt m e) infiniteBits := by
  rcases Nat.lt_or_ge (bitsAt m e) infiniteBits with finite | infinite
  · rw [toNat_pack_finite canonical some finite, Nat.min_eq_left finite.le]
  · have large : 971 < e := by
      have fits := canonical.fits
      unfold bitsAt infiniteBits at infinite
      omega
    rw [toNat_pack_infinite some large, Nat.min_eq_right infinite]

theorem toNat_unpackMantissa (b : BitVec 64) :
    (@unpackMantissa .binary64 b).toNat = b.toNat % 2 ^ 52 := by
  simp [unpackMantissa]

theorem toNat_unpackExponent (b : BitVec 64) :
    (@unpackExponent .binary64 b).toNat = b.toNat / 2 ^ 52 % 2 ^ 11 := by
  simp [unpackExponent, Nat.shiftRight_eq_div_pow]

theorem unpackSign_clear {b : BitVec 64} (clear : b.toNat < 2 ^ 63) :
    @unpackSign .binary64 b = 0#1 := by
  have bit : @unpackSign .binary64 b = (b.extractLsb 63 63).cast rfl := rfl
  apply BitVec.eq_of_toNat_eq
  rw [bit]
  simp [Nat.shiftRight_eq_div_pow]
  omega

theorem finite_congr {sign : Sign} {m m' : Nat} {e e' : Int} {pos : 0 < m} {pos' : 0 < m'}
    (mantissa : m = m') (exponent : e = e') :
    UnpackedFloat.finite sign m e pos = .finite sign m' e' pos' := by
  subst mantissa exponent
  rfl

theorem unpack_subnormal {b : BitVec 64} (some : 0 < b.toNat) (low : b.toNat < 2 ^ 52) :
    ∃ pos, UnpackedFloat.unpack .binary64 b = .finite .positive b.toNat (-1074) pos := by
  have mantissa := toNat_unpackMantissa b
  have exponent := toNat_unpackExponent b
  rw [Nat.mod_eq_of_lt low] at mantissa
  have sign := unpackSign_clear (b := b) (by omega)
  have zero : @unpackExponent .binary64 b = 0#11 := by
    apply BitVec.eq_of_toNat_eq
    rw [exponent, Nat.div_eq_of_lt low]
    rfl
  have number : (0#11 : BitVec 11) ≠ -1#11 := by decide
  have there : @unpackMantissa .binary64 b ≠ 0#52 := by
    intro none
    have zero : (0#52).toNat = 0 := rfl
    rw [none, zero] at mantissa
    omega
  refine ⟨some, ?_⟩
  unfold UnpackedFloat.unpack
  dsimp only
  rw [sign, zero, if_neg number, if_pos rfl, dif_neg there]
  exact finite_congr mantissa rfl

theorem unpack_normal {b : BitVec 64} (full : 2 ^ 52 ≤ b.toNat) (finite : b.toNat < infiniteBits) :
    ∃ pos, UnpackedFloat.unpack .binary64 b =
      .finite .positive (2 ^ 52 + b.toNat % 2 ^ 52) ((b.toNat / 2 ^ 52 : Nat) - 1075) pos := by
  have mantissa := toNat_unpackMantissa b
  have exponent := toNat_unpackExponent b
  unfold infiniteBits at finite
  rw [Nat.mod_eq_of_lt (by omega)] at exponent
  have sign := unpackSign_clear (b := b) (by omega)
  have number : @unpackExponent .binary64 b ≠ -1#11 := by
    intro last
    have all : (-1#11).toNat = 2047 := by decide
    rw [last] at exponent
    omega
  have some : @unpackExponent .binary64 b ≠ 0#11 := by
    intro zero
    have none : (0#11).toNat = 0 := rfl
    rw [zero] at exponent
    omega
  refine ⟨Nat.add_pos_left (Nat.two_pow_pos 52) _, ?_⟩
  unfold UnpackedFloat.unpack
  dsimp only
  rw [sign, if_neg number, if_neg some]
  apply finite_congr
  · rw [BitVec.toNat_append, ← Nat.shiftLeft_add_eq_or_of_lt (BitVec.isLt _), mantissa]
    rfl
  · rw [exponent]
    rfl

theorem unpack_finite {v : Float} {n : Nat} (bits : v.toBits.toNat = n) (some : 0 < n)
    (finite : n < infiniteBits) : ∃ pos, v.toModel.unpack =
      .finite .positive (fractionAt n).mantissa (fractionAt n).exponent pos := by
  have whole : v.toModel.unpack = UnpackedFloat.unpack .binary64 v.toBits.toBitVec := rfl
  have sum : v.toBits.toBitVec.toNat = n := bits
  rw [← sum] at some finite
  rw [whole, fractionAt, ← sum]
  by_cases low : v.toBits.toBitVec.toNat / 2 ^ 52 = 0
  · rw [if_pos low]
    exact unpack_subnormal some (by omega)
  · rw [if_neg low]
    exact unpack_normal (by omega) finite

end

end Kaleidoscope.Literal
