import Kaleidoscope.Decimal.Shortest
import Mathlib.Algebra.Order.Field.Power
import Mathlib.Data.Rat.Cast.Order
import Mathlib.Tactic.Linarith
import Mathlib.Tactic.Positivity
import Mathlib.Tactic.Ring

/-!
# The decimals that round to a fraction

The grid points that stand for a binary fraction lie in its rounding interval, and the shortest
decimal is one of them.
-/

namespace Kaleidoscope.Decimal

def Digits.value (d : Digits) : ℚ := d.digits * 10 ^ d.exponent

namespace Fraction

variable {x : Fraction} {k : Int} {n : Nat} {q : ℚ} {d : Digits}

def quarter (x : Fraction) : ℚ := 2 ^ (x.exponent - 2)

def low (x : Fraction) : ℚ := (4 * x.mantissa - if x.narrow then 1 else 2) * x.quarter

def high (x : Fraction) : ℚ := (4 * x.mantissa + 2) * x.quarter

/-- `q` rounds to `x`. The ends of the interval do if the mantissa is even. -/
def Rounds (x : Fraction) (q : ℚ) : Prop :=
  if x.mantissa % 2 = 0 then x.low ≤ q ∧ q ≤ x.high else x.low < q ∧ q < x.high

theorem Rounds.le (h : x.Rounds q) : x.low ≤ q ∧ q ≤ x.high := by
  unfold Rounds at h
  split at h
  · exact h
  · exact ⟨h.1.le, h.2.le⟩

theorem rounds_of_lt (above : x.low < q) (below : q < x.high) : x.Rounds q := by
  unfold Rounds
  split
  · exact ⟨above.le, below.le⟩
  · exact ⟨above, below⟩

theorem Rounds.of_le {p : ℚ} (h : x.Rounds p) (above : p ≤ q) (below : q < x.high) : x.Rounds q := by
  unfold Rounds at h ⊢
  by_cases even : x.mantissa % 2 = 0
  · rw [if_pos even] at h ⊢
    exact ⟨h.1.trans above, below.le⟩
  · rw [if_neg even] at h ⊢
    exact ⟨h.1.trans_le above, below⟩

theorem quarter_pos (x : Fraction) : 0 < x.quarter := by
  unfold quarter
  positivity

theorem low_lt_high (x : Fraction) : x.low < x.high := by
  apply mul_lt_mul_of_pos_right _ x.quarter_pos
  split <;> linarith

theorem low_pos (x : Fraction) (some : 0 < x.mantissa) : 0 < x.low := by
  have one : (1 : ℚ) ≤ x.mantissa := by exact_mod_cast some
  apply mul_pos _ x.quarter_pos
  split <;> linarith

/-- The next fraction of the same exponent. -/
theorem high_eq_low {y : Fraction} (mantissa : y.mantissa = x.mantissa + 1)
    (exponent : y.exponent = x.exponent) (wide : y.narrow = false) : x.high = y.low := by
  simp only [high, low, quarter, mantissa, exponent, wide]
  push_cast
  ring

/-- The first fraction of the next exponent. -/
theorem high_eq_low_narrow {y : Fraction} (mantissa : 2 * y.mantissa = x.mantissa + 1)
    (exponent : y.exponent = x.exponent + 1) (narrow : y.narrow = true) : x.high = y.low := by
  have twice : (x.mantissa : ℚ) = 2 * y.mantissa - 1 := by
    rw [eq_sub_iff_add_eq]
    exact_mod_cast mantissa.symm
  have place : x.exponent + 1 - 2 = x.exponent - 2 + 1 := by ring
  simp only [high, low, quarter, exponent, narrow, twice, place, zpow_add_one₀ (two_ne_zero (α := ℚ))]
  push_cast
  ring

theorem pow_toNat (b : ℚ) (ne : b ≠ 0) (k : Int) : b ^ k.toNat = b ^ k * b ^ (-k).toNat := by
  rw [← zpow_natCast, ← zpow_natCast, ← zpow_add₀ ne]
  congr 1
  omega

/-! ## Grids -/

theorem units_eq (x : Fraction) (k : Int) :
    ∃ scale : ℚ, 0 < scale ∧ ((x.units k).1 : ℚ) = 10 ^ k * scale ∧
      ((x.units k).2 : ℚ) = x.quarter * scale := by
  refine ⟨10 ^ (-k).toNat * 2 ^ (-(x.exponent - 2)).toNat, by positivity, ?_, ?_⟩
  · simp only [units, Nat.pow_eq]
    push_cast
    rw [pow_toNat 10 (by norm_num) k]
    ring
  · simp only [units, Nat.pow_eq, quarter]
    push_cast
    rw [pow_toNat 2 (by norm_num) (x.exponent - 2)]
    ring

theorem le_iff_of_scaled {a b : Nat} {p scale : ℚ} (pos : 0 < scale) (left : (a : ℚ) = p * scale)
    (right : (b : ℚ) = q * scale) : (a ≤ b ↔ p ≤ q) ∧ (a < b ↔ p < q) := by
  rw [← Nat.cast_le (α := ℚ), ← Nat.cast_lt (α := ℚ), left, right]
  exact ⟨mul_le_mul_iff_left₀ pos, mul_lt_mul_iff_left₀ pos⟩

theorem holds_iff (some : 0 < x.mantissa) : x.holds k n = true ↔ x.Rounds (n * 10 ^ k) := by
  obtain ⟨scale, pos, step, quarter⟩ := x.units_eq k
  have point : ((n * (x.units k).1 : Nat) : ℚ) = n * 10 ^ k * scale := by
    push_cast
    rw [step]
    ring
  have low : (((4 * x.mantissa - if x.narrow then 1 else 2) * (x.units k).2 : Nat) : ℚ) =
      x.low * scale := by
    rw [Nat.cast_mul, Nat.cast_sub (by split <;> omega), quarter, Fraction.low]
    push_cast
    ring
  have high : (((4 * x.mantissa + 2) * (x.units k).2 : Nat) : ℚ) = x.high * scale := by
    push_cast
    rw [quarter, Fraction.high]
    ring
  obtain ⟨above, strictlyAbove⟩ := le_iff_of_scaled pos low point
  obtain ⟨below, strictlyBelow⟩ := le_iff_of_scaled pos point high
  unfold holds Rounds
  dsimp only
  split
  · rw [Bool.and_eq_true, decide_eq_true_eq, decide_eq_true_eq, above, below]
  · rw [Bool.and_eq_true, decide_eq_true_eq, decide_eq_true_eq, strictlyAbove, strictlyBelow]

theorem onGrid?_holds (h : x.onGrid? k = some d) : d.exponent = k ∧ x.holds k d.digits = true := by
  unfold onGrid? at h
  dsimp only at h
  split at h
  · rename_i here above
    cases h
    refine ⟨rfl, ?_⟩
    dsimp only
    split
    · exact here
    · exact above
  · rename_i here _
    cases h
    exact ⟨rfl, here⟩
  · rename_i _ above
    cases h
    exact ⟨rfl, above⟩
  · cases h

/-- A grid that is finer than a quarter of the last place has a point that stands for `x`. -/
theorem onGrid?_isSome (some : 0 < x.mantissa) (fine : 10 ^ k < x.quarter) :
    (x.onGrid? k).isSome = true := by
  obtain ⟨scale, pos, step, quarter⟩ := x.units_eq k
  have finer : (x.units k).1 < (x.units k).2 := (le_iff_of_scaled pos step quarter).2.mpr fine
  have here : x.holds k (4 * x.mantissa * (x.units k).2 / (x.units k).1) = true := by
    have stepPos : 0 < (x.units k).1 := Nat.mul_pos (Nat.pow_pos (by decide)) (Nat.pow_pos (by decide))
    have before := Nat.div_mul_le_self (4 * x.mantissa * (x.units k).2) (x.units k).1
    have passed := Nat.lt_div_mul_add (a := 4 * x.mantissa * (x.units k).2) stepPos
    have low : ((4 * x.mantissa - if x.narrow then 1 else 2) + 1) * (x.units k).2 ≤
        4 * x.mantissa * (x.units k).2 := by
      apply Nat.mul_le_mul_right
      split <;> omega
    have high : 4 * x.mantissa * (x.units k).2 < (4 * x.mantissa + 2) * (x.units k).2 :=
      Nat.mul_lt_mul_of_pos_right (by omega) (by omega)
    rw [Nat.succ_mul] at low
    unfold holds
    dsimp only
    split
    · rw [Bool.and_eq_true, decide_eq_true_eq, decide_eq_true_eq]
      omega
    · rw [Bool.and_eq_true, decide_eq_true_eq, decide_eq_true_eq]
      omega
  unfold onGrid?
  simp only [here]
  cases x.holds k (4 * x.mantissa * (x.units k).2 / (x.units k).1 + 1) <;> rfl

/-! ## Doubles -/

structure Legal (x : Fraction) : Prop where
  some : 0 < x.mantissa
  fits : x.mantissa < 2 ^ 53
  least : -1074 ≤ x.exponent
  greatest : x.exponent ≤ 971

/-- The last grid that is tried for a fraction of the largest mantissa. -/
def lastGrid (exponent : Int) : Int := (53 + exponent) * 30103 / 100000 - 22

/-- Three decimal places take less than ten binary ones, and twenty-eight more than ninety-three. -/
theorem ten_zpow_le {n m : Int} (up : 10 * n ≤ 3 * m) (down : 93 * n ≤ 28 * m) :
    (10 : ℚ) ^ n ≤ 2 ^ m := by
  rcases le_total 0 n with nonneg | neg
  · apply le_of_pow_le_pow_left₀ (n := 3) (by decide) (by positivity)
    calc ((10 : ℚ) ^ n) ^ 3 = (10 ^ 3) ^ n := by rw [← zpow_natCast, zpow_comm, zpow_natCast]
      _ ≤ (2 ^ 10) ^ n := zpow_le_zpow_left₀ nonneg (by norm_num) (by norm_num)
      _ = 2 ^ (10 * n) := by rw [zpow_mul]; norm_num
      _ ≤ 2 ^ (3 * m) := zpow_le_zpow_right₀ (by norm_num) up
      _ = (2 ^ m) ^ 3 := by rw [mul_comm, zpow_mul]; norm_cast
  · apply le_of_pow_le_pow_left₀ (n := 28) (by decide) (by positivity)
    calc ((10 : ℚ) ^ n) ^ 28 = (10 ^ 28) ^ n := by rw [← zpow_natCast, zpow_comm, zpow_natCast]
      _ = ((10 ^ 28) ^ (-n))⁻¹ := by rw [← zpow_neg, neg_neg]
      _ ≤ ((2 ^ 93) ^ (-n))⁻¹ := by
        apply inv_anti₀ (by positivity)
        exact zpow_le_zpow_left₀ (by omega) (by norm_num) (by norm_num)
      _ = 2 ^ (93 * n) := by rw [← zpow_neg, neg_neg, zpow_mul]; norm_num
      _ ≤ 2 ^ (28 * m) := zpow_le_zpow_right₀ (by norm_num) down
      _ = (2 ^ m) ^ 28 := by rw [mul_comm, zpow_mul]; norm_cast

theorem lastGrid_fine (legal : x.Legal) : 10 ^ lastGrid x.exponent < x.quarter := by
  have least := legal.least
  have greatest := legal.greatest
  have le : (10 : ℚ) ^ lastGrid x.exponent ≤ 2 ^ (x.exponent - 3) := by
    apply ten_zpow_le
    all_goals
      unfold lastGrid
      omega
  apply le.trans_lt
  exact zpow_lt_zpow_right₀ (by norm_num) (by omega)

theorem log2_lt (legal : x.Legal) : (4 * x.mantissa + 2).log2 < 55 := by
  have fits := legal.fits
  rw [Nat.log2_lt (by omega)]
  omega

theorem top_le (legal : x.Legal) : x.top - 23 ≤ lastGrid x.exponent := by
  have bits := log2_lt legal
  unfold top lastGrid
  have bound : (((4 * x.mantissa + 2).log2 + 1 : Nat) + x.exponent - 2) * 30103 / 100000 ≤
      (53 + x.exponent) * 30103 / 100000 := by
    apply Int.ediv_le_ediv (by decide)
    apply Int.mul_le_mul_of_nonneg_right _ (by decide)
    omega
  omega

theorem shortest_onGrid (legal : x.Legal) : ∃ i < 24, x.onGrid? (x.top - (i : Nat)) = some x.shortest := by
  have found : ((List.range 24).findSome? fun (i : Nat) => x.onGrid? (x.top - (i : Int))).isSome := by
    rw [List.findSome?_isSome_iff]
    refine ⟨23, by simp, onGrid?_isSome legal.some ?_⟩
    have coarser : (10 : ℚ) ^ (x.top - 23) ≤ 10 ^ lastGrid x.exponent :=
      zpow_le_zpow_right₀ (by norm_num) (top_le legal)
    exact coarser.trans_lt (lastGrid_fine legal)
  obtain ⟨d, eq⟩ := Option.isSome_iff_exists.mp found
  obtain ⟨i, mem, here⟩ := List.exists_of_findSome?_eq_some eq
  have shortest : x.shortest = d := by
    unfold shortest
    rw [eq]
    rfl
  rw [shortest]
  exact ⟨i, List.mem_range.mp mem, here⟩

theorem shortest_rounds (legal : x.Legal) : x.Rounds x.shortest.value := by
  obtain ⟨i, -, here⟩ := shortest_onGrid legal
  obtain ⟨exponent, holds⟩ := onGrid?_holds here
  rw [Digits.value, exponent]
  exact (holds_iff legal.some).mp holds

theorem shortest_exponent (legal : x.Legal) :
    -400 ≤ x.shortest.exponent ∧ x.shortest.exponent ≤ 400 := by
  obtain ⟨i, less, here⟩ := shortest_onGrid legal
  have least := legal.least
  have greatest := legal.greatest
  have bits := log2_lt legal
  rw [(onGrid?_holds here).1]
  unfold top
  omega

theorem high_lt (legal : x.Legal) : x.high < 10 ^ (400 : Int) := by
  have mantissa : (4 * x.mantissa + 2 : ℚ) ≤ 2 ^ (55 : Int) := by
    have fits := legal.fits
    have bound : 4 * x.mantissa + 2 ≤ 2 ^ 55 := by omega
    exact_mod_cast bound
  have greatest := legal.greatest
  calc x.high ≤ 2 ^ (55 : Int) * x.quarter := mul_le_mul_of_nonneg_right mantissa x.quarter_pos.le
    _ = 2 ^ (55 + (x.exponent - 2)) := by rw [quarter, zpow_add₀ (by norm_num)]
    _ ≤ 2 ^ (3 * 400 : Int) := zpow_le_zpow_right₀ (by norm_num) (by omega)
    _ = (2 ^ (3 : Int)) ^ (400 : Int) := zpow_mul 2 3 400
    _ < 10 ^ (400 : Int) := zpow_lt_zpow_left₀ (by norm_num) (by norm_num) (by norm_num)

theorem le_low (legal : x.Legal) : 10 ^ (-400 : Int) ≤ x.low := by
  have least := legal.least
  have one : (1 : ℚ) ≤ x.mantissa := by exact_mod_cast legal.some
  calc (10 : ℚ) ^ (-400 : Int) ≤ 2 ^ (x.exponent - 2) := by
        apply ten_zpow_le
        all_goals omega
    _ = 1 * x.quarter := (one_mul _).symm
    _ ≤ x.low := by
        apply mul_le_mul_of_nonneg_right _ x.quarter_pos.le
        split <;> linarith

/-- A bound for the digits, far from the best one. -/
theorem shortest_digits_lt (legal : x.Legal) : x.shortest.digits < 10 ^ 1500 := by
  have below := (shortest_rounds legal).le.2.trans (high_lt legal).le
  have least := (shortest_exponent legal).1
  have digits : (x.shortest.digits : ℚ) ≤ 10 ^ (400 - x.shortest.exponent) := by
    rw [zpow_sub₀ (by norm_num), le_div_iff₀ (by positivity)]
    exact below
  have fewer : (10 : ℚ) ^ (400 - x.shortest.exponent) < 10 ^ (1500 : Int) :=
    zpow_lt_zpow_right₀ (by norm_num) (by omega)
  exact_mod_cast digits.trans_lt fewer

end Fraction

end Kaleidoscope.Decimal
