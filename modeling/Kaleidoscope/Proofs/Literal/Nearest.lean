import Kaleidoscope.Proofs.Literal.Magnitude
import Mathlib.Algebra.Order.Group.Abs

/-!
# The nearest double

The numbers that round to a double are those it is nearest to, if infinity is taken for the power of two
behind the greatest double.
-/

namespace Kaleidoscope.Literal

open Decimal

def valueAt (n : Nat) : ℚ := (fractionAt n).mantissa * 2 ^ (fractionAt n).exponent

/-- Of the doubles from zero to infinity none is nearer to `q` than the one with the bits `b`. If another
one is as near, the last bit of `b` is zero. -/
def NearestAt (b : Nat) (q : ℚ) : Prop :=
  b ≤ infiniteBits ∧ ∀ m ≤ infiniteBits, m ≠ b →
    |q - valueAt b| < |q - valueAt m| ∨ |q - valueAt b| = |q - valueAt m| ∧ b % 2 = 0

variable {n m b : Nat} {q : ℚ}

theorem valueAt_succ (n : Nat) : valueAt (n + 1) = valueAt n + 2 ^ (fractionAt n).exponent := by
  unfold valueAt
  rcases fractionAt_succ n with ⟨mantissa, exponent, -⟩ | ⟨mantissa, exponent, -⟩
  · rw [mantissa, exponent]
    push_cast
    ring
  · have twice : ((fractionAt n).mantissa : ℚ) = 2 * (fractionAt (n + 1)).mantissa - 1 := by
      rw [eq_sub_iff_add_eq]
      exact_mod_cast mantissa.symm
    rw [twice, exponent, zpow_add_one₀ two_ne_zero]
    ring

theorem valueAt_zero : valueAt 0 = 0 := by
  simp [valueAt, fractionAt]

theorem valueAt_strictMono : StrictMono valueAt := by
  apply strictMono_nat_of_lt_succ
  intro n
  rw [valueAt_succ, lt_add_iff_pos_right]
  positivity

theorem high_eq_middle (n : Nat) : (fractionAt n).high = (valueAt n + valueAt (n + 1)) / 2 := by
  have quarter : (2 : ℚ) ^ (fractionAt n).exponent = 4 * (fractionAt n).quarter := by
    rw [Fraction.quarter, zpow_sub₀ two_ne_zero]
    norm_num
    ring
  rw [valueAt_succ, Fraction.high, valueAt, quarter]
  ring

theorem high_eq_add (n : Nat) : (fractionAt n).high = valueAt n + 2 ^ (fractionAt n).exponent / 2 := by
  rw [high_eq_middle, valueAt_succ]
  ring

theorem low_eq_middle (n : Nat) : (fractionAt (n + 1)).low = (valueAt n + valueAt (n + 1)) / 2 := by
  rw [← high_fractionAt, high_eq_middle]

theorem valueAt_rounds (n : Nat) : (fractionAt n).Rounds (valueAt n) := by
  have pos := (fractionAt n).quarter_pos
  have quarter : valueAt n = 4 * (fractionAt n).mantissa * (fractionAt n).quarter := by
    rw [valueAt, Fraction.quarter, zpow_sub₀ two_ne_zero]
    norm_num
    ring
  have low : (fractionAt n).low < valueAt n := by
    rw [quarter]
    apply mul_lt_mul_of_pos_right _ pos
    split <;> linarith
  have high : valueAt n < (fractionAt n).high := by
    rw [quarter]
    apply mul_lt_mul_of_pos_right _ pos
    linarith
  exact Fraction.rounds_of_lt low high

theorem le_of_rounds (least : valueAt n ≤ q) (rounds : (fractionAt m).Rounds q) : n ≤ m := by
  by_contra less
  have next : valueAt (m + 1) ≤ valueAt n := valueAt_strictMono.monotone (by omega)
  have below := rounds.le.2
  have order := valueAt_strictMono (Nat.lt_succ_self m)
  rw [high_eq_middle] at below
  linarith

/-! ## Distances -/

section
variable {a c : ℚ}

theorem nearer_lower_iff (order : a < c) : |q - a| < |q - c| ↔ q < (a + c) / 2 := by
  rcases abs_cases (q - a) with ⟨left, _⟩ | ⟨left, _⟩ <;>
    rcases abs_cases (q - c) with ⟨right, _⟩ | ⟨right, _⟩ <;>
    rw [left, right] <;> constructor <;> intro h <;> linarith

theorem nearer_upper_iff (order : a < c) : |q - c| < |q - a| ↔ (a + c) / 2 < q := by
  rcases abs_cases (q - a) with ⟨left, _⟩ | ⟨left, _⟩ <;>
    rcases abs_cases (q - c) with ⟨right, _⟩ | ⟨right, _⟩ <;>
    rw [left, right] <;> constructor <;> intro h <;> linarith

theorem equally_near_iff (order : a < c) : |q - a| = |q - c| ↔ q = (a + c) / 2 := by
  rw [le_antisymm_iff, ← not_lt, ← not_lt, nearer_upper_iff order, nearer_lower_iff order, not_lt, not_lt,
    ← le_antisymm_iff]

end

theorem even_of_low (h : (fractionAt n).Rounds (fractionAt n).low) : n % 2 = 0 := by
  by_contra odd
  rw [Fraction.Rounds, mantissa_parity, if_neg odd] at h
  exact lt_irrefl _ h.1

theorem even_of_high (h : (fractionAt n).Rounds (fractionAt n).high) : n % 2 = 0 := by
  by_contra odd
  rw [Fraction.Rounds, mantissa_parity, if_neg odd] at h
  exact lt_irrefl _ h.2

/-- The double that a number rounds to is the nearest one, or infinity if there is no such double. -/
theorem nearestAt_of_rounds (h : (fractionAt n).Rounds q) : NearestAt (min n infiniteBits) q := by
  refine ⟨min_le_right _ _, fun m le ne => ?_⟩
  rcases Nat.lt_or_gt_of_ne ne with less | more
  · generalize eq : min n infiniteBits = b at ne less ⊢
    obtain ⟨k, rfl⟩ := Nat.exists_eq_add_one_of_ne_zero (Nat.ne_zero_of_lt less)
    have below : valueAt m ≤ valueAt k := valueAt_strictMono.monotone (Nat.le_of_lt_succ less)
    have start : (fractionAt (k + 1)).low ≤ (fractionAt n).low :=
      low_strictMono.monotone (by omega)
    have above := h.le.1
    have middle := low_eq_middle k
    have order := valueAt_strictMono less
    rw [nearer_upper_iff order, eq_comm (a := |q - _|), equally_near_iff order]
    rcases lt_or_ge ((valueAt m + valueAt (k + 1)) / 2) q with nearer | tie
    · exact .inl nearer
    · -- A tie is one with the double just below, at the start of the interval.
      have low : q = (fractionAt n).low := by linarith
      have same : (fractionAt (k + 1)).low = (fractionAt n).low := by linarith
      refine .inr ⟨by linarith, ?_⟩
      rw [low_strictMono.injective same]
      exact even_of_low (low ▸ h)
  · have eq : min n infiniteBits = n := by omega
    rw [eq] at ne more ⊢
    have above : valueAt (n + 1) ≤ valueAt m := valueAt_strictMono.monotone more
    have below := h.le.2
    have middle := high_eq_middle n
    have order := valueAt_strictMono more
    rw [nearer_lower_iff order, equally_near_iff order]
    rcases lt_or_ge q ((valueAt n + valueAt m) / 2) with nearer | tie
    · exact .inl nearer
    · have high : q = (fractionAt n).high := by linarith
      exact .inr ⟨by linarith, even_of_high (high ▸ h)⟩

theorem NearestAt.not_lt (h : NearestAt b q) (h' : NearestAt m q) : ¬ b < m := by
  intro less
  have order := valueAt_strictMono less
  have here := h.2 m h'.1 (Nat.ne_of_gt less)
  have there := h'.2 b h.1 (Nat.ne_of_lt less)
  rw [nearer_lower_iff order, equally_near_iff order] at here
  rw [nearer_upper_iff order, eq_comm (a := |q - _|), equally_near_iff order] at there
  obtain ⟨middle, even, even'⟩ : q = (valueAt b + valueAt m) / 2 ∧ b % 2 = 0 ∧ m % 2 = 0 := by
    rcases here with nearer | ⟨middle, even⟩ <;> rcases there with nearer' | ⟨middle', even'⟩
    · exact absurd nearer (not_lt_of_gt nearer')
    · exact absurd middle' nearer.ne
    · exact absurd middle nearer'.ne'
    · exact ⟨middle, even, even'⟩
  -- Between two even numbers there is an odd one, which is nearer.
  have less' : b + 1 < m := by omega
  have between := valueAt_strictMono less'
  have between' := valueAt_strictMono (Nat.lt_succ_self b)
  have nearer : |q - valueAt (b + 1)| < |q - valueAt b| := by
    rw [nearer_upper_iff between', middle]
    linarith
  have least := h'.1
  rcases h.2 (b + 1) (by omega) (by omega) with further | ⟨same, -⟩
  · exact lt_asymm nearer further
  · exact nearer.ne' same

theorem NearestAt.unique (h : NearestAt b q) (h' : NearestAt m q) : b = m :=
  Nat.le_antisymm (Nat.le_of_not_lt (h'.not_lt h)) (Nat.le_of_not_lt (h.not_lt h'))

/-! ## Rounded doubles -/

def RoundsTo (v : Float) (q : ℚ) : Prop :=
  ∃ n, (fractionAt n).Rounds q ∧ v.toBits.toNat = min n infiniteBits

theorem RoundsTo.nearestAt {v : Float} (h : RoundsTo v q) : NearestAt v.toBits.toNat q := by
  obtain ⟨n, rounds, bits⟩ := h
  rw [bits]
  exact nearestAt_of_rounds rounds

theorem RoundsTo.toNat_eq {v : Float} (h : RoundsTo v q) (rounds : (fractionAt n).Rounds q) :
    v.toBits.toNat = min n infiniteBits := by
  obtain ⟨m, rounds', bits⟩ := h
  rw [bits, eq_of_rounds rounds' rounds]

end Kaleidoscope.Literal
