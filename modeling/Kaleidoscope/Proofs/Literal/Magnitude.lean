import Kaleidoscope.Literal.Spelling
import Kaleidoscope.Proofs.Decimal.Interval
import Mathlib.Order.Monotone.Basic

/-!
# The magnitudes of doubles

The doubles are numbered by their bits. The rounding interval of one ends where that of the next one
starts, so no number rounds to two of them.
-/

namespace Kaleidoscope.Literal

open Decimal

def fractionAt (n : Nat) : Fraction :=
  if n / 2 ^ 52 = 0 then ⟨n, -1074, false⟩
  else ⟨2 ^ 52 + n % 2 ^ 52, (n / 2 ^ 52 : Nat) - 1075, decide (n % 2 ^ 52 = 0 ∧ 1 < n / 2 ^ 52)⟩

def infiniteBits : Nat := 0x7FF0000000000000

variable {n m : Nat} {q : ℚ}

theorem ofBits_zero : Magnitude.ofBits 0 = .zero := by decide

theorem ofBits_infinite : Magnitude.ofBits infiniteBits = .infinite := by decide

theorem ofBits_finite (some : 0 < n) (less : n < infiniteBits) :
    Magnitude.ofBits n = .finite (fractionAt n) := by
  unfold infiniteBits at less
  have field : n / 2 ^ 52 % 2 ^ 11 = n / 2 ^ 52 := by omega
  unfold Magnitude.ofBits fractionAt
  simp only [Nat.pow_eq, field]
  rw [if_neg (by omega)]
  by_cases low : n / 2 ^ 52 = 0
  · rw [if_pos low, if_pos low, if_neg (by omega)]
    congr 2
    omega
  · rw [if_neg low, if_neg low]

theorem ofBits_notANumber (more : infiniteBits < n) (less : n < 2 ^ 63) :
    Magnitude.ofBits n = .notANumber := by
  unfold infiniteBits at more
  unfold Magnitude.ofBits
  simp only [Nat.pow_eq]
  rw [if_pos (by omega), if_neg (by omega)]

theorem ofBits_ne_notANumber (le : n ≤ infiniteBits) : Magnitude.ofBits n ≠ .notANumber := by
  rcases Nat.eq_zero_or_pos n with rfl | some
  · rw [ofBits_zero]
    simp
  · rcases Nat.lt_or_eq_of_le le with less | rfl
    · rw [ofBits_finite some less]
      simp
    · rw [ofBits_infinite]
      simp

theorem ofBits_mod (n : Nat) : Magnitude.ofBits (n % 2 ^ 63) = Magnitude.ofBits n := by
  have fraction : n % 2 ^ 63 % 2 ^ 52 = n % 2 ^ 52 := by omega
  have exponent : n % 2 ^ 63 / 2 ^ 52 % 2 ^ 11 = n / 2 ^ 52 % 2 ^ 11 := by omega
  unfold Magnitude.ofBits
  simp only [Nat.pow_eq, fraction, exponent]

theorem fractionAt_legal (some : 0 < n) (less : n < infiniteBits) : (fractionAt n).Legal := by
  unfold infiniteBits at less
  unfold fractionAt
  split
  · constructor <;> dsimp only <;> omega
  · constructor <;> dsimp only <;> omega

theorem mantissa_bounds (full : 2 ^ 52 ≤ n) :
    2 ^ 52 ≤ (fractionAt n).mantissa ∧ (fractionAt n).mantissa < 2 ^ 53 := by
  unfold fractionAt
  rw [if_neg (by omega)]
  dsimp only
  omega

theorem exponent_fractionAt (full : 2 ^ 52 ≤ n) :
    (fractionAt n).exponent = (n / 2 ^ 52 : Nat) - 1075 := by
  unfold fractionAt
  rw [if_neg (by omega)]

/-! ## Neighbours -/

/-- The next double has the next mantissa of the same exponent, or is the first one of the next
exponent. -/
theorem fractionAt_succ (n : Nat) :
    (fractionAt (n + 1)).mantissa = (fractionAt n).mantissa + 1 ∧
      (fractionAt (n + 1)).exponent = (fractionAt n).exponent ∧ (fractionAt (n + 1)).narrow = false ∨
    2 * (fractionAt (n + 1)).mantissa = (fractionAt n).mantissa + 1 ∧
      (fractionAt (n + 1)).exponent = (fractionAt n).exponent + 1 ∧
      (fractionAt (n + 1)).narrow = true := by
  unfold fractionAt
  by_cases low : (n + 1) / 2 ^ 52 = 0
  · rw [if_pos low, if_pos (by omega)]
    exact .inl ⟨rfl, rfl, rfl⟩
  · rw [if_neg low]
    by_cases low' : n / 2 ^ 52 = 0
    · rw [if_pos low']
      refine .inl ⟨?_, ?_, decide_eq_false ?_⟩
      · dsimp only
        omega
      · dsimp only
        omega
      · omega
    · rw [if_neg low']
      by_cases last : (n + 1) % 2 ^ 52 = 0
      · refine .inr ⟨?_, ?_, decide_eq_true ?_⟩
        · dsimp only
          omega
        · dsimp only
          omega
        · omega
      · refine .inl ⟨?_, ?_, decide_eq_false ?_⟩
        · dsimp only
          omega
        · dsimp only
          omega
        · omega

theorem high_fractionAt (n : Nat) : (fractionAt n).high = (fractionAt (n + 1)).low := by
  rcases fractionAt_succ n with ⟨mantissa, exponent, wide⟩ | ⟨mantissa, exponent, narrow⟩
  · exact Fraction.high_eq_low mantissa exponent wide
  · exact Fraction.high_eq_low_narrow mantissa exponent narrow

theorem low_strictMono : StrictMono fun n => (fractionAt n).low := by
  apply strictMono_nat_of_lt_succ
  intro n
  rw [← high_fractionAt]
  exact (fractionAt n).low_lt_high

theorem mantissa_parity (n : Nat) : (fractionAt n).mantissa % 2 = n % 2 := by
  unfold fractionAt
  split
  · rfl
  · dsimp only
    omega

theorem not_lt_of_rounds (h : (fractionAt n).Rounds q) (h' : (fractionAt m).Rounds q) : ¬ n < m := by
  intro lt
  have above := h.le.2
  have below := h'.le.1
  rw [high_fractionAt] at above
  have order : (fractionAt (n + 1)).low ≤ (fractionAt m).low := low_strictMono.monotone lt
  have next : n + 1 = m := low_strictMono.injective (le_antisymm order (below.trans above))
  have here : q = (fractionAt m).low := le_antisymm (next ▸ above) below
  -- Of two neighbours one has an odd mantissa, and the end between them is not in its interval.
  unfold Fraction.Rounds at h h'
  rw [mantissa_parity] at h h'
  by_cases even : n % 2 = 0
  · rw [if_neg (by omega), here] at h'
    exact lt_irrefl _ h'.1
  · rw [if_neg even, high_fractionAt, next, here] at h
    exact lt_irrefl _ h.2

theorem eq_of_rounds (h : (fractionAt n).Rounds q) (h' : (fractionAt m).Rounds q) : n = m :=
  Nat.le_antisymm (Nat.le_of_not_lt (not_lt_of_rounds h' h)) (Nat.le_of_not_lt (not_lt_of_rounds h h'))

end Kaleidoscope.Literal
