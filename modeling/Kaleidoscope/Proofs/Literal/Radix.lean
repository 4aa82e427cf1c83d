import Kaleidoscope.Proofs.Literal.Conversion
import Kaleidoscope.Proofs.Literal.Sum
import Mathlib.Data.Nat.Cast.Order.Field

/-!
# Digits added in turn

An integer of more than 64 bits is put together digit by digit, and rounded each time. Once its digits
fill a mantissa the double only moves to the next places, so the digits behind are lost. They are missed
if the ones before them stand in the middle between two doubles.
-/

namespace Kaleidoscope.Literal

open Decimal

section
variable {n k : Nat} {q : ℚ} {v : Float}

/-! ## Digits in turn -/

/-- The double that digits of the radix `2 ^ k` have been added up to. It is the integer itself while that
fits in a mantissa. Later it is the double that the first digits round to, moved to their places. -/
inductive Accumulated (k : Nat) (N : Nat) (v : Float) : Prop
  | exact (fits : N < 2 ^ 53) (rounds : RoundsTo v N)
  | full (n j : Nat) (least : 2 ^ 53 ≤ N / 2 ^ (j * k)) (most : N / 2 ^ (j * k) < 2 ^ 53 * 2 ^ k)
    (rounds : (fractionAt n).Rounds (N / 2 ^ (j * k) : Nat))
    (bits : v.toBits.toNat = min (n + j * k * 2 ^ 52) infiniteBits)

theorem Accumulated.of_roundsTo {N : Nat} (most : N < 2 ^ 53 * 2 ^ k) (h : RoundsTo v N) :
    Accumulated k N v := by
  rcases Nat.lt_or_ge N (2 ^ 53) with fits | wide
  · exact .exact fits h
  · obtain ⟨n, rounds, bits⟩ := h
    refine .full n 0 ?_ ?_ ?_ ?_
    · simpa using wide
    · simpa using most
    · simpa using rounds
    · simpa using bits

theorem full_of_rounds {N : Nat} (least : 2 ^ 53 ≤ N) (rounds : (fractionAt n).Rounds N) :
    1076 * 2 ^ 52 ≤ n := by
  apply le_of_rounds _ rounds
  rw [show 1076 = 1023 + 53 from rfl, valueAt_power]
  exact_mod_cast least

theorem Accumulated.step {N : Nat} (k : Fin 5) (d : Fin 16) (small : d.val < 2 ^ k.val)
    (h : Accumulated k N v) :
    Accumulated k (N * 2 ^ k.val + d) (v * Float.ofNat (2 ^ k.val) + Float.ofNat d) := by
  cases h with
  | exact fits rounds =>
    have most : N * 2 ^ k.val + d < 2 ^ 53 * 2 ^ k.val := by
      calc N * 2 ^ k.val + d < N * 2 ^ k.val + 2 ^ k.val := Nat.add_lt_add_left small _
        _ = (N + 1) * 2 ^ k.val := (Nat.succ_mul N _).symm
        _ ≤ 2 ^ 53 * 2 ^ k.val := Nat.mul_le_mul_right _ fits
    -- the product is exact, so the sum is the first that may be rounded
    apply Accumulated.of_roundsTo most
    rcases Nat.eq_zero_or_pos N with rfl | some
    · have zero : v = 0 := by
        apply eq_of_toBits
        rw [← UInt64.toNat_inj, rounds.toNat_eq (n := 0) (by exact_mod_cast valueAt_zero ▸ valueAt_rounds 0)]
        decide +kernel
      rw [zero, eq_of_toBits (radix_operand k).2.1, eq_of_toBits (digit_operand d).2.1, Nat.zero_mul, Nat.zero_add]
      exact digit_roundsTo d
    · obtain ⟨n, value, least, most⟩ := integer_bits some fits
      have finite : n < infiniteBits := by
        unfold infiniteBits
        omega
      have bits := mul_radix_bits (rounds.toNat_eq (value ▸ valueAt_rounds n)) (by omega) k
      have size := k.isLt
      have finite' : n + k * 2 ^ 52 < infiniteBits := by
        unfold infiniteBits
        omega
      rw [Nat.min_eq_left finite'.le] at bits
      have sum := add_digit_roundsTo bits (by omega) finite' d
      rw [valueAt_add (by omega), value] at sum
      exact_mod_cast sum
  | full n j least most rounds bits =>
    have same : (N * 2 ^ k.val + d) / 2 ^ ((j + 1) * k.val) = N / 2 ^ (j * k.val) := by
      rw [Nat.succ_mul, Nat.add_comm (j * _), Nat.pow_add, ← Nat.div_div_eq_div_mul, Nat.mul_comm N,
        Nat.mul_add_div (Nat.two_pow_pos _), Nat.div_eq_of_lt small, Nat.add_zero]
    have wide := full_of_rounds least rounds
    refine .full n (j + 1) (same ▸ least) (same ▸ most) (same ▸ rounds) ?_
    have moved : n + j * k * 2 ^ 52 + k * 2 ^ 52 = n + (j + 1) * k * 2 ^ 52 := by ring
    rw [← moved]
    generalize j * k.val = places at bits ⊢
    have behind : 1076 * 2 ^ 52 ≤ n + places * 2 ^ 52 := wide.trans (Nat.le_add_right _ _)
    apply add_digit_lost (mul_radix_bits bits (by omega) k) d k small
    rw [Nat.add_mul]
    exact Nat.add_le_add_right behind _

theorem Accumulated.run {N : Nat} (k : Fin 5) {digits : List Char}
    (all : ∀ c ∈ digits, isDigitOf (2 ^ k.val) c = true) (h : Accumulated k N v) :
    Accumulated k (digits.foldl (fun n c => n * 2 ^ k.val + digitValue c) N)
      (digits.foldl (fun x c => x * Float.ofNat (2 ^ k.val) + Float.ofNat (digitValue c)) v) := by
  induction digits generalizing N v with
  | nil => exact h
  | cons c digits ih =>
    obtain ⟨digit, others⟩ := List.forall_mem_cons.mp all
    have small : digitValue c < 2 ^ k.val := by
      rw [isDigitOf, Bool.and_eq_true] at digit
      exact of_decide_eq_true digit.2
    exact ih others (h.step k ⟨digitValue c, digitValue_lt c⟩ small)

/-! ## Lost digits -/

/-- The first digits, those that fill a mantissa, stand in the middle between two doubles, of which the
lower one is even, and there are other digits than zeros behind them. -/
def Misrounded (radix N : Nat) : Prop :=
  2 ^ 64 ≤ N ∧ N < 2 ^ 1024 ∧ ∃ j, N % radix ^ j ≠ 0 ∧ ∃ h e, N / radix ^ j = (4 * h + 1) * 2 ^ e ∧
    2 ^ 51 ≤ h ∧ h < 2 ^ 52 ∧ 2 ^ e < radix

theorem exponent_pos (wide : 1076 * 2 ^ 52 ≤ n) : 1 ≤ (fractionAt n).exponent := by
  rw [exponent_fractionAt (by omega)]
  omega

theorem high_eq_integer (wide : 1076 * 2 ^ 52 ≤ n) : (fractionAt n).high =
    ((2 * (fractionAt n).mantissa + 1) * 2 ^ ((fractionAt n).exponent - 1).toNat : Nat) := by
  have least := exponent_pos wide
  have place : (2 : ℚ) ^ ((fractionAt n).exponent - 1).toNat = 2 * (fractionAt n).quarter := by
    rw [← zpow_natCast, Int.toNat_of_nonneg (by omega), Fraction.quarter, zpow_sub₀ two_ne_zero,
      zpow_sub₀ two_ne_zero]
    norm_num
    ring
  rw [Fraction.high]
  push_cast
  rw [place]
  ring

theorem rounds_high (even : n % 2 = 0) : (fractionAt n).Rounds (fractionAt n).high := by
  unfold Fraction.Rounds
  rw [if_pos ((mantissa_parity n).trans even)]
  exact ⟨(fractionAt n).low_lt_high.le, le_rfl⟩

variable {lead : Nat}

/-- What is behind the digits of a mantissa has no effect if these are not in the middle between two doubles. -/
theorem rounds_behind (wide : 1076 * 2 ^ 52 ≤ n) (rounds : (fractionAt n).Rounds lead)
    (above : (lead : ℚ) ≤ q) (below : q < lead + 1) (split : (lead : ℚ) ≠ (fractionAt n).high) :
    (fractionAt n).Rounds q := by
  apply rounds.of_le above
  have less := lt_of_le_of_ne rounds.le.2 split
  rw [high_eq_integer wide] at less ⊢
  exact below.trans_le (by exact_mod_cast less)

theorem rounds_behind_tie (wide : 1076 * 2 ^ 52 ≤ n) (tie : (lead : ℚ) = (fractionAt n).high)
    (above : (lead : ℚ) < q) (below : q < lead + 1) :
    (fractionAt (n + 1)).Rounds q ∧ q < valueAt (n + 1) := by
  have place : (2 : ℚ) ≤ 2 ^ (fractionAt n).exponent := by
    calc (2 : ℚ) = 2 ^ (1 : Int) := (zpow_one 2).symm
      _ ≤ 2 ^ (fractionAt n).exponent := zpow_le_zpow_right₀ (by norm_num) (exponent_pos wide)
  have less : q < valueAt (n + 1) := by
    rw [high_eq_add] at tie
    rw [valueAt_succ]
    linarith
  have low : (fractionAt (n + 1)).low < q := by
    rw [← high_fractionAt, ← tie]
    exact above
  have order := valueAt_strictMono (Nat.lt_succ_self (n + 1))
  have high : q < (fractionAt (n + 1)).high := by
    rw [high_eq_middle]
    linarith
  exact ⟨Fraction.rounds_of_lt low high, less⟩

theorem tie_iff (wide : 1076 * 2 ^ 52 ≤ n) (rounds : (fractionAt n).Rounds lead) :
    (lead : ℚ) = (fractionAt n).high ↔
      ∃ h e, lead = (4 * h + 1) * 2 ^ e ∧ 2 ^ 51 ≤ h ∧ h < 2 ^ 52 := by
  constructor
  · intro tie
    have even := even_of_high (tie ▸ rounds)
    rw [← mantissa_parity] at even
    obtain ⟨least, most⟩ := mantissa_bounds (by omega : 2 ^ 52 ≤ n)
    refine ⟨(fractionAt n).mantissa / 2, ((fractionAt n).exponent - 1).toNat, ?_, by omega, by omega⟩
    rw [high_eq_integer wide, Nat.cast_inj] at tie
    rw [tie]
    congr 1
    omega
  · rintro ⟨h, e, eq, least, most⟩
    have canonical : Canonical (2 * h) (e + 1) := ⟨by omega, by omega, .inl (by omega)⟩
    have high : (fractionAt (bitsAt (2 * h) (e + 1))).high = lead := by
      have place : (2 : ℚ) ^ ((e : Int) + 1 - 2) = 2 ^ e / 2 := by
        rw [show (e : Int) + 1 - 2 = e - 1 by ring, zpow_sub_one₀ two_ne_zero, zpow_natCast, div_eq_mul_inv]
      rw [fractionAt_bitsAt canonical, Fraction.high, Fraction.quarter, place, eq]
      push_cast
      ring
    have even : bitsAt (2 * h) (e + 1) % 2 = 0 := by
      unfold bitsAt
      omega
    have here := rounds_high even
    rw [high] at here
    rw [← high, eq_of_rounds rounds here]

theorem place_eq {N j j' R : Nat} (many : 1 < R) (least : 2 ^ 53 ≤ N / R ^ j) (most : N / R ^ j < 2 ^ 53 * R)
    (least' : 2 ^ 53 ≤ N / R ^ j') (most' : N / R ^ j' < 2 ^ 53 * R) : j = j' := by
  have not_lt {j j' : Nat} (most : N / R ^ j < 2 ^ 53 * R) (least' : 2 ^ 53 ≤ N / R ^ j') : ¬ j < j' := by
    intro less
    obtain ⟨i, rfl⟩ := Nat.exists_eq_add_of_lt less
    have split : N / R ^ (j + i + 1) = N / R ^ j / R / R ^ i := by
      rw [Nat.div_div_eq_div_mul, Nat.div_div_eq_div_mul]
      congr 1
      ring
    have small : N / R ^ j / R < 2 ^ 53 := (Nat.div_lt_iff_lt_mul (by omega)).mpr most
    rw [split] at least'
    exact absurd (least'.trans (Nat.div_le_self _ _)) (Nat.not_le_of_gt small)
  exact Nat.le_antisymm (Nat.le_of_not_lt (not_lt most' least)) (Nat.le_of_not_lt (not_lt most least'))

theorem misrounded_iff {N j : Nat} (wide : 2 ^ 64 ≤ N) (least : 2 ^ 53 ≤ N / 2 ^ (j * k))
    (most : N / 2 ^ (j * k) < 2 ^ 53 * 2 ^ k) (rounds : (fractionAt n).Rounds (N / 2 ^ (j * k) : Nat)) :
    Misrounded (2 ^ k) N ↔
      N < 2 ^ 1024 ∧ N % 2 ^ (j * k) ≠ 0 ∧ ((N / 2 ^ (j * k) : Nat) : ℚ) = (fractionAt n).high := by
  have power (j : Nat) : (2 ^ k) ^ j = 2 ^ (j * k) := by rw [← Nat.pow_mul, Nat.mul_comm]
  rw [tie_iff (full_of_rounds least rounds) rounds]
  rw [← power] at least most ⊢
  constructor
  · rintro ⟨-, finite, j', rest, h, e, eq, low, high, short⟩
    have one : 0 < 2 ^ e := Nat.two_pow_pos e
    have half : 2 * 2 ^ e ≤ 2 ^ k := by
      rw [← Nat.pow_succ']
      exact Nat.pow_le_pow_right (by decide) ((Nat.pow_lt_pow_iff_right (by decide)).mp short)
    have least' : 2 ^ 53 ≤ N / (2 ^ k) ^ j' := by
      rw [eq]
      exact (by omega : 2 ^ 53 ≤ 4 * h + 1).trans (Nat.le_mul_of_pos_right _ one)
    have most' : N / (2 ^ k) ^ j' < 2 ^ 53 * 2 ^ k := by
      calc N / (2 ^ k) ^ j' = (4 * h + 1) * 2 ^ e := eq
        _ < 2 ^ 54 * 2 ^ e := Nat.mul_lt_mul_of_pos_right (by omega) one
        _ = 2 ^ 53 * (2 * 2 ^ e) := by ring
        _ ≤ 2 ^ 53 * 2 ^ k := Nat.mul_le_mul_left _ half
    obtain rfl : j = j' := place_eq (by omega) least most least' most'
    exact ⟨finite, rest, h, e, eq, low, high⟩
  · rintro ⟨finite, rest, h, e, eq, low, high⟩
    refine ⟨wide, finite, j, rest, h, e, eq, low, high, ?_⟩
    apply Nat.lt_of_mul_lt_mul_left (a := 2 ^ 53)
    calc 2 ^ 53 * 2 ^ e ≤ (4 * h + 1) * 2 ^ e := Nat.mul_le_mul_right _ (by omega)
      _ < 2 ^ 53 * 2 ^ k := eq ▸ most

theorem valueAt_infinite : valueAt infiniteBits = 2 ^ 1024 :=
  valueAt_power 1024

/-- The double below the one that `q` rounds to is the nearest one only beyond the range, where both are
infinity. -/
theorem nearestAt_below (rounds : (fractionAt (n + 1)).Rounds q) (less : q < valueAt (n + 1)) :
    (2 ^ 1024 ≤ q → NearestAt (min n infiniteBits) q) ∧
      (q < 2 ^ 1024 → NearestAt (min n infiniteBits + 1) q) := by
  have near := nearestAt_of_rounds rounds
  rw [← valueAt_infinite]
  constructor
  · intro beyond
    have infinite := valueAt_strictMono.lt_iff_lt.mp (beyond.trans_lt less)
    rw [Nat.min_eq_right (by omega)] at near ⊢
    exact near
  · intro within
    have low := rounds.le.1
    have order := valueAt_strictMono (Nat.lt_succ_self n)
    rw [low_eq_middle] at low
    have finite : n < infiniteBits := by
      rw [← valueAt_strictMono.lt_iff_lt]
      linarith
    rw [Nat.min_eq_left finite] at near
    rw [Nat.min_eq_left finite.le]
    exact near

/-! ### Integers and their first digits -/

section
variable (N p : Nat)

theorem cast_div_eq_iff : ((N / 2 ^ p : Nat) : ℚ) = N / 2 ^ p ↔ N % 2 ^ p = 0 := by
  rw [eq_div_iff (by positivity)]
  constructor
  · intro eq
    exact Nat.mod_eq_zero_of_dvd ⟨N / 2 ^ p, by rw [Nat.mul_comm]; exact_mod_cast eq.symm⟩
  · intro rest
    exact_mod_cast Nat.div_mul_cancel (Nat.dvd_of_mod_eq_zero rest)

theorem lt_cast_div_add_one : (N : ℚ) / 2 ^ p < (N / 2 ^ p : Nat) + 1 := by
  rw [div_lt_iff₀ (by positivity), mul_comm]
  exact_mod_cast Nat.lt_mul_div_succ N (Nat.two_pow_pos p)

end

theorem rounds_add_iff {N p : Nat} (more : 2 ^ 53 ≤ n) :
    (fractionAt (n + p * 2 ^ 52)).Rounds N ↔ (fractionAt n).Rounds (N / 2 ^ p) := by
  have value : (N : ℚ) = N / 2 ^ p * 2 ^ p := (div_mul_cancel₀ _ (by positivity)).symm
  rw [value, rounds_add more, ← value]

/-- The double of an integer of more than 64 bits is the nearest one, unless the other digits would have
taken it to the next one. -/
theorem Accumulated.nearest {N : Nat} (wide : 2 ^ 64 ≤ N) (h : Accumulated k N v) :
    (¬ Misrounded (2 ^ k) N → NearestAt v.toBits.toNat N) ∧
      (Misrounded (2 ^ k) N → NearestAt (v.toBits.toNat + 1) N) := by
  cases h with
  | exact fits rounds => exact absurd fits (by omega)
  | full n j least most rounds bits =>
    rw [misrounded_iff wide least most rounds, bits]
    have full := full_of_rounds least rounds
    generalize j * k = places at *
    have above : ((N / 2 ^ places : Nat) : ℚ) ≤ N / 2 ^ places := by
      exact_mod_cast Nat.cast_div_le
    have below := lt_cast_div_add_one N places
    by_cases lost : N % 2 ^ places ≠ 0 ∧ ((N / 2 ^ places : Nat) : ℚ) = (fractionAt n).high
    · obtain ⟨rest, tie⟩ := lost
      have strict := lt_of_le_of_ne above (mt (cast_div_eq_iff N places).mp rest)
      obtain ⟨next, less⟩ := rounds_behind_tie full tie strict below
      have less' : (N : ℚ) < valueAt (n + 1 + places * 2 ^ 52) := by
        rw [valueAt_add (by omega)]
        exact (div_lt_iff₀ (by positivity)).mp less
      have next' := (rounds_add_iff (by omega)).mpr next
      rw [Nat.add_right_comm] at next' less'
      obtain ⟨beyond, within⟩ := nearestAt_below next' less'
      constructor
      · intro right
        apply beyond
        exact_mod_cast Nat.le_of_not_lt fun finite => right ⟨finite, rest, tie⟩
      · rintro ⟨finite, -⟩
        exact within (by exact_mod_cast finite)
    · have same : (fractionAt n).Rounds (N / 2 ^ places) := by
        by_cases rest : N % 2 ^ places = 0
        · exact (cast_div_eq_iff N places).mpr rest ▸ rounds
        · exact rounds_behind full rounds above below fun tie => lost ⟨rest, tie⟩
      refine ⟨fun _ => ?_, fun ⟨_, tie⟩ => absurd tie lost⟩
      exact nearestAt_of_rounds ((rounds_add_iff (by omega)).mpr same)

theorem radixValue_nearest (k : Fin 5) {digits : List Char}
    (all : ∀ c ∈ digits, isDigitOf (2 ^ k.val) c = true) :
    let N := integerValue (2 ^ k.val) digits
    let b := (radixValue (2 ^ k.val) digits).toBits.toNat
    (¬ Misrounded (2 ^ k.val) N → NearestAt b N) ∧ (Misrounded (2 ^ k.val) N → NearestAt (b + 1) N) := by
  intro N b
  rcases Nat.lt_or_ge N (2 ^ 64) with narrow | wide
  · have value : radixValue (2 ^ k.val) digits = N.toUInt64.toFloat := if_pos narrow
    refine ⟨fun _ => ?_, fun miss => absurd narrow (Nat.not_lt_of_ge miss.1)⟩
    have near := (integer_roundsTo narrow).nearestAt
    rw [← value] at near
    exact near
  · have value : radixValue (2 ^ k.val) digits =
        digits.foldl (fun x c => x * Float.ofNat (2 ^ k.val) + Float.ofNat (digitValue c)) 0 :=
      if_neg (Nat.not_lt_of_ge wide)
    have zero : RoundsTo 0 (0 : Nat) := by
      refine ⟨0, ?_, by decide +kernel⟩
      rw [Nat.cast_zero, ← valueAt_zero]
      exact valueAt_rounds 0
    have near := (Accumulated.run k all (.exact (by decide) zero)).nearest wide
    rw [← value] at near
    exact near

/-- Digits of a radix are converted to the nearest double, if the first ones do not end in a tie that the
others would break. If they do, the nearest double is the next one. -/
theorem radix_nearest {radix : Nat} {digits : List Char}
    (base : radix = 2 ∨ radix = 8 ∨ radix = 16) (h : RadixDigits radix digits) :
    ∃ v, radixValue? radix digits = some v ∧
      (NearestAt v.toBits.toNat (integerValue radix digits) ↔
        ¬ Misrounded radix (integerValue radix digits)) ∧
      (Misrounded radix (integerValue radix digits) →
        NearestAt (v.toBits.toNat + 1) (integerValue radix digits)) := by
  obtain ⟨k, rfl⟩ : ∃ k : Fin 5, radix = 2 ^ k.val := by
    rcases base with rfl | rfl | rfl
    exacts [⟨1, rfl⟩, ⟨3, rfl⟩, ⟨4, rfl⟩]
  obtain ⟨right, wrong⟩ := radixValue_nearest k h.2
  refine ⟨_, radixValue?_eq h, ⟨fun near miss => ?_, right⟩, wrong⟩
  exact Nat.ne_of_lt (Nat.lt_succ_self _) (near.unique (wrong miss))

theorem radix_nearest_tie :
    let digits := "10000000000000810".toList
    RadixDigits 16 digits ∧ Misrounded 16 (integerValue 16 digits) ∧
      ∃ v, radixValue? 16 digits = some v ∧ NearestAt (v.toBits.toNat + 1) (integerValue 16 digits) := by
  intro digits
  have valid : RadixDigits 16 digits := ⟨by decide, List.all_eq_true.mp (by decide)⟩
  have small : integerValue 16 digits < 2 ^ 65 := by decide
  have finite : integerValue 16 digits < 2 ^ 1024 :=
    small.trans (pow_lt_pow_right₀ Nat.one_lt_two (by norm_num))
  have miss : Misrounded 16 (integerValue 16 digits) :=
    ⟨by decide, finite, 2, by decide, 2 ^ 51, 3, by decide, by decide, by decide, by decide⟩
  obtain ⟨v, value, -, next⟩ := radix_nearest (.inr (.inr rfl)) valid
  exact ⟨valid, miss, v, value, next miss⟩

theorem radix_not_nearest :
    let digits := "10000000000000810".toList
    RadixDigits 16 digits ∧ ∃ v, radixValue? 16 digits = some v ∧
      v.toBits = 0x43F0000000000000 ∧ ¬ NearestAt v.toBits.toNat (integerValue 16 digits) := by
  intro digits
  have valid : RadixDigits 16 digits := ⟨by decide, List.all_eq_true.mp (by decide)⟩
  have bits : (radixValue 16 digits).toBits = 0x43F0000000000000 := by decide +kernel
  refine ⟨valid, _, radixValue?_eq valid, bits, fun near => ?_⟩
  have integer : integerValue 16 digits = 2 ^ 64 + 2064 := by decide
  have value : valueAt 0x43F0000000000000 = 2 ^ 64 := by norm_num [valueAt, fractionAt]
  have value' : valueAt 0x43F0000000000001 = 2 ^ 64 + 4096 := by norm_num [valueAt, fractionAt]
  have other := near.2 0x43F0000000000001 (by decide) (by rw [bits]; decide)
  have here : (radixValue 16 digits).toBits.toNat = 0x43F0000000000000 := by rw [bits]; decide
  rw [here, integer, value, value'] at other
  norm_num [abs_of_pos, abs_of_neg] at other

end

end Kaleidoscope.Literal
