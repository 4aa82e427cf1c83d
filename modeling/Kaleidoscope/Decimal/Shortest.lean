/-!
# Shortest decimals

A binary fraction `mantissa * 2 ^ exponent` stands for every real that rounds to it. Its shortest
decimal lies on the coarsest grid of powers of ten that has a point in that interval. Of two points
on that grid the nearer one is taken, and of two equally near ones the upper.
-/

namespace Kaleidoscope.Decimal

/-- A positive binary fraction. `narrow` says that its lower neighbour is only half as far away as
its upper one, as it is at a power of two. -/
structure Fraction where
  mantissa : Nat
  exponent : Int
  narrow : Bool
deriving DecidableEq, Repr

/-- A decimal `digits * 10 ^ exponent`. -/
structure Digits where
  digits : Nat
  exponent : Int
deriving DecidableEq, Repr

/-- `10 ^ k` and a quarter of the last binary place of `x`, brought to a common denominator. -/
def Fraction.units (x : Fraction) (k : Int) : Nat × Nat :=
  let place := x.exponent - 2
  (Nat.pow 10 k.toNat * Nat.pow 2 (-place).toNat, Nat.pow 10 (-k).toNat * Nat.pow 2 place.toNat)

/-- The point `n * 10 ^ k` rounds to `x`. Both ends of the interval do so if the mantissa is even. -/
def Fraction.holds (x : Fraction) (k : Int) (n : Nat) : Bool :=
  let (step, quarter) := x.units k
  let low := (4 * x.mantissa - if x.narrow then 1 else 2) * quarter
  let high := (4 * x.mantissa + 2) * quarter
  if x.mantissa % 2 = 0 then decide (low ≤ n * step) && decide (n * step ≤ high)
  else decide (low < n * step) && decide (n * step < high)

/-- The point of the grid `10 ^ k` that stands for `x`, if one of its two neighbours there does. -/
def Fraction.onGrid? (x : Fraction) (k : Int) : Option Digits :=
  let (step, quarter) := x.units k
  let value := 4 * x.mantissa * quarter
  let below := value / step
  match x.holds k below, x.holds k (below + 1) with
  | true, true =>
    some ⟨if 2 * value < (2 * below + 1) * step then below else below + 1, k⟩
  | true, false => some ⟨below, k⟩
  | false, true => some ⟨below + 1, k⟩
  | false, false => none

/-- A power of ten above every number that rounds to `x`: it takes 0.30103 decimal places to hold a
binary one. -/
def Fraction.top (x : Fraction) : Int :=
  (((4 * x.mantissa + 2).log2 + 1 : Nat) + x.exponent - 2) * 30103 / 100000 + 1

/-- The shortest decimal that rounds to `x`. No double needs more than seventeen digits, and the
first power tried is at most three places above the first digit. -/
def Fraction.shortest (x : Fraction) : Digits :=
  ((List.range 24).findSome? fun (i : Nat) => x.onGrid? (x.top - (i : Int))).getD ⟨0, 0⟩

end Kaleidoscope.Decimal
