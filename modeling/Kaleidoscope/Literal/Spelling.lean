import Kaleidoscope.Decimal.Shortest

/-!
# The text of a number

A double is written with the fewest digits that read back: positionally when its first digit stands
between the fifth place behind the point and the sixteenth before it, and with a signed exponent
otherwise. The text is made in pieces, which matter to whoever writes it piece by piece.
-/

namespace Kaleidoscope.Literal

open Decimal

inductive Magnitude
  | notANumber
  | infinite
  | zero
  | finite (value : Fraction)
deriving DecidableEq, Repr

/-- Eleven bits hold the exponent and fifty-two the mantissa, whose first bit is left out unless the
exponent is at its least. -/
def Magnitude.ofBits (bits : Nat) : Magnitude :=
  let implicitBit : Nat := Nat.pow 2 52
  let fraction : Nat := bits % implicitBit
  let exponent : Nat := bits / implicitBit % Nat.pow 2 11
  if exponent = Nat.pow 2 11 - 1 then (if fraction = 0 then infinite else notANumber)
  else if exponent = 0 then (if fraction = 0 then zero else finite ⟨fraction, -1074, false⟩)
  else finite ⟨implicitBit + fraction, (exponent : Int) - 1075, decide (fraction = 0 ∧ 1 < exponent)⟩

def positional (d : Digits) : List (List Char) :=
  let digits := Nat.toDigits 10 d.digits
  let point : Int := digits.length + d.exponent
  if 0 ≤ d.exponent then [digits, List.replicate d.exponent.toNat '0']
  else if 0 < point then [digits.take point.toNat, ['.'], digits.drop point.toNat]
  else [['0', '.'], List.replicate (-point).toNat '0', digits]

/-- The place of the first digit: zero for units, one for tens. -/
def leadingPlace (d : Digits) : Int :=
  (Nat.toDigits 10 d.digits).length + d.exponent - 1

def scientific (d : Digits) : List (List Char) :=
  let place := leadingPlace d
  let power := Nat.toDigits 10 place.natAbs
  let mantissa := match Nat.toDigits 10 d.digits with
    | first :: second :: rest => first :: '.' :: second :: rest
    | single => single
  -- the exponent of a small number is no piece of its own
  if 0 ≤ place then [mantissa, ['e', '+'], power] else [mantissa ++ 'e' :: '-' :: power]

def digitPieces (d : Digits) : List (List Char) :=
  if -5 ≤ leadingPlace d ∧ leadingPlace d < 16 then positional d else scientific d

def Magnitude.pieces : Magnitude → List (List Char)
  | notANumber => [['N', 'a', 'N']]
  | infinite => [['i', 'n', 'f']]
  | zero => [['0']]
  | finite value => digitPieces value.shortest

def pieces (value : Float) : List (List Char) :=
  let bits := value.toBits.toNat
  let magnitude := Magnitude.ofBits bits
  let signed :=
    -- what is not a number has no sign
    if Nat.pow 2 63 ≤ bits ∧ magnitude ≠ .notANumber then ['-'] :: magnitude.pieces
    else magnitude.pieces
  -- no zeros are no piece
  signed.filter (!·.isEmpty)

def spell (value : Float) : String := String.ofList (pieces value).flatten

end Kaleidoscope.Literal
