import Kaleidoscope.Literal.Shape

/-!
# The value of a number

The double that the characters of a complete literal stand for. A conversion checks the text it is given;
the values without a check are those of texts that pass.
-/

namespace Kaleidoscope.Literal

def digitValue (c : Char) : Nat :=
  if c.isDigit then c.toNat - '0'.toNat
  else if 'a' ≤ c ∧ c ≤ 'f' then c.toNat - 'a'.toNat + 10
  else if 'A' ≤ c ∧ c ≤ 'F' then c.toNat - 'A'.toNat + 10
  else 0

def integerValue (radix : Nat) (digits : List Char) : Nat :=
  digits.foldl (fun n c => n * radix + digitValue c) 0

def radixValue (radix : Nat) (digits : List Char) : Float :=
  let n := integerValue radix digits
  if n < Nat.pow 2 64 then n.toUInt64.toFloat
  -- in a wider integer every digit is added, and rounded, in turn
  else digits.foldl (fun x c => x * Float.ofNat radix + Float.ofNat (digitValue c)) 0

def isDigitOf (radix : Nat) (c : Char) : Bool := isHexDigit c && decide (digitValue c < radix)

/-- The integer that a text stands for, if it has at most 64 bits. A plus sign may stand before the
digits. -/
def integer64? (radix : Nat) (text : List Char) : Option Nat :=
  let digits := match text with
    | '+' :: digits => digits
    | digits => digits
  if digits ≠ [] ∧ digits.all (isDigitOf radix) ∧ integerValue radix digits < Nat.pow 2 64 then
    some (integerValue radix digits)
  else none

def radixValue? (radix : Nat) (text : List Char) : Option Float :=
  if text = [] then none
  else
    match integer64? radix text with
    | some n => some n.toUInt64.toFloat
    | none =>
      if text.all (isDigitOf radix) then
        some (text.foldl (fun x c => x * Float.ofNat radix + Float.ofNat (digitValue c)) 0)
      else none

/-- The double nearest to `digits * 10 ^ exponent`. -/
def nearest (digits : Nat) (exponent : Int) : Float :=
  let size : Int := (Nat.toDigits 10 digits).length + exponent
  -- no double comes near these powers of ten
  if digits = 0 ∨ size < -400 then 0
  else if 400 < size then Float.ofBits 0x7FF0000000000000
  else Float.ofScientific digits (decide (exponent < 0)) exponent.natAbs

def exponentValue : List Char → Int
  | _mark :: '-' :: digits => -(integerValue 10 digits : Int)
  | _mark :: '+' :: digits => integerValue 10 digits
  | _mark :: digits => integerValue 10 digits
  | [] => 0

def decimalValue (text : List Char) : Float :=
  let whole := text.takeWhile Char.isDigit
  let behind := text.dropWhile Char.isDigit
  let (places, power) := match behind with
    | '.' :: r => (r.takeWhile Char.isDigit, r.dropWhile Char.isDigit)
    | r => ([], r)
  nearest (integerValue 10 (whole ++ places)) (exponentValue power - places.length)

/-- An exponent mark with digits behind it, which may have a sign; or nothing. -/
def isExponentText : List Char → Bool
  | mark :: '-' :: digits => isExponentMark mark && !digits.isEmpty && digits.all Char.isDigit
  | mark :: '+' :: digits => isExponentMark mark && !digits.isEmpty && digits.all Char.isDigit
  | mark :: digits => isExponentMark mark && !digits.isEmpty && digits.all Char.isDigit
  | [] => true

def isDecimalText (text : List Char) : Bool :=
  let whole := text.takeWhile Char.isDigit
  let behind := text.dropWhile Char.isDigit
  let (places, power) := match behind with
    | '.' :: r => (r.takeWhile Char.isDigit, r.dropWhile Char.isDigit)
    | r => ([], r)
  (!whole.isEmpty || !places.isEmpty) && isExponentText power

def decimalValue? (text : List Char) : Option Float :=
  if isDecimalText text then some (decimalValue text) else none

def Form.value? (form : Form) (text : List Char) : Option Float :=
  match form with
  | zero => some 0
  | decimal => decimalValue? text
  | hexadecimal => radixValue? 16 (text.drop 2)
  | binary => radixValue? 2 (text.drop 2)
  | octal => radixValue? 8 text

def Form.value (form : Form) (text : List Char) : Float :=
  match form with
  | zero => 0
  | decimal => decimalValue text
  | hexadecimal => radixValue 16 (text.drop 2)
  | binary => radixValue 2 (text.drop 2)
  | octal => radixValue 8 text

end Kaleidoscope.Literal
