/-!
# The shape of a number

Which characters a numeric literal takes, one after another. A literal is decimal with an optional
fraction and exponent, or hexadecimal, binary or octal. Signs belong to expressions and never to
literals.
-/

namespace Kaleidoscope.Literal

/-- What a complete literal is. A lone `0` is a form of its own, since what follows it may begin
another token. -/
inductive Form
  | zero
  | decimal
  | hexadecimal
  | binary
  | octal
deriving DecidableEq, Repr

inductive Stage
  | start
  | leadingZero
  | hexMark
  | hexDigits
  | binaryMark
  | binaryDigits
  | octalDigits
  | integer
  | bareDot
  | fraction
  | exponentMark
  | exponentSign
  | exponent
deriving DecidableEq, Repr

/-- What becomes of the next character. `finish`, `refuse` and `malformed` leave it unread. -/
inductive Move
  | take (next : Stage)
  | finish (form : Form)
  | refuse
  | malformed
deriving DecidableEq, Repr

def isOctalDigit (c : Char) : Bool :=
  decide ('0' ≤ c) && decide (c ≤ '7')

def isBinaryDigit (c : Char) : Bool :=
  c == '0' || c == '1'

def isHexDigit (c : Char) : Bool :=
  c.isDigit || (decide ('a' ≤ c) && decide (c ≤ 'f')) || (decide ('A' ≤ c) && decide (c ≤ 'F'))

def isExponentMark (c : Char) : Bool :=
  c == 'e' || c == 'E'

def isSign (c : Char) : Bool :=
  c == '+' || c == '-'

/-- A prefix `0x` or `0b` and an exponent mark need a digit behind them. A dot needs one only if none
stands before it. -/
def Stage.move (s : Stage) (c : Char) : Move :=
  match s with
  | start =>
    if c = '0' then .take leadingZero
    else if c.isDigit then .take integer
    else if c = '.' then .take bareDot
    else .refuse
  | leadingZero =>
    if c = 'x' ∨ c = 'X' then .take hexMark
    else if c = 'b' ∨ c = 'B' then .take binaryMark
    else if isOctalDigit c then .take octalDigits
    else if c = '.' then .take fraction
    else .finish .zero
  | hexMark => if isHexDigit c then .take hexDigits else .malformed
  | hexDigits => if isHexDigit c then .take hexDigits else .finish .hexadecimal
  | binaryMark => if isBinaryDigit c then .take binaryDigits else .malformed
  | binaryDigits => if isBinaryDigit c then .take binaryDigits else .finish .binary
  | octalDigits => if isOctalDigit c then .take octalDigits else .finish .octal
  | integer =>
    if c.isDigit then .take integer
    else if c = '.' then .take fraction
    else if isExponentMark c then .take exponentMark
    else .finish .decimal
  | bareDot => if c.isDigit then .take fraction else .refuse
  | fraction =>
    if c.isDigit then .take fraction
    else if isExponentMark c then .take exponentMark
    else .finish .decimal
  | exponentMark =>
    if isSign c then .take exponentSign
    else if c.isDigit then .take exponent
    else .malformed
  | exponentSign => if c.isDigit then .take exponent else .malformed
  | exponent => if c.isDigit then .take exponent else .finish .decimal

/-- No literal takes a NUL, the character that also marks the end of a source. -/
theorem Stage.move_nul_ne_take (s next : Stage) : s.move '\x00' ≠ .take next := by
  cases s <;> simp [move, isHexDigit, isBinaryDigit, isOctalDigit, isExponentMark, isSign]

end Kaleidoscope.Literal
