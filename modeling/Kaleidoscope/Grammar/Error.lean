import Kaleidoscope.ScanError
import Kaleidoscope.Token
import Kaleidoscope.Tree.Basic

/-!
# Syntax errors

A syntax error names what was expected and shows the token that stood there instead. Errors of the
scanner end a parse; syntax errors do not.
-/

namespace Kaleidoscope

inductive Expected
  | functionName
  | openParameters
  | closeParameters
  | closeGroup
  | argumentEnd
deriving DecidableEq, Repr

def Expected.toText : Expected → String
  | functionName => "function name in prototype"
  | openParameters => "'(' in prototype"
  | closeParameters => "')' in prototype"
  | closeGroup => "')' to close a parenthesized expression"
  | argumentEnd => "',' or ')' in argument list"

inductive SyntaxError
  | expectedToken (expected : Expected) (found : String) (pos : Position)
  | expectedExpression (found : String) (pos : Position)
  | unknownOperator (symbol : String) (pos : Position)
deriving DecidableEq, Repr

namespace SyntaxError

def expecting (expected : Expected) (t : Token) : SyntaxError :=
  .expectedToken expected t.spelling t.pos

def noExpression (t : Token) : SyntaxError := .expectedExpression t.spelling t.pos

def message : SyntaxError → String
  | expectedToken expected found pos =>
    "Expected " ++ expected.toText ++ " but found '" ++ found ++ "' at " ++ pos.toText
  | expectedExpression found pos =>
    "Unknown token '" ++ found ++ "' when parsing a primary expression at " ++ pos.toText
  | unknownOperator symbol pos => "Unknown binary operator '" ++ symbol ++ "' at " ++ pos.toText

def pos : SyntaxError → Position
  | expectedToken _ _ pos | expectedExpression _ pos | unknownOperator _ pos => pos

end SyntaxError

inductive ParseError
  | wrong (e : SyntaxError)
  | lexical (e : ScanError)
deriving DecidableEq, Repr

namespace ParseError

def message : ParseError → String
  | wrong e => e.message
  | lexical e => "Lexer error: " ++ e.message

def isFatal : ParseError → Bool
  | wrong _ => false
  | lexical _ => true

def position? : ParseError → Option Position
  | wrong e => some e.pos
  | lexical e => e.position?

end ParseError

def Expr.ofSymbol (symbol : String) (left right : Expr) (pos : Position) :
    Except SyntaxError Expr :=
  match Operator.ofSymbol? symbol with
  | some op => .ok (.binary op left right)
  | none => .error (.unknownOperator symbol pos)

def Token.operator? (t : Token) : Option Operator :=
  match t.kind with
  | .punctuator text => Operator.ofSymbol? text
  | _ => none

end Kaleidoscope
