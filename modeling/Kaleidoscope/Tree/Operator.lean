/-!
# Binary operators
-/

namespace Kaleidoscope

inductive Operator
  | less
  | add
  | subtract
  | multiply
  | divide
deriving DecidableEq, Repr

namespace Operator

def all : List Operator := [less, add, subtract, multiply, divide]

def symbol : Operator → String
  | less => "<"
  | add => "+"
  | subtract => "-"
  | multiply => "*"
  | divide => "/"

def precedence : Operator → Nat
  | less => 10
  | add | subtract => 20
  | multiply | divide => 40

def ofSymbol? (text : String) : Option Operator :=
  all.find? (·.symbol == text)

theorem ofSymbol?_symbol (op : Operator) : ofSymbol? op.symbol = some op := by
  cases op <;> decide

theorem symbol_of_ofSymbol? {text : String} {op : Operator} (h : ofSymbol? text = some op) :
    op.symbol = text := by
  have := List.find?_some h
  simpa using this

end Operator

end Kaleidoscope
