import Kaleidoscope.Literal.Spelling
import Kaleidoscope.Sink
import Kaleidoscope.Tree.Basic

/-!
# The printed form of syntax trees

Operands stand in parentheses and variables behind a percent sign. A tree is printed as a list of
pieces of text. Its printed form is what they join to, and a sink takes them one after another.
-/

namespace Kaleidoscope

namespace Expr

mutual

def piecesBefore (rest : List String) : Expr → List String
  | number value => (Literal.pieces value).map String.ofList ++ rest
  | var name => "%" :: name :: rest
  | binary op left right =>
    "(" :: piecesBefore (") " :: op.symbol :: " (" :: piecesBefore (")" :: rest) right) left
  | call callee args => callee :: "(" :: argPiecesBefore (")" :: rest) args

def argPiecesBefore (rest : List String) : List Expr → List String
  | [] => rest
  | [arg] => piecesBefore rest arg
  | arg :: args => piecesBefore (", " :: argPiecesBefore rest args) arg

end

def pieces (e : Expr) : List String := piecesBefore [] e

def toText (e : Expr) : String := String.join e.pieces

end Expr

namespace Prototype

def pieces (p : Prototype) : List String :=
  [p.name, "(", String.intercalate ", " p.params, ")\n"]

def toText (p : Prototype) : String := String.join p.pieces

end Prototype

namespace Function

def openBody : String := "\x7b\n"

def closeBody : String := "\n\x7d\n"

def pieces (f : Function) : List String :=
  f.proto.pieces ++ openBody :: f.body.piecesBefore [closeBody]

def toText (f : Function) : String := String.join f.pieces

end Function

namespace Item

def pieces : Item → List String
  | function f => f.pieces
  | external p => p.pieces

def toText (i : Item) : String := String.join i.pieces

end Item

end Kaleidoscope
