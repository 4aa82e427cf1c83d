import Kaleidoscope.Tree.Printing

/-!
# Trees written to writers

A tree is written piece by piece, and the first piece that is not taken ends the writing. So a writer that
has failed is left alone.
-/

namespace Kaleidoscope

/-- A writer takes a text, or fails to. In that case it may have taken a part of it. -/
class Writer (ω : Type) where
  write : ω → String → Bool × ω

instance : Writer Sink := ⟨Sink.write⟩

abbrev Writing (ω : Type) : Type → Type := EStateM Unit ω

namespace Writing

variable {ω : Type} [Writer ω]

def emit (text : String) : Writing ω Unit := fun w =>
  match Writer.write w text with
  | (true, w') => .ok () w'
  | (false, w') => .error () w'

def emitAll : List String → Writing ω Unit
  | [] => pure ()
  | text :: texts => do
    emit text
    emitAll texts

def on (job : Writing ω Unit) (w : ω) : Bool × ω :=
  match job w with
  | .ok () w' => (true, w')
  | .error () w' => (false, w')

end Writing

section
variable {ω : Type} [Writer ω]

open Writing (emit emitAll)

namespace Expr

mutual

def dump : Expr → Writing ω Unit
  | number value => emitAll ((Literal.pieces value).map String.ofList)
  | var name => do
    emit "%"
    emit name
  | binary op left right => do
    emit "("
    dump left
    emit ") "
    emit op.symbol
    emit " ("
    dump right
    emit ")"
  | call callee args => do
    emit callee
    emit "("
    dumpArgs args
    emit ")"

def dumpArgs : List Expr → Writing ω Unit
  | [] => pure ()
  | [arg] => dump arg
  | arg :: args => do
    dump arg
    emit ", "
    dumpArgs args

end

end Expr

def Prototype.dump (p : Prototype) : Writing ω Unit := do
  emit p.name
  emit "("
  emit (String.intercalate ", " p.params)
  emit ")\n"

def Function.dump (f : Function) : Writing ω Unit := do
  f.proto.dump
  emit openBody
  f.body.dump
  emit closeBody

end

/-! ## Nodes -/

inductive Node
  | expr (e : Expr)
  | proto (p : Prototype)
  | function (f : Function)

def Item.node : Item → Node
  | function f => .function f
  | external p => .proto p

namespace Node

def dump {ω : Type} [Writer ω] : Node → Writing ω Unit
  | expr e => e.dump
  | proto p => p.dump
  | function f => f.dump

def pieces : Node → List String
  | expr e => e.pieces
  | proto p => p.pieces
  | function f => f.pieces

def toText (n : Node) : String := String.join n.pieces

end Node

end Kaleidoscope
