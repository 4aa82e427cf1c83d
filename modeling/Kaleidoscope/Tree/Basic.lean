import Kaleidoscope.Tree.Operator

/-!
# Syntax trees

A program is a list of items: definitions, declarations of external functions and expressions.
-/

namespace Kaleidoscope

inductive Expr
  | number (value : Float)
  | var (name : String)
  | binary (op : Operator) (left right : Expr)
  | call (callee : String) (args : List Expr)

instance : Inhabited Expr := ⟨.number 0⟩

structure Prototype where
  name : String
  params : List String
deriving DecidableEq, Repr

def Prototype.anonymous : Prototype := ⟨"", []⟩

def Prototype.isAnonymous (p : Prototype) : Bool := p.name.isEmpty

structure Function where
  proto : Prototype
  body : Expr

inductive Item
  | function (f : Function)
  | external (proto : Prototype)

namespace Expr

mutual

/-- Expressions are equal if they have the same shape and names and their numbers compare equal: zero
equals negative zero, and what is not a number differs from itself. -/
def beq : Expr → Expr → Bool
  | number v, number w => v == w
  | var n, var m => n == m
  | binary op l r, binary op' l' r' => op == op' && beq l l' && beq r r'
  | call f args, call f' args' => f == f' && beqArgs args args'
  | _, _ => false

def beqArgs : List Expr → List Expr → Bool
  | [], [] => true
  | e :: es, e' :: es' => beq e e' && beqArgs es es'
  | _, _ => false

end

instance : BEq Expr := ⟨beq⟩

end Expr

instance : BEq Function where
  beq f g := f.proto == g.proto && f.body == g.body

def Item.beq : Item → Item → Bool
  | function f, function g => f == g
  | external p, external q => p == q
  | _, _ => false

instance : BEq Item := ⟨Item.beq⟩

end Kaleidoscope
