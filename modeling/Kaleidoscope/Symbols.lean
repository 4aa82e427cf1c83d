import Std.Data.HashMap
import Kaleidoscope.Keyword
import Kaleidoscope.Record

/-!
# The symbol table

Every spelling has one entry: a reserved word stands for itself, and any other spelling becomes a
name when it is first looked up. A name carries a serial number, and a number is never given out
twice, so two names with one number come from one entry.
-/

namespace Kaleidoscope

structure Name where
  spelling : String
  serial : Nat
deriving DecidableEq, Repr

inductive Word
  | name (name : Name)
  | keyword (keyword : Keyword)
deriving DecidableEq, Repr

structure SymbolTable where
  words : Std.HashMap String Word
  nextSerial : Nat

namespace SymbolTable

/-- Only the reserved words, with the numbers from `serial` on still to give out. -/
def seeded (serial : Nat) : SymbolTable where
  words := Keyword.all.foldl (fun words k => words.insert k.spelling (.keyword k)) ∅
  nextSerial := serial

def empty : SymbolTable := seeded 0

instance : Inhabited SymbolTable := ⟨empty⟩

def intern (t : SymbolTable) (spelling : String) : Word × SymbolTable :=
  match t.words[spelling]? with
  | some word => (word, t)
  | none =>
    let word := Word.name ⟨spelling, t.nextSerial⟩
    (word, ⟨t.words.insert spelling word, t.nextSerial + 1⟩)

def duplicate (k : Keyword) : Record :=
  ⟨.warn, "duplicated reserved word \"" ++ k.spelling ++ "\""⟩

def reserve (t : SymbolTable) (k : Keyword) : SymbolTable × List Record :=
  (⟨t.words.insert k.spelling (.keyword k), t.nextSerial⟩,
    if t.words.contains k.spelling then [duplicate k] else [])

def bare (serial : Nat) : SymbolTable := ⟨∅, serial⟩

def reserveAll (t : SymbolTable) : SymbolTable × List Record :=
  Keyword.all.foldl (fun done k => ((done.1.reserve k).1, done.2 ++ (done.1.reserve k).2)) (t, [])

def clear (t : SymbolTable) : SymbolTable := seeded t.nextSerial

def contains (t : SymbolTable) (spelling : String) : Bool :=
  t.words.contains spelling

/-- The number of entries, reserved words included. -/
def size (t : SymbolTable) : Nat := t.words.size

def isEmpty (t : SymbolTable) : Bool := t.words.isEmpty

end SymbolTable

end Kaleidoscope
