/-!
# Positions in a source

A position is a line, a column in it and an offset from the start, all counted from zero.
Positions are ordered by line, then column, then offset.
-/

namespace Kaleidoscope

structure Position where
  line : Nat
  column : Nat
  offset : Nat
deriving DecidableEq, Repr

namespace Position

def start : Position := ⟨0, 0, 0⟩

instance : Inhabited Position := ⟨start⟩

def after (p : Position) (c : Char) : Position :=
  if c = '\n' then ⟨p.line + 1, 0, p.offset + 1⟩ else ⟨p.line, p.column + 1, p.offset + 1⟩

def pieces (p : Position) : List String :=
  -- readers count from one
  [toString (p.line + 1), ":", toString (p.column + 1)]

def toText (p : Position) : String := String.join p.pieces

instance : Ord Position where
  compare p q :=
    (compare p.line q.line).then ((compare p.column q.column).then (compare p.offset q.offset))

@[simp] theorem offset_after (p : Position) (c : Char) : (p.after c).offset = p.offset + 1 := by
  unfold after; split <;> rfl

end Position

end Kaleidoscope
