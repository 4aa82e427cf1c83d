import Kaleidoscope.SystemError

/-!
# Sinks

A sink takes text as UTF-8 bytes. One with little room keeps what fits and refuses the rest.
-/

namespace Kaleidoscope

structure Sink where
  written : ByteArray
  room : Option Nat

namespace Sink

def unlimited : Sink := ⟨.empty, none⟩

def limited (room : Nat) : Sink := ⟨.empty, some room⟩

def full : SystemError := .other "closed"

/-- Writes `text` as far as it fits, and tells whether it did. -/
def write (s : Sink) (text : String) : Bool × Sink :=
  let bytes := text.toUTF8
  match s.room with
  | none => (true, { s with written := s.written ++ bytes })
  | some room =>
    if bytes.size ≤ room then (true, ⟨s.written ++ bytes, some (room - bytes.size)⟩)
    else (false, ⟨s.written ++ bytes.extract 0 room, some 0⟩)

def writeAll (s : Sink) : List String → Bool × Sink
  | [] => (true, s)
  | piece :: pieces =>
    match s.write piece with
    | (true, s') => writeAll s' pieces
    | (false, s') => (false, s')

end Sink

end Kaleidoscope
