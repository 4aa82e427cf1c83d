import Kaleidoscope.Source.Reader

/-!
# Chunks

A source is read in chunks of one size. A chunk that comes out shorter is the last one. Chunks are
stamped in turn with 0, 1 and 2, so that a chunk can be told to follow another one.
-/

namespace Kaleidoscope

def chunkSize : Nat := 4096

def latin1 (byte : UInt8) : Char := Char.ofNat byte.toNat

/-- What is read where a source has no character. A source may hold this character as well. -/
def endMark : Char := '\x00'

/-- One chunk. `data` may hold more than `length` bytes: those behind are left over from before.
Where it holds nothing, the bytes are zero. -/
structure Chunk where
  data : Array UInt8
  length : Nat
  last : Bool
  stamp : Fin 3

namespace Chunk

def blank : Chunk := ⟨#[], 0, false, 0⟩

def byte (c : Chunk) (i : Nat) : UInt8 := c.data.getD i 0

def peek (c : Chunk) (i : Nat) : Char :=
  if i < c.length then latin1 (c.byte i) else endMark

def EndsAt (c : Chunk) (i : Nat) : Prop :=
  c.last ∧ c.length ≤ i

instance (c : Chunk) (i : Nat) : Decidable (c.EndsAt i) :=
  inferInstanceAs (Decidable (_ ∧ _))

def slice (c : Chunk) (i j : Nat) : List Char :=
  (List.range' i (j - i)).map fun k => latin1 (c.byte k)

/-- The chunk does not count as loaded any more; its bytes stay. -/
def drop (c : Chunk) : Chunk := { c with length := 0, last := false, stamp := 0 }

def nextStamp (c : Chunk) : Fin 3 := c.stamp + 1

def Follows (c before : Chunk) : Prop :=
  c.stamp = before.nextStamp

instance (c before : Chunk) : Decidable (c.Follows before) :=
  inferInstanceAs (Decidable (_ = _))

/-- How many characters a cursor passes in the chunk before it comes to the next one or to the end
of the source. -/
def span (c : Chunk) : Nat :=
  if c.last then c.length else chunkSize

def load {ρ : Type} [Reader ρ] (c : Chunk) (stamp : Fin 3) (reader : ρ) :
    Except SystemError Unit × Chunk × ρ :=
  let filled := Reader.fill reader chunkSize #[]
  let size := filled.data.size
  let data := filled.data ++ c.data.extract size
  match filled.failure with
  -- the bytes that came are there, but the length and the stamp are those of before
  | some cause => (.error cause, { c with data := data }, filled.reader)
  | none => (.ok (), ⟨data, size, decide (size < chunkSize), stamp⟩, filled.reader)

theorem not_follows_of_follows {c d : Chunk} (h : c.Follows d) : ¬ d.Follows c := by
  unfold Follows nextStamp at *
  rw [h]
  generalize d.stamp = s
  revert s
  decide

theorem lt_span {c : Chunk} {i : Nat} (h : ¬ c.EndsAt i) (lt : i < chunkSize) : i < c.span := by
  unfold EndsAt at h
  unfold span
  split <;> simp_all

theorem span_load {ρ : Type} [Reader ρ] {c c' : Chunk} {stamp : Fin 3} {r r' : ρ}
    (h : c.load stamp r = (.ok (), c', r')) :
    c'.stamp = stamp ∧ c'.span + Reader.remaining r' ≤ Reader.remaining r := by
  have size := Reader.fill_size r chunkSize #[]
  simp only [load] at h
  split at h
  · cases h
  · cases h
    refine ⟨rfl, ?_⟩
    simp only [span, decide_eq_true_eq, Array.size_empty] at size ⊢
    split <;> omega

end Chunk

end Kaleidoscope
