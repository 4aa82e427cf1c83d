import Kaleidoscope.SystemError

/-!
# Readers

A reader delivers the bytes of a source piece by piece, and can go back to the start. A read may
deliver less than it was asked for, be interrupted or fail. Filling a buffer goes on until the
buffer is full, the source ends or a read fails.
-/

namespace Kaleidoscope

/-- What one read gives. No bytes mean the end of the source. -/
inductive Delivery
  | bytes (data : Array UInt8)
  | interrupted
  | failed (cause : SystemError)

/-- A reader never delivers more than it is asked for, has only so many bytes left before it goes
back to the start, and is interrupted only so many times in a row. -/
class Reader (ρ : Type) where
  read : ρ → Nat → Delivery × ρ
  toStart : ρ → Except SystemError Unit × ρ
  remaining : ρ → Nat
  patience : ρ → Nat
  read_bytes : ∀ {r r' : ρ} {n : Nat} {data : Array UInt8}, read r n = (.bytes data, r') →
    data.size ≤ n ∧ data.size + remaining r' ≤ remaining r
  read_interrupted : ∀ {r r' : ρ} {n : Nat}, read r n = (.interrupted, r') →
    remaining r' ≤ remaining r ∧ patience r' < patience r
  read_failed : ∀ {r r' : ρ} {n : Nat} {cause : SystemError}, read r n = (.failed cause, r') →
    remaining r' ≤ remaining r

structure Filled (ρ : Type) where
  data : Array UInt8
  failure : Option SystemError
  reader : ρ

namespace Reader

variable {ρ : Type} [Reader ρ]

def fill (r : ρ) (room : Nat) (data : Array UInt8) : Filled ρ :=
  if room = 0 then ⟨data, none, r⟩
  else
    match h : read r room with
    | (.bytes piece, r') =>
      have _fits := (read_bytes h).1
      if piece.size = 0 then ⟨data, none, r'⟩ else fill r' (room - piece.size) (data ++ piece)
    -- what is interrupted is tried again
    | (.interrupted, r') =>
      have _spent := (read_interrupted h).2
      fill r' room data
    | (.failed cause, r') => ⟨data, some cause, r'⟩
termination_by (room, patience r)

/-- Every byte that came was asked for, and had been left in the reader. -/
theorem fill_size (r : ρ) (room : Nat) (data : Array UInt8) :
    (fill r room data).data.size ≤ data.size + room ∧
      (fill r room data).data.size + remaining (fill r room data).reader ≤
        data.size + remaining r := by
  fun_induction fill r room data with
  | case1 => exact ⟨by simp, by simp⟩
  | case2 r room data _ piece r' h _ _ =>
    have := read_bytes h
    exact ⟨by simp, by dsimp only; omega⟩
  | case3 r room data _ piece r' h _ _ ih =>
    have := read_bytes h
    simp only [Array.size_append] at ih
    exact ⟨by omega, by omega⟩
  | case4 r room data _ r' h _ ih =>
    have := read_interrupted h
    exact ⟨by omega, by omega⟩
  | case5 r room data _ cause r' h =>
    have := read_failed h
    exact ⟨by simp, by dsimp only; omega⟩

end Reader

structure ByteReader where
  content : Array UInt8
  offset : Nat

namespace ByteReader

def ofBytes (content : Array UInt8) : ByteReader := ⟨content, 0⟩

def read (r : ByteReader) (n : Nat) : Array UInt8 × ByteReader :=
  let piece := r.content.extract r.offset (r.offset + n)
  (piece, { r with offset := r.offset + piece.size })

instance : Reader ByteReader where
  read r n := ((.bytes (r.read n).1), (r.read n).2)
  toStart r := (.ok (), { r with offset := 0 })
  remaining r := r.content.size - r.offset
  patience _ := 0
  read_bytes h := by
    cases h
    simp only [ByteReader.read, Array.size_extract]
    omega
  read_interrupted h := by cases h
  read_failed h := by cases h

end ByteReader

end Kaleidoscope
