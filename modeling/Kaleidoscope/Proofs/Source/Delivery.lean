import Kaleidoscope.File.Handle
import Kaleidoscope.Source.Faulty

/-!
# Readers that deliver a source

A reader that never fails hands out the bytes of its source in order, in pieces of any size and with
interruptions between them. Filling a buffer from it gives the next bytes of the source, as many as
there is room for.
-/

namespace Kaleidoscope

section
variable {ρ : Type} [Reader ρ]

/-- Of a reader with `At r i` the bytes of `source` before offset `i` have come out. It can be
interrupted, but it does not fail. -/
structure Faultless (source : List UInt8) (At : ρ → Nat → Prop) : Prop where
  read : ∀ {r : ρ} {i n : Nat}, At r i → 0 < n →
    (∃ r', Reader.read r n = (.interrupted, r') ∧ At r' i) ∨
    ∃ piece r', Reader.read r n = (.bytes piece, r') ∧ At r' (i + piece.size) ∧
      piece.toList = (source.drop i).take piece.size ∧ (piece.size = 0 → source.length ≤ i)
  toStart : ∀ {r : ρ} {i : Nat}, At r i → ∃ r', Reader.toStart r = (.ok (), r') ∧ At r' 0

namespace Reader

def DeliversFrom (source : List UInt8) (i : Nat) (r : ρ) : Prop :=
  ∃ At, Faultless source At ∧ At r i

def Delivers (source : List UInt8) (r : ρ) : Prop := DeliversFrom source 0 r

section
variable {source : List UInt8} {i : Nat} {r : ρ}

theorem DeliversFrom.toStart (h : DeliversFrom source i r) :
    ∃ r', Reader.toStart r = (.ok (), r') ∧ Delivers source r' := by
  obtain ⟨At, faultless, here⟩ := h
  obtain ⟨r', eq, start⟩ := faultless.toStart here
  exact ⟨r', eq, At, faultless, start⟩

theorem DeliversFrom.interrupted {r' : ρ} {n : Nat} (h : DeliversFrom source i r) (pos : 0 < n)
    (eq : Reader.read r n = (.interrupted, r')) : DeliversFrom source i r' := by
  obtain ⟨At, faultless, here⟩ := h
  rcases faultless.read here pos with ⟨r₁, eq₁, next⟩ | ⟨_, _, eq₁, _⟩
  · rw [eq₁] at eq; cases eq
    exact ⟨At, faultless, next⟩
  · rw [eq₁] at eq; cases eq

theorem DeliversFrom.bytes {r' : ρ} {n : Nat} {piece : Array UInt8} (h : DeliversFrom source i r)
    (pos : 0 < n) (eq : Reader.read r n = (.bytes piece, r')) :
    DeliversFrom source (i + piece.size) r' ∧
      piece.toList = (source.drop i).take piece.size ∧ (piece.size = 0 → source.length ≤ i) := by
  obtain ⟨At, faultless, here⟩ := h
  rcases faultless.read here pos with ⟨_, eq₁, _⟩ | ⟨_, _, eq₁, next, bytes, ended⟩
  · rw [eq₁] at eq; cases eq
  · rw [eq₁] at eq; cases eq
    exact ⟨⟨At, faultless, next⟩, bytes, ended⟩

theorem DeliversFrom.not_failed {r' : ρ} {n : Nat} {cause : SystemError}
    (h : DeliversFrom source i r) (pos : 0 < n) : Reader.read r n ≠ (.failed cause, r') := by
  obtain ⟨At, faultless, here⟩ := h
  intro eq
  rcases faultless.read here pos with ⟨_, eq₁, _⟩ | ⟨_, _, eq₁, _⟩ <;> (rw [eq₁] at eq; cases eq)

end

/-- However the source is cut into pieces, what fits comes in order. -/
theorem fill_delivers {source : List UInt8} {i : Nat} {r : ρ} (h : DeliversFrom source i r)
    (room : Nat) (data : Array UInt8) :
    (fill r room data).failure = none ∧
      (fill r room data).data = data ++ ((source.drop i).take room).toArray ∧
      DeliversFrom source (i + ((source.drop i).take room).length) (fill r room data).reader := by
  fun_induction fill r room data generalizing i with
  | case1 => simpa using h
  | case2 r room data some piece r' read _ empty =>
    obtain ⟨next, _, ended⟩ := h.bytes (Nat.pos_of_ne_zero some) read
    have none : source.drop i = [] := List.drop_eq_nil_of_le (ended empty)
    rw [empty] at next
    simpa [none] using next
  | case3 r room data some piece r' read fits _ ih =>
    obtain ⟨next, bytes, _⟩ := h.bytes (Nat.pos_of_ne_zero some) read
    obtain ⟨failure, filled, reader⟩ := ih next
    have split : (source.drop i).take room =
        piece.toList ++ ((source.drop (i + piece.size)).take (room - piece.size)) := by
      rw [bytes, ← List.drop_drop, ← List.take_add, Nat.add_sub_cancel' fits]
    refine ⟨failure, ?_, ?_⟩
    · rw [filled, split, ← List.append_toArray, Array.toArray_toList, Array.append_assoc]
    · rw [split, List.length_append, Array.length_toList, ← Nat.add_assoc]
      exact reader
  | case4 r room data some r' read _ ih =>
    exact ih (h.interrupted (Nat.pos_of_ne_zero some) read)
  | case5 r room data some cause r' read =>
    exact absurd read (h.not_failed (Nat.pos_of_ne_zero some))

end Reader

end

/-! ## Readers over bytes in memory -/

namespace ByteReader

theorem read_eq (content : Array UInt8) (i n : Nat) :
    (read ⟨content, i⟩ n).1.toList = (content.toList.drop i).take (read ⟨content, i⟩ n).1.size ∧
      (read ⟨content, i⟩ n).1.size = min n (content.size - i) ∧
      (read ⟨content, i⟩ n).2 = ⟨content, i + (read ⟨content, i⟩ n).1.size⟩ := by
  have size : (read ⟨content, i⟩ n).1.size = min n (content.size - i) := by
    simp only [read, Array.size_extract]
    omega
  refine ⟨?_, size, rfl⟩
  rw [size]
  simp [read, List.extract_eq_take_drop, List.take_eq_take_iff]

theorem faultless (content : Array UInt8) :
    Faultless content.toList fun r i => r = (⟨content, i⟩ : ByteReader) := by
  refine ⟨?_, ?_⟩
  · rintro r i n rfl pos
    obtain ⟨bytes, size, next⟩ := read_eq content i n
    refine .inr ⟨_, _, rfl, next, bytes, fun empty => ?_⟩
    rw [size] at empty
    rw [Array.length_toList]
    omega
  · rintro r i rfl
    exact ⟨_, rfl, rfl⟩

theorem delivers (content : Array UInt8) : Reader.Delivers content.toList (ofBytes content) :=
  ⟨_, faultless content, rfl⟩

end ByteReader

namespace FaultyReader

theorem not_atBarrier {r : FaultyReader} (reads : r.faults.failAt = none) : ¬ r.AtBarrier := by
  rintro ⟨stop, mem, _⟩
  simp [barrier?, reads] at mem

theorem allowed_pos {r : FaultyReader} (reads : r.faults.failAt = none)
    (moves : r.faults.longest ≠ some 0) {n : Nat} (pos : 0 < n) : 0 < r.allowed n := by
  have unbarred : r.barrier? = none := by simp [barrier?, reads]
  unfold allowed
  rw [unbarred]
  cases longest : r.faults.longest with
  | none => simpa using pos
  | some most =>
    have : most ≠ 0 := fun zero => moves (by rw [longest, zero])
    simp only [Option.getD_some, Option.map_none, Option.getD_none]
    omega

theorem delivers (content : Array UInt8) (faults : Faults) (failures : Option Nat)
    (reads : faults.failAt = none) (seeks : faults.seekFails = false)
    (moves : faults.longest ≠ some 0) :
    Reader.Delivers content.toList (ofBytes content faults failures) := by
  refine ⟨fun r i => r.source = ⟨content, i⟩ ∧ r.faults = faults, ⟨?_, ?_⟩, rfl, rfl⟩
  · rintro r i n ⟨here, rfl⟩ pos
    by_cases interrupts : Interrupts r.faults (r.calls + 1)
    · have now : Reader.read r n = (.interrupted, { r with calls := r.calls + 1 }) := by
        simp [Reader.read, read, interrupts]
      exact .inl ⟨_, now, here, rfl⟩
    · have now : Reader.read r n = (.bytes (r.source.read (r.allowed n)).1,
          { r with calls := r.calls + 1, source := (r.source.read (r.allowed n)).2 }) := by
        simp [Reader.read, read, interrupts, not_atBarrier reads]
      have some := allowed_pos reads moves pos
      obtain ⟨bytes, size, next⟩ := ByteReader.read_eq content i (r.allowed n)
      rw [here] at now
      refine .inr ⟨_, _, now, ⟨next, rfl⟩, bytes, ?_⟩
      rw [size, Array.length_toList]
      omega
  · rintro r i ⟨here, rfl⟩
    have now : Reader.toStart r = (.ok (), { r with source := { r.source with offset := 0 } }) := by
      simp [Reader.toStart, seeks]
    rw [here] at now
    exact ⟨_, now, rfl, rfl⟩

end FaultyReader

/-! ## Files -/

namespace FileHandle

theorem delivers (content : Array UInt8) : Reader.Delivers content.toList (file (.ofBytes content)) := by
  refine ⟨fun h i => h = file ⟨content, i⟩, ⟨?_, ?_⟩, rfl⟩
  · rintro h i n rfl pos
    obtain ⟨bytes, size, next⟩ := ByteReader.read_eq content i n
    refine .inr ⟨_, _, rfl, congrArg file next, bytes, ?_⟩
    intro empty
    rw [size] at empty
    rw [Array.length_toList]
    omega
  · rintro h i rfl
    exact ⟨_, rfl, rfl⟩

theorem fill_directory {room : Nat} (pos : room ≠ 0) (data : Array UInt8) :
    (Reader.fill directory room data).failure = some .isADirectory := by
  rw [Reader.fill, if_neg pos]
  rfl

theorem delivers_of_openFile {tree : FileTree} {path : String} {handle : FileHandle}
    (opened : tree.openFile path = .ok handle) (readable : handle ≠ .directory) :
    ∃ source, Reader.Delivers source handle := by
  unfold FileTree.openFile at opened
  cases found : tree.lookup path with
  | error e =>
    rw [found] at opened
    cases opened
  | ok entry =>
    rw [found] at opened
    cases entry with
    | directory =>
      cases opened
      exact absurd rfl readable
    | file content =>
      cases opened
      exact ⟨_, delivers content.data⟩

end FileHandle

end Kaleidoscope
