import Kaleidoscope.Proofs.Source.Delivery

/-!
# Readers that may fail

A read that fails delivers nothing, so a reader that fails now and then still hands out its source in
order: behind a failure it goes on where it stopped. What a fill loses is what had come before the
failure that ended it.
-/

namespace Kaleidoscope

section
variable {ρ : Type} [Reader ρ]

/-- Of a reader with `At r i` the bytes of `source` before offset `i` have come out. It can be
interrupted, it can fail, and it may be unable to go back; none of this moves it. -/
structure Truthful (source : List UInt8) (At : ρ → Nat → Prop) : Prop where
  bytes : ∀ {r r' : ρ} {i n : Nat} {piece : Array UInt8}, At r i → 0 < n →
    Reader.read r n = (.bytes piece, r') → At r' (i + piece.size) ∧
      piece.toList = (source.drop i).take piece.size ∧ (piece.size = 0 → source.length ≤ i)
  interrupted : ∀ {r r' : ρ} {i n : Nat}, At r i → 0 < n →
    Reader.read r n = (.interrupted, r') → At r' i
  failed : ∀ {r r' : ρ} {i n : Nat} {cause : SystemError}, At r i → 0 < n →
    Reader.read r n = (.failed cause, r') → At r' i
  toStart : ∀ {r r' : ρ} {i : Nat}, At r i → Reader.toStart r = (.ok (), r') → At r' 0
  stays : ∀ {r r' : ρ} {i : Nat} {cause : SystemError}, At r i →
    Reader.toStart r = (.error cause, r') → At r' i

namespace Reader

def TellsFrom (source : List UInt8) (i : Nat) (r : ρ) : Prop :=
  ∃ At, Truthful source At ∧ At r i

def Tells (source : List UInt8) (r : ρ) : Prop := TellsFrom source 0 r

def Within (source : List UInt8) (r : ρ) : Prop := ∃ i, TellsFrom source i r

section
variable {source : List UInt8} {i : Nat} {r r' : ρ}

theorem TellsFrom.within (h : TellsFrom source i r) : Within source r := ⟨i, h⟩

theorem TellsFrom.toStart (h : TellsFrom source i r) (sought : Reader.toStart r = (.ok (), r')) :
    Tells source r' := by
  obtain ⟨At, truthful, here⟩ := h
  exact ⟨At, truthful, truthful.toStart here sought⟩

theorem TellsFrom.stays {cause : SystemError} (h : TellsFrom source i r)
    (sought : Reader.toStart r = (.error cause, r')) : TellsFrom source i r' := by
  obtain ⟨At, truthful, here⟩ := h
  exact ⟨At, truthful, truthful.stays here sought⟩

end

/-- Whatever ends a fill, the bytes that came are the next ones of the source. A fill that does not
fail gives as many as there is room for. -/
theorem fill_tells {source : List UInt8} {i : Nat} {r : ρ} (h : TellsFrom source i r) (room : Nat)
    (data : Array UInt8) :
    ∃ n, (fill r room data).data = data ++ ((source.drop i).take n).toArray ∧
      TellsFrom source (i + ((source.drop i).take n).length) (fill r room data).reader ∧
      ((fill r room data).failure = none → (source.drop i).take n = (source.drop i).take room) := by
  fun_induction fill r room data generalizing i with
  | case1 r data => exact ⟨0, by simp, by simpa using h, by simp⟩
  | case2 r room data some piece r' read _ empty =>
    obtain ⟨At, truthful, here⟩ := h
    obtain ⟨next, -, ended⟩ := truthful.bytes here (Nat.pos_of_ne_zero some) read
    have none : source.drop i = [] := List.drop_eq_nil_of_le (ended empty)
    rw [empty] at next
    exact ⟨0, by simp, ⟨At, truthful, by simpa using next⟩, by simp [none]⟩
  | case3 r room data some piece r' read fits _ ih =>
    obtain ⟨At, truthful, here⟩ := h
    obtain ⟨next, bytes, -⟩ := truthful.bytes here (Nat.pos_of_ne_zero some) read
    obtain ⟨n, filled, reader, whole⟩ := ih ⟨At, truthful, next⟩
    have split (m : Nat) : (source.drop i).take (piece.size + m) =
        piece.toList ++ (source.drop (i + piece.size)).take m := by
      rw [bytes, ← List.drop_drop, ← List.take_add]
    refine ⟨piece.size + n, ?_, ?_, ?_⟩
    · rw [filled, split, ← List.append_toArray, Array.toArray_toList, Array.append_assoc]
    · rw [split, List.length_append, Array.length_toList, ← Nat.add_assoc]
      exact reader
    · intro unfailed
      rw [split, whole unfailed, ← split, Nat.add_sub_cancel' fits]
  | case4 r room data some r' read _ ih =>
    obtain ⟨At, truthful, here⟩ := h
    exact ih ⟨At, truthful, truthful.interrupted here (Nat.pos_of_ne_zero some) read⟩
  | case5 r room data some cause r' read =>
    obtain ⟨At, truthful, here⟩ := h
    have next := truthful.failed here (Nat.pos_of_ne_zero some) read
    exact ⟨0, by simp, ⟨At, truthful, by simpa using next⟩, by simp⟩

theorem fill_within {source : List UInt8} {r : ρ} (h : Within source r) (room : Nat)
    (data : Array UInt8) : Within source (fill r room data).reader := by
  obtain ⟨i, here⟩ := h
  obtain ⟨n, -, next, -⟩ := fill_tells here room data
  exact next.within

/-! ### Fills that end with their first read -/

variable {r r' : ρ} {room : Nat} {piece : Array UInt8}

theorem fill_of_failed {cause : SystemError} (asked : room ≠ 0) (read : read r room = (.failed cause, r'))
    (data : Array UInt8) : fill r room data = ⟨data, some cause, r'⟩ := by
  rw [fill, if_neg asked]
  split
  · rename_i eq
    rw [read] at eq
    cases eq
  · rename_i eq
    rw [read] at eq
    cases eq
  · rename_i eq
    rw [read] at eq
    cases eq
    rfl

theorem fill_of_whole (asked : room ≠ 0) (read : read r room = (.bytes piece, r'))
    (whole : piece.size = room) (data : Array UInt8) : fill r room data = ⟨data ++ piece, none, r'⟩ := by
  rw [fill, if_neg asked]
  split
  · rename_i eq
    rw [read] at eq
    cases eq
    rw [if_neg (by omega), whole, Nat.sub_self, fill, if_pos rfl]
  · rename_i eq
    rw [read] at eq
    cases eq
  · rename_i eq
    rw [read] at eq
    cases eq

end Reader

end

/-! ## Readers over bytes in memory -/

theorem ByteReader.fill_eq (content : Array UInt8) (i room : Nat) (data : Array UInt8) :
    Reader.fill (⟨content, i⟩ : ByteReader) room data =
      ⟨data ++ ((content.toList.drop i).take room).toArray, none,
        ⟨content, i + ((content.toList.drop i).take room).length⟩⟩ := by
  generalize start : (⟨content, i⟩ : ByteReader) = r
  fun_induction Reader.fill r room data generalizing i with
  | case1 r data => simp [← start]
  | case2 r room data some piece r' read _ empty =>
    subst start
    cases read
    obtain ⟨-, size, next⟩ := read_eq content i room
    have none : content.toList.drop i = [] := by
      apply List.drop_eq_nil_of_le
      rw [Array.length_toList]
      omega
    rw [next, empty]
    simp [none]
  | case3 r room data some piece r' read fits _ ih =>
    subst start
    cases read
    obtain ⟨bytes, size, next⟩ := read_eq content i room
    have split : (content.toList.drop i).take room = (ByteReader.read ⟨content, i⟩ room).1.toList ++
        (content.toList.drop (i + (ByteReader.read ⟨content, i⟩ room).1.size)).take
          (room - (ByteReader.read ⟨content, i⟩ room).1.size) := by
      rw [bytes, ← List.drop_drop, ← List.take_add, Nat.add_sub_cancel' fits]
    rw [ih _ next.symm, split]
    generalize (ByteReader.read ⟨content, i⟩ room).1 = piece
    rw [← List.append_toArray, Array.toArray_toList]
    simp [Nat.add_assoc]
  | case4 r room data some r' read => cases read
  | case5 r room data some cause r' read => cases read

namespace FaultyReader

/-- The faults that are injected move nothing. A reader that gives no byte at a time would look like
the end of its source. -/
theorem tells (content : Array UInt8) (faults : Faults) (failures : Option Nat)
    (moves : faults.longest ≠ some 0) :
    Reader.Tells content.toList (ofBytes content faults failures) := by
  refine ⟨fun r i => r.source = ⟨content, i⟩ ∧ r.faults = faults, ⟨?_, ?_, ?_, ?_, ?_⟩, rfl, rfl⟩
  · rintro r r' i n piece ⟨here, rfl⟩ pos read
    simp only [Reader.read, FaultyReader.read] at read
    split at read
    · cases read
    split at read
    · cases read
    rename_i unbarred
    cases read
    rw [here]
    obtain ⟨bytes, size, next⟩ := ByteReader.read_eq content i (r.allowed n)
    refine ⟨⟨next, rfl⟩, bytes, fun empty => ?_⟩
    -- a piece is empty only at the end of the content, since neither fault leaves nothing of it
    have some : 0 < r.allowed n := by
      unfold allowed
      have most : 0 < r.faults.longest.getD n := by
        cases longest : r.faults.longest with
        | none => exact pos
        | some k => exact Nat.pos_of_ne_zero fun zero => moves (longest.trans (congrArg some zero))
      have room : 0 < (r.barrier?.map (· - r.source.offset)).getD n := by
        cases barrier : r.barrier? with
        | none => exact pos
        | some stop => exact Nat.sub_pos_of_lt (Nat.lt_of_not_le fun le => unbarred ⟨stop, barrier, le⟩)
      omega
    rw [Array.length_toList]
    omega
  · rintro r r' i n ⟨here, rfl⟩ pos read
    simp only [Reader.read, FaultyReader.read] at read
    split at read
    · cases read
      exact ⟨here, rfl⟩
    · split at read <;> cases read
  · rintro r r' i n cause ⟨here, rfl⟩ pos read
    simp only [Reader.read, FaultyReader.read] at read
    split at read
    · cases read
    split at read
    · cases read
      exact ⟨here, rfl⟩
    · cases read
  · rintro r r' i ⟨here, rfl⟩ sought
    simp only [Reader.toStart] at sought
    split at sought
    · cases sought
    · cases sought
      exact ⟨by rw [here], rfl⟩
  · rintro r r' i cause ⟨here, rfl⟩ sought
    simp only [Reader.toStart] at sought
    split at sought
    · cases sought
      exact ⟨here, rfl⟩
    · cases sought

/-- The reader has come to offset `i` and fails `failures` times more when it comes to offset `stop`. -/
def stumbling (content : Array UInt8) (i stop calls failures : Nat) : FaultyReader :=
  ⟨⟨content, i⟩, ⟨none, 0, some stop, false⟩, calls, some failures⟩

variable {content : Array UInt8} {i stop calls failures room : Nat}

theorem stumbling_tells (content : Array UInt8) (stop failures : Nat) :
    Reader.Tells content.toList (stumbling content 0 stop 0 failures) :=
  tells content ⟨none, 0, some stop, false⟩ (some failures) nofun

theorem read_stumbling_at (there : stop ≤ i) :
    read (stumbling content i stop calls (failures + 1)) room =
      (.failed readFailure, stumbling content i stop (calls + 1) failures) := by
  have atBarrier : AtBarrier (stumbling content i stop calls (failures + 1)) := ⟨stop, rfl, there⟩
  unfold read
  rw [if_neg (by rintro ⟨many, -⟩; cases many), if_pos atBarrier]
  rfl

theorem read_stumbling_before (before : i + room ≤ stop) (within : i + room ≤ content.size)
    (asked : 0 < room) :
    read (stumbling content i stop calls (failures + 1)) room =
      (.bytes (content.extract i (i + room)), stumbling content (i + room) stop (calls + 1) (failures + 1)) := by
  have notYet : ¬ AtBarrier (stumbling content i stop calls (failures + 1)) := by
    rintro ⟨_, here, le⟩
    cases here
    have : stop ≤ i := le
    omega
  have allowed : (stumbling content i stop calls (failures + 1)).allowed room = room := by
    show min (min room room) (stop - i) = room
    omega
  unfold read
  rw [if_neg (by rintro ⟨many, -⟩; cases many), if_neg notYet, allowed]
  simp only [stumbling, ByteReader.read, Array.size_extract]
  rw [show min (i + room) content.size - i = room by omega]

theorem stumbling_spent (content : Array UInt8) (i stop calls : Nat) :
    Reader.DeliversFrom content.toList i (stumbling content i stop calls 0) := by
  refine ⟨fun r i => ∃ calls, r = stumbling content i stop calls 0, ⟨?_, ?_⟩, calls, rfl⟩
  · rintro r i n ⟨calls, rfl⟩ pos
    have notBarred : ¬ AtBarrier (stumbling content i stop calls 0) := by
      rintro ⟨_, here, -⟩
      cases here
    have allowed : (stumbling content i stop calls 0).allowed n = n := by
      show min (min n n) n = n
      rw [Nat.min_self, Nat.min_self]
    obtain ⟨bytes, size, next⟩ := ByteReader.read_eq content i n
    refine .inr ⟨(ByteReader.read ⟨content, i⟩ n).1,
      stumbling content (i + (ByteReader.read ⟨content, i⟩ n).1.size) stop (calls + 1) 0, ?_,
      ⟨_, rfl⟩, bytes, fun empty => ?_⟩
    · show read (stumbling content i stop calls 0) n = _
      unfold read
      rw [if_neg (by rintro ⟨many, -⟩; cases many), if_neg notBarred, allowed]
      rfl
    · rw [Array.length_toList]
      omega
  · rintro r i ⟨calls, rfl⟩
    exact ⟨stumbling content 0 stop calls 0, rfl, calls, rfl⟩

theorem fill_stumbling_at (there : stop ≤ i) (asked : room ≠ 0) (data : Array UInt8) :
    Reader.fill (stumbling content i stop calls (failures + 1)) room data =
      ⟨data, some readFailure, stumbling content i stop (calls + 1) failures⟩ :=
  Reader.fill_of_failed asked (read_stumbling_at there) data

theorem fill_stumbling_before (before : i + room ≤ stop) (within : i + room ≤ content.size)
    (asked : room ≠ 0) (data : Array UInt8) :
    Reader.fill (stumbling content i stop calls (failures + 1)) room data =
      ⟨data ++ content.extract i (i + room), none,
        stumbling content (i + room) stop (calls + 1) (failures + 1)⟩ := by
  refine Reader.fill_of_whole asked (read_stumbling_before before within (Nat.pos_of_ne_zero asked)) ?_ data
  rw [Array.size_extract]
  omega

end FaultyReader

end Kaleidoscope
