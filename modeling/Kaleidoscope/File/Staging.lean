/-!
# Staged files

A file is written through a staging area. Pieces of text gather there, and a piece that finds too
little room lets them go to the file first. So the file falls behind what has been written, and
whoever reads it meanwhile finds only what went there.
-/

namespace Kaleidoscope

structure StagedFile where
  stored : Array UInt8
  staged : Array UInt8

namespace StagedFile

def stagingSize : Nat := 8192

def empty : StagedFile := ⟨#[], #[]⟩

def bytes (f : StagedFile) : Array UInt8 := f.stored ++ f.staged

def size (f : StagedFile) : Nat := f.stored.size + f.staged.size

def flush (f : StagedFile) : StagedFile := ⟨f.bytes, #[]⟩

def write (f : StagedFile) (piece : String) : StagedFile :=
  let added := piece.toUTF8.data
  let f' := if stagingSize < f.staged.size + added.size then f.flush else f
  -- a piece is never split: one that the staging area cannot hold goes to the file directly
  if added.size < stagingSize then { f' with staged := f'.staged ++ added }
  else ⟨f'.bytes ++ added, #[]⟩

def writeAll (f : StagedFile) (pieces : List String) : StagedFile :=
  pieces.foldl write f

@[simp] theorem bytes_flush (f : StagedFile) : f.flush.bytes = f.bytes := by
  simp [flush, bytes]

/-- Staging loses nothing and adds nothing. -/
@[simp] theorem bytes_write (f : StagedFile) (piece : String) :
    (f.write piece).bytes = f.bytes ++ piece.toUTF8.data := by
  have kept : ∀ c : Prop, ∀ _ : Decidable c, (if c then f.flush else f).bytes = f.bytes := by
    intro c _
    split
    · exact bytes_flush f
    · rfl
  unfold write
  dsimp only
  split
  · rw [← kept (stagingSize < f.staged.size + piece.toUTF8.data.size) inferInstance]
    simp only [bytes, Array.append_assoc]
  · rw [kept]
    simp only [bytes, Array.append_empty]

theorem size_bytes (f : StagedFile) : f.bytes.size = f.size :=
  Array.size_append

theorem size_write (f : StagedFile) (piece : String) :
    (f.write piece).size = f.size + piece.utf8ByteSize := by
  rw [← size_bytes, bytes_write, Array.size_append, size_bytes]
  rfl

theorem size_writeAll (f : StagedFile) (pieces : List String) :
    (f.writeAll pieces).size = f.size + (String.join pieces).utf8ByteSize := by
  induction pieces generalizing f with
  | nil => rfl
  | cons piece pieces ih =>
    rw [String.join_cons, String.utf8ByteSize_append, ← Nat.add_assoc, ← size_write]
    exact ih (f.write piece)

end StagedFile

end Kaleidoscope
