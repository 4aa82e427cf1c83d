import Kaleidoscope.Proofs.Source.Sessions

/-!
# Sources that come in pieces

A chunk takes from its reader what the source has next, however many reads that needs. So buffers whose
readers cut one source in different ways cannot be told apart.
-/

namespace Kaleidoscope

section
variable {ρ ρ' : Type} [Reader ρ] [Reader ρ'] {source : List UInt8}

namespace Reader

/-- Both readers deliver one source, each in its own pieces. -/
def Concur (r : ρ) (r' : ρ') : Prop := ∃ source, Delivers source r ∧ Delivers source r'

theorem fill_chunk {i : Nat} {r : ρ} (h : DeliversFrom source i r) :
    (fill r chunkSize #[]).failure = none ∧
      (fill r chunkSize #[]).data.toList = (source.drop i).take chunkSize ∧
      DeliversFrom source (i + min chunkSize (source.length - i)) (fill r chunkSize #[]).reader := by
  obtain ⟨failure, data, next⟩ := fill_delivers h chunkSize #[]
  rw [List.length_take, List.length_drop] at next
  refine ⟨failure, ?_, next⟩
  rw [data, Array.toList_append]
  rfl

end Reader

/-! ## Windows and splits -/

namespace Window

def ofSplit (before lexeme after : List Char) : Window where
  text := before ++ lexeme ++ after
  start := before.length
  cursor := (before ++ lexeme).length
  start_le := by simp
  cursor_le := by simp

theorem split_text (w : Window) : w.text = w.text.take w.start ++ w.lexeme ++ w.text.drop w.cursor := by
  have cursor : w.cursor = w.start + (w.cursor - w.start) := (Nat.add_sub_cancel' w.start_le).symm
  rw [lexeme, ← List.take_add, ← cursor, List.take_append_drop]

end Window

namespace Buffer

variable {b : Buffer ρ} {b' : Buffer ρ'} {w : Window} {before lexeme after : List Char}

theorem Splits.shows (h : b.Splits source before lexeme after) :
    b.Shows source (.ofSplit before lexeme after) := by
  obtain ⟨text, k, holds, start, extent⟩ := h
  exact ⟨text.symm, k, holds, start, (Splits.cursor_eq start extent).symm⟩

theorem Shows.splits (h : b.Shows source w) :
    b.Splits source (w.text.take w.start) w.lexeme (w.text.drop w.cursor) := by
  obtain ⟨text, k, holds, start, cursor⟩ := h
  have inside := w.cursor_le
  have le := w.start_le
  refine ⟨by rw [← w.split_text, text], k, holds, ?_, ?_⟩
  · rw [List.length_take_of_le (Nat.le_trans le inside), start]
  · rw [Window.lexeme, List.length_take_of_le, start, cursor, Buffer.cursor]
    · omega
    · rw [List.length_drop]
      omega

/-! ## Buffers at one place -/

def Level (b : Buffer ρ) (b' : Buffer ρ') : Prop := ∃ source w, b.Shows source w ∧ b'.Shows source w

theorem Level.view (h : b.Level b') : b.view = b'.view := by
  obtain ⟨source, w, shows, shows'⟩ := h
  rw [shows.view, shows'.view]

theorem Level.splits (h : b.Level b') : ∃ source before lexeme after,
    b.Splits source before lexeme after ∧ b'.Splits source before lexeme after := by
  obtain ⟨source, w, shows, shows'⟩ := h
  exact ⟨source, _, _, _, shows.splits, shows'.splits⟩

theorem Level.serve {op : Operation ρ} {op' : Operation ρ'} (h : b.Level b')
    (alike : op.Alike Reader.Concur op') :
    (b.serve op).1 = (b'.serve op').1 ∧ (b.serve op).2.Level (b'.serve op').2 := by
  obtain ⟨source, w, shows, shows'⟩ := h
  cases alike with
  | move m =>
    obtain ⟨answer, next⟩ := shows.ask (.move m)
    obtain ⟨answer', next'⟩ := shows'.ask (.move m)
    exact ⟨answer.trans answer'.symm, source, _, next, next'⟩
  | startsWith pattern =>
    obtain ⟨answer, next⟩ := shows.ask (.startsWith pattern)
    obtain ⟨answer', next'⟩ := shows'.ask (.startsWith pattern)
    exact ⟨answer.trans answer'.symm, source, _, next, next'⟩
  | missing path cause => exact ⟨rfl, source, w, shows, shows'⟩
  | @reopen path r r' concur =>
    obtain ⟨other, delivers, delivers'⟩ := concur
    obtain ⟨opened, anew⟩ := rewind_shows (b := { b with reader := r, name := path }) delivers
    obtain ⟨opened', anew'⟩ := rewind_shows (b := { b' with reader := r', name := path }) delivers'
    have answer : (b.reopen path (.ok r)).result = .ok () := opened
    have answer' : (b'.reopen path (.ok r')).result = .ok () := opened'
    refine ⟨?_, other, _, anew, anew'⟩
    rw [Buffer.serve, Buffer.serve, answer, answer']

theorem Level.transcript {ops : List (Operation ρ)} {ops' : List (Operation ρ')} (h : b.Level b')
    (alike : List.Forall₂ (Operation.Alike Reader.Concur) ops ops') :
    transcript Buffer.serve Buffer.view b ops = Kaleidoscope.transcript Buffer.serve Buffer.view b' ops' ∧
      (serveAll Buffer.serve b ops).Level (serveAll Buffer.serve b' ops') :=
  transcript_eq (R := Level) (S := Operation.Alike Reader.Concur) (F := fun _ => False) Level.view
    (fun level asked _ => level.serve asked) h alike fun _ _ => id

end Buffer

end

end Kaleidoscope
