import Kaleidoscope.Source.Buffer

/-!
# Windows on a source

A window is a source with two indices: where the current lexeme starts and where the cursor stands.
It moves like a buffer and is looked at like one, but it knows nothing of chunks and readers.
-/

namespace Kaleidoscope

def sourceText (source : List UInt8) : List Char := source.map latin1

@[simp] theorem length_sourceText (source : List UInt8) : (sourceText source).length = source.length := by
  simp [sourceText]

/-! ## Positions of indices -/

/-- The index just behind the last newline of `before`; zero if there is none. -/
def lineStart (before : List Char) : Nat := (before.reverse.dropWhile (· != '\n')).length

theorem lineStart_le (before : List Char) : lineStart before ≤ before.length := by
  calc lineStart before ≤ before.reverse.length := (List.dropWhile_sublist _).length_le
    _ = before.length := List.length_reverse

theorem lineStart_newline (before : List Char) :
    lineStart (before ++ ['\n']) = before.length + 1 := by
  simp [lineStart]

theorem lineStart_other (before : List Char) {c : Char} (h : c ≠ '\n') :
    lineStart (before ++ [c]) = lineStart before := by
  simp [lineStart, h]

def Position.ofIndex (cs : List Char) (i : Nat) : Position :=
  ⟨(cs.take i).count '\n', i - lineStart (cs.take i), i⟩

theorem Position.ofIndex_zero (cs : List Char) : ofIndex cs 0 = .start := by
  simp [ofIndex, start, lineStart]

theorem Position.ofIndex_succ {cs : List Char} {i : Nat} {c : Char} (h : cs[i]? = some c) :
    ofIndex cs (i + 1) = (ofIndex cs i).after c := by
  have taken : cs.take (i + 1) = cs.take i ++ [c] := by rw [List.take_add_one, h]; rfl
  obtain ⟨lt, _⟩ := List.getElem?_eq_some_iff.mp h
  have length : (cs.take i).length = i := List.length_take_of_le (Nat.le_of_lt lt)
  unfold ofIndex
  rw [taken]
  by_cases newline : c = '\n'
  · subst newline
    simp [after, lineStart_newline, length]
  · have le := lineStart_le (cs.take i)
    rw [length] at le
    simp [after, newline, lineStart_other, Nat.sub_add_comm le]

theorem Position.compare_eq_lt {p q : Position} : compare p q = .lt ↔
    p.line < q.line ∨ p.line = q.line ∧
      (p.column < q.column ∨ p.column = q.column ∧ p.offset < q.offset) := by
  have unfolded : compare p q = (compare p.line q.line).then
      ((compare p.column q.column).then (compare p.offset q.offset)) := rfl
  rw [unfolded, Ordering.then_eq_lt, Ordering.then_eq_lt]
  simp only [Nat.compare_eq_lt, Nat.compare_eq_eq]

theorem Position.compare_after (p : Position) (c : Char) : compare p (p.after c) = .lt := by
  rw [compare_eq_lt]
  unfold after
  split
  · exact .inl (Nat.lt_succ_self _)
  · exact .inr ⟨rfl, .inl (Nat.lt_succ_self _)⟩

/-- Indices of a text are in the order of their positions. -/
theorem Position.compare_ofIndex {cs : List Char} {i j : Nat} (lt : i < j) (le : j ≤ cs.length) :
    compare (ofIndex cs i) (ofIndex cs j) = .lt := by
  induction j with
  | zero => exact absurd lt (Nat.not_lt_zero i)
  | succ j ih =>
    have inside : cs[j]? = some cs[j] := List.getElem?_eq_getElem le
    have step := compare_after (ofIndex cs j) cs[j]
    rw [← ofIndex_succ inside] at step
    rcases Nat.lt_or_eq_of_le (Nat.le_of_lt_succ lt) with before | rfl
    · have first := ih before (Nat.le_of_lt le)
      rw [compare_eq_lt] at first step ⊢
      omega
    · exact step

/-! ## Windows -/

structure Window where
  text : List Char
  start : Nat
  cursor : Nat
  start_le : start ≤ cursor
  cursor_le : cursor ≤ text.length

namespace Window

def ofSource (source : List UInt8) : Window where
  text := sourceText source
  start := 0
  cursor := 0
  start_le := Nat.le_refl 0
  cursor_le := Nat.zero_le _

def peek (w : Window) : Char := w.text[w.cursor]?.getD endMark

def AtEnd (w : Window) : Prop := w.cursor = w.text.length

instance (w : Window) : Decidable w.AtEnd := inferInstanceAs (Decidable (_ = _))

def startPos (w : Window) : Position := .ofIndex w.text w.start

def pos (w : Window) : Position := .ofIndex w.text w.cursor

def lexeme (w : Window) : List Char := (w.text.drop w.start).take (w.cursor - w.start)

theorem cursor_lt {w : Window} (h : ¬ w.AtEnd) : w.cursor < w.text.length :=
  Nat.lt_of_le_of_ne w.cursor_le h

theorem get_cursor {w : Window} (h : ¬ w.AtEnd) :
    w.text.get ⟨w.cursor, cursor_lt h⟩ = w.peek := by
  unfold peek
  rw [List.getElem?_eq_getElem (cursor_lt h)]
  rfl

/-- At the end nothing moves. A lexeme of full length lets the cursor move no further. -/
def advance (w : Window) : Except ScanError Char × Window :=
  if h : w.AtEnd then (.ok endMark, w)
  else if w.cursor - w.start = maxLexeme then (.error (.lexemeTooLong w.startPos), w)
  else
    (.ok (w.text.get ⟨w.cursor, cursor_lt h⟩),
      { w with
        cursor := w.cursor + 1
        start_le := Nat.le_succ_of_le w.start_le
        cursor_le := cursor_lt h })

def mark (w : Window) : Window := { w with start := w.cursor, start_le := Nat.le_refl _ }

def reset (w : Window) : Window :=
  { w with
    cursor := w.start
    start_le := Nat.le_refl _
    cursor_le := Nat.le_trans w.start_le w.cursor_le }

def rewind (w : Window) : Window :=
  { w with start := 0, cursor := 0, start_le := Nat.le_refl _, cursor_le := Nat.zero_le _ }

end Window

/-! ## Moving and looking -/

inductive Motion
  | advance
  | mark
  | reset
  | rewind

/-- What a motion answers: the character that the cursor passed, if it was to pass one. -/
abbrev Reply := Except ScanError (Option Char)

structure View where
  peek : Char
  atEnd : Bool
  more : Bool
  pos : Position
  startPos : Position
  lexeme? : Option (List Char)

def answers {σ : Type} (move : σ → Motion → Reply × σ) (view : σ → View) (s : σ) :
    List Motion → List (Reply × View)
  | [] => []
  | m :: ms => ((move s m).1, view (move s m).2) :: answers move view (move s m).2 ms

namespace Window

def move (w : Window) : Motion → Reply × Window
  | .advance => (w.advance.1.map some, w.advance.2)
  | .mark => (.ok none, w.mark)
  | .reset => (.ok none, w.reset)
  | .rewind => (.ok none, w.rewind)

def view (w : Window) : View where
  peek := w.peek
  atEnd := decide w.AtEnd
  more := !decide w.AtEnd
  pos := w.pos
  startPos := w.startPos
  lexeme? := some w.lexeme

end Window

namespace Buffer

variable {ρ : Type}

def view (b : Buffer ρ) : View where
  peek := b.peek
  atEnd := decide b.AtEnd
  more := b.hasMore
  pos := b.pos
  startPos := b.startPos
  lexeme? := b.lexeme?

def move [Reader ρ] (b : Buffer ρ) : Motion → Reply × Buffer ρ
  | .advance => (b.advance.1.map some, b.advance.2)
  | .mark => (.ok none, b.mark)
  | .reset => (.ok none, b.reset)
  | .rewind => (b.rewind.1.map fun _ => none, b.rewind.2)

end Buffer

end Kaleidoscope
