import Kaleidoscope.Proofs.Source.Blocks

/-!
# How a buffer splits its source

A buffer splits its source in three: what has been committed, the lexeme, and what the cursor has not
passed. What scanning does is said over these three lists.
-/

namespace Kaleidoscope

def Position.behind (before : List Char) : Position := .ofIndex before before.length

theorem Position.ofIndex_append (before rest : List Char) :
    ofIndex (before ++ rest) before.length = behind before := by
  unfold behind ofIndex
  rw [List.take_left, List.take_length]

@[simp] theorem Position.offset_behind (before : List Char) :
    (behind before).offset = before.length := rfl

namespace Buffer

section
variable {ρ : Type} [Reader ρ]

/-- `before` is committed, `lexeme` lies between the start and the cursor, and `after` is left. -/
def Splits (b : Buffer ρ) (source : List UInt8) (before lexeme after : List Char) : Prop :=
  sourceText source = before ++ lexeme ++ after ∧
    ∃ k, b.Holds source k ∧ before.length = chunkSize * k + b.start ∧ lexeme.length = b.extent

theorem new_splits {source : List UInt8} {r : ρ} (reads : Reader.Delivers source r) (name : String) :
    ∃ b, Buffer.new r name = .ok b ∧ b.Splits source [] [] (sourceText source) := by
  obtain ⟨b, eq, holds, start, extent⟩ := new_holds reads name
  exact ⟨b, eq, rfl, 0, holds, by simp [start], by simp [extent]⟩

namespace Splits

variable {b : Buffer ρ} {source : List UInt8} {before lexeme after : List Char}

theorem text_eq (h : b.Splits source before lexeme after) :
    sourceText source = before ++ lexeme ++ after := h.1

theorem after_eq {b' : Buffer ρ} {after' : List Char} (h : b.Splits source before lexeme after)
    (h' : b'.Splits source before lexeme after') : after' = after :=
  List.append_cancel_left (h'.text_eq.symm.trans h.text_eq)

theorem extent_eq (h : b.Splits source before lexeme after) : b.extent = lexeme.length := by
  obtain ⟨_, _, _, _, extent⟩ := h
  exact extent.symm

theorem length_le (h : b.Splits source before lexeme after) : lexeme.length ≤ maxLexeme := by
  rw [← h.extent_eq]
  exact b.extent_le

omit [Reader ρ] in
theorem cursor_eq {k : Nat} (start : before.length = chunkSize * k + b.start)
    (extent : lexeme.length = b.extent) :
    chunkSize * k + b.cursor = (before ++ lexeme).length := by
  rw [List.length_append, start, extent, cursor]
  omega

theorem peek (h : b.Splits source before lexeme after) : b.peek = after.headD endMark := by
  obtain ⟨text, k, holds, start, extent⟩ := h
  rw [holds.peek, cursor_eq start extent, text, List.getElem?_append_right (Nat.le_refl _),
    Nat.sub_self]
  cases after <;> rfl

theorem atEnd_iff (h : b.Splits source before lexeme after) : b.AtEnd ↔ after = [] := by
  obtain ⟨text, k, holds, start, extent⟩ := h
  rw [holds.atEnd_iff, cursor_eq start extent, ← length_sourceText source, text]
  simp

theorem pos (h : b.Splits source before lexeme after) : b.pos = .behind (before ++ lexeme) := by
  obtain ⟨text, k, holds, start, extent⟩ := h
  rw [holds.pos, cursor_eq start extent, text, Position.ofIndex_append]

theorem startPos (h : b.Splits source before lexeme after) : b.startPos = .behind before := by
  obtain ⟨text, k, holds, start, extent⟩ := h
  rw [holds.startPos, ← start, text, List.append_assoc, Position.ofIndex_append]

theorem lexeme_eq (h : b.Splits source before lexeme after) : b.lexeme = lexeme := by
  obtain ⟨text, k, holds, start, extent⟩ := h
  unfold Buffer.lexeme
  rw [holds.lexeme?, ← start, ← extent, text, List.append_assoc, List.drop_left, List.take_left]
  rfl

theorem mark (h : b.Splits source before lexeme after) :
    b.mark.Splits source (before ++ lexeme) [] after := by
  obtain ⟨text, k, holds, start, extent⟩ := h
  obtain ⟨j, marked, index⟩ := holds.mark
  refine ⟨by rw [List.append_nil, text], j, marked, ?_, rfl⟩
  rw [index, cursor_eq start extent]

theorem reset (h : b.Splits source before lexeme after) :
    b.reset.Splits source before [] (lexeme ++ after) := by
  obtain ⟨text, k, holds, start, extent⟩ := h
  exact ⟨by rw [List.append_nil, text, List.append_assoc], k, holds.reset, start, rfl⟩

theorem rewind (h : b.Splits source before lexeme after) :
    ∃ b', b.rewind = (.ok (), b') ∧ b'.Splits source [] [] (sourceText source) := by
  obtain ⟨text, k, holds, _, _⟩ := h
  obtain ⟨b', eq, again, start, extent⟩ := holds.rewind
  exact ⟨b', eq, rfl, 0, again, by simp [start], by simp [extent]⟩

theorem advance {c : Char} (h : b.Splits source before lexeme (c :: after))
    (room : lexeme.length < maxLexeme) :
    ∃ b', b.advance = (.ok c, b') ∧ b'.Splits source before (lexeme ++ [c]) after := by
  have more : ¬ b.AtEnd := by
    rw [h.atEnd_iff]
    exact List.cons_ne_nil c after
  have under : b.peek = c := h.peek
  rw [← h.extent_eq] at room
  obtain ⟨text, k, holds, start, extent⟩ := h
  obtain ⟨b', eq, holds', start', extent'⟩ := holds.advance more room
  rw [under] at eq
  refine ⟨b', eq, by simp [text], k, holds', by rw [start', start], ?_⟩
  rw [List.length_append, extent, extent']
  rfl

theorem commit {line : List Char} (h : b.Splits source before [] (line ++ after)) :
    ∃ b' : Buffer ρ, b'.Splits source (before ++ line) [] after := by
  induction line generalizing b before with
  | nil => exact ⟨b, by simpa using h⟩
  | cons c line ih =>
    obtain ⟨b₁, -, moved⟩ := advance h (by decide)
    obtain ⟨b', committed⟩ := ih moved.mark
    exact ⟨b', by simpa using committed⟩

theorem advance_full {c : Char} (h : b.Splits source before lexeme (c :: after))
    (full : lexeme.length = maxLexeme) :
    b.advance = (.error (.lexemeTooLong (.behind before)), b) := by
  have more : ¬ b.AtEnd := by
    rw [h.atEnd_iff]
    exact List.cons_ne_nil c after
  have stuck : ¬ b.extent < maxLexeme := by
    rw [h.extent_eq, full]
    exact Nat.lt_irrefl _
  unfold Buffer.advance
  rw [if_neg more, dif_neg stuck, h.startPos]

theorem advance_nil (h : b.Splits source before lexeme []) : b.advance = (.ok endMark, b) :=
  advance_atEnd (h.atEnd_iff.mpr rfl)

theorem after_eq_cons (h : b.Splits source before lexeme after) (more : ¬ b.AtEnd) :
    ∃ rest, after = b.peek :: rest := by
  rw [h.atEnd_iff] at more
  rw [h.peek]
  cases after with
  | nil => exact absurd rfl more
  | cons c rest => exact ⟨rest, rfl⟩

theorem probe {pattern : List Char} (h : b.Splits source before lexeme after)
    (fits : lexeme.length + pattern.length ≤ maxLexeme) (unmarked : endMark ∉ pattern) :
    ∃ b' lexeme' after', b.probe pattern = (.ok (pattern.isPrefixOf after), b') ∧
      lexeme' ++ after' = lexeme ++ after ∧ b'.Splits source before lexeme' after' := by
  induction pattern generalizing b lexeme after with
  | nil => exact ⟨b, lexeme, after, by simp [Buffer.probe], rfl, h⟩
  | cons expected pattern ih =>
    rw [List.length_cons] at fits
    obtain ⟨ne, others⟩ := not_or.mp (mt List.mem_cons.mpr unmarked)
    unfold Buffer.probe
    cases after with
    | nil =>
      rw [h.advance_nil]
      refine ⟨b, lexeme, [], ?_, rfl, h⟩
      simp only [if_neg ne, List.isPrefixOf]
    | cons c rest =>
      obtain ⟨b₁, eq, moved⟩ := h.advance (by omega)
      rw [eq]
      by_cases same : c = expected
      · subst same
        obtain ⟨b', lexeme', after', probed, join, splits⟩ := ih moved (by simp; omega) others
        refine ⟨b', lexeme', after', ?_, by simp [join], splits⟩
        simp [List.isPrefixOf, probed]
      · refine ⟨b₁, lexeme ++ [c], rest, ?_, by simp, moved⟩
        simp [List.isPrefixOf, same, Ne.symm same]

theorem startsWith_pending {pattern : String} (h : b.Splits source before lexeme after)
    (fits : lexeme.length + pattern.toList.length ≤ maxLexeme) (unmarked : endMark ∉ pattern.toList) :
    ∃ b', b.startsWith pattern = (.ok (pattern.toList.isPrefixOf after), b') ∧
      b'.Splits source before [] (lexeme ++ after) := by
  obtain ⟨b₁, passed, rest, probed, join, splits⟩ := h.probe fits unmarked
  unfold Buffer.startsWith
  rw [probed]
  refine ⟨_, rfl, ?_⟩
  rw [← join]
  exact splits.reset

theorem startsWith {pattern : String} (h : b.Splits source before [] after)
    (fits : pattern.toList.length ≤ maxLexeme) (unmarked : endMark ∉ pattern.toList) :
    ∃ b', b.startsWith pattern = (.ok (pattern.toList.isPrefixOf after), b') ∧
      b'.Splits source before [] after :=
  h.startsWith_pending (by simpa using fits) unmarked

end Splits

end

theorem exists_splits {source : List UInt8} {before after : List Char}
    (text : sourceText source = before ++ after) :
    ∃ b : Buffer ByteReader, b.Splits source before [] after := by
  obtain ⟨b, -, splits⟩ := new_splits (ByteReader.delivers source.toArray) ""
  rw [List.toList_toArray, text] at splits
  exact splits.commit

end Buffer

end Kaleidoscope
