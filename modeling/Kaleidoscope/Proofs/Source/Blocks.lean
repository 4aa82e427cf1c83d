import Kaleidoscope.Proofs.Source.Delivery
import Kaleidoscope.Proofs.Source.Window
import Kaleidoscope.Source.Supply

/-!
# The blocks of a source

Block `k` of a source starts at offset `chunkSize * k`. The near chunk of a buffer holds the block in
which the lexeme starts. The far chunk holds the block behind it, if the cursor has been there, and
else the block before it or nothing. Every operation keeps this, as long as no read fails.
-/

namespace Kaleidoscope

/-! ## Chunks -/

structure Chunk.Holds (c : Chunk) (source : List UInt8) (k : Nat) : Prop where
  length : c.length = min chunkSize (source.length - chunkSize * k)
  byte : ∀ i < c.length, source[chunkSize * k + i]? = some (c.byte i)
  last : c.last = decide (c.length < chunkSize)
  stamp : c.stamp = Fin.ofNat 3 (k + 1)

namespace Chunk.Holds

variable {c d : Chunk} {source : List UInt8} {k : Nat}

theorem getElem?_text (h : c.Holds source k) {i : Nat} (lt : i < c.length) :
    (sourceText source)[chunkSize * k + i]? = some (latin1 (c.byte i)) := by
  simp [sourceText, h.byte i lt]

theorem peek (h : c.Holds source k) {i : Nat} (lt : i < chunkSize) :
    c.peek i = (sourceText source)[chunkSize * k + i]?.getD endMark := by
  unfold Chunk.peek
  by_cases inside : i < c.length
  · rw [if_pos inside, h.getElem?_text inside]
    rfl
  · have length := h.length
    rw [if_neg inside, List.getElem?_eq_none]
    · rfl
    · rw [length_sourceText]
      omega

theorem endsAt_iff (h : c.Holds source k) {i : Nat} (lt : i < chunkSize) :
    c.EndsAt i ↔ source.length ≤ chunkSize * k + i := by
  have length := h.length
  unfold Chunk.EndsAt
  rw [h.last, decide_eq_true_eq]
  omega

theorem slice (h : c.Holds source k) {i j : Nat} (le : j ≤ c.length) :
    c.slice i j = ((sourceText source).drop (chunkSize * k + i)).take (j - i) := by
  apply List.ext_getElem?
  intro n
  unfold Chunk.slice
  rw [List.getElem?_take, List.getElem?_drop]
  by_cases lt : n < j - i
  · rw [if_pos lt, Nat.add_assoc, h.getElem?_text (by omega)]
    simp [lt]
  · rw [if_neg lt]
    simp [lt]

theorem follows (h : c.Holds source (k + 1)) (near : d.Holds source k) : c.Follows d := by
  unfold Chunk.Follows Chunk.nextStamp
  rw [h.stamp, near.stamp]
  apply Fin.ext
  simp [Fin.ofNat, Fin.val_add]

theorem not_follows (h : c.Holds source k) (near : d.Holds source (k + 1)) : ¬ c.Follows d :=
  not_follows_of_follows (near.follows h)

end Chunk.Holds

/-- The block that a reader has come to is loaded, whatever the chunk held. -/
theorem Chunk.load_holds {ρ : Type} [Reader ρ] {source : List UInt8} {k : Nat} {r : ρ}
    (reads : Reader.DeliversFrom source (chunkSize * k) r) (c : Chunk) {stamp : Fin 3}
    (next : stamp = Fin.ofNat 3 (k + 1)) :
    ∃ c' r', c.load stamp r = (.ok (), c', r') ∧ c'.Holds source k ∧
      Reader.DeliversFrom source (chunkSize * k + c'.length) r' := by
  obtain ⟨failure, data, reader⟩ := Reader.fill_delivers reads chunkSize #[]
  have size : (Reader.fill r chunkSize #[]).data.size =
      min chunkSize (source.length - chunkSize * k) := by
    rw [data]
    simp
  refine ⟨_, _, by simp only [Chunk.load, failure]; rfl, ⟨size, ?_, rfl, next⟩, ?_⟩
  · intro i lt
    have stay : i < chunkSize := by dsimp only at lt; omega
    have read : ((source.drop (chunkSize * k)).take chunkSize)[i]? = source[chunkSize * k + i]? := by
      rw [List.getElem?_take_of_lt stay, List.getElem?_drop]
    rw [← read]
    unfold Chunk.byte
    rw [Array.getD_eq_getD_getElem?, Array.getElem?_append_left lt]
    dsimp only at lt
    rw [data, Array.empty_append, List.size_toArray] at lt
    rw [data, Array.empty_append, List.getElem?_toArray, List.getElem?_eq_getElem lt]
    rfl
  · rw [data]
    simpa using reader

/-! ## Buffers -/

section
variable {ρ : Type} [Reader ρ]

/-- What the far chunk holds beside a near chunk with block `k`, and how far the reader has come. -/
inductive Reach (source : List UInt8) (near far : Chunk) (reader : ρ) : Nat → Prop
  | ahead {k : Nat} (next : far.Holds source (k + 1))
    (reads : Reader.DeliversFrom source (chunkSize * (k + 1) + far.length) reader) :
    Reach source near far reader k
  | behind {k : Nat} (before : far.Holds source k)
    (reads : Reader.DeliversFrom source (chunkSize * (k + 1) + near.length) reader) :
    Reach source near far reader (k + 1)
  | fresh (unstamped : far.stamp = 0) (reads : Reader.DeliversFrom source near.length reader) :
    Reach source near far reader 0

namespace Reach

variable {source : List UInt8} {near far : Chunk} {reader : ρ} {k : Nat}

theorem of_follows (h : Reach source near far reader k) (here : near.Holds source k)
    (follows : far.Follows near) : far.Holds source (k + 1) ∧
      Reader.DeliversFrom source (chunkSize * (k + 1) + far.length) reader := by
  -- The stamps of block `k - 1` and of a chunk that was never loaded are both not the next one.
  cases h with
  | ahead next reads => exact ⟨next, reads⟩
  | behind before _ => exact absurd follows (before.not_follows here)
  | fresh unstamped _ =>
    unfold Chunk.Follows Chunk.nextStamp at follows
    rw [unstamped, here.stamp] at follows
    exact absurd follows (by decide)

theorem of_not_follows (h : Reach source near far reader k) (here : near.Holds source k)
    (not : ¬ far.Follows near) :
    Reader.DeliversFrom source (chunkSize * k + near.length) reader := by
  cases h with
  | ahead next _ => exact absurd (next.follows here) not
  | behind _ reads => exact reads
  | fresh _ reads => rwa [Nat.mul_zero, Nat.zero_add]

theorem reads (h : Reach source near far reader k) :
    ∃ i, Reader.DeliversFrom source i reader := by
  cases h with
  | ahead _ reads => exact ⟨_, reads⟩
  | behind _ reads => exact ⟨_, reads⟩
  | fresh _ reads => exact ⟨_, reads⟩

end Reach

namespace Buffer

structure Holds (b : Buffer ρ) (source : List UInt8) (k : Nat) : Prop where
  near : b.near.Holds source k
  far : Reach source b.near b.far b.reader k
  loaded : b.Loaded
  cursor_le : chunkSize * k + b.cursor ≤ source.length
  startPos : b.startPos = .ofIndex (sourceText source) (chunkSize * k + b.start)
  pos : b.pos = .ofIndex (sourceText source) (chunkSize * k + b.cursor)

variable {b : Buffer ρ} {source : List UInt8} {k : Nat}

theorem Holds.crossed (h : b.Holds source k) (beyond : ¬ b.cursor < chunkSize) :
    b.far.Holds source (k + 1) ∧
      Reader.DeliversFrom source (chunkSize * (k + 1) + b.far.length) b.reader :=
  h.far.of_follows h.near (h.loaded.resolve_left beyond)

theorem Holds.chunk (h : b.Holds source k) :
    ∃ j, b.chunk.Holds source j ∧ chunkSize * j + b.index = chunkSize * k + b.cursor := by
  unfold Buffer.chunk Buffer.index
  by_cases stays : b.cursor < chunkSize
  · rw [if_pos stays, if_pos stays]
    exact ⟨k, h.near, rfl⟩
  · rw [if_neg stays, if_neg stays]
    refine ⟨k + 1, (h.crossed stays).1, ?_⟩
    rw [Nat.mul_add]
    omega

theorem Holds.peek (h : b.Holds source k) :
    b.peek = (sourceText source)[chunkSize * k + b.cursor]?.getD endMark := by
  obtain ⟨j, chunk, eq⟩ := h.chunk
  rw [← eq]
  exact chunk.peek b.index_lt

theorem Holds.atEnd_iff (h : b.Holds source k) :
    b.AtEnd ↔ chunkSize * k + b.cursor = source.length := by
  obtain ⟨j, chunk, eq⟩ := h.chunk
  have le := h.cursor_le
  rw [← eq] at le ⊢
  rw [AtEnd, chunk.endsAt_iff b.index_lt]
  omega

theorem Holds.lexeme? (h : b.Holds source k) :
    b.lexeme? = some (((sourceText source).drop (chunkSize * k + b.start)).take b.extent) := by
  have near := h.near.length
  have le := h.cursor_le
  have cursor : b.cursor = b.start + b.extent := rfl
  have start := b.start_lt
  unfold Buffer.lexeme?
  by_cases stays : b.cursor < chunkSize
  · rw [if_pos stays, h.near.slice (by omega), show b.cursor - b.start = b.extent by omega]
  · have full : b.near.length = chunkSize := by omega
    have next := (h.crossed stays).1
    have far := next.length
    have bound := b.cursor_succ_lt
    rw [Nat.mul_add] at far
    have extent : b.extent = (chunkSize - b.start) + (b.cursor - chunkSize) := by omega
    have behind : chunkSize * (k + 1) + 0 = chunkSize * k + b.start + (chunkSize - b.start) := by
      rw [Nat.mul_add]
      omega
    rw [if_neg stays, if_pos (by omega), h.near.slice (Nat.le_refl _), next.slice (by omega), full,
      behind, extent, Nat.sub_zero, List.take_add, List.drop_drop]

/-! ### Marking and taking back -/

theorem Holds.reset (h : b.Holds source k) : b.reset.Holds source k where
  near := h.near
  far := h.far
  loaded := loaded_of_extent_eq_zero rfl
  cursor_le := Nat.le_trans (Nat.add_le_add_left (Nat.le_add_right _ _) _) h.cursor_le
  startPos := h.startPos
  pos := h.startPos

/-- A commit behind the near chunk swaps the chunks. -/
theorem Holds.mark (h : b.Holds source k) :
    ∃ j, b.mark.Holds source j ∧ chunkSize * j + b.mark.start = chunkSize * k + b.cursor := by
  have loaded : b.mark.Loaded := loaded_of_extent_eq_zero rfl
  by_cases stays : b.cursor < chunkSize
  · have index : b.index = b.cursor := if_pos stays
    have near : b.mark.near = b.near := if_pos stays
    have far : b.mark.far = b.far := if_pos stays
    refine ⟨k, ⟨?_, ?_, loaded, ?_, ?_, ?_⟩, ?_⟩
    · rw [near]; exact h.near
    · rw [near, far]; exact h.far
    · rw [cursor_mark, index]; exact h.cursor_le
    · rw [show b.mark.start = b.cursor from index]; exact h.pos
    · rw [cursor_mark, index]; exact h.pos
    · rw [show b.mark.start = b.cursor from index]
  · -- The far chunk becomes the near one, and what was near lies behind it.
    obtain ⟨next, reads⟩ := h.crossed stays
    have index : chunkSize * (k + 1) + b.index = chunkSize * k + b.cursor := by
      rw [show b.index = b.cursor - chunkSize from if_neg stays, Nat.mul_add]
      omega
    have near : b.mark.near = b.far := if_neg stays
    have far : b.mark.far = b.near := if_neg stays
    refine ⟨k + 1, ⟨?_, ?_, loaded, ?_, ?_, ?_⟩, index⟩
    · rw [near]; exact next
    · rw [near, far]; exact .behind h.near reads
    · rw [cursor_mark, index]; exact h.cursor_le
    · rw [show b.mark.start = b.index from rfl, index]; exact h.pos
    · rw [cursor_mark, index]; exact h.pos

/-! ### Moving on -/

/-- A cursor that comes to the far chunk finds the next block in it. -/
theorem loadFar_holds (near : b.near.Holds source k) (far : Reach source b.near b.far b.reader k)
    (full : b.near.length = chunkSize) :
    ∃ b', b.loadFar = (.ok (), b') ∧ b'.near = b.near ∧ b'.far.Holds source (k + 1) ∧
      Reader.DeliversFrom source (chunkSize * (k + 1) + b'.far.length) b'.reader ∧
      b'.start = b.start ∧ b'.extent = b.extent ∧ b'.startPos = b.startPos ∧ b'.pos = b.pos := by
  unfold loadFar
  by_cases follows : b.far.Follows b.near
  · obtain ⟨next, reads⟩ := far.of_follows near follows
    rw [if_pos follows]
    exact ⟨b, rfl, rfl, next, reads, rfl, rfl, rfl, rfl⟩
  · have reads := far.of_not_follows near follows
    rw [full, ← Nat.mul_succ] at reads
    have stamp : b.near.nextStamp = Fin.ofNat 3 (k + 1 + 1) := by
      unfold Chunk.nextStamp
      rw [near.stamp]
      apply Fin.ext
      simp [Fin.ofNat, Fin.val_add]
    obtain ⟨c, r, eq, holds, reads⟩ := Chunk.load_holds reads b.far stamp
    rw [if_neg follows, eq]
    exact ⟨_, rfl, rfl, holds, reads, rfl, rfl, rfl, rfl⟩

theorem Holds.advance (h : b.Holds source k) (more : ¬ b.AtEnd) (room : b.extent < maxLexeme) :
    ∃ b', b.advance = (.ok b.peek, b') ∧ b'.Holds source k ∧ b'.start = b.start ∧
      b'.extent = b.extent + 1 := by
  have lt : chunkSize * k + b.cursor < source.length := by
    have le := h.cursor_le
    rw [h.atEnd_iff] at more
    omega
  have under : (sourceText source)[chunkSize * k + b.cursor]? = some b.peek := by
    rw [h.peek, List.getElem?_eq_getElem (by rwa [length_sourceText])]
    rfl
  have pos : b.pos.after b.peek =
      .ofIndex (sourceText source) (chunkSize * k + (b.cursor + 1)) := by
    rw [h.pos, ← Position.ofIndex_succ under]
    rfl
  have cursor : (b.step b.peek room).cursor = b.cursor + 1 := rfl
  unfold Buffer.advance
  simp only [if_neg more, dif_pos room]
  -- Only a cursor that comes to the boundary loads a block.
  by_cases crosses : (b.step b.peek room).cursor = chunkSize
  · have near := h.near.length
    obtain ⟨b', eq, near', next, reads, start, extent, startPos, pos'⟩ :=
      loadFar_holds (b := b.step b.peek room) h.near h.far (by
        rw [show (b.step b.peek room).near = b.near from rfl]
        omega)
    rw [if_pos crosses, eq]
    have cursor' : b'.cursor = b.cursor + 1 := by
      rw [Buffer.cursor, start, extent]
      exact cursor
    refine ⟨b', rfl, ⟨?_, .ahead next reads, ?_, ?_, ?_, ?_⟩, start, extent⟩
    · rw [near']; exact h.near
    · rw [Loaded, near']; exact .inr (next.follows h.near)
    · rw [cursor']; exact lt
    · rw [startPos, start]; exact h.startPos
    · rw [pos', cursor']; exact pos
  · rw [if_neg crosses]
    refine ⟨_, rfl, ⟨h.near, h.far, ?_, lt, h.startPos, pos⟩, rfl, rfl⟩
    rcases h.loaded with stays | follows
    · exact .inl (by omega)
    · exact .inr follows

/-! ### Starting -/

theorem loadNear_holds (start : b.start = 0) (extent : b.extent = 0) (startPos : b.startPos = .start)
    (pos : b.pos = .start) (near : b.near.stamp = 0) (far : b.far.stamp = 0)
    (reads : Reader.Delivers source b.reader) :
    ∃ b', b.loadNear = (.ok (), b') ∧ b'.Holds source 0 ∧ b'.start = 0 ∧ b'.extent = 0 := by
  have stamp : b.near.nextStamp = Fin.ofNat 3 (0 + 1) := by
    unfold Chunk.nextStamp
    rw [near]
    rfl
  obtain ⟨c, r, eq, holds, reads⟩ := Chunk.load_holds (k := 0) reads b.near stamp
  unfold loadNear
  rw [eq]
  refine ⟨_, rfl, ⟨holds, .fresh far ?_, loaded_of_extent_eq_zero extent, ?_, ?_, ?_⟩, start, extent⟩
  · simpa using reads
  · simp [cursor, start, extent]
  · simp [startPos, start, Position.ofIndex_zero]
  · simp [pos, cursor, start, extent, Position.ofIndex_zero]

theorem chunkSize_pos : 0 < chunkSize := by decide

omit [Reader ρ] in
def blank (r : ρ) (name : String) : Buffer ρ :=
  ⟨name, r, .blank, .blank, false, 0, 0, .start, .start, chunkSize_pos, Nat.zero_le maxLexeme⟩

theorem loadNear_of_new {r : ρ} {name : String} (opened : Buffer.new r name = .ok b) :
    (blank r name).loadNear = (.ok (), b) := by
  unfold new at opened
  dsimp only at opened
  split at opened
  · rename_i loaded
    cases opened
    exact loaded
  · cases opened

theorem new_holds {r : ρ} (reads : Reader.Delivers source r) (name : String) :
    ∃ b, Buffer.new r name = .ok b ∧ b.Holds source 0 ∧ b.start = 0 ∧ b.extent = 0 := by
  unfold Buffer.new
  obtain ⟨b', eq, holds⟩ := loadNear_holds (b := blank r name) rfl rfl rfl rfl rfl rfl reads
  rw [blank] at eq
  simp only [eq]
  exact ⟨b', rfl, holds⟩

theorem Holds.rewind (h : b.Holds source k) :
    ∃ b', b.rewind = (.ok (), b') ∧ b'.Holds source 0 ∧ b'.start = 0 ∧ b'.extent = 0 := by
  obtain ⟨i, here⟩ := h.far.reads
  obtain ⟨r, eq, reads⟩ := here.toStart
  unfold Buffer.rewind
  rw [eq]
  exact loadNear_holds (b := b.restarted r) rfl rfl rfl rfl rfl rfl reads

/-! ## Buffers and windows -/

def Shows (b : Buffer ρ) (source : List UInt8) (w : Window) : Prop :=
  w.text = sourceText source ∧
    ∃ k, b.Holds source k ∧ w.start = chunkSize * k + b.start ∧ w.cursor = chunkSize * k + b.cursor

namespace Shows

variable {w : Window}

theorem atEnd_iff (h : b.Shows source w) : b.AtEnd ↔ w.AtEnd := by
  obtain ⟨text, k, holds, _, cursor⟩ := h
  rw [holds.atEnd_iff, Window.AtEnd, text, cursor, length_sourceText]

theorem peek (h : b.Shows source w) : b.peek = w.peek := by
  obtain ⟨text, k, holds, _, cursor⟩ := h
  rw [holds.peek, Window.peek, text, cursor]

theorem view (h : b.Shows source w) : b.view = w.view := by
  have ends := h.atEnd_iff
  have peek := h.peek
  obtain ⟨text, k, holds, start, cursor⟩ := h
  have extent : w.cursor - w.start = b.extent := by
    rw [start, cursor, Buffer.cursor]
    omega
  unfold Buffer.view Window.view Buffer.hasMore
  rw [peek, holds.pos, holds.startPos, holds.lexeme?, Window.pos, Window.startPos, Window.lexeme,
    text, extent, start, cursor]
  simp only [ends]

theorem mark (h : b.Shows source w) : b.mark.Shows source w.mark := by
  obtain ⟨text, k, holds, _, cursor⟩ := h
  obtain ⟨j, marked, start⟩ := holds.mark
  exact ⟨text, j, marked, cursor.trans start.symm, cursor.trans start.symm⟩

theorem reset (h : b.Shows source w) : b.reset.Shows source w.reset := by
  obtain ⟨text, k, holds, start, _⟩ := h
  exact ⟨text, k, holds.reset, start, start⟩

theorem rewind (h : b.Shows source w) :
    b.rewind.1 = .ok () ∧ b.rewind.2.Shows source w.rewind := by
  obtain ⟨text, k, holds, _, _⟩ := h
  obtain ⟨b', eq, again, start, extent⟩ := holds.rewind
  rw [eq]
  refine ⟨rfl, text, 0, again, ?_, ?_⟩
  · simp [Window.rewind, start]
  · simp [Window.rewind, cursor, start, extent]

theorem advance (h : b.Shows source w) :
    b.advance.1 = w.advance.1 ∧ b.advance.2.Shows source w.advance.2 := by
  have ends := h.atEnd_iff
  have shows := h
  obtain ⟨text, k, holds, start, cursor⟩ := h
  have extent : w.cursor - w.start = b.extent := by
    rw [start, cursor, Buffer.cursor]
    omega
  unfold Window.advance
  by_cases ended : w.AtEnd
  · rw [dif_pos ended, advance_atEnd (ends.mpr ended)]
    exact ⟨rfl, shows⟩
  · have more : ¬ b.AtEnd := fun at_end => ended (ends.mp at_end)
    rw [dif_neg ended]
    by_cases long : w.cursor - w.start = maxLexeme
    · have full : ¬ b.extent < maxLexeme := by omega
      have stuck : b.advance = (.error (.lexemeTooLong b.startPos), b) := by
        unfold Buffer.advance
        rw [if_neg more, dif_neg full]
      rw [if_pos long, stuck]
      refine ⟨?_, shows⟩
      rw [holds.startPos, Window.startPos, text, start]
    · have room : b.extent < maxLexeme := by
        have := b.extent_le
        omega
      obtain ⟨b', eq, holds', start', extent'⟩ := holds.advance more room
      rw [if_neg long, eq]
      have moved : w.cursor + 1 = chunkSize * k + b'.cursor := by
        rw [cursor, Buffer.cursor, Buffer.cursor, start', extent']
        rfl
      exact ⟨congrArg Except.ok (shows.peek.trans (Window.get_cursor ended).symm), text, k, holds',
        start.trans (by rw [start']), moved⟩

theorem move (h : b.Shows source w) (m : Motion) :
    (b.move m).1 = (w.move m).1 ∧ (b.move m).2.Shows source (w.move m).2 := by
  cases m with
  | advance => exact ⟨congrArg (Except.map some) h.advance.1, h.advance.2⟩
  | mark => exact ⟨rfl, h.mark⟩
  | reset => exact ⟨rfl, h.reset⟩
  | rewind => exact ⟨congrArg (Except.map fun _ => none) h.rewind.1, h.rewind.2⟩

theorem answers (h : b.Shows source w) (motions : List Motion) :
    answers Buffer.move Buffer.view b motions = Kaleidoscope.answers Window.move Window.view w motions := by
  induction motions generalizing b w with
  | nil => rfl
  | cons m ms ih =>
    obtain ⟨reply, next⟩ := h.move m
    unfold Kaleidoscope.answers
    rw [reply, next.view, ih next]

end Shows

theorem new_shows {r : ρ} (reads : Reader.Delivers source r) (name : String) :
    ∃ b, Buffer.new r name = .ok b ∧ b.Shows source (.ofSource source) := by
  obtain ⟨b, eq, holds, start, extent⟩ := new_holds reads name
  refine ⟨b, eq, rfl, 0, holds, ?_, ?_⟩
  · simp [Window.ofSource, start]
  · simp [Window.ofSource, cursor, start, extent]

/-- A new buffer answers like a window on its source, however often the cursor moves between the
chunks. -/
theorem answers_eq_window {r : ρ} (reads : Reader.Delivers source r) (name : String) :
    ∃ b, Buffer.new r name = .ok b ∧ b.view = (Window.ofSource source).view ∧
      ∀ motions : List Motion, answers Buffer.move Buffer.view b motions =
        answers Window.move Window.view (.ofSource source) motions := by
  obtain ⟨b, eq, shows⟩ := new_shows reads name
  exact ⟨b, eq, shows.view, shows.answers⟩

/-- Two full chunks, which come in pieces with every third read interrupted. -/
theorem answers_eq_window_pieces :
    let r := FaultyReader.ofBytes (Array.replicate 8192 97) ⟨some 1000, 3, none, false⟩ none
    let source := (Array.replicate 8192 (97 : UInt8)).toList
    Reader.Delivers source r ∧ ∃ b, Buffer.new r "pieces" = .ok b ∧
      b.view = (Window.ofSource source).view ∧
      ∀ motions : List Motion, answers Buffer.move Buffer.view b motions =
        answers Window.move Window.view (.ofSource source) motions := by
  have reads := FaultyReader.delivers (Array.replicate 8192 97) ⟨some 1000, 3, none, false⟩ none
    rfl rfl (by decide)
  exact ⟨reads, answers_eq_window reads "pieces"⟩

end Buffer

end

end Kaleidoscope
