import Kaleidoscope.Source.Buffer

/-!
# How much source is left

The supply of a buffer bounds the characters that can still be committed: those left in the near
chunk, those of the far chunk if it is the next one, and those left in the reader. A cursor that
moves on does not add to it, and a commit takes away from it. Loops over a source end because of
this.
-/

namespace Kaleidoscope.Buffer

variable {ρ : Type}

def Loaded (b : Buffer ρ) : Prop :=
  b.cursor < chunkSize ∨ b.far.Follows b.near

theorem loaded_of_extent_eq_zero {b : Buffer ρ} (h : b.extent = 0) : b.Loaded :=
  .inl (by have := b.start_lt; unfold cursor; omega)

theorem cursor_succ_lt (b : Buffer ρ) : b.cursor + 1 < 2 * chunkSize := by
  have := b.start_lt
  have := b.extent_le
  unfold cursor maxLexeme at *
  omega

@[simp] theorem extent_mark (b : Buffer ρ) : b.mark.extent = 0 := rfl

@[simp] theorem extent_reset (b : Buffer ρ) : b.reset.extent = 0 := rfl

theorem cursor_mark (b : Buffer ρ) : b.mark.cursor = b.index := rfl

theorem peek_of_atEnd {b : Buffer ρ} (h : b.AtEnd) : b.peek = endMark := by
  unfold AtEnd Chunk.EndsAt at h
  unfold peek Chunk.peek
  rw [if_neg (by omega)]

theorem not_atEnd_of_peek_ne {b : Buffer ρ} (h : b.peek ≠ endMark) : ¬ b.AtEnd :=
  fun ended => h (peek_of_atEnd ended)

theorem atEnd_iff_of_extent_eq_zero {b : Buffer ρ} (h : b.extent = 0) :
    b.AtEnd ↔ b.near.EndsAt b.start := by
  have := b.start_lt
  have : b.cursor = b.start := by unfold cursor; omega
  unfold AtEnd chunk index
  rw [this, if_pos b.start_lt, if_pos b.start_lt]

section

variable [Reader ρ]

/-- The characters that can still be committed from the start of the lexeme on. -/
def supply (b : Buffer ρ) : Nat :=
  (b.near.span - b.start) + (if b.far.Follows b.near then b.far.span else 0) +
    Reader.remaining b.reader

structure Ahead (b b' : Buffer ρ) : Prop where
  near : b'.near = b.near
  start : b'.start = b.start
  supply : b'.supply ≤ b.supply
  loaded : b'.Loaded

theorem Ahead.trans {a b c : Buffer ρ} (h : a.Ahead b) (h' : b.Ahead c) : a.Ahead c :=
  ⟨h'.near.trans h.near, h'.start.trans h.start, Nat.le_trans h'.supply h.supply, h'.loaded⟩

theorem Ahead.refl {b : Buffer ρ} (h : b.Loaded) : b.Ahead b :=
  ⟨rfl, rfl, Nat.le_refl _, h⟩

theorem supply_mark_near {b : Buffer ρ} (h : b.cursor < chunkSize) :
    b.mark.supply = (b.near.span - b.cursor) +
      (if b.far.Follows b.near then b.far.span else 0) + Reader.remaining b.reader := by
  simp only [supply, mark, chunk, otherChunk, index, if_pos h]

theorem supply_mark_far {b : Buffer ρ} (h : ¬ b.cursor < chunkSize) :
    b.mark.supply = (b.far.span - (b.cursor - chunkSize)) +
      (if b.near.Follows b.far then b.near.span else 0) + Reader.remaining b.reader := by
  simp only [supply, mark, chunk, otherChunk, index, if_neg h]

theorem supply_mark_of_extent_eq_zero {b : Buffer ρ} (h : b.extent = 0) :
    b.mark.supply = b.supply := by
  have eq : b.cursor = b.start := by unfold cursor; omega
  rw [supply_mark_near (by rw [eq]; exact b.start_lt), eq]
  rfl

theorem supply_mark_mark (b : Buffer ρ) : b.mark.mark.supply = b.mark.supply :=
  supply_mark_of_extent_eq_zero rfl

/-- Loading the far chunk moves characters out of the reader; none are added. -/
theorem loadFar_ahead {b b' : Buffer ρ} (h : b.loadFar = (.ok (), b')) :
    b'.near = b.near ∧ b'.start = b.start ∧ b'.extent = b.extent ∧
      b'.far.Follows b'.near ∧ b'.supply ≤ b.supply := by
  simp only [loadFar] at h
  split at h
  · rename_i follows
    cases h
    exact ⟨rfl, rfl, rfl, follows, Nat.le_refl _⟩
  · rename_i follows
    split at h
    · rename_i far reader loaded
      cases h
      have ⟨stamp, span⟩ := Chunk.span_load loaded
      refine ⟨rfl, rfl, rfl, stamp, ?_⟩
      have now : far.Follows b.near := stamp
      simp only [supply, if_pos now, if_neg follows]
      omega
    · cases h

theorem advance_ok {b b' : Buffer ρ} {c : Char} (h : b.advance = (.ok c, b')) (ended : ¬ b.AtEnd) :
    c = b.peek ∧ b'.near = b.near ∧ b'.start = b.start ∧ b'.extent = b.extent + 1 ∧
      b'.supply ≤ b.supply ∧ (b.Loaded → b'.Loaded) ∧
      (b'.cursor = chunkSize → b'.far.Follows b'.near) ∧
      (b'.cursor ≠ chunkSize → b'.far = b.far ∧ b'.reader = b.reader) := by
  simp only [advance, if_neg ended] at h
  split at h
  · rename_i room
    split at h
    · rename_i crossed
      split at h
      · rename_i b₂ loaded
        cases h
        obtain ⟨near, start, extent, follows, le⟩ := loadFar_ahead loaded
        exact ⟨rfl, near, start, extent, le, fun _ => .inr follows, fun _ => follows,
          fun other => absurd (by unfold cursor at *; rw [start, extent]; exact crossed) other⟩
      · cases h
    · rename_i crossed
      cases h
      refine ⟨rfl, rfl, rfl, rfl, Nat.le_refl _, ?_, fun eq => absurd eq crossed,
        fun _ => ⟨rfl, rfl⟩⟩
      rintro (lt | follows)
      · left
        unfold cursor step at *
        simp only at *
        omega
      · exact .inr follows
  · cases h

theorem advance_atEnd {b : Buffer ρ} (h : b.AtEnd) : b.advance = (.ok endMark, b) := by
  simp only [advance, if_pos h]

theorem advance_ahead {b b' : Buffer ρ} {c : Char} (h : b.advance = (.ok c, b'))
    (loaded : b.Loaded) : b.Ahead b' ∧ b.extent ≤ b'.extent := by
  by_cases ended : b.AtEnd
  · rw [advance_atEnd ended] at h
    cases h
    exact ⟨.refl loaded, Nat.le_refl _⟩
  · obtain ⟨_, near, start, extent, supply, keeps, _⟩ := advance_ok h ended
    exact ⟨⟨near, start, supply, keeps loaded⟩, by omega⟩

theorem supply_mark_lt {b b' : Buffer ρ} (h : b.Ahead b') (ended : ¬ b.near.EndsAt b.start)
    (moved : 0 < b'.extent) : b'.mark.supply < b.supply := by
  refine Nat.lt_of_lt_of_le ?_ h.supply
  have left : b'.start < b'.near.span := by
    rw [h.near, h.start]
    exact Chunk.lt_span ended b.start_lt
  have past : b'.start < b'.cursor := by unfold cursor; omega
  by_cases lt : b'.cursor < chunkSize
  · rw [supply_mark_near lt, supply]
    omega
  · have follows := h.loaded.resolve_left lt
    rw [supply_mark_far lt, if_neg (Chunk.not_follows_of_follows follows), supply, if_pos follows]
    omega

theorem supply_mark_advance_lt {b b' : Buffer ρ} {c : Char} (h : b.advance = (.ok c, b'))
    (ended : ¬ b.AtEnd) : b'.mark.supply < b.mark.supply := by
  obtain ⟨_, near, start, extent, le, _, crossed, stayed⟩ := advance_ok h ended
  have left := Chunk.lt_span ended b.index_lt
  have cursor : b'.cursor = b.cursor + 1 := by unfold Buffer.cursor; omega
  by_cases lt : b.cursor < chunkSize
  · simp only [index, chunk, if_pos lt] at left
    rw [supply_mark_near lt]
    by_cases eq : b'.cursor = chunkSize
    · have follows := crossed eq
      rw [supply_mark_far (by omega), if_neg (Chunk.not_follows_of_follows follows)]
      rw [supply, if_pos follows, near, start, supply] at le
      have : b.start ≤ b.cursor := by unfold Buffer.cursor; omega
      omega
    · obtain ⟨far, reader⟩ := stayed eq
      rw [supply_mark_near (by omega), near, far, reader]
      omega
  · simp only [index, chunk, if_neg lt] at left
    have bound := cursor_succ_lt b
    obtain ⟨far, reader⟩ := stayed (by omega)
    rw [supply_mark_far lt, supply_mark_far (by omega), near, far, reader]
    omega

theorem probe_ahead {b b' : Buffer ρ} {pattern : List Char} {found : Bool}
    (h : b.probe pattern = (.ok found, b')) (loaded : b.Loaded) : b.Ahead b' := by
  induction pattern generalizing b with
  | nil =>
    cases h
    exact .refl loaded
  | cons expected pattern ih =>
    simp only [probe] at h
    split at h
    · rename_i c b₁ advanced
      have ahead := (advance_ahead advanced loaded).1
      split at h
      · exact ahead.trans (ih h ahead.loaded)
      · cases h
        exact ahead
    · cases h

theorem not_atEnd_of_probe {b b' : Buffer ρ} {expected : Char} {pattern : List Char}
    (h : b.probe (expected :: pattern) = (.ok true, b')) (mark : expected ≠ endMark) :
    ¬ b.AtEnd := by
  intro ended
  simp only [probe, advance_atEnd ended] at h
  split at h
  · exact mark (by simp_all)
  · cases h

/-- A question about the source leaves the buffer committed where it was. -/
theorem startsWith_ok {b b' : Buffer ρ} {pattern : String} {found : Bool}
    (h : b.startsWith pattern = (.ok found, b')) :
    b'.extent = 0 ∧ (b.extent = 0 → b'.near = b.near ∧ b'.start = b.start ∧
      b'.supply ≤ b.supply) := by
  simp only [startsWith] at h
  split at h
  · rename_i probed
    cases h
    refine ⟨rfl, fun committed => ?_⟩
    have ahead := probe_ahead probed (loaded_of_extent_eq_zero committed)
    exact ⟨ahead.near, ahead.start, ahead.supply⟩
  · cases h

theorem not_atEnd_of_startsWith {b b' : Buffer ρ} {pattern : String} {expected : Char}
    {rest : List Char} (h : b.startsWith pattern = (.ok true, b'))
    (eq : pattern.toList = expected :: rest) (mark : expected ≠ endMark) : ¬ b.AtEnd := by
  simp only [startsWith, eq] at h
  split at h
  · rename_i found _ probed
    cases h
    exact not_atEnd_of_probe probed mark
  · cases h

end

end Kaleidoscope.Buffer
