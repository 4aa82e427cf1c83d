import Kaleidoscope.Proofs.Source.Shadow

/-!
# What a buffer reports after failed reads

A load that fails has moved the cursor already, and what had come of the next block is lost to the
reader. If nothing had come and the cursor is taken back at once, no harm is done. Otherwise the cursor
stands in a chunk that does not hold what the source has there, and goes on.
-/

namespace Kaleidoscope.Buffer

section
variable {ρ : Type} [Reader ρ] {b b' : Buffer ρ} {source : List UInt8}

def moveAll (b : Buffer ρ) (motions : List Motion) : Buffer ρ :=
  motions.foldl (fun b m => (b.move m).2) b

/-- Each time a read fails in a session, it is because the cursor came to a block of which nothing had
been delivered, and the cursor is taken back at once. -/
def Recovers (b : Buffer ρ) : List Motion → Prop
  | [] => True
  | m :: ms =>
    (FailsToRead (b.move m).1 → m = .advance ∧ (Reader.fill b.reader chunkSize #[]).data = #[] ∧
      ∀ next ∈ ms.head?, next = .reset) ∧ (b.move m).2.Recovers ms

/-! ## Sound buffers -/

/-- `b` is what a buffer over `source` comes to without failures. -/
def Sound (b : Buffer ρ) (source : List UInt8) : Prop :=
  ∃ g w, b.Shadowed source g ∧ g.Shows source w

theorem new_shadowed {r : ρ} {name : String} (tells : Reader.Tells source r)
    (opened : Buffer.new r name = .ok b) :
    ∃ g, b.Shadowed source g ∧ g.Shows source (.ofSource source) := by
  have shadowed : (blank r name).Shadowed source ((blank r name).inMemory source 0) := ⟨0, tells, rfl⟩
  have loaded := loadNear_of_new opened
  obtain ⟨-, next⟩ := shadowed.loadNear (by rw [loaded]; exact not_failsToRead_ok ())
  obtain ⟨g, there, holds, start, extent⟩ :=
    loadNear_holds (b := (blank r name).inMemory source 0) rfl rfl rfl rfl rfl rfl (ByteReader.delivers source.toArray)
  rw [loaded, there] at next
  refine ⟨g, next, rfl, 0, holds, ?_, ?_⟩
  · simp [Window.ofSource, start]
  · simp [Window.ofSource, cursor, start, extent]

theorem new_sound {r : ρ} {name : String} (tells : Reader.Tells source r)
    (opened : Buffer.new r name = .ok b) : b.Sound source := by
  obtain ⟨g, shadowed, shows⟩ := new_shadowed tells opened
  exact ⟨g, _, shadowed, shows⟩

theorem Sound.move (h : b.Sound source) {m : Motion} (reads : ¬ FailsToRead (b.move m).1) :
    (b.move m).2.Sound source := by
  obtain ⟨g, w, shadowed, shows⟩ := h
  exact ⟨_, _, (shadowed.move m reads).2, (shows.move m).2⟩

theorem Shadowed.reset_of_failed {g : Buffer ByteReader} (h : b.Shadowed source g)
    (failed : FailsToRead b.advance.1) (empty : (Reader.fill b.reader chunkSize #[]).data = #[]) :
    b.advance.2.reset.Shadowed source g.reset := by
  obtain ⟨i, tells, rfl⟩ := h
  rcases b.advance_cases with stuck | ⟨room, -, -, moved⟩ | ⟨room, -, reply, moved⟩
  · rw [stuck]
    exact Shadowed.reset ⟨i, tells, rfl⟩
  · rw [moved] at failed
    exact absurd failed (not_failsToRead_ok _)
  · rw [reply, failsToRead_map] at failed
    have behind : ¬ (b.step b.peek room).far.Follows (b.step b.peek room).near := by
      intro follows
      rw [loadFar_of_follows follows] at failed
      exact not_failsToRead_ok () failed
    rw [moved]
    rcases Chunk.load_tells tells b.far b.near.nextStamp with
      ⟨c, r, j, here, -, -⟩ | ⟨cause, c, r, j, here, next, unchanged⟩
    · rw [loadFar_ok behind here] at failed
      exact absurd failed (not_failsToRead_ok ())
    · -- the chunk and the place in the source are the old ones; only the cursor has moved
      obtain ⟨rfl, rfl⟩ := unchanged empty
      rw [loadFar_error behind here]
      exact ⟨j, next, rfl⟩

theorem Sound.reset_of_failed (h : b.Sound source) (failed : FailsToRead b.advance.1)
    (empty : (Reader.fill b.reader chunkSize #[]).data = #[]) : b.advance.2.reset.Sound source := by
  obtain ⟨g, w, shadowed, shows⟩ := h
  exact ⟨_, _, shadowed.reset_of_failed failed empty, shows.reset⟩

/-- A session that recovers from each failure leaves a sound buffer, unless it ends with a failure. -/
theorem Sound.moveAll {motions : List Motion} (recovers : b.Recovers (motions ++ [.advance]))
    (h : b.Sound source ∨ b.reset.Sound source ∧ ∀ next ∈ (motions ++ [Motion.advance]).head?, next = .reset) :
    (b.moveAll motions).Sound source := by
  -- behind a failed read the buffer is sound only once the reset that comes next is done
  induction motions generalizing b with
  | nil =>
    rcases h with sound | ⟨-, back⟩
    · exact sound
    · cases back .advance rfl
  | cons m ms ih =>
    obtain ⟨here, later⟩ := recovers
    apply ih later
    rcases h with sound | ⟨sound, back⟩
    · by_cases failed : FailsToRead (b.move m).1
      · obtain ⟨rfl, empty, next⟩ := here failed
        exact .inr ⟨sound.reset_of_failed (failsToRead_map.mp failed) empty, next⟩
      · exact .inl (sound.move failed)
    · obtain rfl := back m rfl
      exact .inl sound

theorem Shows.passes {w : Window} {c : Char} (h : b.Shows source w) (passed : b.advance = (.ok c, b'))
    (moved : b'.pos.offset ≠ b.pos.offset) :
    ∃ byte, source[b.pos.offset]? = some byte ∧ c = latin1 byte ∧ b'.pos = b.pos.after c := by
  obtain ⟨-, k, holds, -, -⟩ := h
  by_cases ended : b.AtEnd
  · rw [advance_atEnd ended] at passed
    cases passed
    exact absurd rfl moved
  by_cases room : b.extent < maxLexeme
  · obtain ⟨b₁, eq, holds', start, extent⟩ := holds.advance ended room
    rw [eq] at passed
    cases passed
    have lt : chunkSize * k + b.cursor < source.length := by
      have le := holds.cursor_le
      rw [holds.atEnd_iff] at ended
      omega
    have text : (sourceText source)[chunkSize * k + b.cursor]? = some b.peek := by
      rw [holds.peek, List.getElem?_eq_getElem (by rwa [length_sourceText])]
      rfl
    have next : chunkSize * k + b'.cursor = chunkSize * k + b.cursor + 1 := by
      rw [cursor, start, extent]
      rfl
    rw [holds'.pos, holds.pos, next, Position.ofIndex_succ text]
    rw [sourceText, List.getElem?_map] at text
    obtain ⟨byte, here, latin⟩ := Option.map_eq_some_iff.mp text
    exact ⟨byte, here, latin.symm, rfl⟩
  · rw [advance_full ended room] at passed
    cases passed

/-- As long as a session recovers from each failed read, a cursor that moves passes the byte that the
source has at its offset. -/
theorem passes_source {r : ρ} {name : String} (tells : Reader.Tells source r)
    (opened : Buffer.new r name = .ok b) {motions : List Motion}
    (recovers : b.Recovers (motions ++ [.advance])) {c : Char}
    (passed : (b.moveAll motions).advance = (.ok c, b'))
    (moved : b'.pos.offset ≠ (b.moveAll motions).pos.offset) :
    ∃ byte, source[(b.moveAll motions).pos.offset]? = some byte ∧ c = latin1 byte ∧
      b'.pos = (b.moveAll motions).pos.after c := by
  obtain ⟨g, w, shadowed, shows⟩ := Sound.moveAll recovers (.inl (new_sound tells opened))
  obtain ⟨reply, next⟩ := shadowed.advance (by rw [passed]; exact not_failsToRead_ok c)
  rw [passed] at reply next
  rw [← next.pos, ← shadowed.pos] at moved ⊢
  exact shows.passes (Prod.ext reply rfl) moved

end

/-! ## Over the end of the first block -/

section
variable {ρ : Type} {b b' : Buffer ρ} {r r' : ρ} {n : Nat}

structure AtFirst (b : Buffer ρ) (r : ρ) : Prop where
  length : b.near.length = chunkSize
  stamp : b.near.stamp = 1
  far : b.far = .blank
  reader : b.reader = r
  start : b.start = 0
  extent : b.extent = 0
  offset : b.pos.offset = 0

structure Along (b b' : Buffer ρ) (n : Nat) : Prop where
  near : b'.near = b.near
  far : b'.far = b.far
  reader : b'.reader = b.reader
  start : b'.start = b.start
  startPos : b'.startPos = b.startPos
  extent : b'.extent = b.extent + n
  offset : b'.pos.offset = b.pos.offset + n

/-- `b` has loaded `near` alone. Its lexeme starts behind two characters and has `n`. -/
structure Begun (b : Buffer ρ) (near : Chunk) (r : ρ) (n : Nat) : Prop where
  near : b.near = near
  far : b.far = .blank
  reader : b.reader = r
  start : b.start = 2
  extent : b.extent = n
  startOffset : b.startPos.offset = 2
  offset : b.pos.offset = 2 + n

theorem not_atEnd_of_full (full : b.near.length = chunkSize) (inside : b.cursor < chunkSize) :
    ¬ b.AtEnd := by
  rintro ⟨-, le⟩
  rw [chunk, index, if_pos inside, if_pos inside] at le
  omega

variable [Reader ρ]

theorem new_atFirst {data : Array UInt8} (filled : Reader.fill r chunkSize #[] = ⟨data, none, r'⟩)
    (full : data.size = chunkSize) (name : String) : ∃ b, Buffer.new r name = .ok b ∧ b.AtFirst r' := by
  refine ⟨⟨name, r', ⟨data ++ Chunk.blank.data.extract data.size, data.size,
    decide (data.size < chunkSize), 1⟩, .blank, false, 0, 0, .start, .start, by decide, by decide⟩,
    ?_, full, rfl, rfl, rfl, rfl, rfl, rfl⟩
  unfold new
  simp only [loadNear, Chunk.load, filled]
  rfl

theorem moveAll_append (b : Buffer ρ) (ms ms' : List Motion) :
    b.moveAll (ms ++ ms') = (b.moveAll ms).moveAll ms' :=
  List.foldl_append

theorem moveAll_cons (b : Buffer ρ) (m : Motion) (ms : List Motion) :
    b.moveAll (m :: ms) = (b.move m).2.moveAll ms := rfl

theorem advances_along (full : b.near.length = chunkSize) (inside : b.cursor + n < chunkSize)
    (room : b.extent + n ≤ maxLexeme) :
    b.Along (b.moveAll (List.replicate n .advance)) n ∧ ∀ ms,
      (b.moveAll (List.replicate n .advance)).Recovers ms →
        b.Recovers (List.replicate n .advance ++ ms) := by
  induction n generalizing b with
  | zero => exact ⟨⟨rfl, rfl, rfl, rfl, rfl, rfl, rfl⟩, fun ms recovers => recovers⟩
  | succ n ih =>
    have more : b.extent < maxLexeme := by omega
    have here : b.move .advance = (.ok (some b.peek), b.step b.peek more) := by
      have moved := advance_inside (not_atEnd_of_full full (by omega)) more (by omega)
      rw [move, moved]
      rfl
    have cursor : (b.step b.peek more).cursor = b.cursor + 1 := rfl
    obtain ⟨along, recovers⟩ := ih (b := b.step b.peek more) full (by omega)
      (by rw [show (b.step b.peek more).extent = b.extent + 1 from rfl]; omega)
    have unfolded : b.moveAll (List.replicate (n + 1) .advance) =
        (b.step b.peek more).moveAll (List.replicate n .advance) := by
      rw [List.replicate_succ, moveAll_cons, here]
    rw [unfolded]
    refine ⟨⟨along.near, along.far, along.reader, along.start, along.startPos, ?_, ?_⟩,
      fun ms later => ?_⟩
    · rw [along.extent]
      show b.extent + 1 + n = _
      omega
    · rw [along.offset]
      show (b.pos.after b.peek).offset + n = _
      rw [Position.offset_after]
      omega
    · rw [List.replicate_succ, List.cons_append, Recovers, here]
      exact ⟨fun failed => absurd failed (not_failsToRead_ok _), recovers ms later⟩

theorem AtFirst.begun (h : b.AtFirst r) :
    (b.moveAll (List.replicate 2 .advance)).mark.Begun b.near r 0 ∧ ∀ ms,
      (b.moveAll (List.replicate 2 .advance)).mark.Recovers ms →
        b.Recovers (List.replicate 2 .advance ++ .mark :: ms) := by
  have cursor : b.cursor = 0 := by rw [Buffer.cursor, h.start, h.extent]
  obtain ⟨along, recovers⟩ := advances_along (n := 2) h.length (by rw [cursor]; decide)
    (by rw [h.extent]; decide)
  generalize b.moveAll (List.replicate 2 .advance) = b' at along recovers ⊢
  have passed : b'.cursor = 2 := by
    rw [Buffer.cursor, along.start, along.extent, h.start, h.extent]
  have inside : b'.cursor < chunkSize := by rw [passed]; decide
  have offset : b'.pos.offset = 2 := by rw [along.offset, h.offset]
  refine ⟨⟨?_, ?_, along.reader.trans h.reader, ?_, rfl, offset, offset⟩, fun ms later => ?_⟩
  · rw [← along.near]
    exact if_pos inside
  · rw [← h.far, ← along.far]
    exact if_pos inside
  · rw [← passed]
    exact if_pos inside
  · exact recovers _ ⟨fun failed => absurd failed (not_failsToRead_ok _), later⟩

theorem Begun.advances {near : Chunk} (h : b.Begun near r 0) (full : near.length = chunkSize)
    (inside : 2 + n < chunkSize) :
    (b.moveAll (List.replicate n .advance)).Begun near r n ∧ ∀ ms,
      (b.moveAll (List.replicate n .advance)).Recovers ms →
        b.Recovers (List.replicate n .advance ++ ms) := by
  have cursor : b.cursor = 2 := by rw [Buffer.cursor, h.start, h.extent]
  obtain ⟨along, recovers⟩ := advances_along (b := b) (n := n) (by rw [h.near, full])
    (by rw [cursor]; exact inside) (by rw [h.extent, maxLexeme]; omega)
  refine ⟨⟨along.near.trans h.near, along.far.trans h.far, along.reader.trans h.reader,
    along.start.trans h.start, ?_, ?_, ?_⟩, recovers⟩
  · rw [along.extent, h.extent, Nat.zero_add]
  · rw [along.startPos, h.startOffset]
  · rw [along.offset, h.offset]

/-- A second block that cannot be read leaves the cursor in the far chunk, which nothing came into. -/
theorem Begun.advance_fails {near : Chunk} {cause : SystemError}
    (h : b.Begun near r n) (brink : n + 3 = chunkSize) (full : near.length = chunkSize)
    (stamp : near.stamp = 1) (unread : Reader.fill r chunkSize #[] = ⟨#[], some cause, r'⟩) :
    b.advance.1 = .error (.cannotRead cause) ∧ b.advance.2.Begun near r' (n + 1) := by
  have cursor : b.cursor + 1 = chunkSize := by
    rw [Buffer.cursor, h.start, h.extent]
    omega
  have room : b.extent < maxLexeme := by
    rw [h.extent, maxLexeme]
    omega
  have behind : ¬ b.far.Follows b.near := by
    rw [h.far, h.near, Chunk.Follows, Chunk.nextStamp, stamp]
    decide
  have unloaded : b.far.load b.near.nextStamp b.reader = (.error cause, .blank, r') := by
    rw [h.reader, h.far]
    simp only [Chunk.load, unread]
    rfl
  have crossed := advance_crossing
    (not_atEnd_of_full (by rw [h.near, full]) (by omega)) room cursor
    (loadFar_error (b := b.step b.peek room) behind unloaded)
  rw [crossed]
  refine ⟨rfl, h.near, rfl, rfl, h.start, congrArg Nat.succ h.extent, h.startOffset, ?_⟩
  show (b.pos.after b.peek).offset = _
  rw [Position.offset_after, h.offset, Nat.add_assoc]

/-- Passes `n + 3` characters, with a lexeme that starts behind the first two. -/
def beyond (n : Nat) : List Motion :=
  List.replicate 2 .advance ++ .mark :: (List.replicate n .advance ++ [.advance])

theorem AtFirst.crosses {cause : SystemError} (h : b.AtFirst r) (block : n + 3 = chunkSize)
    (unread : Reader.fill r chunkSize #[] = ⟨#[], some cause, r'⟩) :
    (b.moveAll (beyond n)).Begun b.near r' (n + 1) ∧ ∀ ms,
      (b.moveAll (beyond n)).reset.Recovers ms → b.Recovers (beyond n ++ .reset :: ms) := by
  obtain ⟨begun, recovers⟩ := h.begun
  generalize two : b.moveAll (List.replicate 2 .advance) = b₁ at begun recovers
  obtain ⟨rest, recovers'⟩ := begun.advances (n := n) h.length (by omega)
  generalize later : b₁.mark.moveAll (List.replicate n .advance) = b₂ at rest recovers'
  obtain ⟨-, crossed⟩ := rest.advance_fails block h.length h.stamp unread
  have whole : b.moveAll (beyond n) = b₂.advance.2 := by
    rw [beyond, moveAll_append, two, moveAll_cons, move, moveAll_append, later]
    rfl
  rw [whole]
  refine ⟨crossed, fun ms after => ?_⟩
  rw [beyond, List.append_assoc, List.cons_append, List.append_assoc, List.singleton_append]
  refine recovers _ (recovers' _ ⟨?_, fun failed => absurd failed (not_failsToRead_ok _), after⟩)
  rw [rest.reader, unread]
  exact fun _ => ⟨rfl, rfl, fun next here => (Option.some.inj here).symm⟩

end

section
open FaultyReader

theorem new_stumbling {content : Array UInt8} (block : chunkSize ≤ content.size) (failures : Nat)
    (name : String) :
    ∃ b, Buffer.new (stumbling content 0 chunkSize 0 (failures + 1)) name = .ok b ∧
      b.AtFirst (stumbling content chunkSize chunkSize 1 (failures + 1)) := by
  have filled : Reader.fill (stumbling content 0 chunkSize 0 (failures + 1)) chunkSize #[] = _ :=
    fill_stumbling_before (by decide : 0 + chunkSize ≤ chunkSize) (by omega) (by decide) #[]
  rw [Nat.zero_add, Array.empty_append] at filled
  refine new_atFirst filled ?_ name
  rw [Array.size_extract]
  omega

def blockThenB : Array UInt8 := Array.replicate chunkSize 97 ++ #[98]

theorem chunkSize_le_blockThenB : chunkSize ≤ blockThenB.size := by
  rw [blockThenB, Array.size_append, Array.size_replicate]
  exact Nat.le_add_right _ _

theorem getElem?_blockThenB : blockThenB.toList[chunkSize]? = some 98 := by
  rw [blockThenB, Array.toList_append, Array.toList_replicate, List.getElem?_append_right (by simp),
    List.length_replicate, Nat.sub_self]
  rfl

/-- The reader fails once behind the first block, and the session goes back to where its lexeme
started. -/
theorem passes_source_after_failure :
    ∃ n b b' c, n + 3 = chunkSize ∧
      Reader.Tells blockThenB.toList (stumbling blockThenB 0 chunkSize 0 1) ∧
      Buffer.new (stumbling blockThenB 0 chunkSize 0 1) "a" = .ok b ∧
      b.Recovers (beyond n ++ [.reset] ++ [.advance]) ∧
      (b.moveAll (beyond n ++ [.reset])).advance = (.ok c, b') ∧
      b'.pos.offset ≠ (b.moveAll (beyond n ++ [.reset])).pos.offset ∧
      ∃ byte, blockThenB.toList[(b.moveAll (beyond n ++ [.reset])).pos.offset]? = some byte ∧
        c = latin1 byte := by
  obtain ⟨n, block⟩ : ∃ n, n + 3 = chunkSize := ⟨4093, rfl⟩
  have tells := stumbling_tells blockThenB chunkSize 1
  obtain ⟨b, opened, first⟩ := new_stumbling chunkSize_le_blockThenB 0 "a"
  obtain ⟨crossed, recovers⟩ := first.crosses block
    (fill_stumbling_at (Nat.le_refl chunkSize) (by decide) #[])
  -- the cursor is taken back from the block that could not be read
  generalize later : b.moveAll (beyond n) = b₁ at crossed recovers
  have back : b.moveAll (beyond n ++ [.reset]) = b₁.reset := by
    rw [moveAll_append, later]
    rfl
  have cursor : b₁.reset.cursor = 2 := crossed.start
  obtain ⟨c, b', passed, moved⟩ :
      ∃ c b', b₁.reset.advance = (.ok c, b') ∧ b'.pos.offset ≠ b₁.reset.pos.offset := by
    have room : b₁.reset.extent < maxLexeme := (by decide : 0 < maxLexeme)
    refine ⟨_, _, advance_inside (not_atEnd_of_full ?_ ?_) room ?_, ?_⟩
    · rw [← first.length, ← crossed.near]
      rfl
    · rw [cursor]
      decide
    · rw [cursor]
      decide
    · show (b₁.reset.pos.after _).offset ≠ _
      rw [Position.offset_after]
      exact Nat.succ_ne_self _
  have recovers' : b.Recovers (beyond n ++ [.reset] ++ [.advance]) := by
    rw [List.append_assoc]
    refine recovers _ ⟨?_, trivial⟩
    rw [move, passed]
    exact fun failed => absurd failed (not_failsToRead_ok _)
  rw [← back] at passed moved
  obtain ⟨byte, here, latin, -⟩ := passes_source tells opened recovers' passed moved
  exact ⟨n, b, _, _, block, tells, opened, recovers', passed, moved, byte, here, latin⟩

/-- A cursor that goes on in a block that could not be read passes a character which is not that of the
source: the letter behind the first block is lost. -/
theorem advance_stale_after_failure :
    ∃ n b b', n + 3 = chunkSize ∧
      Reader.Tells blockThenB.toList (stumbling blockThenB 0 chunkSize 0 1) ∧
      Buffer.new (stumbling blockThenB 0 chunkSize 0 1) "a" = .ok b ∧
      (b.moveAll (beyond n)).advance = (.ok endMark, b') ∧
      (b.moveAll (beyond n)).pos.offset = chunkSize ∧ b'.pos.offset = chunkSize + 1 ∧
      blockThenB.toList[chunkSize]? = some 98 ∧ endMark ≠ latin1 98 := by
  obtain ⟨n, block⟩ : ∃ n, n + 3 = chunkSize := ⟨4093, rfl⟩
  obtain ⟨b, opened, first⟩ := new_stumbling chunkSize_le_blockThenB 0 "a"
  obtain ⟨crossed, -⟩ := first.crosses block
    (fill_stumbling_at (Nat.le_refl chunkSize) (by decide) #[])
  generalize later : b.moveAll (beyond n) = b₁ at crossed
  have cursor : b₁.cursor = chunkSize := by
    rw [Buffer.cursor, crossed.start, crossed.extent]
    omega
  -- the cursor stands in the chunk that was never loaded
  have chunk : b₁.chunk = .blank := by
    rw [Buffer.chunk, cursor, if_neg (Nat.lt_irrefl _), crossed.far]
  have notEnded : ¬ b₁.AtEnd := by
    rw [AtEnd, chunk]
    rintro ⟨last, -⟩
    cases last
  have room : b₁.extent < maxLexeme := by
    rw [crossed.extent, maxLexeme]
    omega
  -- a chunk without bytes is read as end marks, and is not taken for the end
  have peek : b₁.peek = endMark := by
    rw [Buffer.peek, chunk]
    rfl
  have passed := advance_inside notEnded room (by omega)
  have offset : b₁.pos.offset = chunkSize := by
    rw [crossed.offset]
    omega
  rw [peek] at passed
  have moved : (b₁.step endMark room).pos.offset = chunkSize + 1 := by
    rw [← offset]
    exact Position.offset_after _ _
  rw [← later] at offset
  exact ⟨n, b, _, block, stumbling_tells blockThenB chunkSize 1, opened, later ▸ passed, offset, moved,
    getElem?_blockThenB, by decide⟩

end

end Kaleidoscope.Buffer
