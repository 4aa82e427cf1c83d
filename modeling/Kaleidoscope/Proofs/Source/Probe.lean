import Kaleidoscope.Proofs.Source.Rewinding
import Kaleidoscope.Proofs.Source.Split

/-!
# Asking how a source goes on

A pattern is compared with what is left of the source and with end marks behind it: a cursor at the end
stays there, and reads the end mark as often as it is asked. An answer takes the cursor back to the start
of the lexeme. An error leaves it where the error was met.
-/

namespace Kaleidoscope

/-! ## What a pattern is compared with -/

/-- `cs` begins with the characters of the pattern if end marks are read behind it. -/
def beginsWith (cs : List Char) : List Char → Bool
  | [] => true
  | expected :: pattern => cs.headD endMark == expected && beginsWith cs.tail pattern

theorem beginsWith_nil_iff {pattern : List Char} :
    beginsWith [] pattern = true ↔ pattern = List.replicate pattern.length endMark := by
  induction pattern with
  | nil => simp [beginsWith]
  | cons expected pattern ih =>
    rw [List.length_cons, List.replicate_succ, List.cons.injEq, ← ih, @eq_comm _ expected]
    simp [beginsWith]

/-- Only a pattern that ends with end marks can go on behind the text. -/
theorem beginsWith_iff {cs pattern : List Char} :
    beginsWith cs pattern = true ↔
      pattern <+: cs ∨ ∃ n, pattern = cs ++ List.replicate (n + 1) endMark := by
  induction pattern generalizing cs with
  | nil => simp [beginsWith]
  | cons expected pattern ih =>
    cases cs with
    | nil =>
      rw [beginsWith_nil_iff]
      constructor
      · exact fun marks => .inr ⟨pattern.length, marks⟩
      · rintro (inside | ⟨n, marks⟩)
        · cases List.prefix_nil.mp inside
        · rw [marks]
          simp
    | cons c cs =>
      rw [beginsWith, Bool.and_eq_true, List.tail_cons, ih, List.cons_prefix_cons, @eq_comm _ expected]
      simp [and_or_left, @eq_comm _ expected]

namespace Window

variable {w : Window}

theorem drop_atEnd (ended : w.AtEnd) : w.text.drop w.cursor = [] :=
  List.drop_eq_nil_of_le (Nat.le_of_eq ended.symm)

theorem drop_cursor (more : ¬ w.AtEnd) :
    w.text.drop w.cursor = w.peek :: w.text.drop (w.cursor + 1) := by
  rw [List.drop_eq_getElem_cons (cursor_lt more), ← get_cursor more]
  rfl

/-- A lexeme that has room for so many characters is too long for a pattern that goes on with the source
beyond them. -/
theorem probe_eq (pattern : List Char) (room : Nat) (left : w.cursor - w.start + room = maxLexeme) :
    (w.probe pattern).1 =
      if room < pattern.length ∧ room < (w.text.drop w.cursor).length ∧
          pattern.take room = (w.text.drop w.cursor).take room then
        .error (.lexemeTooLong w.startPos)
      else .ok (beginsWith (w.text.drop w.cursor) pattern) := by
  induction pattern generalizing w room with
  | nil => simp [probe, beginsWith]
  | cons expected pattern ih =>
    unfold probe advance
    by_cases ended : w.AtEnd
    · rw [dif_pos ended]
      have stays := ih room left
      rw [drop_atEnd ended] at stays ⊢
      by_cases same : endMark = expected
      · simpa [beginsWith, same] using stays
      · simp [beginsWith, same]
    · rw [dif_neg ended, drop_cursor ended]
      cases room with
      | zero =>
        rw [if_pos (by omega)]
        simp
      | succ room =>
        rw [if_neg (by omega), get_cursor ended]
        by_cases same : w.peek = expected
        · subst same
          have le := w.start_le
          have moved := ih (w := { w with
            cursor := w.cursor + 1
            start_le := Nat.le_succ_of_le le
            cursor_le := cursor_lt ended }) room (by dsimp only; omega)
          simpa [beginsWith, startPos] using moved
        · simp [beginsWith, same, Ne.symm same]

theorem startsWith_eq (w : Window) (pattern : String) :
    (w.startsWith pattern).1 = (w.probe pattern.toList).1 := by
  unfold startsWith
  split <;> rename_i probed <;> rw [probed]

end Window

namespace Buffer

section
variable {ρ : Type} [Reader ρ] {b b' : Buffer ρ} {source : List UInt8} {e : ScanError}

/-! ## Sessions in which no read fails -/

theorem Sound.startsWith (h : b.Sound source) {pattern : String}
    (reads : ¬ FailsToRead (b.startsWith pattern).1) : (b.startsWith pattern).2.Sound source := by
  obtain ⟨g, w, shadowed, shows⟩ := h
  exact ⟨_, _, (shadowed.startsWith pattern reads).2, (shows.startsWith pattern).2⟩

theorem sound_rewind (tells : Reader.Tells source b.reader) (reads : ¬ FailsToRead b.rewind.1) :
    b.rewind.2.Sound source := by
  obtain ⟨g, shadowed⟩ := exists_shadow tells.within
  obtain ⟨i, delivers⟩ := shadowed.delivers
  exact ⟨_, _, (shadowed.rewind reads).2, (rewind_shows delivers).2⟩

/-- A session in which no read fails leaves a buffer that is sound on the source it opened last. -/
theorem sound_performAll {r : ρ} {ops : List (Operation ρ)}
    (h : Reader.Tells source r → b.Sound source) (tells : Reader.Tells source (lastOpened r ops))
    (reads : ∀ reply ∈ b.replies ops, ¬ FailsToRead reply) : (b.performAll ops).Sound source := by
  induction ops generalizing b r with
  | nil => exact h tells
  | cons op ops ih =>
    obtain ⟨here, later⟩ := List.forall_mem_cons.mp reads
    cases op with
    | move m => exact ih (fun first => (h first).move (mt failsToRead_map.mpr here)) tells later
    | startsWith pattern =>
      exact ih (fun first => (h first).startsWith (mt failsToRead_map.mpr here)) tells later
    | reopen path opened =>
      cases opened with
      | ok r' =>
        exact ih (fun first => sound_rewind (b := { b with reader := r', name := path }) first here)
          tells later
      | error cause => exact ih h tells later

/-! ## Patterns and sources -/

theorem Shows.exists_room {w : Window} (h : b.Shows source w) :
    ∃ room, w.cursor - w.start + room = maxLexeme := by
  obtain ⟨-, k, -, start, cursor⟩ := h
  have le := b.extent_le
  refine ⟨maxLexeme - b.extent, ?_⟩
  rw [start, cursor, Buffer.cursor]
  omega

theorem Shows.pos {w : Window} (h : b.Shows source w) : b.pos = w.pos :=
  congrArg View.pos h.view

theorem Shows.startPos {w : Window} (h : b.Shows source w) : b.startPos = w.startPos :=
  congrArg View.startPos h.view

/-- A pattern with which the source goes on is too long if the lexeme has no room for it. -/
theorem Shows.startsWith_tooLong {w : Window} {pattern : String} (h : b.Shows source w)
    (begins : pattern.toList <+: w.text.drop w.cursor)
    (long : maxLexeme < w.cursor - w.start + pattern.toList.length) :
    (b.startsWith pattern).1 = .error (.lexemeTooLong b.startPos) := by
  obtain ⟨room, left⟩ := h.exists_room
  rw [(h.startsWith pattern).1, Window.startsWith_eq, Window.probe_eq _ room left, h.startPos, if_pos]
  have short : room < pattern.toList.length := by omega
  refine ⟨short, Nat.lt_of_lt_of_le short begins.length_le, ?_⟩
  obtain ⟨rest, join⟩ := begins
  rw [← join, List.take_append_of_le_length (Nat.le_of_lt short)]

theorem Sound.beginsWith {pattern : String} {found : Bool} (h : b.Sound source)
    (answered : b.startsWith pattern = (.ok found, b')) :
    found = beginsWith ((sourceText source).drop b.pos.offset) pattern.toList := by
  obtain ⟨g, w, shadowed, shows⟩ := h
  obtain ⟨same, -⟩ := shadowed.startsWith pattern (by rw [answered]; exact not_failsToRead_ok found)
  obtain ⟨room, left⟩ := shows.exists_room
  have offset : b.pos.offset = w.cursor := by
    rw [← shadowed.pos, shows.pos]
    rfl
  have probed := Window.probe_eq pattern.toList room left
  rw [← Window.startsWith_eq, ← (shows.startsWith pattern).1, same, answered, shows.1, ← offset] at probed
  split at probed
  · cases probed
  · exact Except.ok.inj probed

/-- As long as no read fails, an answer says whether the source goes on with the pattern from the cursor
on, or ends there and the pattern goes on with end marks alone. -/
theorem startsWith_iff {r : ρ} {name : String} (opened : Buffer.new r name = .ok b)
    (ops : List (Operation ρ)) (tells : Reader.Tells source (lastOpened r ops))
    (reads : ∀ reply ∈ b.replies ops, ¬ FailsToRead reply) {pattern : String} {found : Bool}
    (answered : (b.performAll ops).startsWith pattern = (.ok found, b')) :
    let rest := (sourceText source).drop (b.performAll ops).pos.offset
    found = true ↔
      pattern.toList <+: rest ∨ ∃ n, pattern.toList = rest ++ List.replicate (n + 1) endMark := by
  have sound : (b.performAll ops).Sound source :=
    sound_performAll (fun first => new_sound first opened) tells reads
  intro rest
  rw [sound.beginsWith answered]
  exact beginsWith_iff

theorem Splits.startsWith_endMark {before lexeme : List Char} (h : b.Splits source before lexeme []) :
    b.startsWith "\x00" = (.ok true, b.reset) := by
  have passed : b.probe "\x00".toList = (.ok true, b) := by
    rw [show "\x00".toList = [endMark] from rfl, Buffer.probe, h.advance_nil]
    simp [Buffer.probe]
  rw [Buffer.startsWith, passed]

end

/-- Behind the only character of a source the end mark is found. -/
theorem startsWith_iff_pieces :
    let r := FaultyReader.ofBytes #[97] ⟨some 1, 2, none, false⟩ none
    ∃ b b', Buffer.new r "a" = .ok b ∧ Reader.Tells [97] (lastOpened r [.move .advance]) ∧
      (∀ reply ∈ b.replies [.move .advance], ¬ FailsToRead reply) ∧
      (b.performAll [.move .advance]).startsWith "\x00" = (.ok true, b') ∧
      let rest := (sourceText [97]).drop (b.performAll [.move .advance]).pos.offset
      (true = true ↔ "\x00".toList <+: rest ∨
        ∃ n, "\x00".toList = rest ++ List.replicate (n + 1) endMark) := by
  have tells := FaultyReader.tells #[97] ⟨some 1, 2, none, false⟩ none (by decide)
  obtain ⟨b, opened, splits⟩ := new_splits (FaultyReader.delivers #[97] ⟨some 1, 2, none, false⟩ none
    rfl rfl (by decide)) "a"
  have one : b.Splits [97] [] [] ['a'] := splits
  obtain ⟨b₁, passed, ended⟩ := one.advance (by decide)
  have moved : b.performAll [.move .advance] = b₁ := by rw [performAll_advance, passed]
  have reads : ∀ reply ∈ b.replies [.move .advance], ¬ FailsToRead reply := by
    refine List.forall_mem_singleton.mpr ?_
    rw [perform, move, passed]
    exact not_failsToRead_ok ()
  have answered : (b.performAll [.move .advance]).startsWith "\x00" = (.ok true, b₁.reset) := by
    rw [moved, ended.startsWith_endMark]
  exact ⟨b, b₁.reset, opened, tells, reads, answered, startsWith_iff opened _ tells reads answered⟩

/-- An empty source begins with the end mark. -/
theorem startsWith_endMark_empty :
    ∃ b, Buffer.new (ByteReader.ofBytes #[]) "a" = .ok b ∧ b.startsWith "\x00" = (.ok true, b.reset) ∧
      ¬ "\x00".toList <+: (sourceText []).drop b.pos.offset := by
  obtain ⟨b, opened, splits⟩ := new_splits (ByteReader.delivers #[]) "a"
  refine ⟨b, opened, splits.startsWith_endMark, ?_⟩
  rw [List.drop_eq_nil_of_le (Nat.zero_le _), List.prefix_nil]
  exact List.cons_ne_nil endMark []

section
variable {ρ : Type} [Reader ρ] {b b' : Buffer ρ} {e : ScanError}

/-! ## Where a pattern leaves the cursor -/

def Spans (b : Buffer ρ) : Prop := b.pos.offset = b.startPos.offset + b.extent

theorem loadFar_positions (b : Buffer ρ) :
    b.loadFar.2.startPos = b.startPos ∧ b.loadFar.2.pos = b.pos := by
  unfold loadFar
  split
  · exact ⟨rfl, rfl⟩
  · split <;> exact ⟨rfl, rfl⟩

theorem startPos_advance (b : Buffer ρ) : b.advance.2.startPos = b.startPos := by
  rcases b.advance_cases with stuck | ⟨room, -, -, moved⟩ | ⟨room, -, -, loaded⟩
  · rw [stuck]
  · rw [moved]
    rfl
  · rw [loaded, (loadFar_positions _).1]
    rfl

namespace Spans

omit [Reader ρ] in
theorem step (h : b.Spans) (c : Char) (room : b.extent < maxLexeme) : (b.step c room).Spans := by
  show (b.pos.after c).offset = b.startPos.offset + (b.extent + 1)
  rw [Position.offset_after, h, Nat.add_assoc]

theorem advance (h : b.Spans) : b.advance.2.Spans := by
  rcases b.advance_cases with stuck | ⟨room, -, -, moved⟩ | ⟨room, -, -, loaded⟩
  · rw [stuck]
    exact h
  · rw [moved]
    exact h.step b.peek room
  · obtain ⟨startPos, pos⟩ := loadFar_positions (b.step b.peek room)
    obtain ⟨-, -, extent⟩ := loadFar_eq (b.step b.peek room)
    rw [loaded, Spans, startPos, pos, extent]
    exact h.step b.peek room

theorem loadNear (h : b.Spans) : b.loadNear.2.Spans := by
  unfold Buffer.loadNear
  split <;> exact h

theorem rewind (h : b.Spans) : b.rewind.2.Spans := by
  unfold Buffer.rewind
  split
  · exact h
  · exact loadNear rfl

theorem perform (h : b.Spans) (op : Operation ρ) : (b.perform op).2.Spans := by
  cases op with
  | move m =>
    cases m with
    | advance => exact h.advance
    | mark => exact rfl
    | reset => exact rfl
    | rewind => exact h.rewind
  | startsWith pattern => exact startsWith_keeps (P := Spans) advance (fun _ => rfl) h pattern
  | reopen path opened =>
    cases opened with
    | ok reader => exact rewind (b := { b with reader := reader, name := path }) h
    | error cause => exact h

theorem performAll (h : b.Spans) (ops : List (Operation ρ)) : (b.performAll ops).Spans :=
  performAll_keeps (P := Spans) (fun op h => h.perform op) h ops

end Spans

theorem new_spans {r : ρ} {name : String} (opened : Buffer.new r name = .ok b) : b.Spans := by
  have loaded := Spans.loadNear (b := blank r name) rfl
  rwa [loadNear_of_new opened] at loaded

def StoppedBy (b : Buffer ρ) (e : ScanError) : Prop :=
  e = .lexemeTooLong b.startPos ∧ b.extent = maxLexeme ∨
    (∃ cause, e = .cannotRead cause) ∧ b.cursor = chunkSize

theorem stoppedBy_loadFar (crosses : b.cursor = chunkSize) (failed : b.loadFar = (.error e, b')) :
    b'.StoppedBy e := by
  obtain ⟨-, start, extent⟩ := loadFar_eq b
  rw [failed] at start extent
  refine .inr ⟨?_, by rw [cursor, start, extent, ← crosses, cursor]⟩
  unfold loadFar at failed
  split at failed
  · cases failed
  · split at failed
    · cases failed
    · cases failed
      exact ⟨_, rfl⟩

theorem stoppedBy_advance (failed : b.advance = (.error e, b')) : b'.StoppedBy e := by
  by_cases ended : b.AtEnd
  · rw [advance_atEnd ended] at failed
    cases failed
  by_cases room : b.extent < maxLexeme
  · by_cases crosses : b.cursor + 1 = chunkSize
    · cases loaded : (b.step b.peek room).loadFar with
      | mk result b₁ =>
        rw [advance_crossing ended room crosses loaded] at failed
        cases result with
        | ok => cases failed
        | error cause =>
          cases failed
          exact stoppedBy_loadFar (b := b.step b.peek room) crosses loaded
    · rw [advance_inside ended room crosses] at failed
      cases failed
  · rw [advance_full ended room] at failed
    cases failed
    exact .inl ⟨rfl, Nat.le_antisymm b.extent_le (Nat.le_of_not_lt room)⟩

theorem stoppedBy_probe {pattern : List Char} (failed : b.probe pattern = (.error e, b')) :
    b'.StoppedBy e := by
  induction pattern generalizing b with
  | nil => cases failed
  | cons expected pattern ih =>
    unfold Buffer.probe at failed
    split at failed
    · split at failed
      · exact ih failed
      · cases failed
    · rename_i stopped
      cases failed
      exact stoppedBy_advance stopped

theorem stoppedBy_startsWith {pattern : String} (failed : (b.startsWith pattern).1 = .error e) :
    (b.startsWith pattern).2.StoppedBy e := by
  unfold Buffer.startsWith at failed ⊢
  split at failed
  · cases failed
  · rename_i stopped
    cases failed
    exact stoppedBy_probe stopped

theorem startsWith_of_advance {pattern : String} {c : Char} {cs : List Char}
    (unread : b.advance.1 = .error e) (some : pattern.toList = c :: cs) :
    (b.startsWith pattern).1 = .error e := by
  unfold Buffer.startsWith
  rw [some, Buffer.probe]
  cases moved : b.advance with
  | mk result b₁ =>
    rw [moved] at unread
    obtain rfl : result = .error e := unread
    rfl

theorem reset_of_startsWith {pattern : String} {found : Bool}
    (answered : (b.startsWith pattern).1 = .ok found) :
    ∃ b₁ : Buffer ρ, (b.startsWith pattern).2 = b₁.reset := by
  unfold Buffer.startsWith at answered ⊢
  split at answered
  · exact ⟨_, rfl⟩
  · cases answered

theorem startPos_startsWith (b : Buffer ρ) (pattern : String) :
    (b.startsWith pattern).2.startPos = b.startPos :=
  startsWith_keeps (P := fun b' => b'.startPos = b.startPos)
    (fun same => (startPos_advance _).trans same) (fun same => same) rfl pattern

omit [Reader ρ] in
theorem lexeme?_of_committed (committed : b.extent = 0) : b.lexeme? = some [] := by
  have cursor : b.cursor = b.start := by rw [cursor, committed, Nat.add_zero]
  rw [lexeme?, cursor, if_pos b.start_lt, Chunk.slice, Nat.sub_self]
  rfl

theorem startsWith_error (spans : b.Spans) {pattern : String}
    (failed : (b.startsWith pattern).1 = .error e) :
    let left := (b.startsWith pattern).2
    left.startPos.offset < left.pos.offset ∧
      (e = .lexemeTooLong b.startPos ∧ left.pos.offset = left.startPos.offset + maxLexeme ∨
        (∃ cause, e = .cannotRead cause) ∧ left.cursor = chunkSize) := by
  intro left
  have apart : left.Spans := startsWith_keeps (P := Spans) Spans.advance (fun _ => rfl) spans pattern
  rw [← startPos_startsWith b pattern, apart]
  rcases stoppedBy_startsWith failed with ⟨tooLong, full⟩ | ⟨unread, crossed⟩
  · rw [full]
    exact ⟨Nat.lt_add_of_pos_right (by decide), .inl ⟨tooLong, rfl⟩⟩
  · have lt := left.start_lt
    refine ⟨Nat.lt_add_of_pos_right ?_, .inr ⟨unread, crossed⟩⟩
    change left.start + left.extent = chunkSize at crossed
    omega

/-- Whatever failed before, asking for a pattern keeps the start of the lexeme, and with an answer the
cursor is back there. With an error it is not: it stands behind a full lexeme, or where the chunk starts
that could not be read. -/
theorem startsWith_leaves {r : ρ} {name : String} (opened : Buffer.new r name = .ok b)
    (ops : List (Operation ρ)) (pattern : String) :
    let asked := b.performAll ops
    let left := (asked.startsWith pattern).2
    left.startPos = asked.startPos ∧
    (∀ found, (asked.startsWith pattern).1 = .ok found →
      left.pos = left.startPos ∧ left.lexeme? = some []) ∧
    (∀ e, (asked.startsWith pattern).1 = .error e → left.startPos.offset < left.pos.offset ∧
      (e = .lexemeTooLong asked.startPos ∧ left.pos.offset = left.startPos.offset + maxLexeme ∨
        (∃ cause, e = .cannotRead cause) ∧ left.cursor = chunkSize)) := by
  intro asked left
  refine ⟨startPos_startsWith asked pattern, fun found answered => ?_, fun e failed => ?_⟩
  · obtain ⟨b₁, back⟩ : ∃ b₁ : Buffer ρ, left = b₁.reset := reset_of_startsWith answered
    rw [back]
    exact ⟨rfl, lexeme?_of_committed rfl⟩
  · exact startsWith_error ((new_spans opened).performAll ops) failed

end

section
open FaultyReader

/-- The second block cannot be read once, and a pattern goes over the end of the first. -/
theorem startsWith_leaves_after_failure :
    ∃ n b, n + 3 = chunkSize ∧ Buffer.new (stumbling blockThenB 0 chunkSize 0 1) "a" = .ok b ∧
      let motions : List Motion := List.replicate 2 .advance ++ .mark :: List.replicate n .advance
      let asked := b.performAll (motions.map .move)
      let left := (asked.startsWith "ab").2
      (asked.startsWith "ab").1 = .error (.cannotRead readFailure) ∧
        left.startPos = asked.startPos ∧ left.startPos.offset < left.pos.offset := by
  obtain ⟨n, block⟩ : ∃ n, n + 3 = chunkSize := ⟨4093, rfl⟩
  obtain ⟨b, opened, first⟩ := new_stumbling chunkSize_le_blockThenB 0 "a"
  let motions : List Motion := List.replicate 2 .advance ++ .mark :: List.replicate n .advance
  have brink : (b.performAll (motions.map .move)).Begun b.near
      (stumbling blockThenB chunkSize chunkSize 1 1) n := by
    rw [performAll_moves, moveAll_append, moveAll_cons]
    exact (first.begun.1.advances first.length (by omega)).1
  have unread : (b.performAll (motions.map .move)).advance.1 = .error (.cannotRead readFailure) :=
    (brink.advance_fails block first.length first.stamp
      (fill_stumbling_at (Nat.le_refl chunkSize) (by decide) #[])).1
  have failed : ((b.performAll (motions.map .move)).startsWith "ab").1 =
      .error (.cannotRead readFailure) :=
    startsWith_of_advance unread rfl
  obtain ⟨startPos, -, stopped⟩ := startsWith_leaves opened (motions.map .move) "ab"
  exact ⟨n, b, block, opened, failed, startPos, (stopped _ failed).1⟩

/-- A pattern of a whole block goes on with the source beyond a full lexeme. -/
theorem startsWith_leaves_cursor :
    ∃ b, Buffer.new (ByteReader.ofBytes (Array.replicate chunkSize 97)) "a" = .ok b ∧
      let pattern := String.ofList (List.replicate chunkSize 'a')
      let left := (b.startsWith pattern).2
      (b.startsWith pattern).1 = .error (.lexemeTooLong .start) ∧
        left.startPos = .start ∧ left.pos.offset = maxLexeme := by
  obtain ⟨b, opened, shows⟩ := new_shows (ByteReader.delivers (Array.replicate chunkSize 97)) "a"
  generalize spelled : String.ofList (List.replicate chunkSize 'a') = pattern
  have block : pattern.toList = List.replicate chunkSize 'a' := by rw [← spelled, String.toList_ofList]
  have start : b.startPos = .start := by
    rw [shows.startPos]
    exact Position.ofIndex_zero _
  have failed : (b.startsWith pattern).1 = .error (.lexemeTooLong .start) := by
    rw [← start]
    refine shows.startsWith_tooLong ?_ ?_
    · rw [block, shows.1, sourceText, Array.toList_replicate, List.map_replicate]
      exact List.prefix_refl _
    · rw [block, List.length_replicate]
      decide
  obtain ⟨-, stopped⟩ := startsWith_error (new_spans opened) failed
  have kept := startPos_startsWith b pattern
  refine ⟨b, opened, failed, kept.trans start, ?_⟩
  rcases stopped with ⟨-, full⟩ | ⟨⟨cause, other⟩, -⟩
  · rw [full, kept, start]
    rfl
  · cases other

end

end Buffer

end Kaleidoscope
