import Kaleidoscope.Proofs.Source.Probe
import Kaleidoscope.Proofs.Token.Keeping

/-!
# The order of positions

Lines and columns are counted apart from the offset, and set back with it. All three belong to an index of
the source, so positions are in the order of their offsets, and tokens stand in the order in which they are
found.
-/

namespace Kaleidoscope

/-! ## Positions -/

namespace Position

theorem compare_eq_gt {p q : Position} : compare p q = .gt ↔ compare q p = .lt := by
  have unfolded : compare p q = (compare p.line q.line).then
      ((compare p.column q.column).then (compare p.offset q.offset)) := rfl
  rw [unfolded, Ordering.then_eq_gt, Ordering.then_eq_gt, compare_eq_lt]
  simp only [Nat.compare_eq_gt, Nat.compare_eq_eq, @eq_comm _ p.line, @eq_comm _ p.column]

theorem compare_self (p : Position) : compare p p = .eq := by
  have unfolded : compare p p = (compare p.line p.line).then
      ((compare p.column p.column).then (compare p.offset p.offset)) := rfl
  rw [unfolded, Nat.compare_eq_eq.mpr rfl, Nat.compare_eq_eq.mpr rfl, Nat.compare_eq_eq.mpr rfl]
  rfl

theorem compare_ofIndex_eq {cs : List Char} {i j : Nat} (lei : i ≤ cs.length) (lej : j ≤ cs.length) :
    compare (ofIndex cs i) (ofIndex cs j) = compare i j := by
  rcases Nat.lt_trichotomy i j with lt | rfl | gt
  · rw [compare_ofIndex lt lej, Nat.compare_eq_lt.mpr lt]
  · rw [compare_self, Nat.compare_eq_eq.mpr rfl]
  · rw [Nat.compare_eq_gt.mpr gt, compare_eq_gt]
    exact compare_ofIndex gt lei

def AtMost (p q : Position) : Prop := p = q ∨ compare p q = .lt

namespace AtMost

variable {p q r : Position}

theorem refl (p : Position) : p.AtMost p := .inl rfl

theorem trans_lt (h : p.AtMost q) (lt : compare q r = .lt) : compare p r = .lt := by
  rcases h with rfl | before
  · exact lt
  · rw [compare_eq_lt] at before lt ⊢
    omega

theorem lt_trans (lt : compare p q = .lt) (h : q.AtMost r) : compare p r = .lt := by
  rcases h with rfl | before
  · exact lt
  · exact trans_lt (.inr lt) before

theorem trans (h : p.AtMost q) (h' : q.AtMost r) : p.AtMost r := by
  rcases h' with rfl | behind
  · exact h
  · exact .inr (h.trans_lt behind)

theorem lt_of_offset (h : p.AtMost q) (lt : p.offset < q.offset) : compare p q = .lt := by
  rcases h with rfl | before
  · exact absurd lt (Nat.lt_irrefl _)
  · exact before

theorem after (h : p.AtMost q) (c : Char) : p.AtMost (q.after c) :=
  .inr (h.trans_lt (compare_after q c))

theorem ofIndex {cs : List Char} {i j : Nat} (le : i ≤ j) (inside : j ≤ cs.length) :
    (ofIndex cs i).AtMost (.ofIndex cs j) := by
  rcases Nat.lt_or_eq_of_le le with lt | rfl
  · exact .inr (compare_ofIndex lt inside)
  · exact .refl _

end AtMost

end Position

/-! ## Buffers -/

namespace Buffer

section
variable {ρ : Type} {b : Buffer ρ} {source : List UInt8} {p q : Position}

def positions (b : Buffer ρ) : List Position := [b.startPos, b.pos]

variable [Reader ρ]

theorem Sound.indices (h : b.Sound source) : ∃ i j, i ≤ j ∧ j ≤ (sourceText source).length ∧
    b.startPos = .ofIndex (sourceText source) i ∧ b.pos = .ofIndex (sourceText source) j := by
  obtain ⟨g, w, shadowed, shows⟩ := h
  have view : b.view = w.view := shadowed.view.symm.trans shows.view
  have startPos : b.startPos = w.startPos := congrArg View.startPos view
  have pos : b.pos = w.pos := congrArg View.pos view
  rw [← shows.1]
  exact ⟨w.start, w.cursor, w.start_le, w.cursor_le, startPos, pos⟩

theorem Sound.position (h : b.Sound source) (reported : p ∈ b.positions) :
    ∃ i ≤ (sourceText source).length, p = .ofIndex (sourceText source) i := by
  obtain ⟨i, j, le, inside, startPos, pos⟩ := h.indices
  rcases List.mem_cons.mp reported with rfl | other
  · exact ⟨i, Nat.le_trans le inside, startPos⟩
  · obtain rfl := List.mem_singleton.mp other
    exact ⟨j, inside, pos⟩

theorem Sound.compare_positions {ρ' : Type} [Reader ρ'] {b' : Buffer ρ'} (h : b.Sound source)
    (h' : b'.Sound source) (reported : p ∈ b.positions) (reported' : q ∈ b'.positions) :
    compare p q = compare p.offset q.offset ∧ (p = q ↔ p.offset = q.offset) := by
  obtain ⟨i, lei, rfl⟩ := h.position reported
  obtain ⟨j, lej, rfl⟩ := h'.position reported'
  refine ⟨Position.compare_ofIndex_eq lei lej, fun same => ?_, fun same => ?_⟩
  · rw [same]
  · rw [show i = j from same]

structure Past (p : Position) (b : Buffer ρ) : Prop where
  start : p.AtMost b.startPos
  order : b.startPos.AtMost b.pos
  spans : b.Spans

namespace Past

theorem advance (h : b.Past p) : b.advance.2.Past p := by
  refine ⟨?_, ?_, h.spans.advance⟩
  · rw [startPos_advance]
    exact h.start
  · rw [startPos_advance]
    rcases b.advance_cases with stuck | ⟨room, -, -, moved⟩ | ⟨room, -, -, loaded⟩
    · rw [stuck]
      exact h.order
    · rw [moved]
      exact h.order.after b.peek
    · rw [loaded, (loadFar_positions _).2]
      exact h.order.after b.peek

omit [Reader ρ] in
theorem mark (h : b.Past p) : b.mark.Past p := ⟨h.start.trans h.order, .refl _, rfl⟩

omit [Reader ρ] in
theorem reset (h : b.Past p) : b.reset.Past p := ⟨h.start, .refl _, rfl⟩

theorem of_sound (h : b.Sound source) (spans : b.Spans) : b.Past b.startPos := by
  obtain ⟨i, j, le, inside, startPos, pos⟩ := h.indices
  refine ⟨.refl _, ?_, spans⟩
  rw [startPos, pos]
  exact .ofIndex le inside

theorem kept (p : Position) : Kept (fun b : Buffer ρ => b.Past p) where
  advance := advance
  mark := mark
  reset := reset

omit [Reader ρ] in
theorem here (h : b.Past p) : b.Past b.startPos := ⟨.refl _, h.order, h.spans⟩

omit [Reader ρ] in
/-- The next lexeme starts behind one that is not empty. -/
theorem lt_mark (h : b.Past p) (moved : 0 < b.extent) : compare p b.mark.startPos = .lt := by
  have spans : b.pos.offset = b.startPos.offset + b.extent := h.spans
  exact h.start.trans_lt (h.order.lt_of_offset (by omega))

end Past

/-! ## Lexemes -/

variable {b' : Buffer ρ}

theorem number_behind {value : Float} (h : b.Past p) (committed : b.extent = 0)
    (found : b.number = (.ok (some value), b')) : compare p b'.startPos = .lt := by
  unfold number at found
  split at found
  · rename_i taken
    have past := holds_behind ((Past.kept p).takeLiteral h .start) taken
    split at found
    · cases found
      have moved := (takeLiteral_start taken (loaded_of_extent_eq_zero committed)).2
      exact past.lt_mark (by omega)
    · cases found
  · cases found
  · cases found

theorem word_behind {text : String} (h : b.Past p) (committed : b.extent = 0)
    (found : b.word = (.ok (some text), b')) : compare p b'.startPos = .lt := by
  unfold word at found
  split at found
  · rename_i inside
    split at found
    · rename_i taken
      cases found
      have past := holds_behind ((Past.kept p).takeWord h) taken
      have moved := (takeWord_ok taken (loaded_of_extent_eq_zero committed)).2.2 inside
      exact past.lt_mark (by omega)
    · cases found
  · cases found

theorem oneOf_behind {candidates : List String} {text : String} (h : b.Past p) (committed : b.extent = 0)
    (findable : ∀ text ∈ candidates, Findable text)
    (found : b.oneOf candidates = (.ok (some text), b')) : compare p b'.startPos = .lt := by
  induction candidates generalizing b with
  | nil => cases found
  | cons candidate candidates ih =>
    obtain ⟨⟨c, rest, spelled, mark⟩, others⟩ := List.forall_mem_cons.mp findable
    unfold oneOf at found
    split at found
    · rename_i b₁ asked
      have past := holds_behind ((Past.kept p).startsWith h candidate) asked
      obtain ⟨committed₁, same⟩ := startsWith_ok asked
      obtain ⟨near, start, -⟩ := same committed
      have more : ¬ b₁.AtEnd := by
        have more₀ := not_atEnd_of_startsWith asked spelled mark
        rwa [atEnd_iff_of_extent_eq_zero committed, ← near, ← start,
          ← atEnd_iff_of_extent_eq_zero committed₁] at more₀
      split at found
      · rename_i skipped
        have past₂ := holds_behind ((Past.kept p).skip past candidate.length) skipped
        cases found
        rw [← String.length_toList, spelled, List.length_cons] at skipped
        have moved := (skip_succ_ok skipped (loaded_of_extent_eq_zero committed₁) more).2
        exact past₂.lt_mark (by omega)
      · cases found
    · rename_i asked
      have past := holds_behind ((Past.kept p).startsWith h candidate) asked
      exact ih past (startsWith_ok asked).1 others found
    · cases found

theorem punctuator_behind {text : String} (h : b.Past p) (committed : b.extent = 0)
    (found : b.punctuator = (.ok (some text), b')) : compare p b'.startPos = .lt := by
  unfold punctuator at found
  split at found
  · rename_i b₁ missing
    have past := holds_behind ((Past.kept p).oneOf h Punctuator.long) missing
    split at found
    · rename_i single
      have more : ¬ b₁.AtEnd := by
        refine not_atEnd_of_peek_ne fun mark => ?_
        rw [mark, show Punctuator.single? endMark = none by decide] at single
        cases single
      split at found
      · rename_i advanced
        cases found
        have past₂ := holds_behind past.advance advanced
        have moved := (advance_ok advanced more).2.2.2.1
        exact past₂.lt_mark (by omega)
      · cases found
    · cases found
  · exact oneOf_behind h committed findable_long found

end

end Buffer

/-! ## Tokens -/

namespace TokenStream

section
variable {ρ : Type} [Reader ρ] {s s' : TokenStream ρ} {p : Position}

theorem kind_behind {kind : TokenKind} (h : s.buffer.Past p) (committed : s.buffer.extent = 0)
    (found : s.kind = (.ok kind, s')) (more : kind ≠ .endOfInput) :
    compare p s'.buffer.startPos = .lt := by
  have kept := Buffer.Past.kept (ρ := ρ) p
  simp only [TokenStream.kind] at found
  split at found
  · cases found
  · rename_i number
    cases found
    exact Buffer.number_behind h committed number
  · rename_i b₁ number
    have past₁ : b₁.Past p := Buffer.holds_behind (kept.number h) number
    have committed₁ := (Buffer.number_settled number committed).1
    split at found
    · cases found
    · rename_i word
      cases found
      exact Buffer.word_behind past₁ committed₁ word
    · rename_i b₂ word
      have past₂ : b₂.Past p := Buffer.holds_behind (kept.word past₁) word
      have committed₂ := (Buffer.word_settled word committed₁).1
      split at found
      · cases found
      · rename_i punctuator
        cases found
        exact Buffer.punctuator_behind past₂ committed₂ punctuator
      · split at found
        · cases found
          exact absurd rfl more
        · cases found

/-- A token is found at `p` or behind it, and the next lexeme starts behind the token. -/
theorem next_behind {t : Token} (h : s.buffer.Past p) (found : s.next = (.ok t, s')) :
    p.AtMost t.pos ∧ (t.isEnd = false → compare t.pos s'.buffer.startPos = .lt) := by
  simp only [TokenStream.next] at found
  split at found
  · cases found
  · rename_i b gap
    have past : b.Past p := Buffer.holds_behind ((Buffer.Past.kept p).skipGap h) gap
    split at found
    · rename_i kind s₁ asked
      cases found
      refine ⟨past.start, fun goes => ?_⟩
      exact kind_behind past.here (Buffer.skipGap_ok gap).1 asked (by rintro rfl; cases goes)
    · cases found

theorem later_add (s : TokenStream ρ) (n m : Nat) : s.later (n + m) = (s.later n).later m := by
  induction n generalizing s with
  | zero => rw [Nat.zero_add, later]
  | succ n ih =>
    rw [Nat.succ_add]
    exact ih s.next.2

/-- A token stands before any that is found later, whatever was found in between. -/
theorem later_behind {n m : Nat} {t u : Token} (h : s.buffer.Past p) (lt : n < m)
    (first : (s.later n).next.1 = .ok t) (goes : t.isEnd = false) (second : (s.later m).next.1 = .ok u) :
    compare t.pos u.pos = .lt := by
  have kept (q : Position) := Buffer.Past.kept (ρ := ρ) q
  have past := (kept p).later h n
  have next := (kept p).next past
  have before := (next_behind past (Prod.ext first rfl)).2 goes
  obtain ⟨k, rfl⟩ := Nat.exists_eq_add_of_lt lt
  rw [Nat.add_assoc, later_add] at second
  -- from where the next lexeme starts after `t` the stream only goes on
  have reached := (kept _).later next.here k
  exact Position.AtMost.lt_trans before (next_behind reached (Prod.ext second rfl)).1

end

end TokenStream

namespace Buffer

/-! ## Sessions -/

section
variable {ρ : Type} [Reader ρ] {b : Buffer ρ} {source : List UInt8}

/-- As long as no read fails, any two positions that sessions on one source report are in the order of their
offsets, and differ if their offsets do. A token before the end stands before any that is found later. -/
theorem positions_in_order {r : ρ} {name : String} (opened : Buffer.new r name = .ok b)
    {ops ops' : List (Operation ρ)} (tells : Reader.Tells source (lastOpened r ops))
    (tells' : Reader.Tells source (lastOpened r ops'))
    (reads : ∀ reply ∈ b.replies ops, ¬ FailsToRead reply)
    (reads' : ∀ reply ∈ b.replies ops', ¬ FailsToRead reply) :
    (∀ p ∈ (b.performAll ops).positions, ∀ q ∈ (b.performAll ops').positions,
      compare p q = compare p.offset q.offset ∧ (p = q ↔ p.offset = q.offset)) ∧
    ∀ symbols, let s : TokenStream ρ := ⟨b.performAll ops, symbols⟩
      ∀ n m t u, n < m → (s.later n).next.1 = .ok t → t.isEnd = false →
        (s.later m).next.1 = .ok u → compare t.pos u.pos = .lt := by
  have sound : (b.performAll ops).Sound source :=
    sound_performAll (fun first => new_sound first opened) tells reads
  have sound' : (b.performAll ops').Sound source :=
    sound_performAll (fun first => new_sound first opened) tells' reads'
  refine ⟨fun p here q there => sound.compare_positions sound' here there, fun symbols => ?_⟩
  intro s n m t u lt first goes second
  have past : s.buffer.Past s.buffer.startPos := .of_sound sound ((new_spans opened).performAll ops)
  exact TokenStream.later_behind past lt first goes second

end

/-- The second line of a source of two lines, reached in pieces, against the start of the source. -/
theorem positions_in_order_lines :
    let r := FaultyReader.ofBytes #[97, 10, 98] ⟨some 1, 2, none, false⟩ none
    let ops : List (Operation FaultyReader) := [.move .advance, .move .advance]
    ∃ b, Buffer.new r "a" = .ok b ∧ Reader.Tells [97, 10, 98] (lastOpened r ops) ∧
      Reader.Tells [97, 10, 98] (lastOpened r []) ∧ (∀ reply ∈ b.replies ops, ¬ FailsToRead reply) ∧
      (∀ reply ∈ b.replies [], ¬ FailsToRead reply) ∧
      (b.performAll ops).pos = ⟨1, 0, 2⟩ ∧
      (∀ p ∈ (b.performAll ops).positions, ∀ q ∈ (b.performAll []).positions,
        compare p q = compare p.offset q.offset ∧ (p = q ↔ p.offset = q.offset)) ∧
      ∀ symbols, let s : TokenStream FaultyReader := ⟨b.performAll ops, symbols⟩
        ∀ n m t u, n < m → (s.later n).next.1 = .ok t → t.isEnd = false →
          (s.later m).next.1 = .ok u → compare t.pos u.pos = .lt := by
  intro r ops
  have tells : Reader.Tells [97, 10, 98] r :=
    FaultyReader.tells #[97, 10, 98] ⟨some 1, 2, none, false⟩ none (by decide)
  obtain ⟨b, opened, splits⟩ := new_splits (FaultyReader.delivers #[97, 10, 98] ⟨some 1, 2, none, false⟩
    none rfl rfl (by decide)) "a"
  have whole : b.Splits [97, 10, 98] [] [] ['a', '\n', 'b'] := splits
  obtain ⟨b₁, passed, moved⟩ := whole.advance (by decide)
  obtain ⟨b₂, passed', moved'⟩ := moved.advance (by decide)
  have reached : b.performAll ops = b₂ := by
    show b.advance.2.advance.2 = b₂
    rw [passed, passed']
  have pos : (b.performAll ops).pos = ⟨1, 0, 2⟩ := by
    rw [reached, moved'.pos]
    rfl
  have reads : ∀ reply ∈ b.replies ops, ¬ FailsToRead reply := by
    have first : b.perform (.move .advance) = (.ok (), b₁) := by rw [perform, move, passed]; rfl
    have second : b₁.perform (.move .advance) = (.ok (), b₂) := by rw [perform, move, passed']; rfl
    have replies : b.replies ops = [.ok (), .ok ()] := by
      rw [replies, first, replies, second, replies]
    rw [replies]
    exact List.forall_mem_cons.mpr
      ⟨not_failsToRead_ok (), List.forall_mem_singleton.mpr (not_failsToRead_ok ())⟩
  have none : ∀ reply ∈ b.replies [], ¬ FailsToRead reply := List.forall_mem_nil _
  exact ⟨b, opened, tells, tells, reads, none, pos, positions_in_order opened tells tells reads none⟩

end Buffer

end Kaleidoscope
