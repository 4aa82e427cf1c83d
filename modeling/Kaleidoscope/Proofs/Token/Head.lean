import Kaleidoscope.Proofs.Token.Gap
import Kaleidoscope.Proofs.Token.Lexeme
import Kaleidoscope.Token.Stream

/-!
# The head of a text

What a stream answers next depends on the text behind its cursor alone, and on the names it knows. The
head of that text is a lexeme, the end, or an error. A lexeme is committed; an error leaves what it
took before it between the start of the lexeme and the cursor.
-/

namespace Kaleidoscope

open Literal

def IsWord (spelling : String) : Prop :=
  spelling ≠ "" ∧ ∀ c ∈ spelling.toList, isWordCharacter c = true

inductive Head
  | ended
  | number (form : Form) (text : List Char)
  | word (text : List Char)
  | punctuator (text : String)
  | tooLong (text : List Char)
  /-- `next` is the character that does not fit, unless the source ends there. -/
  | malformed (text next : List Char)
  | unexpected (c : Char)

namespace Head

def ofPunctuation (cs : List Char) : Head :=
  match firstOf Punctuator.long cs with
  | some text => .punctuator text
  | none =>
    match cs with
    | [] => .ended
    | c :: _ =>
      match Punctuator.single? c with
      | some text => .punctuator text
      | none => .unexpected c

def ofWord (cs : List Char) : Head :=
  if cs.takeWhile isWordCharacter = [] then ofPunctuation cs
  else if maxLexeme < (cs.takeWhile isWordCharacter).length then
    .tooLong ((cs.takeWhile isWordCharacter).take maxLexeme)
  else .word (cs.takeWhile isWordCharacter)

def ofText (cs : List Char) : Head :=
  if maxLexeme < (Stage.start.run cs).taken.length then
    .tooLong ((Stage.start.run cs).taken.take maxLexeme)
  else
    match (Stage.start.run cs).move with
    | .finish form => .number form (Stage.start.run cs).taken
    | .malformed => .malformed (Stage.start.run cs).taken ((Stage.start.run cs).rest.take 1)
    | _ => ofWord cs

def committed : Head → List Char
  | number _ text | word text => text
  | punctuator text => text.toList
  | _ => []

/-- The characters that are taken but not committed. -/
def pending : Head → List Char
  | tooLong text | malformed text _ => text
  | _ => []

def Fits (cs : List Char) : Head → Prop
  | ended => cs = []
  | number _ text | word text => text ≠ []
  | punctuator text => text.toList ≠ []
  | tooLong _ | malformed _ _ | unexpected _ => cs ≠ []

def answer (symbols : SymbolTable) (pos : Position) : Head → Except ScanError TokenKind × SymbolTable
  | ended => (.ok .endOfInput, symbols)
  | number form text => (.ok (.number (form.value text)), symbols)
  | word text =>
    (.ok (symbols.intern (String.ofList text)).1.kind, (symbols.intern (String.ofList text)).2)
  | punctuator text => (.ok (.punctuator text), symbols)
  | tooLong _ => (.error (.lexemeTooLong pos), symbols)
  | malformed text next => (.error (.invalidNumber (String.ofList (text ++ next)) pos), symbols)
  | unexpected c => (.error (.unexpectedCharacter c pos), symbols)

end Head

theorem firstOf_long_ne_nil {cs : List Char} {text : String}
    (h : firstOf Punctuator.long cs = some text) : text.toList ≠ [] := by
  have some : ∀ text ∈ Punctuator.long, text.toList ≠ [] := by decide +kernel
  exact some text (List.mem_of_find?_eq_some h)

theorem Punctuator.toList_of_single {c : Char} {text : String} (h : single? c = some text) :
    text.toList = [c] := by
  unfold single? at h
  split at h
  · rw [← Option.some.inj h, String.toList_singleton]
  · cases h

namespace Head

theorem ofPunctuation_fits (cs : List Char) : (ofPunctuation cs).Fits cs := by
  cases found : firstOf Punctuator.long cs with
  | some text =>
    simp only [ofPunctuation, found, Fits]
    exact firstOf_long_ne_nil found
  | none =>
    cases cs with
    | nil => simp only [ofPunctuation, found, Fits]
    | cons c cs =>
      cases single : Punctuator.single? c with
      | some text =>
        simp only [ofPunctuation, found, single, Fits, Punctuator.toList_of_single single]
        exact List.cons_ne_nil c []
      | none =>
        simp only [ofPunctuation, found, single, Fits]
        exact List.cons_ne_nil c cs

theorem ofWord_fits (cs : List Char) : (ofWord cs).Fits cs := by
  unfold ofWord
  by_cases empty : cs.takeWhile isWordCharacter = []
  · rw [if_pos empty]
    exact ofPunctuation_fits cs
  · rw [if_neg empty]
    split
    · rintro rfl
      exact empty rfl
    · exact empty

theorem ofText_fits (cs : List Char) : (ofText cs).Fits cs := by
  have nil : Stage.start.run [] = ⟨[], [], .refuse⟩ := rfl
  unfold ofText
  split
  · rename_i long
    rintro rfl
    rw [nil] at long
    exact absurd long (Nat.not_lt_zero _)
  · split
    · rename_i move
      exact Stage.start_finish move
    · rename_i move
      rintro rfl
      rw [nil] at move
      cases move
    · exact ofWord_fits cs

theorem ofPunctuation_ne_word (cs text : List Char) : ofPunctuation cs ≠ .word text := by
  unfold ofPunctuation
  split
  · simp
  · split
    · simp
    · split <;> simp

/-- A word takes the word characters that a text starts with. -/
theorem ofWord_eq_word {cs text : List Char} (h : ofWord cs = .word text) :
    text = cs.takeWhile isWordCharacter ∧ text ≠ [] := by
  unfold ofWord at h
  by_cases empty : cs.takeWhile isWordCharacter = []
  · rw [if_pos empty] at h
    exact absurd h (ofPunctuation_ne_word cs text)
  · rw [if_neg empty] at h
    split at h
    · cases h
    · cases h
      exact ⟨rfl, empty⟩

theorem isWord_of_ofText {cs text : List Char} (h : ofText cs = .word text) :
    IsWord (String.ofList text) := by
  have word : ofWord cs = .word text := by
    unfold ofText at h
    split at h
    · cases h
    · split at h
      · cases h
      · cases h
      · exact h
  obtain ⟨eq, some⟩ := ofWord_eq_word word
  constructor
  · simpa using some
  · rw [String.toList_ofList, eq]
    exact List.all_eq_true.mp List.all_takeWhile

/-- A lexeme is answered with a token before the end, and leaves nothing pending. -/
theorem answer_of_committed (head : Head) (some : head.committed ≠ []) (symbols : SymbolTable)
    (pos : Position) : head.pending = [] ∧ ∃ kind, (head.answer symbols pos).1 = .ok kind ∧
      Token.isEnd ⟨kind, pos⟩ = false := by
  cases head with
  | word text =>
    refine ⟨rfl, _, rfl, ?_⟩
    cases (symbols.intern (String.ofList text)).1 <;> rfl
  | number => exact ⟨rfl, _, rfl, rfl⟩
  | punctuator => exact ⟨rfl, _, rfl, rfl⟩
  | _ => exact absurd rfl some

theorem answer_cases {head : Head} {cs : List Char} (fits : head.Fits cs) (symbols : SymbolTable)
    (pos : Position) :
    (cs = [] ∧ head = .ended) ∨
      (head.committed ≠ [] ∧ head.pending = [] ∧
        ∃ kind, (head.answer symbols pos).1 = .ok kind ∧ Token.isEnd ⟨kind, pos⟩ = false) ∨
      (cs ≠ [] ∧ ∃ e, (head.answer symbols pos).1 = .error e ∧ e.position? = some pos) := by
  cases head with
  | ended => exact .inl ⟨fits, rfl⟩
  | number form text =>
    exact .inr (.inl ⟨fits, answer_of_committed (.number form text) fits symbols pos⟩)
  | word text =>
    exact .inr (.inl ⟨fits, answer_of_committed (.word text) fits symbols pos⟩)
  | punctuator text =>
    exact .inr (.inl ⟨fits, answer_of_committed (.punctuator text) fits symbols pos⟩)
  | _ => exact .inr (.inr ⟨fits, _, rfl, rfl⟩)

end Head

namespace TokenStream

section
variable {ρ : Type} [Reader ρ] {s : TokenStream ρ} {source : List UInt8} {before after : List Char}

def Answers (s : TokenStream ρ) (source : List UInt8) (before : List Char) (head : Head) : Prop :=
  ∃ b rest, s.kind = ((head.answer s.symbols (.behind before)).1,
      ⟨b, (head.answer s.symbols (.behind before)).2⟩) ∧
    b.Splits source (before ++ head.committed) head.pending rest

theorem answers_punctuation {b₁ b₂ : Buffer ρ} (number : s.buffer.number = (.ok none, b₁))
    (word : b₁.word = (.ok none, b₂)) (h : b₂.Splits source before [] after) :
    s.Answers source before (.ofPunctuation after) := by
  cases found : firstOf Punctuator.long after with
  | some text =>
    obtain ⟨b, rest, eq, splits⟩ := Buffer.punctuator_long h found
    have head : Head.ofPunctuation after = .punctuator text := by simp only [Head.ofPunctuation, found]
    rw [head]
    exact ⟨b, rest, by simp only [TokenStream.kind, number, word, eq, Head.answer], splits⟩
  | none =>
    cases after with
    | nil =>
      obtain ⟨b, eq, splits⟩ := Buffer.punctuator_none h found (by decide)
      have head : Head.ofPunctuation [] = .ended := by simp only [Head.ofPunctuation, found]
      have ended : b.AtEnd := splits.atEnd_iff.mpr rfl
      rw [head]
      refine ⟨b, [], ?_, by simpa [Head.committed, Head.pending] using splits⟩
      simp only [TokenStream.kind, number, word, eq, if_pos ended, Head.answer]
    | cons c rest =>
      cases single : Punctuator.single? c with
      | some text =>
        obtain ⟨b, eq, splits⟩ := Buffer.punctuator_single h found single
        have head : Head.ofPunctuation (c :: rest) = .punctuator text := by
          simp only [Head.ofPunctuation, found, single]
        rw [← Punctuator.toList_of_single single] at splits
        rw [head]
        exact ⟨b, rest, by simp only [TokenStream.kind, number, word, eq, Head.answer], splits⟩
      | none =>
        obtain ⟨b, eq, splits⟩ := Buffer.punctuator_none h found single
        have head : Head.ofPunctuation (c :: rest) = .unexpected c := by
          simp only [Head.ofPunctuation, found, single]
        have more : ¬ b.AtEnd := by simp [splits.atEnd_iff]
        have under : b.peek = c := splits.peek
        rw [head]
        refine ⟨b, c :: rest, ?_, by simpa [Head.committed, Head.pending] using splits⟩
        simp only [TokenStream.kind, number, word, eq, if_neg more, under, splits.startPos, Head.answer]

theorem answers_word {b₁ : Buffer ρ} (number : s.buffer.number = (.ok none, b₁))
    (h : b₁.Splits source before [] after) : s.Answers source before (.ofWord after) := by
  unfold Head.ofWord
  by_cases empty : after.takeWhile isWordCharacter = []
  · rw [if_pos empty]
    exact answers_punctuation number (Buffer.word_none h empty) h
  · rw [if_neg empty]
    by_cases long : maxLexeme < (after.takeWhile isWordCharacter).length
    · obtain ⟨b, rest, eq, splits⟩ := Buffer.word_tooLong h long
      rw [if_pos long]
      refine ⟨b, rest, ?_, by simpa [Head.committed, Head.pending] using splits⟩
      simp only [TokenStream.kind, number, eq, Head.answer]
    · obtain ⟨b, eq, splits⟩ := Buffer.word_splits h empty (Nat.le_of_not_lt long)
      rw [if_neg long]
      exact ⟨b, _, by simp only [TokenStream.kind, number, eq, Head.answer], splits⟩

/-- A stream answers what stands behind its cursor. -/
theorem answers_ofText (h : s.buffer.Splits source before [] after) :
    s.Answers source before (.ofText after) := by
  unfold Head.ofText
  by_cases long : maxLexeme < (Stage.start.run after).taken.length
  · obtain ⟨b, rest, eq, splits⟩ := Buffer.number_tooLong h long
    rw [if_pos long]
    refine ⟨b, rest, ?_, by simpa [Head.committed, Head.pending] using splits⟩
    simp only [TokenStream.kind, eq, Head.answer]
  · obtain ⟨found, broken, missing⟩ := Buffer.number_splits h (Nat.le_of_not_lt long)
    rw [if_neg long]
    cases move : (Stage.start.run after).move with
    | finish form =>
      obtain ⟨b, eq, splits⟩ := found form move
      exact ⟨b, _, by simp only [TokenStream.kind, eq, Head.answer], splits⟩
    | malformed =>
      obtain ⟨b, eq, splits⟩ := broken move
      refine ⟨b, _, ?_, by simpa [Head.committed, Head.pending] using splits⟩
      simp only [TokenStream.kind, eq, Head.answer]
    | take next =>
      obtain ⟨b, eq, splits⟩ := missing (by simp [move]) (by simp [move])
      exact answers_word eq splits
    | refuse =>
      obtain ⟨b, eq, splits⟩ := missing (by simp [move]) (by simp [move])
      exact answers_word eq splits

/-- Behind what is skipped, the next token is the head of the text that is left. -/
theorem next_of_skipGap {b₁ : Buffer ρ} (skipped : s.buffer.skipGap = (.ok (), b₁))
    (h : b₁.Splits source before [] after) :
    ∃ b rest,
      s.next =
        (((Head.ofText after).answer s.symbols (.behind before)).1.map (⟨·, .behind before⟩),
          ⟨b, ((Head.ofText after).answer s.symbols (.behind before)).2⟩) ∧
      after = (Head.ofText after).committed ++ (Head.ofText after).pending ++ rest ∧
      b.Splits source (before ++ (Head.ofText after).committed) (Head.ofText after).pending rest := by
  obtain ⟨b, rest, kind, splits⟩ := answers_ofText (s := { s with buffer := b₁ }) h
  have text : before ++ after =
      before ++ ((Head.ofText after).committed ++ (Head.ofText after).pending ++ rest) := by
    have both := h.text_eq.symm.trans splits.text_eq
    simpa only [List.append_assoc, List.append_nil, List.nil_append] using both
  refine ⟨b, rest, ?_, List.append_cancel_left text, splits⟩
  unfold next
  rw [skipped]
  simp only [kind, h.startPos]
  cases ((Head.ofText after).answer s.symbols (.behind before)).1 <;> rfl

/-- The next token lies behind the gap at the cursor. -/
theorem next_splits (h : s.buffer.Splits source before [] after) :
    ∃ gap tail b rest, tail = afterGap false after ∧ after = gap ++ tail ∧ Gap tail gap ∧
      s.next =
        (((Head.ofText tail).answer s.symbols (.behind (before ++ gap))).1.map
            (⟨·, .behind (before ++ gap)⟩),
          ⟨b, ((Head.ofText tail).answer s.symbols (.behind (before ++ gap))).2⟩) ∧
      tail = (Head.ofText tail).committed ++ (Head.ofText tail).pending ++ rest ∧
      b.Splits source (before ++ gap ++ (Head.ofText tail).committed) (Head.ofText tail).pending rest := by
  obtain ⟨b₁, gap, skipped, after_eq, isGap, splits⟩ := Buffer.skipGap_splits h
  obtain ⟨b, rest, next, split, splits⟩ := next_of_skipGap skipped splits
  exact ⟨gap, _, b, rest, rfl, after_eq, isGap, next, split, splits⟩

theorem next_of_gapless (h : s.buffer.Splits source before [] after)
    (gapless : afterGap false after = after) :
    ∃ b rest,
      s.next =
        (((Head.ofText after).answer s.symbols (.behind before)).1.map (⟨·, .behind before⟩),
          ⟨b, ((Head.ofText after).answer s.symbols (.behind before)).2⟩) ∧
      after = (Head.ofText after).committed ++ (Head.ofText after).pending ++ rest ∧
      b.Splits source (before ++ (Head.ofText after).committed) (Head.ofText after).pending rest := by
  obtain ⟨gap, tail, b, rest, here, split, -, next, cut, splits⟩ := next_splits h
  obtain rfl : tail = after := here.trans gapless
  obtain rfl : gap = [] := List.append_left_eq_self.mp split.symm
  rw [List.append_nil] at next splits
  exact ⟨b, rest, next, cut, splits⟩

end

end TokenStream

end Kaleidoscope
