import Kaleidoscope.Proofs.Literal.Conversion
import Kaleidoscope.Proofs.Source.Split
import Kaleidoscope.Token.Lexeme

/-!
# What the readers of lexemes find

Numbers, words and punctuators are found where the text behind the cursor has them at its head. A
lexeme that would need more characters than a buffer holds is an error at its start.
-/

namespace Kaleidoscope

open Literal

/-! ## Punctuators -/

def firstOf (candidates : List String) (cs : List Char) : Option String :=
  candidates.find? fun text => text.toList.isPrefixOf cs

theorem firstOf_cons_pos {text : String} {candidates : List String} {cs : List Char}
    (h : text.toList.isPrefixOf cs = true) : firstOf (text :: candidates) cs = some text := by
  simp only [firstOf, List.find?_cons, h]

theorem firstOf_cons_neg {text : String} {candidates : List String} {cs : List Char}
    (h : text.toList.isPrefixOf cs = false) :
    firstOf (text :: candidates) cs = firstOf candidates cs := by
  simp only [firstOf, List.find?_cons, h]

namespace Buffer

/-! ## Reading literals -/

section
variable {ρ : Type} [Reader ρ] {b : Buffer ρ} {source : List UInt8} {before lexeme after : List Char}

theorem Splits.advance_error {b' : Buffer ρ} {e : ScanError} (h : b.Splits source before lexeme after)
    (eq : b.advance = (.error e, b')) :
    e = .lexemeTooLong (.behind before) ∧ lexeme.length = maxLexeme ∧ after ≠ [] ∧ b' = b := by
  cases after with
  | nil => rw [h.advance_nil] at eq; cases eq
  | cons c rest =>
    by_cases room : lexeme.length < maxLexeme
    · obtain ⟨_, ok, _⟩ := h.advance room
      rw [ok] at eq; cases eq
    · have full := Nat.le_antisymm h.length_le (Nat.le_of_not_lt room)
      rw [h.advance_full full] at eq; cases eq
      exact ⟨rfl, full, List.cons_ne_nil c rest, rfl⟩

theorem Splits.advance_ok {b' : Buffer ρ} {c : Char} (h : b.Splits source before lexeme after)
    (more : ¬ b.AtEnd) (eq : b.advance = (.ok c, b')) :
    lexeme.length < maxLexeme ∧ ∃ rest, after = b.peek :: rest ∧
      b'.Splits source before (lexeme ++ [b.peek]) rest := by
  obtain ⟨rest, rfl⟩ := h.after_eq_cons more
  by_cases room : lexeme.length < maxLexeme
  · obtain ⟨_, ok, splits⟩ := h.advance room
    rw [ok] at eq
    injection eq with _ same
    subst same
    exact ⟨room, rest, rfl, splits⟩
  · have full := Nat.le_antisymm h.length_le (Nat.le_of_not_lt room)
    rw [h.advance_full full] at eq; cases eq

omit [Reader ρ] in
theorem take_full (cs : List Char) {lexeme : List Char} (full : lexeme.length = maxLexeme) :
    (lexeme ++ cs).take maxLexeme = lexeme := by
  rw [← full, List.take_left]

def literalAnswer (b : Buffer ρ) : Move → Except ScanError (Option Form)
  | .finish form => .ok (some form)
  | .malformed => .error b.malformed
  | _ => .ok none

theorem takeLiteral_splits {s : Stage} (h : b.Splits source before lexeme after)
    (fits : lexeme.length + (s.run after).taken.length ≤ maxLexeme) :
    ∃ b', b.takeLiteral s = (b'.literalAnswer (s.run after).move, b') ∧
      b'.Splits source before (lexeme ++ (s.run after).taken) (s.run after).rest := by
  have under := h.peek
  fun_induction takeLiteral b s generalizing lexeme after with
  | case1 b s next taken c b₁ advanced _ ih =>
    obtain ⟨_, rest, rfl, splits⟩ := h.advance_ok (not_atEnd_of_take taken) advanced
    rw [s.run_take taken, List.length_cons] at fits
    obtain ⟨b', eq, splits⟩ := ih splits (by simp; omega) splits.peek
    refine ⟨b', ?_, ?_⟩
    · rw [eq, s.run_take taken]
    · rw [s.run_take taken]
      simpa using splits
  | case2 b s next taken e b₁ advanced =>
    obtain ⟨_, full, some, _⟩ := h.advance_error advanced
    obtain ⟨rest, rfl⟩ := h.after_eq_cons (not_atEnd_of_take taken)
    rw [s.run_take taken, List.length_cons] at fits
    omega
  | case3 b s form move =>
    rw [under] at move
    rw [s.run_stop move (by simp), List.append_nil]
    exact ⟨b, rfl, h⟩
  | case4 b s move =>
    rw [under] at move
    rw [s.run_stop move (by simp), List.append_nil]
    exact ⟨b, rfl, h⟩
  | case5 b s move =>
    rw [under] at move
    rw [s.run_stop move (by simp), List.append_nil]
    exact ⟨b, rfl, h⟩

theorem takeLiteral_tooLong {s : Stage} (h : b.Splits source before lexeme after)
    (long : maxLexeme < lexeme.length + (s.run after).taken.length) :
    ∃ b' rest, b.takeLiteral s = (.error (.lexemeTooLong (.behind before)), b') ∧
      b'.Splits source before ((lexeme ++ (s.run after).taken).take maxLexeme) rest := by
  have under := h.peek
  have short := h.length_le
  fun_induction takeLiteral b s generalizing lexeme after with
  | case1 b s next taken c b₁ advanced _ ih =>
    obtain ⟨_, rest, rfl, splits⟩ := h.advance_ok (not_atEnd_of_take taken) advanced
    rw [s.run_take taken, List.length_cons] at long
    obtain ⟨b', rest, eq, splits⟩ := ih splits (by simp; omega) splits.peek splits.length_le
    refine ⟨b', rest, eq, ?_⟩
    rw [s.run_take taken]
    simpa using splits
  | case2 b s next taken e b₁ advanced =>
    obtain ⟨rfl, full, _, rfl⟩ := h.advance_error advanced
    refine ⟨_, after, rfl, ?_⟩
    rw [take_full _ full]
    exact h
  | case3 b s form move =>
    rw [under] at move
    rw [s.run_stop move (by simp)] at long
    exact absurd short (Nat.not_le_of_lt long)
  | case4 b s move =>
    rw [under] at move
    rw [s.run_stop move (by simp)] at long
    exact absurd short (Nat.not_le_of_lt long)
  | case5 b s move =>
    rw [under] at move
    rw [s.run_stop move (by simp)] at long
    exact absurd short (Nat.not_le_of_lt long)

theorem Splits.malformed (h : b.Splits source before lexeme after) :
    b.malformed = .invalidNumber (String.ofList (lexeme ++ after.take 1)) (.behind before) := by
  unfold Buffer.malformed
  rw [h.lexeme_eq, h.startPos]
  congr 3
  by_cases ended : b.AtEnd
  · rw [if_pos ended, h.atEnd_iff.mp ended]
    rfl
  · obtain ⟨rest, eq⟩ := h.after_eq_cons ended
    rw [if_neg ended, eq]
    rfl

theorem number_splits (h : b.Splits source before [] after)
    (fits : (Stage.start.run after).taken.length ≤ maxLexeme) :
    (∀ form, (Stage.start.run after).move = .finish form →
      ∃ b', b.number = (.ok (some (form.value (Stage.start.run after).taken)), b') ∧
        b'.Splits source (before ++ (Stage.start.run after).taken) [] (Stage.start.run after).rest) ∧
    ((Stage.start.run after).move = .malformed →
      ∃ b', b.number = (.error (.invalidNumber (String.ofList ((Stage.start.run after).taken ++
          (Stage.start.run after).rest.take 1)) (.behind before)), b') ∧
        b'.Splits source before (Stage.start.run after).taken (Stage.start.run after).rest) ∧
    ((∀ form, (Stage.start.run after).move ≠ .finish form) →
      (Stage.start.run after).move ≠ .malformed →
      ∃ b', b.number = (.ok none, b') ∧ b'.Splits source before [] after) := by
  obtain ⟨b', eq, splits⟩ := takeLiteral_splits (s := .start) h (by simpa using fits)
  rw [List.nil_append] at splits
  have join := Stage.taken_append_rest .start after
  unfold number
  refine ⟨fun form move => ?_, fun move => ?_, fun unfinished formed => ?_⟩
  · rw [eq, move]
    refine ⟨b'.mark, ?_, splits.mark⟩
    simp only [literalAnswer, splits.lexeme_eq, (run_finish move).1.value?]
  · rw [eq, move]
    refine ⟨b', ?_, splits⟩
    simp only [literalAnswer, splits.malformed]
  · refine ⟨b'.reset, ?_, ?_⟩
    · rw [eq]
      cases move : (Stage.start.run after).move with
      | finish form => exact absurd move (unfinished form)
      | malformed => exact absurd move formed
      | take next => rfl
      | refuse => rfl
    · have back := splits.reset
      rwa [join] at back

theorem number_tooLong (h : b.Splits source before [] after)
    (long : maxLexeme < (Stage.start.run after).taken.length) :
    ∃ b' rest, b.number = (.error (.lexemeTooLong (.behind before)), b') ∧
      b'.Splits source before ((Stage.start.run after).taken.take maxLexeme) rest := by
  obtain ⟨b', rest, eq, splits⟩ := takeLiteral_tooLong (s := .start) h (by simpa using long)
  unfold number
  rw [eq]
  exact ⟨b', rest, rfl, splits⟩

/-! ## Reading words -/

theorem takeWord_splits (h : b.Splits source before lexeme after)
    (fits : lexeme.length + (after.takeWhile isWordCharacter).length ≤ maxLexeme) :
    ∃ b', b.takeWord = (.ok (), b') ∧
      b'.Splits source before (lexeme ++ after.takeWhile isWordCharacter)
        (after.dropWhile isWordCharacter) := by
  fun_induction takeWord b generalizing lexeme after with
  | case1 b inside c b₁ advanced _ ih =>
    obtain ⟨_, rest, rfl, splits⟩ := h.advance_ok (not_atEnd_of_word inside) advanced
    rw [List.takeWhile_cons_of_pos inside, List.length_cons] at fits
    obtain ⟨b', eq, splits⟩ := ih splits (by simp; omega)
    refine ⟨b', eq, ?_⟩
    rw [List.takeWhile_cons_of_pos inside, List.dropWhile_cons_of_pos inside]
    simpa using splits
  | case2 b inside e b₁ advanced =>
    obtain ⟨_, full, _, _⟩ := h.advance_error advanced
    obtain ⟨rest, rfl⟩ := h.after_eq_cons (not_atEnd_of_word inside)
    rw [List.takeWhile_cons_of_pos inside, List.length_cons] at fits
    omega
  | case3 b outside =>
    rw [h.peek] at outside
    refine ⟨b, rfl, ?_⟩
    cases after with
    | nil => simpa using h
    | cons c rest =>
      have other : ¬ isWordCharacter c = true := outside
      rw [List.takeWhile_cons_of_neg other, List.dropWhile_cons_of_neg other, List.append_nil]
      exact h

theorem takeWord_tooLong (h : b.Splits source before lexeme after)
    (long : maxLexeme < lexeme.length + (after.takeWhile isWordCharacter).length) :
    ∃ b' rest, b.takeWord = (.error (.lexemeTooLong (.behind before)), b') ∧
      b'.Splits source before ((lexeme ++ after.takeWhile isWordCharacter).take maxLexeme) rest := by
  have short := h.length_le
  fun_induction takeWord b generalizing lexeme after with
  | case1 b inside c b₁ advanced _ ih =>
    obtain ⟨_, rest, rfl, splits⟩ := h.advance_ok (not_atEnd_of_word inside) advanced
    rw [List.takeWhile_cons_of_pos inside, List.length_cons] at long
    obtain ⟨b', rest, eq, splits⟩ := ih splits (by simp; omega) splits.length_le
    refine ⟨b', rest, eq, ?_⟩
    rw [List.takeWhile_cons_of_pos inside]
    simpa using splits
  | case2 b inside e b₁ advanced =>
    obtain ⟨rfl, full, _, rfl⟩ := h.advance_error advanced
    refine ⟨_, after, rfl, ?_⟩
    rw [take_full _ full]
    exact h
  | case3 b outside =>
    rw [h.peek] at outside
    cases after with
    | nil => exact absurd short (Nat.not_le_of_lt long)
    | cons c rest =>
      have other : ¬ isWordCharacter c = true := outside
      rw [List.takeWhile_cons_of_neg other] at long
      exact absurd short (Nat.not_le_of_lt long)

theorem word_none (h : b.Splits source before [] after)
    (empty : after.takeWhile isWordCharacter = []) : b.word = (.ok none, b) := by
  have outside : ¬ isWordCharacter b.peek = true := by
    rw [h.peek]
    intro inside
    cases after with
    | nil => exact absurd inside (by decide)
    | cons c rest =>
      rw [List.takeWhile_cons_of_pos (show isWordCharacter c = true from inside)] at empty
      cases empty
  unfold word
  rw [if_neg outside]

theorem inside_of_takeWhile (h : b.Splits source before [] after)
    (some : after.takeWhile isWordCharacter ≠ []) : isWordCharacter b.peek = true := by
  rw [h.peek]
  cases after with
  | nil => exact absurd rfl some
  | cons c rest =>
    rw [List.takeWhile_cons] at some
    split at some
    · assumption
    · exact absurd rfl some

theorem word_splits (h : b.Splits source before [] after)
    (some : after.takeWhile isWordCharacter ≠ [])
    (fits : (after.takeWhile isWordCharacter).length ≤ maxLexeme) :
    ∃ b', b.word = (.ok (.some (String.ofList (after.takeWhile isWordCharacter))), b') ∧
      b'.Splits source (before ++ after.takeWhile isWordCharacter) []
        (after.dropWhile isWordCharacter) := by
  obtain ⟨b', eq, splits⟩ := takeWord_splits h (by simpa using fits)
  rw [List.nil_append] at splits
  unfold word
  rw [if_pos (inside_of_takeWhile h some), eq]
  refine ⟨b'.mark, ?_, splits.mark⟩
  simp only [splits.lexeme_eq]

theorem word_tooLong (h : b.Splits source before [] after)
    (long : maxLexeme < (after.takeWhile isWordCharacter).length) :
    ∃ b' rest, b.word = (.error (.lexemeTooLong (.behind before)), b') ∧
      b'.Splits source before ((after.takeWhile isWordCharacter).take maxLexeme) rest := by
  have some : after.takeWhile isWordCharacter ≠ [] := by
    intro none
    rw [none] at long
    exact absurd long (Nat.not_lt_zero _)
  obtain ⟨b', rest, eq, splits⟩ := takeWord_tooLong h (by simpa using long)
  unfold word
  rw [if_pos (inside_of_takeWhile h some), eq]
  exact ⟨b', rest, rfl, splits⟩

/-! ## Reading punctuators -/

theorem skip_splits {passed : List Char} (h : b.Splits source before lexeme (passed ++ after))
    (fits : lexeme.length + passed.length ≤ maxLexeme) :
    ∃ b', b.skip passed.length = (.ok (), b') ∧
      b'.Splits source before (lexeme ++ passed) after := by
  induction passed generalizing b lexeme with
  | nil => exact ⟨b, rfl, by simpa using h⟩
  | cons c passed ih =>
    rw [List.length_cons] at fits
    obtain ⟨b₁, eq, splits⟩ := h.advance (by omega)
    obtain ⟨b', skipped, splits⟩ := ih splits (by simp; omega)
    refine ⟨b', ?_, by simpa using splits⟩
    rw [List.length_cons, skip, eq]
    exact skipped

theorem oneOf_splits {candidates : List String} (h : b.Splits source before [] after)
    (fits : ∀ text ∈ candidates, text.toList.length ≤ maxLexeme)
    (unmarked : ∀ text ∈ candidates, endMark ∉ text.toList) :
    ∃ b' rest, b.oneOf candidates = (.ok (firstOf candidates after), b') ∧
      b'.Splits source (before ++ ((firstOf candidates after).getD "").toList) [] rest := by
  induction candidates generalizing b with
  | nil => exact ⟨b, after, rfl, by simpa [firstOf] using h⟩
  | cons text candidates ih =>
    have short := fits text List.mem_cons_self
    obtain ⟨b₁, eq, splits⟩ := h.startsWith short (unmarked text List.mem_cons_self)
    unfold oneOf
    rw [eq]
    cases found : text.toList.isPrefixOf after with
    | true =>
      obtain ⟨rest, rfl⟩ := List.isPrefixOf_iff_prefix.mp found
      obtain ⟨b', skipped, splits⟩ := skip_splits splits (by simpa using short)
      rw [String.length_toList] at skipped
      rw [firstOf_cons_pos found]
      refine ⟨b'.mark, rest, ?_, splits.mark⟩
      simp only [skipped]
    | false =>
      rw [firstOf_cons_neg found]
      exact ih splits (fun t mem => fits t (List.mem_cons_of_mem _ mem))
        fun t mem => unmarked t (List.mem_cons_of_mem _ mem)

theorem long_fits : ∀ text ∈ Punctuator.long, text.toList.length ≤ maxLexeme := by
  decide +kernel

theorem long_unmarked : ∀ text ∈ Punctuator.long, endMark ∉ text.toList := by
  decide +kernel

theorem punctuator_long {text : String} (h : b.Splits source before [] after)
    (found : firstOf Punctuator.long after = some text) :
    ∃ b' rest, b.punctuator = (.ok (some text), b') ∧
      b'.Splits source (before ++ text.toList) [] rest := by
  obtain ⟨b', rest, eq, splits⟩ := oneOf_splits h long_fits long_unmarked
  rw [found] at eq splits
  unfold punctuator
  rw [eq]
  exact ⟨b', rest, rfl, splits⟩

theorem oneOf_missing (h : b.Splits source before [] after)
    (missing : firstOf Punctuator.long after = none) :
    ∃ b', b.oneOf Punctuator.long = (.ok none, b') ∧ b'.Splits source before [] after := by
  obtain ⟨b', rest, eq, splits⟩ := oneOf_splits h long_fits long_unmarked
  rw [missing] at eq splits
  have same : b'.Splits source before [] rest := by simpa using splits
  rw [h.after_eq same] at same
  exact ⟨b', eq, same⟩

theorem punctuator_single {text : String} {c : Char} (h : b.Splits source before [] (c :: after))
    (missing : firstOf Punctuator.long (c :: after) = none)
    (single : Punctuator.single? c = some text) :
    ∃ b', b.punctuator = (.ok (some text), b') ∧ b'.Splits source (before ++ [c]) [] after := by
  obtain ⟨b₁, eq, splits⟩ := oneOf_missing h missing
  obtain ⟨b₂, moved, passed⟩ := splits.advance (by decide)
  have under : b₁.peek = c := splits.peek
  refine ⟨b₂.mark, ?_, passed.mark⟩
  unfold punctuator
  rw [eq]
  simp only [under, single, moved]

theorem punctuator_none (h : b.Splits source before [] after)
    (missing : firstOf Punctuator.long after = none)
    (other : Punctuator.single? (after.headD endMark) = none) :
    ∃ b', b.punctuator = (.ok none, b') ∧ b'.Splits source before [] after := by
  obtain ⟨b', eq, splits⟩ := oneOf_missing h missing
  refine ⟨b', ?_, splits⟩
  unfold punctuator
  rw [eq]
  simp only [splits.peek, other]

end

end Buffer

end Kaleidoscope
