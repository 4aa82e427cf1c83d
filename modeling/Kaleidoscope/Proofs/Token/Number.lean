import Kaleidoscope.Proofs.Token.Lookahead

/-!
# Numbers under the cursor

A number is read where the grammar has one, as far as it goes.
-/

namespace Kaleidoscope

open Literal

/-! ## The longest number -/

namespace Literal

variable {cs text : List Char} {form : Form}

structure IsLongest (form : Form) (text cs : List Char) : Prop where
  numeral : IsNumeral form text
  starts : text <+: cs
  longest : ∀ form' text', IsNumeral form' text' → text' <+: cs → text'.length ≤ text.length

theorem isPrefix_taken (s : Stage) (cs : List Char) : (s.run cs).taken <+: cs :=
  ⟨_, s.taken_append_rest cs⟩

theorem rest_eq_drop (s : Stage) (cs : List Char) :
    (s.run cs).rest = cs.drop (s.run cs).taken.length := by
  rw [← List.append_right_inj (s.run cs).taken, s.taken_append_rest,
    List.prefix_iff_eq_append.mp (isPrefix_taken s cs)]

theorem isLongest_run (finished : (Stage.start.run cs).move = .finish form) :
    IsLongest form (Stage.start.run cs).taken cs :=
  ⟨(run_finish finished).1, isPrefix_taken .start cs, (run_finish finished).2⟩

theorem IsMalformed.isPrefix (h : IsMalformed cs text) : text <+: cs := by
  rw [← (run_malformed_iff.mpr h).2]
  exact isPrefix_taken .start cs

theorem exists_malformed_iff :
    (∃ text, IsMalformed cs text) ↔ (Stage.start.run cs).move = .malformed :=
  ⟨fun ⟨_, h⟩ => (run_malformed_iff.mpr h).1, fun refused => ⟨_, run_malformed_iff.mp ⟨refused, rfl⟩⟩⟩

theorem signsRaised_run (cs : List Char) : SignsRaised (Stage.start.run cs).taken := by
  obtain ⟨s, behind, -⟩ := behind_run cs
  exact behind.signsRaised

/-- What a run takes is a number, breaks off, or is at most a point. -/
theorem length_run_le {n : Nat} (some : 0 < n)
    (numeral : ∀ form text, IsNumeral form text → text <+: cs → text.length ≤ n)
    (malformed : ∀ text, IsMalformed cs text → text.length ≤ n) :
    (Stage.start.run cs).taken.length ≤ n := by
  cases move : (Stage.start.run cs).move with
  | finish form => exact numeral form _ (run_finish move).1 (isPrefix_taken .start cs)
  | malformed => exact malformed _ (run_malformed_iff.mp ⟨move, rfl⟩)
  | take next => exact absurd move (Stage.run_not_take _ _ _)
  | refuse =>
    obtain ⟨s, behind, stopped⟩ := behind_run cs
    rcases Stage.open_of_refuse (stopped.trans move) with rfl | rfl
    · generalize (Stage.start.run cs).taken = taken at behind
      cases behind
      exact Nat.zero_le n
    · generalize (Stage.start.run cs).taken = taken at behind
      cases behind
      exact some

end Literal

namespace Buffer

section
variable {ρ : Type} [Reader ρ] {b : Buffer ρ} {source : List UInt8} {before after : List Char}

/-- Unless the buffer is too short for it, the longest number that the text behind the cursor starts with
is committed with its value. Without a number the cursor is back, and a number that breaks off is an error
that shows how far it went. -/
theorem number_grammar (h : b.Splits source before [] after)
    (fits : ∀ form text, IsNumeral form text → text <+: after → text.length ≤ maxLexeme)
    (fits' : ∀ text, IsMalformed after text → text.length ≤ maxLexeme) :
    ((∃ b', b.number = (.ok none, b')) ↔ ¬ BeginsNumber after) ∧
    (∀ b', b.number = (.ok none, b') → b'.Splits source before [] after) ∧
    ((∃ e b', b.number = (.error e, b')) ↔ ∃ text, IsMalformed after text) ∧
    (∀ e b', b.number = (.error e, b') → ∃ text, IsMalformed after text ∧ SignsRaised text ∧
      e = .invalidNumber (String.ofList (text ++ (after.drop text.length).take 1)) (.behind before)) ∧
    (∀ value b', b.number = (.ok (some value), b') → ∃ form text, IsLongest form text after ∧
      SignsRaised text ∧ form.value? text = some value ∧ value = form.value text ∧
      b'.Splits source (before ++ text) [] (after.drop text.length)) := by
  have short := length_run_le (by decide) fits fits'
  obtain ⟨finished, malformed, refused⟩ := number_splits h short
  rw [← run_refuse_iff, exists_malformed_iff]
  cases move : (Stage.start.run after).move with
  | finish form =>
    obtain ⟨b₁, eq, splits⟩ := finished form move
    rw [rest_eq_drop] at splits
    rw [eq]
    refine ⟨by simp, by simp, by simp, by simp, ?_⟩
    rintro value b' ⟨⟩
    exact ⟨form, _, isLongest_run move, signsRaised_run after, (run_finish move).1.value?, rfl, splits⟩
  | malformed =>
    obtain ⟨b₁, eq, -⟩ := malformed move
    rw [rest_eq_drop] at eq
    rw [eq]
    refine ⟨by simp, by simp, by simp, ?_, by simp⟩
    rintro e b' ⟨⟩
    exact ⟨_, run_malformed_iff.mp ⟨move, rfl⟩, signsRaised_run after, rfl⟩
  | take next => exact absurd move (Stage.run_not_take _ _ _)
  | refuse =>
    obtain ⟨b₁, eq, splits⟩ := refused (fun form => by rw [move]; exact nofun) (by rw [move]; exact nofun)
    rw [eq]
    refine ⟨by simp, ?_, by simp, by simp, by simp⟩
    rintro b' ⟨⟩
    exact splits

/-- `1e+;` breaks off before the semicolon. -/
theorem number_grammar_malformed :
    ∃ b : Buffer ByteReader, b.Splits [49, 101, 43, 59] [] [] ['1', 'e', '+', ';'] ∧
      (∀ form text, IsNumeral form text → text <+: ['1', 'e', '+', ';'] → text.length ≤ maxLexeme) ∧
      (∀ text, IsMalformed ['1', 'e', '+', ';'] text → text.length ≤ maxLexeme) ∧
      ∃ e b', b.number = (.error e, b') := by
  obtain ⟨b, -, splits⟩ := new_splits (ByteReader.delivers #[49, 101, 43, 59]) "a"
  have numerals (form : Form) (text : List Char) (_ : IsNumeral form text)
      (starts : text <+: ['1', 'e', '+', ';']) : text.length ≤ maxLexeme :=
    Nat.le_trans starts.length_le (by decide)
  have broken (text : List Char) (h : IsMalformed ['1', 'e', '+', ';'] text) :
      text.length ≤ maxLexeme :=
    Nat.le_trans h.isPrefix.length_le (by decide)
  have refused : (Stage.start.run ['1', 'e', '+', ';']).move = .malformed := by decide
  obtain ⟨-, -, fails, -⟩ := number_grammar splits numerals broken
  exact ⟨b, splits, numerals, broken, fails.mpr (exists_malformed_iff.mpr refused)⟩

end

end Buffer

end Kaleidoscope
