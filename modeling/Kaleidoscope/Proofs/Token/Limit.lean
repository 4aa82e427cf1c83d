import Kaleidoscope.Proofs.Token.Layout
import Kaleidoscope.Proofs.Token.Unfailed
import Kaleidoscope.Proofs.Tree.Lexemes

/-!
# The longest lexemes

A word or a number that is longer than a lexeme may be is an error at its start, and one that is not is
taken whole, wherever it stands in the source. Gaps have no length that is too much.
-/

namespace Kaleidoscope

open Literal

/-- A number or a word at the head of `cs` would take more characters than a lexeme can have. -/
def Overlong (cs : List Char) : Prop :=
  maxLexeme < (Stage.start.run cs).taken.length ∨
    (∃ c ∈ cs.head?, c.isAlpha = true ∨ c = '_') ∧ maxLexeme < (cs.takeWhile isWordCharacter).length

/-! ## Heads that are too long -/

section
variable {cs run rest text : List Char} {form : Form}

theorem not_digit_of_lead {c : Char} (lead : c.isAlpha = true ∨ c = '_') :
    c.isDigit = false ∧ c ≠ '.' := by
  refine ⟨isDigit_of_lead lead, ?_⟩
  intro point
  subst point
  rcases lead with alpha | underscore
  · cases alpha
  · cases underscore

theorem lead_of_word {c : Char} (inside : isWordCharacter c = true) (digit : c.isDigit = false) :
    c.isAlpha = true ∨ c = '_' := by
  simpa [isWordCharacter, Char.isAlphanum, digit] using inside

theorem Literal.IsNumeral.begins (h : IsNumeral form text) (rest : List Char) : BeginsNumber (text ++ rest) := by
  cases h with
  | hexadecimal => exact .digit (by decide)
  | binary => exact .digit (by decide)
  | octal => exact .digit (by decide)
  | zero => exact .digit (by decide)
  | decimal h raised =>
    rw [List.append_assoc]
    rcases h with ⟨lead, -, -⟩ | pointed
    · exact .digit lead
    · cases pointed with
      | behind integer numeric =>
        rcases integer with rfl | ⟨lead, -, -⟩
        · exact .digit (by decide)
        · exact .digit lead
      | @bare places some numeric =>
        cases places with
        | nil => exact absurd rfl some
        | cons d places => exact .point (numeric d List.mem_cons_self)

namespace Head

theorem ofWord_overlong (long : maxLexeme < (cs.takeWhile isWordCharacter).length) :
    ofWord cs = .tooLong ((cs.takeWhile isWordCharacter).take maxLexeme) := by
  have some : cs.takeWhile isWordCharacter ≠ [] := List.ne_nil_of_length_pos (Nat.zero_lt_of_lt long)
  unfold ofWord
  rw [if_neg some, if_pos long]

theorem overlong_of_ofWord (h : ofWord cs = .tooLong text) :
    maxLexeme < (cs.takeWhile isWordCharacter).length := by
  unfold ofWord at h
  split at h
  · rcases ofPunctuation_eq cs with eq | ⟨_, eq⟩ | ⟨_, eq⟩ <;> (rw [eq] at h; cases h)
  · split at h
    · assumption
    · cases h

/-- A text that starts with a word character but no number starts with a letter or an underscore. -/
theorem exists_lead (long : maxLexeme < (cs.takeWhile isWordCharacter).length)
    (none : ¬ BeginsNumber cs) : ∃ c ∈ cs.head?, c.isAlpha = true ∨ c = '_' := by
  cases cs with
  | nil => exact absurd long (Nat.not_lt_zero _)
  | cons c cs =>
    have digit : c.isDigit = false := Bool.eq_false_iff.mpr fun digit => none (.digit digit)
    have inside : isWordCharacter c = true := by
      by_contra outside
      rw [List.takeWhile_cons_of_neg outside] at long
      exact Nat.not_lt_zero _ long
    exact ⟨c, rfl, lead_of_word inside digit⟩

theorem ofText_tooLong_iff : (∃ text, ofText cs = .tooLong text) ↔ Overlong cs := by
  constructor
  · rintro ⟨text, head⟩
    by_cases long : maxLexeme < (Stage.start.run cs).taken.length
    · exact .inl long
    · by_cases number : BeginsNumber cs
      · unfold ofText at head
        rw [if_neg long] at head
        cases move : (Stage.start.run cs).move with
        | finish form => simp [move] at head
        | malformed => simp [move] at head
        | take next => exact absurd move (Stage.run_not_take _ _ _)
        | refuse => exact absurd number (run_refuse_iff.mp move)
      · rw [ofText_of_not_begins number] at head
        have word := overlong_of_ofWord head
        exact .inr ⟨exists_lead word number, word⟩
  · rintro (long | ⟨⟨c, first, lead⟩, long⟩)
    · exact ⟨_, if_pos long⟩
    · obtain ⟨rest, rfl⟩ := List.head?_eq_some_iff.mp first
      obtain ⟨digit, point⟩ := not_digit_of_lead lead
      rw [ofText_other digit point]
      exact ⟨_, ofWord_overlong long⟩

/-- The longest number is the one that is taken. -/
theorem ofText_of_longest (longest : IsLongest form text cs) (sound : ∀ broken, ¬ IsMalformed cs broken)
    (fits : text.length ≤ maxLexeme) :
    ∃ form', IsNumeral form' text ∧ ofText cs = .number form' text := by
  obtain ⟨s, behind⟩ := longest.numeral.behind
  have le := (behind.isPrefix_taken longest.starts).length_le
  cases move : (Stage.start.run cs).move with
  | finish form' =>
    have taken := isLongest_run move
    have ge := longest.longest form' _ taken.numeral taken.starts
    have same : (Stage.start.run cs).taken = text :=
      (behind.isPrefix_taken longest.starts).eq_of_length (Nat.le_antisymm le ge) |>.symm
    rw [same] at taken
    refine ⟨form', taken.numeral, ?_⟩
    unfold ofText
    rw [move, same, if_neg (Nat.not_lt_of_le fits)]
  | malformed =>
    obtain ⟨broken, malformed⟩ := exists_malformed_iff.mpr move
    exact absurd malformed (sound broken)
  | take next => exact absurd move (Stage.run_not_take _ _ _)
  | refuse =>
    obtain ⟨rest, rfl⟩ := longest.starts
    exact absurd (longest.numeral.begins rest) (run_refuse_iff.mp move)

theorem answer_tooLong_iff (head : Head) (symbols : SymbolTable) (here pos : Position) :
    ((head.answer symbols here).1.map fun kind => (⟨kind, here⟩ : Token)) =
        .error (.lexemeTooLong pos) ↔ pos = here ∧ ∃ text, head = .tooLong text := by
  cases head with
  | tooLong text =>
    simp only [answer, Except.map, Except.error.injEq, ScanError.lexemeTooLong.injEq, tooLong.injEq,
      exists_eq', and_true]
    exact eq_comm
  | _ => simp [answer, Except.map]

end Head

end

theorem overlong_replicate {c : Char} {n : Nat} (lead : c.isAlpha = true ∨ c = '_') (long : maxLexeme < n) :
    Overlong (List.replicate n c) := by
  have word (d : Char) (mem : d ∈ List.replicate n c) : isWordCharacter d = true := by
    rw [List.eq_of_mem_replicate mem]
    exact isWordCharacter_of_lead lead
  right
  constructor
  · refine ⟨c, ?_, lead⟩
    rw [List.head?_replicate, if_neg (Nat.ne_of_gt (Nat.zero_lt_of_lt long))]
    rfl
  · rwa [List.takeWhile_eq_self_iff.mpr word, List.length_replicate]

/-! ## The next lexeme -/

namespace TokenStream

section
variable {ρ : Type} [Reader ρ] {s : TokenStream ρ} {source : List UInt8} {before gap tail : List Char}

structure Faces (s : TokenStream ρ) (source : List UInt8) (before gap tail : List Char) : Prop where
  place : s.buffer.Splits source before [] (gap ++ tail)
  gap : Gap tail gap
  starts : ∀ c ∈ tail.head?, isBlank c = false ∧ c ≠ '#'

/-- The next token is too long exactly if it has to be, and is taken whole if it is a word or a number that
is not. -/
structure KeepsLimit (s : TokenStream ρ) (source : List UInt8) (before gap tail : List Char) : Prop where
  skipped : s.buffer.skipGap.1 = .ok ()
  tooLong : ∀ pos,
    s.next.1 = .error (.lexemeTooLong pos) ↔ pos = .behind (before ++ gap) ∧ Overlong tail
  names : ∀ pos, s.next.1 = .error (.lexemeTooLong pos) → s.next.2.symbols = s.symbols
  word : ∀ c run rest, tail = c :: run ++ rest → (c.isAlpha = true ∨ c = '_') →
    (∀ d ∈ run, isWordCharacter d = true) → isWordCharacter (rest.headD endMark) = false →
    (c :: run).length ≤ maxLexeme →
    ∃ kind s', s.next = (.ok ⟨kind, .behind (before ++ gap)⟩, s') ∧ IsWordKind kind (c :: run) ∧
      s'.buffer.Splits source (before ++ gap ++ c :: run) [] rest
  number : ∀ form text rest, tail = text ++ rest → IsLongest form text tail →
    (∀ broken, ¬ IsMalformed tail broken) → text.length ≤ maxLexeme →
    ∃ form' value s', IsNumeral form' text ∧ form'.value? text = some value ∧
      s.next = (.ok ⟨.number value, .behind (before ++ gap)⟩, s') ∧
      s'.buffer.Splits source (before ++ gap ++ text) [] rest

theorem Stands.faces (h : s.Stands source) : ∃ before gap tail, s.Faces source before gap tail := by
  obtain ⟨before, after, place⟩ := h.place
  obtain ⟨b, gap, -, split, isGap, -⟩ := Buffer.skipGap_splits place
  rw [split] at place
  exact ⟨before, gap, _, place, isGap, afterGap_eq_self_iff.mp (afterGap_afterGap false after)⟩

theorem Faces.skipGap (h : s.Faces source before gap tail) :
    ∃ b, s.buffer.skipGap = (.ok (), b) ∧ b.Splits source (before ++ gap) [] tail := by
  obtain ⟨b, gap', skipped, split, -, splits⟩ := Buffer.skipGap_splits h.place
  rw [h.gap.afterGap, afterGap_eq_self_iff.mpr h.starts] at split splits
  rw [← List.append_cancel_right split] at splits
  exact ⟨b, skipped, splits⟩

theorem Faces.keepsLimit (h : s.Faces source before gap tail) (regular : s.symbols.Regular) :
    s.KeepsLimit source before gap tail := by
  obtain ⟨b₁, skipped, splits⟩ := h.skipGap
  obtain ⟨b, rest, next, cut, behind⟩ := next_of_skipGap skipped splits
  have exact_limit (pos : Position) : s.next.1 = .error (.lexemeTooLong pos) ↔
      pos = .behind (before ++ gap) ∧ Overlong tail := by
    rw [next, Head.answer_tooLong_iff, Head.ofText_tooLong_iff]
  refine ⟨by rw [skipped], exact_limit, ?_, ?_, ?_⟩
  · intro pos failed
    obtain ⟨text, head⟩ := Head.ofText_tooLong_iff.mpr ((exact_limit pos).mp failed).2
    rw [next, head]
    rfl
  · intro c run rest' split lead inside stops fits
    have head : Head.ofText tail = .word (c :: run) := by
      rw [split]
      exact ofText_word (List.forall_mem_cons.mpr ⟨isWordCharacter_of_lead lead, inside⟩)
        (isDigit_of_lead lead) fits (Head.takeWhile_eq_nil.mpr stops)
    rw [head] at next cut behind
    have left : rest = rest' := by simpa [split, Head.committed, Head.pending] using cut.symm
    subst left
    exact ⟨_, _, next, isWordKind_intern regular _, behind⟩
  · intro form text rest' split longest sound fits
    obtain ⟨form', numeral, head⟩ := Head.ofText_of_longest longest sound fits
    rw [head] at next cut behind
    have left : rest = rest' := by simpa [split, Head.committed, Head.pending] using cut.symm
    subst left
    exact ⟨form', _, _, numeral, numeral.value?, next, behind⟩

/-- However much was read before it, the next token is too long if and only if it is a word or a number that
has more characters than a lexeme can have. -/
theorem lexeme_limit (h : s.Unfailed source) :
    (∃ before gap tail, s.Faces source before gap tail) ∧
      ∀ before gap tail, s.Faces source before gap tail → s.KeepsLimit source before gap tail := by
  have stands := h.stands
  exact ⟨stands.faces, fun _ _ _ faces => faces.keepsLimit stands.regular⟩

end

/-- Behind a blank, a word of one character more than a lexeme can have fills the source. -/
theorem lexeme_limit_word :
    let source : List UInt8 := 32 :: List.replicate (maxLexeme + 1) 122
    ∃ b, Buffer.new (ByteReader.ofBytes source.toArray) "a" = .ok b ∧ (ofBuffer b).Unfailed source ∧
      (ofBuffer b).Faces source [] [' '] (List.replicate (maxLexeme + 1) 'z') ∧
      (ofBuffer b).next.1 = .error (.lexemeTooLong (.behind [' '])) := by
  intro source
  have reads := ByteReader.delivers source.toArray
  rw [List.toList_toArray] at reads
  have text : sourceText source = ' ' :: List.replicate (maxLexeme + 1) 'z' := by
    have first : latin1 32 = ' ' := by decide
    have others : latin1 122 = 'z' := by decide
    rw [sourceText, List.map_cons, List.map_replicate, first, others]
  obtain ⟨b, opened, splits⟩ := Buffer.new_splits reads "a"
  rw [text] at splits
  have unfailed : (ofBuffer b).Unfailed source := .new reads opened
  have faces : (ofBuffer b).Faces source [] [' '] (List.replicate (maxLexeme + 1) 'z') := by
    refine ⟨splits, .blank (by decide) .nil, ?_⟩
    intro c first
    rw [List.eq_of_mem_replicate (List.mem_of_mem_head? first)]
    decide
  obtain ⟨-, limits⟩ := lexeme_limit unfailed
  have long := overlong_replicate (c := 'z') (.inl (by decide)) (Nat.lt_succ_self maxLexeme)
  exact ⟨b, opened, unfailed, faces, ((limits _ _ _ faces).tooLong _).mpr ⟨rfl, long⟩⟩

end TokenStream

end Kaleidoscope
