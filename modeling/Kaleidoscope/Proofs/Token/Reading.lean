import Kaleidoscope.Proofs.Literal.Decimal
import Kaleidoscope.Proofs.Token.Replay
import Mathlib.Data.List.Forall2

/-!
# From lexemes to tokens

A text that is made of lexemes gives one token for each of them, in their order.
-/

namespace Kaleidoscope

def Token.Is (t : Token) : Head → Prop
  | .number form text => t.kind = .number (form.value text)
  | .word text =>
    (∀ k : Keyword, k.spelling ≠ String.ofList text) →
      ∃ name, t.name? = some name ∧ name.spelling = String.ofList text
  | .punctuator text => t.isPunctuator text = true
  | .ended => t.isEnd = true
  | _ => False

/-- The lexemes `heads` are at the start of a text, and `rest` is behind them. -/
inductive Heads (rest : List Char) : List Char → List Head → Prop
  | nil : Heads rest rest []
  | cons {cs more : List Char} {heads : List Head}
    (some : (Head.ofText (afterGap false cs)).committed ≠ [])
    (split : afterGap false cs = (Head.ofText (afterGap false cs)).committed ++ more)
    (later : Heads rest more heads) : Heads rest cs (Head.ofText (afterGap false cs) :: heads)

theorem Heads.append {cs mid rest : List Char} {heads heads' : List Head} (h : Heads mid cs heads)
    (h' : Heads rest mid heads') : Heads rest cs (heads ++ heads') := by
  induction h with
  | nil => exact h'
  | cons some split _ ih => exact .cons some split ih

theorem Heads.of_afterGap {cs ds rest : List Char} {heads : List Head} (h : Heads rest cs heads)
    (some : heads ≠ []) (same : afterGap false ds = afterGap false cs) : Heads rest ds heads := by
  cases h with
  | nil => exact absurd rfl some
  | cons there split later =>
    rw [← same] at there split ⊢
    exact .cons there split later

theorem Head.answer_sound {symbols : SymbolTable} (head : Head) (sound : symbols.Sound)
    (pos : Position) : (head.answer symbols pos).2.Sound := by
  cases head with
  | word text => exact sound.intern (String.ofList text)
  | _ => exact sound

theorem Head.is_of_answer {symbols : SymbolTable} {pos pos' : Position} {head : Head}
    {kind : TokenKind} (sound : symbols.Sound) (h : (head.answer symbols pos).1 = .ok kind) :
    Token.Is ⟨kind, pos'⟩ head := by
  cases head with
  | word text =>
    intro other
    obtain ⟨name, named, spelled⟩ := sound.name_of_intern other
    rw [Head.answer, named] at h
    cases h
    exact ⟨name, rfl, spelled⟩
  | number form text =>
    cases h
    exact rfl
  | punctuator text =>
    cases h
    exact beq_self_eq_true text
  | ended =>
    cases h
    exact rfl
  | _ => cases h

/-! ## Which lexeme is at the head -/

open Literal

section
variable {c : Char} {cs rest text : List Char}

theorem afterGap_cons (blank : isBlank c = false) (mark : c ≠ '#') (cs : List Char) :
    afterGap false (c :: cs) = c :: cs := by
  simp [afterGap, blank, mark]

/-- A text starts with no gap if its first character is neither a blank nor the comment mark. -/
theorem afterGap_eq_self_iff :
    afterGap false cs = cs ↔ ∀ c ∈ cs.head?, isBlank c = false ∧ c ≠ '#' := by
  constructor
  · intro gapless c first
    obtain ⟨rest, rfl⟩ := List.head?_eq_some_iff.mp first
    constructor
    · by_contra blank
      rw [Bool.not_eq_false] at blank
      apply afterGap_ne_cons false c rest
      simpa [afterGap, blank] using gapless
    · intro mark
      subst mark
      exact afterGap_ne_cons true '#' rest gapless
  · intro starts
    cases cs with
    | nil => rfl
    | cons c cs =>
      obtain ⟨blank, mark⟩ := starts c rfl
      exact afterGap_cons blank mark cs

theorem Heads.single {head : Head} (here : Head.ofText cs = head) (some : head.committed ≠ [])
    (gapless : afterGap false cs = cs) (split : cs = head.committed ++ rest) :
    Heads rest cs [head] := by
  subst here
  have first : Head.ofText (afterGap false cs) = Head.ofText cs := by rw [gapless]
  rw [← first] at some split ⊢
  exact .cons some (gapless.trans split) .nil

theorem Literal.Apart.stops (h : Apart rest) : rest.takeWhile isWordCharacter = [] := by
  cases rest with
  | nil => rfl
  | cons c rest => exact List.takeWhile_cons_of_neg (by simp [(h c rfl).1])

theorem Literal.Stage.run_refuse (digit : c.isDigit = false) (dot : c ≠ '.') (cs : List Char) :
    start.run (c :: cs) = ⟨[], c :: cs, .refuse⟩ := by
  have zero : c ≠ '0' := by
    rintro rfl
    cases digit
  apply run_stop _ (by simp)
  simp [Stage.move, zero, digit, dot]

theorem ofText_decimal (literal : IsDecimal text) (fits : text.length ≤ maxLexeme)
    (apart : Apart rest) : Head.ofText (text ++ rest) = .number .decimal text := by
  unfold Head.ofText
  rw [literal.run apart, if_neg (Nat.not_lt_of_le fits)]

theorem ofText_zero (apart : Apart rest) : Head.ofText ('0' :: rest) = .number .zero ['0'] := by
  have fits : ['0'].length ≤ maxLexeme := by decide
  unfold Head.ofText
  rw [run_zero apart, if_neg (Nat.not_lt_of_le fits)]

theorem ofText_other (digit : c.isDigit = false) (dot : c ≠ '.') (cs : List Char) :
    Head.ofText (c :: cs) = Head.ofWord (c :: cs) := by
  unfold Head.ofText
  rw [Stage.run_refuse digit dot, if_neg (by simp)]

theorem ofText_word (word : ∀ d ∈ c :: cs, isWordCharacter d = true) (digit : c.isDigit = false)
    (fits : (c :: cs).length ≤ maxLexeme) (stops : rest.takeWhile isWordCharacter = []) :
    Head.ofText (c :: cs ++ rest) = .word (c :: cs) := by
  have dot : c ≠ '.' := by
    rintro rfl
    have inside := word '.' List.mem_cons_self
    cases inside
  rw [List.cons_append, ofText_other digit dot, ← List.cons_append]
  unfold Head.ofWord
  rw [List.takeWhile_append_of_pos word, stops, List.append_nil,
    if_neg (List.cons_ne_nil c cs), if_neg (Nat.not_lt_of_le fits)]

theorem long_wide : ∀ text ∈ Punctuator.long, 2 ≤ text.toList.length ∧ ' ' ∉ text.toList := by
  decide +kernel

theorem exists_long {text : String} (mem : text ∈ Punctuator.long) :
    ∃ a b more, text.toList = a :: b :: more ∧ b ≠ ' ' := by
  obtain ⟨two, blank⟩ := long_wide text mem
  match chars : text.toList with
  | [] => simp [chars] at two
  | [a] => simp [chars] at two
  | a :: b :: more =>
    refine ⟨a, b, more, rfl, ?_⟩
    rintro rfl
    simp [chars] at blank

theorem firstOf_long_of_head (h : ∀ text ∈ Punctuator.long, text.toList.head? ≠ some c)
    (cs : List Char) : firstOf Punctuator.long (c :: cs) = none := by
  apply List.find?_eq_none.mpr
  intro text mem starts
  obtain ⟨a, b, more, chars, -⟩ := exists_long mem
  obtain ⟨rest, eq⟩ := List.isPrefixOf_iff_prefix.mp starts
  rw [chars] at eq
  exact h text mem (by rw [chars, ← (List.cons.inj eq).1]; rfl)

theorem firstOf_long_of_blank (c : Char) (cs : List Char) :
    firstOf Punctuator.long (c :: ' ' :: cs) = none := by
  apply List.find?_eq_none.mpr
  intro text mem starts
  obtain ⟨a, b, more, chars, ne⟩ := exists_long mem
  obtain ⟨rest, eq⟩ := List.isPrefixOf_iff_prefix.mp starts
  rw [chars] at eq
  exact ne (List.cons.inj (List.cons.inj eq).2).1

theorem ofText_punctuator (punctuation : Punctuator.isPunctuation c = true) (dot : c ≠ '.')
    (word : isWordCharacter c = false) (short : firstOf Punctuator.long (c :: cs) = none) :
    Head.ofText (c :: cs) = .punctuator (String.singleton c) := by
  have digit : c.isDigit = false := by
    simp only [isWordCharacter, Char.isAlphanum, Bool.or_eq_false_iff] at word
    exact word.1.2
  have none : (c :: cs).takeWhile isWordCharacter = [] :=
    List.takeWhile_cons_of_neg (by simp [word])
  rw [ofText_other digit dot, Head.ofWord, if_pos none, Head.ofPunctuation, short]
  simp only [Punctuator.single?, if_pos punctuation]

end

namespace TokenStream

variable {ρ : Type} [Reader ρ] {s s' : TokenStream ρ} {source : List UInt8}
  {before cs rest more : List Char} {heads : List Head}

theorem next_of_committed (splits : s.buffer.Splits source before [] cs) (sound : s.symbols.Sound)
    (some : (Head.ofText (afterGap false cs)).committed ≠ [])
    (split : afterGap false cs = (Head.ofText (afterGap false cs)).committed ++ more) :
    ∃ t s' before', s.next = (.ok t, s') ∧ t.isEnd = false ∧
      t.Is (Head.ofText (afterGap false cs)) ∧ s'.symbols.Sound ∧
      s'.buffer.Splits source before' [] more := by
  obtain ⟨gap, tail, b, rest, rfl, -, -, next, here, behind⟩ := next_splits splits
  obtain ⟨none, kind, answered, notEnd⟩ :=
    Head.answer_of_committed _ some s.symbols (.behind (before ++ gap))
  rw [none] at here behind
  rw [List.append_nil] at here
  rw [List.append_cancel_left (here.symm.trans split)] at behind
  have sound' := Head.answer_sound (Head.ofText (afterGap false cs)) sound (.behind (before ++ gap))
  rw [answered] at next
  exact ⟨_, ⟨b, _⟩, _, next, notEnd, Head.is_of_answer sound answered, sound', behind⟩

theorem next_of_ended (splits : s.buffer.Splits source before [] cs)
    (ended : Head.ofText (afterGap false cs) = .ended) :
    ∃ t s', s.next = (.ok t, s') ∧ t.isEnd = true := by
  obtain ⟨gap, tail, b, rest, rfl, -, -, next, -, -⟩ := next_splits splits
  rw [ended] at next
  exact ⟨_, _, next, rfl⟩

theorem tiles_of_heads (splits : s.buffer.Splits source before [] cs) (sound : s.symbols.Sound)
    (lexemes : Heads rest cs heads) (ended : Head.ofText (afterGap false rest) = .ended) :
    List.Forall₂ Token.Is (s.tiles.1.map Tile.token) heads ∧ ∃ t, s.tiles.2.1 = .ok t := by
  induction lexemes generalizing s before with
  | nil =>
    obtain ⟨t, s', next, ends⟩ := next_of_ended splits ended
    rw [tiles_eq, next]
    simp [ends]
  | cons some split later ih =>
    obtain ⟨t, s', before', next, notEnd, here, sound', behind⟩ :=
      next_of_committed splits sound some split
    obtain ⟨more, stop⟩ := ih behind sound'
    rw [tiles_eq, next]
    simp only [notEnd]
    exact ⟨.cons here more, stop⟩

/-- A text of lexemes gives one token for each, and the end of the input behind them. -/
theorem all_of_heads (splits : s.buffer.Splits source before [] cs) (sound : s.symbols.Sound)
    (lexemes : Heads rest cs heads) (ended : Head.ofText (afterGap false rest) = .ended) :
    ∃ ts t s', s.all = (none, (ts ++ [t]).toArray, s') ∧ List.Forall₂ Token.Is ts heads ∧
      t.isEnd = true := by
  obtain ⟨each, t, stop⟩ := tiles_of_heads splits sound lexemes ended
  exact ⟨_, t, _, all_of_end stop, each, s.tiles_isEnd.2 t stop⟩

end TokenStream

end Kaleidoscope
