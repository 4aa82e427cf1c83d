import Kaleidoscope.Proofs.Token.Number
import Kaleidoscope.Proofs.Token.Resuming

/-!
# Words and punctuators are longest matches

Where neither a gap nor a number starts, a word takes all the word characters there are, and a punctuator
is the longest one of all that fit. Everything else is the end or an error. The comment mark and the
underscore start a gap and a word, so neither of them is ever a punctuator.
-/

namespace Kaleidoscope

open Literal

def Punctuator.IsSpelling (text : List Char) : Prop :=
  (∃ long ∈ Punctuator.long, text = long.toList) ∨
    ∃ c, Punctuator.isPunctuation c = true ∧ text = [c]

structure Punctuator.IsLongest (text cs : List Char) : Prop where
  spelling : IsSpelling text
  starts : text <+: cs
  longest : ∀ other, IsSpelling other → other <+: cs → other.length ≤ text.length

namespace Head

variable {c : Char} {cs : List Char}

/-! ## Heads that are no numbers -/

theorem ofText_of_not_begins (h : ¬ BeginsNumber cs) : ofText cs = ofWord cs := by
  cases cs with
  | nil => rfl
  | cons c rest =>
    have digit : c.isDigit = false := Bool.eq_false_iff.mpr fun digit => h (.digit digit)
    by_cases dot : c = '.'
    · subst dot
      apply ofText_dot
      cases rest with
      | nil => rfl
      | cons d rest => exact Bool.eq_false_iff.mpr fun digit => h (.point digit)
    · exact ofText_other digit dot rest

theorem ofWord_of_outside (outside : isWordCharacter (cs.headD endMark) = false) :
    ofWord cs = ofPunctuation cs :=
  if_pos (takeWhile_eq_nil.mpr outside)

theorem ofPunctuation_longest (punctuation : Punctuator.isPunctuation c = true) :
    ∃ text, ofPunctuation (c :: cs) = .punctuator text ∧
      Punctuator.IsLongest text.toList (c :: cs) := by
  cases found : firstOf Punctuator.long (c :: cs) with
  | some first =>
    have mem : first ∈ Punctuator.long := List.mem_of_find?_eq_some found
    have starts : first.toList.isPrefixOf (c :: cs) = true :=
      List.find?_some (p := fun text : String => text.toList.isPrefixOf (c :: cs)) found
    refine ⟨first, by simp only [ofPunctuation, found], .inl ⟨first, mem, rfl⟩,
      List.isPrefixOf_iff_prefix.mp starts, ?_⟩
    rintro other (⟨long, mem', rfl⟩ | ⟨d, -, rfl⟩) starts'
    · obtain ⟨first', found', le⟩ := exists_firstOf mem' starts'
      rw [found] at found'
      cases found'
      exact le
    · have wide := (long_wide first mem).1
      rw [List.length_singleton]
      omega
  | none =>
    have head : ofPunctuation (c :: cs) = .punctuator (String.singleton c) := by
      simp [ofPunctuation, found, Punctuator.single?, punctuation]
    refine ⟨_, head, ?_⟩
    rw [String.toList_singleton]
    refine ⟨.inr ⟨c, punctuation, rfl⟩, List.prefix_append [c] cs, ?_⟩
    rintro other (⟨long, mem', rfl⟩ | ⟨d, -, rfl⟩) starts'
    · obtain ⟨first, found', -⟩ := exists_firstOf mem' starts'
      rw [found] at found'
      cases found'
    · exact Nat.le_refl _

theorem isPunctuation_of_long {long : String} (mem : long ∈ Punctuator.long)
    (starts : long.toList <+: c :: cs) : Punctuator.isPunctuation c = true := by
  have all : ∀ long ∈ Punctuator.long,
      (long.toList.head?.any Punctuator.isPunctuation) = true := by decide +kernel
  have first := all long mem
  cases chars : long.toList with
  | nil => simp [chars] at first
  | cons d rest =>
    rw [chars] at first starts
    rw [← (List.cons_prefix_cons.mp starts).1]
    simpa using first

theorem ofPunctuation_of_other (other : Punctuator.isPunctuation c = false) :
    ofPunctuation (c :: cs) = .unexpected c := by
  cases found : firstOf Punctuator.long (c :: cs) with
  | some first =>
    have starts : first.toList.isPrefixOf (c :: cs) = true :=
      List.find?_some (p := fun text : String => text.toList.isPrefixOf (c :: cs)) found
    have begins := isPunctuation_of_long (List.mem_of_find?_eq_some found)
      (List.isPrefixOf_iff_prefix.mp starts)
    rw [other] at begins
    cases begins
  | none => simp [ofPunctuation, found, Punctuator.single?, other]

/-! ## Punctuators that are none -/

theorem ofText_ne_mark (gapless : afterGap false cs = cs) : ofText cs ≠ .punctuator "#" := by
  intro head
  have starts := committed_prefix cs
  rw [head] at starts
  obtain ⟨rest, rfl⟩ := starts
  exact afterGap_ne_cons true '#' rest gapless

theorem ofText_ne_underscore (cs : List Char) : ofText cs ≠ .punctuator "_" := by
  intro head
  have starts := committed_prefix cs
  rw [head] at starts
  obtain ⟨rest, rfl⟩ := starts
  have word : ofText ('_' :: rest) = ofWord ('_' :: rest) := ofText_other (by decide) (by decide) rest
  have some : ('_' :: rest).takeWhile isWordCharacter ≠ [] := by
    intro none
    have outside : isWordCharacter '_' = false := takeWhile_eq_nil.mp none
    cases outside
  change ofText ('_' :: rest) = _ at head
  rw [word, ofWord, if_neg some] at head
  split at head <;> cases head

theorem eq_punctuator_of_answer {head : Head} {symbols : SymbolTable} {pos : Position} {text : String}
    (answered : (head.answer symbols pos).1 = .ok (.punctuator text)) : head = .punctuator text := by
  cases head with
  | punctuator other =>
    cases answered
    rfl
  | word run =>
    have kind : (symbols.intern (String.ofList run)).1.kind = .punctuator text := Except.ok.inj answered
    cases word : (symbols.intern (String.ofList run)).1 with
    | name n => simp [word, Word.kind] at kind
    | keyword k => simp [word, Word.kind] at kind
  | _ => cases answered

end Head

theorem isWordCharacter_of_lead {c : Char} (lead : c.isAlpha = true ∨ c = '_') :
    isWordCharacter c = true := by
  rcases lead with alpha | rfl
  · simp [isWordCharacter, Char.isAlphanum, alpha]
  · rfl

theorem isWordCharacter_of_punctuation {c : Char} (punctuation : Punctuator.isPunctuation c = true)
    (underscore : c ≠ '_') : isWordCharacter c = false := by
  simp only [Punctuator.isPunctuation, Bool.and_eq_true, Bool.not_eq_true'] at punctuation
  simp [isWordCharacter, punctuation.2, underscore]

theorem outside_visible {c : Char} (alnum : c.isAlphanum = false)
    (other : Punctuator.isPunctuation c = false) (blank : isBlank c = false) :
    c.toNat < 32 ∨ 127 ≤ c.toNat := by
  by_contra visible
  obtain ⟨low, high⟩ := not_or.mp visible
  have space : c.toNat ≠ 32 := by
    intro same
    have blank' : c = ' ' := Char.toNat_inj.mp same
    rw [blank'] at blank
    cases blank
  have first : '!' ≤ c := UInt32.le_iff_toNat_le.mpr (by change 33 ≤ c.toNat; omega)
  have last : c ≤ '~' := UInt32.le_iff_toNat_le.mpr (by change c.toNat ≤ 126; omega)
  simp [Punctuator.isPunctuation, first, last, alnum] at other

namespace TokenStream

section
variable {ρ : Type} [Reader ρ] {s : TokenStream ρ} {source : List UInt8} {before after : List Char}

def IsWordKind (kind : TokenKind) (run : List Char) : Prop :=
  (∀ k : Keyword, kind = .keyword k ↔ run = k.spelling.toList) ∧
    ((∀ k : Keyword, run ≠ k.spelling.toList) →
      ∃ name, kind = .identifier name ∧ name.spelling = String.ofList run)

theorem isWordKind_intern {symbols : SymbolTable} (regular : symbols.Regular) (run : List Char) :
    IsWordKind (symbols.intern (String.ofList run)).1.kind run := by
  by_cases reserved : ∃ k : Keyword, run = k.spelling.toList
  · obtain ⟨k, rfl⟩ := reserved
    rw [String.ofList_toList, regular.stocked.intern_keyword k]
    refine ⟨fun k' => ?_, fun other => absurd rfl (other k)⟩
    constructor
    · intro same
      cases same
      rfl
    · intro same
      have found := Keyword.ofSpelling?_spelling k
      rw [String.toList_inj.mp same, Keyword.ofSpelling?_spelling] at found
      rw [Option.some.inj found]
      rfl
  · have other : ∀ k : Keyword, k.spelling ≠ String.ofList run := by
      intro k same
      exact reserved ⟨k, by rw [same, String.toList_ofList]⟩
    obtain ⟨name, word, spelled⟩ := regular.name_of_intern other
    rw [word]
    refine ⟨fun k => ?_, fun _ => ⟨name, rfl, spelled⟩⟩
    constructor
    · intro same
      cases same
    · exact fun same => absurd ⟨k, same⟩ reserved

/-- What stands behind `before` is the next token or the next error. It is the longest word or the longest
punctuator that `after` starts with, if it is one. -/
structure TakesLongest (s : TokenStream ρ) (source : List UInt8) (before after : List Char) : Prop where
  word : ∀ c run rest, after = c :: run ++ rest → (c.isAlpha = true ∨ c = '_') →
    (∀ d ∈ run, isWordCharacter d = true) → isWordCharacter (rest.headD endMark) = false →
    (c :: run).length ≤ maxLexeme →
    ∃ kind s', s.next = (.ok ⟨kind, .behind before⟩, s') ∧ IsWordKind kind (c :: run) ∧
      s'.buffer.Splits source (before ++ c :: run) [] rest
  punctuator : ∀ c cs, after = c :: cs → Punctuator.isPunctuation c = true → c ≠ '_' →
    ∃ text s', s.next = (.ok ⟨.punctuator text, .behind before⟩, s') ∧ s'.symbols = s.symbols ∧
      Punctuator.IsLongest text.toList after ∧
      s'.buffer.Splits source (before ++ text.toList) [] (after.drop text.toList.length)
  ended : after = [] → ∃ s', s.next = (.ok ⟨.endOfInput, .behind before⟩, s') ∧ s'.symbols = s.symbols
  unexpected : ∀ c cs, after = c :: cs → c.isAlpha = false → c ≠ '_' →
    Punctuator.isPunctuation c = false → (c.toNat < 32 ∨ 127 ≤ c.toNat) ∧
    ∃ s', s.next = (.error (.unexpectedCharacter c (.behind before)), s') ∧ s'.symbols = s.symbols

theorem takesLongest (h : s.buffer.Splits source before [] after) (regular : s.symbols.Regular)
    (starts : ∀ c ∈ after.head?, isBlank c = false ∧ c ≠ '#') (noNumber : ¬ BeginsNumber after) :
    s.TakesLongest source before after := by
  obtain ⟨b, rest, next, cut, splits⟩ := next_of_gapless h (afterGap_eq_self_iff.mpr starts)
  have head := Head.ofText_of_not_begins noNumber
  constructor
  case word =>
    intro c run behind split lead inside stops fits
    have whole : ∀ d ∈ c :: run, isWordCharacter d = true :=
      List.forall_mem_cons.mpr ⟨isWordCharacter_of_lead lead, inside⟩
    -- a digit would begin a number
    have digit : c.isDigit = false :=
      Bool.eq_false_iff.mpr fun digit => noNumber (split ▸ .digit digit)
    have head := ofText_word whole digit fits (Head.takeWhile_eq_nil.mpr stops)
    rw [split, head] at next cut
    rw [split, head] at splits
    obtain rfl : behind = rest := by simpa [Head.committed, Head.pending] using cut
    exact ⟨_, _, next, isWordKind_intern regular _, splits⟩
  case punctuator =>
    intro c cs split punctuation underscore
    have outside : isWordCharacter ((c :: cs).headD endMark) = false :=
      isWordCharacter_of_punctuation punctuation underscore
    obtain ⟨text, found, longest⟩ := Head.ofPunctuation_longest punctuation
    rw [split, Head.ofWord_of_outside outside, found] at head
    rw [split, head] at next cut
    rw [split, head] at splits
    refine ⟨text, _, next, rfl, split ▸ longest, ?_⟩
    have behind : after.drop text.toList.length = rest := by
      rw [split, cut]
      simp [Head.committed, Head.pending]
    rw [behind]
    exact splits
  case ended =>
    intro split
    subst split
    rw [show Head.ofText [] = .ended from rfl] at next
    exact ⟨_, next, rfl⟩
  case unexpected =>
    intro c cs split alpha underscore other
    have digit : c.isDigit = false :=
      Bool.eq_false_iff.mpr fun digit => noNumber (split ▸ .digit digit)
    have alnum : c.isAlphanum = false := by rw [Char.isAlphanum, alpha, digit]; rfl
    have outside : isWordCharacter ((c :: cs).headD endMark) = false := by
      simp [isWordCharacter, alnum, underscore]
    rw [split, Head.ofWord_of_outside outside, Head.ofPunctuation_of_other other] at head
    rw [split, head] at next
    have blank : isBlank c = false := (starts c (by rw [split]; rfl)).1
    exact ⟨outside_visible alnum other blank, _, next, rfl⟩

theorem Poised.kind_ne (h : s.Poised source) {t : Token} (found : s.next.1 = .ok t) :
    t.kind ≠ .punctuator "#" ∧ t.kind ≠ .punctuator "_" := by
  rcases h.next_cases with ⟨before, lexeme, after, splits, full, more⟩ |
    ⟨before, tail, b, rest, gapless, next, -, -⟩
  · rw [next_full splits full more] at found
    cases found
  · rw [next] at found
    have answered : ((Head.ofText tail).answer s.symbols (.behind before)).1 = .ok t.kind := by
      cases result : ((Head.ofText tail).answer s.symbols (.behind before)).1 with
      | error e =>
        rw [result] at found
        cases found
      | ok kind =>
        rw [result] at found
        cases found
        rfl
    constructor
    · intro mark
      rw [mark] at answered
      exact Head.ofText_ne_mark gapless (Head.eq_punctuator_of_answer answered)
    · intro underscore
      rw [underscore] at answered
      exact Head.ofText_ne_underscore tail (Head.eq_punctuator_of_answer answered)

theorem Poised.regular_next (h : s.Poised source) (regular : s.symbols.Regular) :
    s.next.2.symbols.Regular := by
  rcases h.next_cases with ⟨before, lexeme, after, splits, full, more⟩ |
    ⟨before, tail, b, rest, -, next, -, -⟩
  · rw [next_full splits full more]
    exact regular
  · rw [next]
    exact Head.answer_regular regular _ _

theorem Poised.regular_later (h : s.Poised source) (regular : s.symbols.Regular) (n : Nat) :
    (s.later n).symbols.Regular := by
  induction n generalizing s with
  | zero => exact regular
  | succ n ih => exact ih h.next (h.regular_next regular)

/-- Whatever a session has answered before, the next token behind a committed place where neither a gap nor
a number starts is the longest word or the longest punctuator, the end or an error. No token is ever the
comment mark or the underscore. -/
theorem next_takes_longest (h : s.buffer.Splits source before [] after) (regular : s.symbols.Regular)
    (calls : Nat) :
    (∀ before after, (s.later calls).buffer.Splits source before [] after →
      (∀ c ∈ after.head?, isBlank c = false ∧ c ≠ '#') → ¬ BeginsNumber after →
      (s.later calls).TakesLongest source before after) ∧
    ∀ t, (s.later calls).next.1 = .ok t → t.kind ≠ .punctuator "#" ∧ t.kind ≠ .punctuator "_" := by
  have poised : s.Poised source := ⟨before, [], after, h, .inl rfl⟩
  constructor
  · intro before after committed starts noNumber
    exact takesLongest committed (poised.regular_later regular calls) starts noNumber
  · intro t found
    exact (poised.later calls).kind_ne found

end

/-- Behind `a`, `<<=` is taken whole. -/
theorem next_takes_longest_shift :
    ∃ b : Buffer ByteReader, Buffer.new (ByteReader.ofBytes #[97, 60, 60, 61]) "a" = .ok b ∧
      b.Splits [97, 60, 60, 61] [] [] ['a', '<', '<', '='] ∧ (ofBuffer b).symbols.Regular ∧
      ((ofBuffer b).later 1).buffer.Splits [97, 60, 60, 61] ['a'] [] ['<', '<', '='] ∧
      (∀ c ∈ ['<', '<', '='].head?, isBlank c = false ∧ c ≠ '#') ∧ ¬ BeginsNumber ['<', '<', '='] ∧
      ((ofBuffer b).later 1).TakesLongest [97, 60, 60, 61] ['a'] ['<', '<', '='] := by
  obtain ⟨b, opened, splits⟩ := Buffer.new_splits (ByteReader.delivers #[97, 60, 60, 61]) "a"
  have regular : (ofBuffer b).symbols.Regular := SymbolTable.regular_seeded 0
  have head : Head.ofText ['a', '<', '<', '='] = .word ['a'] := by rfl
  have start : (ofBuffer b).buffer.Splits [97, 60, 60, 61] [] [] ['a', '<', '<', '='] := splits
  obtain ⟨b₁, rest, next, cut, left⟩ := next_of_gapless start rfl
  rw [head] at cut left
  obtain rfl : ['<', '<', '='] = rest := List.tail_eq_of_cons_eq cut
  have later : ((ofBuffer b).later 1).buffer = b₁ := by
    change (ofBuffer b).next.2.buffer = b₁
    rw [next]
  have behind : ((ofBuffer b).later 1).buffer.Splits [97, 60, 60, 61] ['a'] [] ['<', '<', '='] := by
    rw [later]
    exact left
  have starts : ∀ c ∈ ['<', '<', '='].head?, isBlank c = false ∧ c ≠ '#' := by
    intro c first
    cases first
    decide
  have noNumber : ¬ BeginsNumber ['<', '<', '='] := by
    rintro ⟨digit⟩
    cases digit
  obtain ⟨longest, -⟩ := next_takes_longest start regular 1
  exact ⟨b, opened, splits, regular, behind, starts, noNumber, longest _ _ behind starts noNumber⟩

end TokenStream

end Kaleidoscope
