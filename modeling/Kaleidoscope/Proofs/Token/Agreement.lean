import Kaleidoscope.Proofs.Source.Agreement
import Kaleidoscope.Proofs.Token.Longest

/-!
# Streams whose readers agree

What a stream answers does not depend on the reader behind its buffer, as long as another one reads the
same, and names apart it does not depend on what the stream has answered before.
-/

namespace Kaleidoscope

open Literal

/-! ## Loops by one round -/

namespace Buffer

section
variable {ρ : Type} [Reader ρ]

theorem skipBlanks_eq (b : Buffer ρ) :
    b.skipBlanks =
      if isBlank b.peek then
        match b.advance with
        | (.ok _, b') => b'.mark.skipBlanks
        | (.error e, b') => (.error e, b')
      else (.ok (), b) := by
  fun_cases skipBlanks b with
  | case1 blank c b₁ advanced => simp only [blank, advanced, if_true]
  | case2 blank e b₁ advanced => simp only [blank, advanced, if_true]
  | case3 other => rw [if_neg other]

theorem skipLine_eq (b : Buffer ρ) :
    b.skipLine =
      if b.AtEnd then (.ok (), b)
      else
        match b.advance with
        | (.ok c, b') => if c = '\n' then (.ok (), b'.mark) else b'.mark.skipLine
        | (.error e, b') => (.error e, b') := by
  fun_cases skipLine b with
  | case1 ended => rw [if_pos ended]
  | case2 more b₁ advanced => simp only [if_neg more, advanced, if_true]
  | case3 more c b₁ advanced _ other => simp only [if_neg more, advanced, if_neg other]
  | case4 more e b₁ advanced => simp only [if_neg more, advanced]

theorem takeLiteral_eq (b : Buffer ρ) (s : Stage) :
    b.takeLiteral s =
      match s.move b.peek with
      | .take next =>
        match b.advance with
        | (.ok _, b') => b'.takeLiteral next
        | (.error e, b') => (.error e, b')
      | .finish form => (.ok (some form), b)
      | .refuse => (.ok none, b)
      | .malformed => (.error b.malformed, b) := by
  fun_cases takeLiteral b s with
  | case1 next taken c b₁ advanced => simp only [taken, advanced]
  | case2 next taken e b₁ advanced => simp only [taken, advanced]
  | case3 form taken => simp only [taken]
  | case4 taken => simp only [taken]
  | case5 taken => simp only [taken]

theorem takeWord_eq (b : Buffer ρ) :
    b.takeWord =
      if isWordCharacter b.peek then
        match b.advance with
        | (.ok _, b') => b'.takeWord
        | (.error e, b') => (.error e, b')
      else (.ok (), b) := by
  fun_cases takeWord b with
  | case1 inside c b₁ advanced => simp only [inside, advanced, if_true]
  | case2 inside e b₁ advanced => simp only [inside, advanced, if_true]
  | case3 outside => rw [if_neg outside]

end

/-! ## Buffers -/

section
variable {ρ ρ' : Type} [Reader ρ] [Reader ρ'] {R : Reader.Bisimulation ρ ρ'} {b next : Buffer ρ}
  {b' : Buffer ρ'}

namespace Agrees

theorem skipBlanks (h : b.Agrees R b') {answer : Except ScanError Unit}
    (skipped : b.skipBlanks = (answer, next)) :
    ∃ next', b'.skipBlanks = (answer, next') ∧ next.Agrees R next' := by
  fun_induction Buffer.skipBlanks b generalizing b' with
  | case1 b blank c b₁ advanced _ ih =>
    obtain ⟨b₁', there, agrees⟩ := h.advance advanced
    rw [skipBlanks_eq b', h.peek, if_pos blank, there]
    exact ih agrees.mark skipped
  | case2 b blank e b₁ advanced =>
    obtain ⟨b₁', there, agrees⟩ := h.advance advanced
    cases skipped
    rw [skipBlanks_eq b', h.peek, if_pos blank, there]
    exact ⟨b₁', rfl, agrees⟩
  | case3 b other =>
    cases skipped
    rw [skipBlanks_eq b', h.peek, if_neg other]
    exact ⟨b', rfl, h⟩

theorem skipLine (h : b.Agrees R b') {answer : Except ScanError Unit}
    (skipped : b.skipLine = (answer, next)) :
    ∃ next', b'.skipLine = (answer, next') ∧ next.Agrees R next' := by
  fun_induction Buffer.skipLine b generalizing b' with
  | case1 b ended =>
    cases skipped
    rw [skipLine_eq b', if_pos (h.atEnd_iff.mpr ended)]
    exact ⟨b', rfl, h⟩
  | case2 b more b₁ advanced =>
    obtain ⟨b₁', there, agrees⟩ := h.advance advanced
    cases skipped
    rw [skipLine_eq b', if_neg (mt h.atEnd_iff.mp more), there]
    exact ⟨_, rfl, agrees.mark⟩
  | case3 b more c b₁ advanced _ other ih =>
    obtain ⟨b₁', there, agrees⟩ := h.advance advanced
    rw [skipLine_eq b', if_neg (mt h.atEnd_iff.mp more), there]
    simp only [if_neg other]
    exact ih agrees.mark skipped
  | case4 b more e b₁ advanced =>
    obtain ⟨b₁', there, agrees⟩ := h.advance advanced
    cases skipped
    rw [skipLine_eq b', if_neg (mt h.atEnd_iff.mp more), there]
    exact ⟨b₁', rfl, agrees⟩

theorem skipGap (h : b.Agrees R b') {answer : Except ScanError Unit}
    (skipped : b.skipGap = (answer, next)) :
    ∃ next', b'.skipGap = (answer, next') ∧ next.Agrees R next' := by
  fun_induction Buffer.skipGap b generalizing b' with
  | case1 b e b₁ blanks =>
    obtain ⟨b₁', there, agrees⟩ := h.skipBlanks blanks
    cases skipped
    rw [skipGap_eq b', there]
    exact ⟨b₁', rfl, agrees⟩
  | case2 b b₁ blanks e b₂ comment =>
    obtain ⟨b₁', there, agrees⟩ := h.skipBlanks blanks
    obtain ⟨b₂', there', agrees'⟩ := agrees.startsWith comment
    cases skipped
    simp only [skipGap_eq b', there, there']
    exact ⟨b₂', rfl, agrees'⟩
  | case3 b b₁ blanks b₂ comment =>
    obtain ⟨b₁', there, agrees⟩ := h.skipBlanks blanks
    obtain ⟨b₂', there', agrees'⟩ := agrees.startsWith comment
    cases skipped
    simp only [skipGap_eq b', there, there']
    exact ⟨b₂', rfl, agrees'⟩
  | case4 b b₁ blanks b₂ comment e b₃ line =>
    obtain ⟨b₁', there, agrees⟩ := h.skipBlanks blanks
    obtain ⟨b₂', there', agrees'⟩ := agrees.startsWith comment
    obtain ⟨b₃', last, agrees''⟩ := agrees'.skipLine line
    cases skipped
    simp only [skipGap_eq b', there, there', last]
    exact ⟨b₃', rfl, agrees''⟩
  | case5 b b₁ blanks b₂ comment b₃ line _ ih =>
    obtain ⟨b₁', there, agrees⟩ := h.skipBlanks blanks
    obtain ⟨b₂', there', agrees'⟩ := agrees.startsWith comment
    obtain ⟨b₃', last, agrees''⟩ := agrees'.skipLine line
    simp only [skipGap_eq b', there, there', last]
    exact ih agrees'' skipped

theorem takeLiteral {s : Stage} (h : b.Agrees R b') {answer : Except ScanError (Option Form)}
    (taken : b.takeLiteral s = (answer, next)) :
    ∃ next', b'.takeLiteral s = (answer, next') ∧ next.Agrees R next' := by
  fun_induction Buffer.takeLiteral b s generalizing b' with
  | case1 b s stage move c b₁ advanced _ ih =>
    obtain ⟨b₁', there, agrees⟩ := h.advance advanced
    simp only [takeLiteral_eq b', h.peek, move, there]
    exact ih agrees taken
  | case2 b s stage move e b₁ advanced =>
    obtain ⟨b₁', there, agrees⟩ := h.advance advanced
    cases taken
    simp only [takeLiteral_eq b', h.peek, move, there]
    exact ⟨b₁', rfl, agrees⟩
  | case3 b s form move =>
    cases taken
    simp only [takeLiteral_eq b', h.peek, move]
    exact ⟨b', rfl, h⟩
  | case4 b s move =>
    cases taken
    simp only [takeLiteral_eq b', h.peek, move]
    exact ⟨b', rfl, h⟩
  | case5 b s move =>
    cases taken
    simp only [takeLiteral_eq b', h.peek, move, h.malformed]
    exact ⟨b', rfl, h⟩

theorem number (h : b.Agrees R b') {answer : Except ScanError (Option Float)}
    (found : b.number = (answer, next)) :
    ∃ next', b'.number = (answer, next') ∧ next.Agrees R next' := by
  unfold Buffer.number at found ⊢
  cases taken : b.takeLiteral .start with
  | mk result b₁ =>
    obtain ⟨b₁', there, agrees⟩ := h.takeLiteral taken
    rw [taken] at found
    rw [there]
    cases result with
    | error e =>
      cases found
      exact ⟨b₁', rfl, agrees⟩
    | ok form? =>
      cases form? with
      | none =>
        cases found
        exact ⟨_, rfl, agrees.reset⟩
      | some form =>
        dsimp only at found ⊢
        rw [agrees.lexeme, agrees.startPos]
        cases value : form.value? b₁.lexeme with
        | some v =>
          rw [value] at found
          cases found
          exact ⟨_, rfl, agrees.mark⟩
        | none =>
          rw [value] at found
          cases found
          exact ⟨b₁', rfl, agrees⟩

theorem takeWord (h : b.Agrees R b') {answer : Except ScanError Unit}
    (taken : b.takeWord = (answer, next)) :
    ∃ next', b'.takeWord = (answer, next') ∧ next.Agrees R next' := by
  fun_induction Buffer.takeWord b generalizing b' with
  | case1 b inside c b₁ advanced _ ih =>
    obtain ⟨b₁', there, agrees⟩ := h.advance advanced
    rw [takeWord_eq b', h.peek, if_pos inside, there]
    exact ih agrees taken
  | case2 b inside e b₁ advanced =>
    obtain ⟨b₁', there, agrees⟩ := h.advance advanced
    cases taken
    rw [takeWord_eq b', h.peek, if_pos inside, there]
    exact ⟨b₁', rfl, agrees⟩
  | case3 b outside =>
    cases taken
    rw [takeWord_eq b', h.peek, if_neg outside]
    exact ⟨b', rfl, h⟩

theorem word (h : b.Agrees R b') {answer : Except ScanError (Option String)}
    (found : b.word = (answer, next)) :
    ∃ next', b'.word = (answer, next') ∧ next.Agrees R next' := by
  unfold Buffer.word at found ⊢
  rw [h.peek]
  by_cases inside : isWordCharacter b.peek = true
  · rw [if_pos inside] at found ⊢
    cases taken : b.takeWord with
    | mk result b₁ =>
      obtain ⟨b₁', there, agrees⟩ := h.takeWord taken
      rw [taken] at found
      rw [there]
      cases result with
      | error e =>
        cases found
        exact ⟨b₁', rfl, agrees⟩
      | ok =>
        cases found
        dsimp only
        rw [agrees.lexeme]
        exact ⟨_, rfl, agrees.mark⟩
  · rw [if_neg inside] at found ⊢
    cases found
    exact ⟨b', rfl, h⟩

theorem skip {n : Nat} (h : b.Agrees R b') {answer : Except ScanError Unit}
    (skipped : b.skip n = (answer, next)) :
    ∃ next', b'.skip n = (answer, next') ∧ next.Agrees R next' := by
  induction n generalizing b b' with
  | zero =>
    cases skipped
    exact ⟨b', rfl, h⟩
  | succ n ih =>
    unfold Buffer.skip at skipped ⊢
    cases moved : b.advance with
    | mk result b₁ =>
      obtain ⟨b₁', there, agrees⟩ := h.advance moved
      rw [moved] at skipped
      rw [there]
      cases result with
      | error e =>
        cases skipped
        exact ⟨b₁', rfl, agrees⟩
      | ok c => exact ih agrees skipped

theorem oneOf {candidates : List String} (h : b.Agrees R b') {answer : Except ScanError (Option String)}
    (found : b.oneOf candidates = (answer, next)) :
    ∃ next', b'.oneOf candidates = (answer, next') ∧ next.Agrees R next' := by
  induction candidates generalizing b b' with
  | nil =>
    cases found
    exact ⟨b', rfl, h⟩
  | cons text candidates ih =>
    unfold Buffer.oneOf at found ⊢
    cases asked : b.startsWith text with
    | mk result b₁ =>
      obtain ⟨b₁', there, agrees⟩ := h.startsWith asked
      rw [asked] at found
      rw [there]
      cases result with
      | error e =>
        cases found
        exact ⟨b₁', rfl, agrees⟩
      | ok yes =>
        cases yes with
        | false => exact ih agrees found
        | true =>
          dsimp only at found ⊢
          cases skipped : b₁.skip text.length with
          | mk result b₂ =>
            obtain ⟨b₂', there', agrees'⟩ := agrees.skip skipped
            rw [skipped] at found
            rw [there']
            cases result with
            | error e =>
              cases found
              exact ⟨b₂', rfl, agrees'⟩
            | ok =>
              cases found
              exact ⟨_, rfl, agrees'.mark⟩

theorem punctuator (h : b.Agrees R b') {answer : Except ScanError (Option String)}
    (found : b.punctuator = (answer, next)) :
    ∃ next', b'.punctuator = (answer, next') ∧ next.Agrees R next' := by
  unfold Buffer.punctuator at found ⊢
  cases long : b.oneOf Punctuator.long with
  | mk result b₁ =>
    obtain ⟨b₁', there, agrees⟩ := h.oneOf long
    rw [long] at found
    rw [there]
    cases result with
    | error e =>
      cases found
      exact ⟨b₁', rfl, agrees⟩
    | ok text? =>
      cases text? with
      | some text =>
        cases found
        exact ⟨b₁', rfl, agrees⟩
      | none =>
        dsimp only at found ⊢
        rw [agrees.peek]
        cases single : Punctuator.single? b₁.peek with
        | none =>
          rw [single] at found
          cases found
          exact ⟨b₁', rfl, agrees⟩
        | some text =>
          rw [single] at found
          dsimp only at found ⊢
          cases moved : b₁.advance with
          | mk result b₂ =>
            obtain ⟨b₂', there', agrees'⟩ := agrees.advance moved
            rw [moved] at found
            rw [there']
            cases result with
            | error e =>
              cases found
              exact ⟨b₂', rfl, agrees'⟩
            | ok c =>
              cases found
              exact ⟨_, rfl, agrees'.mark⟩

end Agrees

end

end Buffer

/-! ## Streams -/

namespace TokenStream

section
variable {ρ ρ' : Type} [Reader ρ] [Reader ρ'] {R : Reader.Bisimulation ρ ρ'} {s s₁ : TokenStream ρ}
  {s' : TokenStream ρ'}

structure Agrees (s : TokenStream ρ) (R : Reader.Bisimulation ρ ρ') (s' : TokenStream ρ') : Prop where
  buffer : s.buffer.Agrees R s'.buffer
  regular : s.symbols.Regular
  regular' : s'.symbols.Regular

namespace Agrees

theorem moved (h : s.Agrees R s') {b : Buffer ρ} {b' : Buffer ρ'} (buffer : b.Agrees R b') :
    Agrees ⟨b, s.symbols⟩ R ⟨b', s'.symbols⟩ :=
  ⟨buffer, h.regular, h.regular'⟩

/-- What is neither a number nor a word is told from the characters alone. -/
theorem kind_of_no_word (h : s.Agrees R s') {b₁ b₂ : Buffer ρ} {b₁' b₂' : Buffer ρ'}
    {answer : Except ScanError TokenKind} (number : s.buffer.number = (.ok none, b₁))
    (number' : s'.buffer.number = (.ok none, b₁')) (word : b₁.word = (.ok none, b₂))
    (word' : b₁'.word = (.ok none, b₂')) (agrees : b₂.Agrees R b₂') (found : s.kind = (answer, s₁)) :
    ∃ s₁', s'.kind = (answer, s₁') ∧ s₁.Agrees R s₁' := by
  unfold TokenStream.kind at found ⊢
  simp only [number, word] at found
  simp only [number', word']
  cases punctuator : b₂.punctuator with
  | mk result b₃ =>
    obtain ⟨b₃', there, agrees⟩ := agrees.punctuator punctuator
    rw [punctuator] at found
    rw [there]
    cases result with
    | error e =>
      cases found
      exact ⟨_, rfl, h.moved agrees⟩
    | ok text? =>
      cases text? with
      | some text =>
        cases found
        exact ⟨_, rfl, h.moved agrees⟩
      | none =>
        dsimp only at found ⊢
        by_cases ended : b₃.AtEnd
        · rw [if_pos ended] at found
          rw [if_pos (agrees.atEnd_iff.mpr ended)]
          cases found
          exact ⟨_, rfl, h.moved agrees⟩
        · rw [if_neg ended] at found
          rw [if_neg (mt agrees.atEnd_iff.mp ended), agrees.peek, agrees.startPos]
          cases found
          exact ⟨_, rfl, h.moved agrees⟩

theorem kind_of_no_number (h : s.Agrees R s') {b₁ : Buffer ρ} {b₁' : Buffer ρ'}
    {answer : Except ScanError TokenKind} (number : s.buffer.number = (.ok none, b₁))
    (number' : s'.buffer.number = (.ok none, b₁')) (agrees : b₁.Agrees R b₁')
    (found : s.kind = (answer, s₁)) :
    ∃ answer' s₁', s'.kind = (answer', s₁') ∧
      answer'.map TokenKind.unnumbered = answer.map TokenKind.unnumbered ∧ s₁.Agrees R s₁' := by
  cases word : b₁.word with
  | mk result b₂ =>
    obtain ⟨b₂', word', agrees⟩ := agrees.word word
    cases result with
    | error e =>
      simp only [TokenStream.kind, number, word] at found
      simp only [TokenStream.kind, number', word']
      cases found
      exact ⟨_, _, rfl, rfl, h.moved agrees⟩
    | ok text? =>
      cases text? with
      | some text =>
        simp only [TokenStream.kind, number, word] at found
        simp only [TokenStream.kind, number', word']
        cases found
        refine ⟨_, _, rfl, ?_, agrees, h.regular.intern text, h.regular'.intern text⟩
        exact congrArg Except.ok (h.regular'.intern_unnumbered h.regular text)
      | none =>
        obtain ⟨s₁', there, agrees⟩ := h.kind_of_no_word number number' word word' agrees found
        exact ⟨answer, s₁', there, rfl, agrees⟩

theorem kind (h : s.Agrees R s') {answer : Except ScanError TokenKind} (found : s.kind = (answer, s₁)) :
    ∃ answer' s₁', s'.kind = (answer', s₁') ∧
      answer'.map TokenKind.unnumbered = answer.map TokenKind.unnumbered ∧ s₁.Agrees R s₁' := by
  cases number : s.buffer.number with
  | mk result b₁ =>
    obtain ⟨b₁', number', agrees⟩ := h.buffer.number number
    cases result with
    | error e =>
      simp only [TokenStream.kind, number] at found
      simp only [TokenStream.kind, number']
      cases found
      exact ⟨_, _, rfl, rfl, h.moved agrees⟩
    | ok value? =>
      cases value? with
      | some value =>
        simp only [TokenStream.kind, number] at found
        simp only [TokenStream.kind, number']
        cases found
        exact ⟨_, _, rfl, rfl, h.moved agrees⟩
      | none => exact h.kind_of_no_number number number' agrees found

theorem next (h : s.Agrees R s') : s'.next.1.map Token.unnumbered = s.next.1.map Token.unnumbered ∧
    s.next.2.Agrees R s'.next.2 := by
  unfold TokenStream.next
  cases skipped : s.buffer.skipGap with
  | mk result b₁ =>
    obtain ⟨b₁', there, agrees⟩ := h.buffer.skipGap skipped
    rw [there]
    cases result with
    | error e => exact ⟨rfl, h.moved agrees⟩
    | ok =>
      dsimp only
      cases found : TokenStream.kind { s with buffer := b₁ } with
      | mk answer s₁ =>
        obtain ⟨answer', s₁', there, same, alongside⟩ := (h.moved agrees).kind found
        rw [there, agrees.startPos]
        cases answer with
        | error e =>
          cases answer' with
          | error e' =>
            cases same
            exact ⟨rfl, alongside⟩
          | ok kind' => cases same
        | ok kind =>
          cases answer' with
          | error e' => cases same
          | ok kind' =>
            have kinds : kind'.unnumbered = kind.unnumbered := Except.ok.inj same
            exact ⟨by simp only [Except.map, Token.unnumbered, kinds], alongside⟩

theorem later (h : s.Agrees R s') (n : Nat) : (s.later n).Agrees R (s'.later n) := by
  induction n generalizing s s' with
  | zero => exact h
  | succ n ih => exact ih h.next.2

end Agrees

end

end TokenStream

end Kaleidoscope
