import Kaleidoscope.Proofs.Source.Bounds
import Kaleidoscope.Proofs.Token.Resuming

/-!
# What scanning keeps

A scanner does nothing to its buffer but move on, commit and take back. So what these three keep, any call
for a token keeps, whether or not it finds one.
-/

namespace Kaleidoscope

open Literal

namespace Buffer

variable {ρ : Type} [Reader ρ] {P : Buffer ρ → Prop} {b : Buffer ρ}

/-- `P` is kept by all that a scanner does to a buffer. -/
structure Kept (P : Buffer ρ → Prop) : Prop where
  advance : ∀ {b : Buffer ρ}, P b → P b.advance.2
  mark : ∀ {b : Buffer ρ}, P b → P b.mark
  reset : ∀ {b : Buffer ρ}, P b → P b.reset

omit [Reader ρ] in
theorem holds_behind {α : Type} {call : α × Buffer ρ} {result : α} {b' : Buffer ρ} (h : P call.2)
    (eq : call = (result, b')) : P b' := by
  rw [eq] at h
  exact h

namespace Kept

theorem startsWith (kept : Kept P) (h : P b) (pattern : String) : P (b.startsWith pattern).2 :=
  startsWith_keeps (P := P) kept.advance kept.reset h pattern

/-! ## Gaps -/

theorem skipBlanks (kept : Kept P) (h : P b) : P b.skipBlanks.2 := by
  fun_induction Buffer.skipBlanks b with
  | case1 b blank c b₁ advanced _ ih => exact ih (kept.mark (holds_behind (kept.advance h) advanced))
  | case2 b blank e b₁ advanced => exact holds_behind (kept.advance h) advanced
  | case3 => exact h

theorem skipLine (kept : Kept P) (h : P b) : P b.skipLine.2 := by
  fun_induction Buffer.skipLine b with
  | case1 => exact h
  | case2 b more b₁ advanced => exact kept.mark (holds_behind (kept.advance h) advanced)
  | case3 b more c b₁ advanced _ other ih => exact ih (kept.mark (holds_behind (kept.advance h) advanced))
  | case4 b more e b₁ advanced => exact holds_behind (kept.advance h) advanced

theorem skipGap (kept : Kept P) (h : P b) : P b.skipGap.2 := by
  fun_induction Buffer.skipGap b with
  | case1 b e b₁ blanks => exact holds_behind (kept.skipBlanks h) blanks
  | case2 b b₁ blanks e b₂ comment =>
    have skipped : P b₁ := holds_behind (kept.skipBlanks h) blanks
    exact holds_behind (kept.startsWith skipped "#") comment
  | case3 b b₁ blanks b₂ comment =>
    have skipped : P b₁ := holds_behind (kept.skipBlanks h) blanks
    exact holds_behind (kept.startsWith skipped "#") comment
  | case4 b b₁ blanks b₂ comment e b₃ line =>
    have skipped : P b₁ := holds_behind (kept.skipBlanks h) blanks
    have asked : P b₂ := holds_behind (kept.startsWith skipped "#") comment
    exact holds_behind (kept.skipLine asked) line
  | case5 b b₁ blanks b₂ comment b₃ line _ ih =>
    have skipped : P b₁ := holds_behind (kept.skipBlanks h) blanks
    have asked : P b₂ := holds_behind (kept.startsWith skipped "#") comment
    exact ih (holds_behind (kept.skipLine asked) line)

/-! ## Lexemes -/

theorem takeLiteral (kept : Kept P) (h : P b) (s : Stage) : P (b.takeLiteral s).2 := by
  fun_induction Buffer.takeLiteral b s with
  | case1 b s next taken c b₁ advanced _ ih => exact ih (holds_behind (kept.advance h) advanced)
  | case2 b s next taken e b₁ advanced => exact holds_behind (kept.advance h) advanced
  | case3 => exact h
  | case4 => exact h
  | case5 => exact h

theorem number (kept : Kept P) (h : P b) : P b.number.2 := by
  have taken := kept.takeLiteral h .start
  unfold Buffer.number
  generalize b.takeLiteral .start = literal at taken ⊢
  obtain ⟨result, b₁⟩ := literal
  cases result with
  | error e => exact taken
  | ok form? =>
    cases form? with
    | none => exact kept.reset taken
    | some form =>
      dsimp only
      cases form.value? b₁.lexeme with
      | some value => exact kept.mark taken
      | none => exact taken

theorem takeWord (kept : Kept P) (h : P b) : P b.takeWord.2 := by
  fun_induction Buffer.takeWord b with
  | case1 b inside c b₁ advanced _ ih => exact ih (holds_behind (kept.advance h) advanced)
  | case2 b inside e b₁ advanced => exact holds_behind (kept.advance h) advanced
  | case3 => exact h

theorem word (kept : Kept P) (h : P b) : P b.word.2 := by
  have taken := kept.takeWord h
  unfold Buffer.word
  by_cases inside : isWordCharacter b.peek = true
  · rw [if_pos inside]
    generalize b.takeWord = run at taken ⊢
    obtain ⟨result, b₁⟩ := run
    cases result with
    | error e => exact taken
    | ok => exact kept.mark taken
  · rw [if_neg inside]
    exact h

theorem skip (kept : Kept P) (h : P b) (n : Nat) : P (b.skip n).2 := by
  induction n generalizing b with
  | zero => exact h
  | succ n ih =>
    have moved := kept.advance h
    unfold Buffer.skip
    generalize b.advance = advanced at moved ⊢
    obtain ⟨result, b₁⟩ := advanced
    cases result with
    | error e => exact moved
    | ok c => exact ih moved

theorem oneOf (kept : Kept P) (h : P b) (candidates : List String) : P (b.oneOf candidates).2 := by
  induction candidates generalizing b with
  | nil => exact h
  | cons text candidates ih =>
    have asked := kept.startsWith h text
    unfold Buffer.oneOf
    generalize b.startsWith text = answer at asked ⊢
    obtain ⟨result, b₁⟩ := answer
    cases result with
    | error e => exact asked
    | ok found =>
      cases found with
      | false => exact ih asked
      | true =>
        have passed := kept.skip asked text.length
        dsimp only
        generalize b₁.skip text.length = skipped at passed ⊢
        obtain ⟨result, b₂⟩ := skipped
        cases result with
        | error e => exact passed
        | ok => exact kept.mark passed

theorem punctuator (kept : Kept P) (h : P b) : P b.punctuator.2 := by
  have asked := kept.oneOf h Punctuator.long
  unfold Buffer.punctuator
  generalize b.oneOf Punctuator.long = long at asked ⊢
  obtain ⟨result, b₁⟩ := long
  cases result with
  | error e => exact asked
  | ok text? =>
    cases text? with
    | some text => exact asked
    | none =>
      dsimp only
      cases Punctuator.single? b₁.peek with
      | none => exact asked
      | some text =>
        have moved := kept.advance asked
        dsimp only
        generalize b₁.advance = advanced at moved ⊢
        obtain ⟨result, b₂⟩ := advanced
        cases result with
        | error e => exact moved
        | ok c => exact kept.mark moved

end Kept

end Buffer

/-! ## Tokens -/

namespace Buffer.Kept

variable {ρ : Type} [Reader ρ] {P : Buffer ρ → Prop} {s : TokenStream ρ}

theorem kind (kept : Kept P) (h : P s.buffer) : P s.kind.2.buffer := by
  have number := kept.number h
  unfold TokenStream.kind
  generalize s.buffer.number = found at number ⊢
  obtain ⟨result, b₁⟩ := found
  cases result with
  | error e => exact number
  | ok value? =>
    cases value? with
    | some value => exact number
    | none =>
      have word := kept.word number
      dsimp only
      generalize b₁.word = found at word ⊢
      obtain ⟨result, b₂⟩ := found
      cases result with
      | error e => exact word
      | ok text? =>
        cases text? with
        | some text => exact word
        | none =>
          have punctuator := kept.punctuator word
          dsimp only
          generalize b₂.punctuator = found at punctuator ⊢
          obtain ⟨result, b₃⟩ := found
          cases result with
          | error e => exact punctuator
          | ok text? =>
            cases text? with
            | some text => exact punctuator
            | none =>
              dsimp only
              split
              · exact punctuator
              · exact punctuator

theorem next (kept : Kept P) (h : P s.buffer) : P s.next.2.buffer := by
  have skipped := kept.skipGap h
  unfold TokenStream.next
  generalize s.buffer.skipGap = gap at skipped ⊢
  obtain ⟨result, b₁⟩ := gap
  cases result with
  | error e => exact skipped
  | ok =>
    have found := kept.kind (s := { s with buffer := b₁ }) skipped
    dsimp only
    generalize TokenStream.kind { s with buffer := b₁ } = token at found ⊢
    obtain ⟨answer, s₁⟩ := token
    cases answer with
    | error e => exact found
    | ok kind => exact found

theorem later (kept : Kept P) (h : P s.buffer) (n : Nat) : P (s.later n).buffer := by
  induction n generalizing s with
  | zero => exact h
  | succ n ih => exact ih (kept.next h)

end Buffer.Kept

end Kaleidoscope
