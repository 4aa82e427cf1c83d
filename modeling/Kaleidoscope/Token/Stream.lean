import Kaleidoscope.Outcome
import Kaleidoscope.Sink
import Kaleidoscope.Token
import Kaleidoscope.Token.Lexeme

/-!
# The tokens of a source

A token stream reads a source through a buffer and resolves its words in a symbol table. Tokens are
asked for one at a time, or all up to the end of the input or the first error.
-/

namespace Kaleidoscope

structure TokenStream (ρ : Type) where
  buffer : Buffer ρ
  symbols : SymbolTable

def Word.kind : Word → TokenKind
  | name n => .identifier n
  | keyword k => .keyword k

namespace TokenStream

variable {ρ : Type}

def ofBuffer (buffer : Buffer ρ) : TokenStream ρ := ⟨buffer, .empty⟩

variable [Reader ρ]

/-- The token at the cursor, after any gap: a number, else a word, else a punctuator, else the end of
the input. -/
def kind (s : TokenStream ρ) : Except ScanError TokenKind × TokenStream ρ :=
  match s.buffer.number with
  | (.error e, b) => (.error e, { s with buffer := b })
  | (.ok (some value), b) => (.ok (.number value), { s with buffer := b })
  | (.ok none, b) =>
    match b.word with
    | (.error e, b) => (.error e, { s with buffer := b })
    | (.ok (some text), b) =>
      let (word, symbols) := s.symbols.intern text
      (.ok word.kind, ⟨b, symbols⟩)
    | (.ok none, b) =>
      match b.punctuator with
      | (.error e, b) => (.error e, { s with buffer := b })
      | (.ok (some text), b) => (.ok (.punctuator text), { s with buffer := b })
      | (.ok none, b) =>
        if b.AtEnd then (.ok .endOfInput, { s with buffer := b })
        else (.error (.unexpectedCharacter b.peek b.startPos), { s with buffer := b })

/-- The next token. At the end of the input it is the end again. -/
def next (s : TokenStream ρ) : Except ScanError Token × TokenStream ρ :=
  match s.buffer.skipGap with
  | (.error e, b) => (.error e, { s with buffer := b })
  | (.ok (), b) =>
    match kind { s with buffer := b } with
    | (.ok kind, s') => (.ok ⟨kind, b.startPos⟩, s')
    | (.error e, s') => (.error e, s')

/-- A token that is found is committed. If it is not the end, it takes from the supply. -/
theorem kind_progress {s s' : TokenStream ρ} {kind : TokenKind} (h : s.kind = (.ok kind, s'))
    (committed : s.buffer.extent = 0) :
    s'.buffer.extent = 0 ∧ s'.buffer.supply ≤ s.buffer.supply ∧
      (kind ≠ .endOfInput → s'.buffer.supply < s.buffer.supply) := by
  simp only [TokenStream.kind] at h
  split at h
  · cases h
  · rename_i value b number
    cases h
    have := Buffer.number_settled number committed
    exact ⟨this.1, this.2.1, fun _ => this.2.2 rfl⟩
  · rename_i b₁ number
    have first := Buffer.number_settled number committed
    split at h
    · cases h
    · rename_i text b₂ word
      cases h
      have second := Buffer.word_settled word first.1
      have := second.2.2 rfl
      have := first.2.1
      exact ⟨second.1, by dsimp only; omega, fun _ => by dsimp only; omega⟩
    · rename_i b₂ word
      have second := Buffer.word_settled word first.1
      have le₁ := first.2.1
      have le₂ := second.2.1
      split at h
      · cases h
      · rename_i text b₃ punctuator
        cases h
        have third := Buffer.punctuator_settled punctuator second.1
        have := third.2.2 rfl
        exact ⟨third.1, by dsimp only; omega, fun _ => by dsimp only; omega⟩
      · rename_i b₃ punctuator
        have third := Buffer.punctuator_settled punctuator second.1
        have le₃ := third.2.1
        split at h
        · cases h
          exact ⟨third.1, by dsimp only; omega, fun ended => absurd rfl ended⟩
        · cases h

/-- What reading on goes down on. -/
def Less (s' s : TokenStream ρ) : Prop :=
  Prod.Lex (· < ·) (· < ·) (s'.buffer.unsettled, s'.buffer.supply)
    (s.buffer.unsettled, s.buffer.supply)

theorem next_less {s s' : TokenStream ρ} {t : Token} (h : s.next = (.ok t, s'))
    (more : t.isEnd = false) : Less s' s := by
  simp only [next] at h
  split at h
  · cases h
  · rename_i b gap
    have ⟨committed, less⟩ := Buffer.skipGap_ok gap
    split at h
    · rename_i found s₁ kind
      cases h
      have progress := kind_progress kind committed
      have lt := progress.2.2 (by rintro rfl; cases more)
      unfold Less
      by_cases start : s.buffer.extent = 0
      · simp only [Buffer.unsettled, progress.1, start]
        exact Prod.Lex.right _ (Nat.lt_of_lt_of_le lt (less start))
      · simp only [Buffer.unsettled, progress.1, start]
        exact Prod.Lex.left _ _ (by decide)
    · cases h

/-- Hands the tokens to `step` one after another, until the end of the input has been handed over,
`step` reports an error or no token can be read. -/
def feed {τ : Type} (step : τ → Token → Option ScanError × τ) (acc : τ) (s : TokenStream ρ) :
    Option ScanError × τ × TokenStream ρ :=
  match h : s.next with
  | (.error e, s') => (some e, acc, s')
  | (.ok t, s') =>
    match step acc t with
    | (some e, acc') => (some e, acc', s')
    | (none, acc') =>
      if more : t.isEnd = false then
        have _less : Less s' s := next_less h more
        feed step acc' s'
      else (none, acc', s')
termination_by (s.buffer.unsettled, s.buffer.supply)
decreasing_by exact _less

/-- All tokens up to the end of the input, which is the last of them, or up to the first error. -/
def all (s : TokenStream ρ) : Option ScanError × Array Token × TokenStream ρ :=
  feed (fun tokens t => (none, tokens.push t)) #[] s

def reset (s : TokenStream ρ) : Outcome ScanError (TokenStream ρ) Unit :=
  let (result, buffer) := s.buffer.rewind
  { result := result
    state := ⟨buffer, s.symbols.clear⟩
    log := [⟨.debug, "resetting scanner for '" ++ s.buffer.name ++ "'"⟩] }

def linePieces (t : Token) : List String := t.pieces ++ ["\n"]

def line (t : Token) : String := String.join (linePieces t)

/-- Writes the remaining tokens, one a line, and resets the stream. The first error, be it of the
source or of the sink, ends the dump where it stands. -/
def dump (s : TokenStream ρ) (out : Sink) : Outcome ScanError (TokenStream ρ × Sink) Unit :=
  let step (acc : Sink × Array Record) (t : Token) : Option ScanError × (Sink × Array Record) :=
    match acc.1.write (line t) with
    | (true, out) => (none, out, acc.2.push t.record)
    | (false, out) => (some (.cannotWrite Sink.full), out, acc.2.push t.record)
  match s.feed step (out, #[]) with
  | (some e, (out, log), s') => ⟨.error e, (s', out), log.toList⟩
  | (none, (out, log), s') =>
    let again := s'.reset
    ⟨again.result, (again.state, out), log.toList ++ again.log⟩

end TokenStream

end Kaleidoscope
