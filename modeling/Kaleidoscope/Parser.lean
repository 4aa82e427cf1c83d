import Kaleidoscope.Grammar.Form
import Kaleidoscope.Token.Stream

/-!
# Parsing a source

A parser reads a whole source from its start, as often as it is asked to. Syntax errors are kept as
diagnostics, and a source that has any yields no items. A lexical error ends the parse.
-/

namespace Kaleidoscope

structure Parser (ρ : Type) where
  stream : TokenStream ρ
  /-- The syntax errors of the last parse. -/
  diagnostics : List SyntaxError

inductive Event
  | took (t : Token)
  | reported (e : SyntaxError)

namespace Event

/-- An error is reported as soon as the token that it shows has been taken up. -/
def sequence : List Token → List SyntaxError → List Event
  | [], _ => []
  | t :: ts, [] => took t :: sequence ts []
  | t :: ts, e :: es =>
    if e.pos = t.pos then
      -- the end of the input is taken up again after an error there
      took t :: reported e :: if t.isEnd then [took t] else sequence ts es
    else took t :: sequence ts (e :: es)

def record (name : String) : Event → Record
  | took t => t.record
  | reported e =>
    ⟨.debug, "in source file: " ++ name ++ ", error message: " ++ e.message⟩

end Event

namespace Parser

variable {ρ : Type} [Reader ρ]

def ofStream (stream : TokenStream ρ) : Parser ρ := ⟨stream, []⟩

def parsed (count : Nat) : Record :=
  ⟨.debug, "parsed " ++ toString count ++ " top-level items"⟩

def parseRest (p : Parser ρ) : Outcome ParseError (Parser ρ) (List Item) :=
  let (failure, tokens, stream) := p.stream.all
  let program := Grammar.program tokens.toList
  let events := Event.sequence tokens.toList program.diagnostics
  let log := events.map (·.record p.stream.buffer.name)
  let state : Parser ρ := ⟨stream, program.diagnostics⟩
  match program.complete, failure with
  | false, some e => ⟨.error (.lexical e), state, log⟩
  | _, _ =>
    if program.diagnostics.isEmpty then
      ⟨.ok program.items, state, log ++ [parsed program.items.length]⟩
    else ⟨.ok [], state, log⟩

def parse (p : Parser ρ) : Outcome ParseError (Parser ρ) (List Item) :=
  let again := p.stream.reset
  match again.result with
  | .error e => ⟨.error (.lexical e), ⟨again.state, []⟩, again.log⟩
  | .ok () => (parseRest ⟨again.state, []⟩).after again.log

end Parser

end Kaleidoscope
