import Kaleidoscope.File.Handle
import Kaleidoscope.Parser

/-!
# Sessions on files

A session is opened on a file and can be taken to another one. What fails before the other file is
open leaves the session as it was.
-/

namespace Kaleidoscope

namespace Buffer

variable {ρ : Type} [Reader ρ]

def opening (path : String) : Record :=
  ⟨.debug, "opening source file '" ++ path ++ "'"⟩

def reopening (path : String) : Record :=
  ⟨.debug, "reopening source as '" ++ path ++ "'"⟩

def ofFile (path : String) (opened : Except SystemError ρ) : Except ScanError (Buffer ρ) :=
  match opened with
  | .ok reader => Buffer.new reader path
  | .error cause => .error (.cannotOpen path cause)

def reopen (b : Buffer ρ) (path : String) (opened : Except SystemError ρ) :
    Outcome ScanError (Buffer ρ) Unit :=
  match opened with
  | .ok reader =>
    let (result, b') := b.switchTo reader path
    ⟨result, b', [reopening path]⟩
  | .error cause => ⟨.error (.cannotOpen path cause), b, [reopening path]⟩

end Buffer

variable {ρ : Type} [Reader ρ]

def TokenStream.ofFile (path : String) (opened : Except SystemError ρ) :
    Except ScanError (TokenStream ρ) :=
  (Buffer.ofFile path opened).map .ofBuffer

def TokenStream.reopen (s : TokenStream ρ) (path : String) (opened : Except SystemError ρ) :
    Outcome ScanError (TokenStream ρ) Unit :=
  let moved := s.buffer.reopen path opened
  let stream : TokenStream ρ := { s with buffer := moved.state }
  Outcome.andThen ⟨moved.result, stream, moved.log⟩ fun _ s => s.reset

def Parser.ofFile (path : String) (opened : Except SystemError ρ) :
    Except ParseError (Parser ρ) :=
  match TokenStream.ofFile path opened with
  | .ok stream => .ok (.ofStream stream)
  | .error e => .error (.lexical e)

/-- Takes the parser to another file. The diagnostics stay until the next parse. -/
def Parser.reopen (p : Parser ρ) (path : String) (opened : Except SystemError ρ) :
    Outcome ParseError (Parser ρ) Unit :=
  let moved := p.stream.reopen path opened
  { result := moved.result.mapError .lexical
    state := { p with stream := moved.state }
    log := moved.log }

end Kaleidoscope
