import Kaleidoscope.Position
import Kaleidoscope.SystemError

/-!
# Lexical errors

What can go wrong between a path and its tokens.
-/

namespace Kaleidoscope

inductive ScanError
  | cannotOpen (path : String) (cause : SystemError)
  | cannotRead (cause : SystemError)
  | cannotWrite (cause : SystemError)
  | lexemeTooLong (start : Position)
  | unexpectedCharacter (found : Char) (pos : Position)
  | invalidNumber (text : String) (start : Position)
deriving DecidableEq, Repr

def escaped (c : Char) : List Char :=
  if c = '\t' then ['\\', 't']
  else if c = '\r' then ['\\', 'r']
  else if c = '\n' then ['\\', 'n']
  else if c = '\'' ∨ c = '"' ∨ c = '\\' then ['\\', c]
  else if ' ' ≤ c ∧ c ≤ '~' then [c]
  else ['\\', 'u', '\x7b'] ++ Nat.toDigits 16 c.toNat ++ ['\x7d']

namespace ScanError

def message : ScanError → String
  | cannotOpen path _ => "cannot open file '" ++ path ++ "'"
  | cannotRead cause => "failed to read source: " ++ cause.message
  | cannotWrite cause => "failed to write token dump: " ++ cause.message
  | lexemeTooLong start => "Lexeme starting at " ++ start.toText ++ " is too long"
  | unexpectedCharacter found pos =>
    "Unexpected character '" ++ String.ofList (escaped found) ++ "' at " ++ pos.toText
  | invalidNumber text start =>
    "Invalid number format '" ++ text ++ "' at " ++ start.toText

def position? : ScanError → Option Position
  | cannotOpen .. | cannotRead .. | cannotWrite .. => none
  | lexemeTooLong pos | unexpectedCharacter _ pos | invalidNumber _ pos => some pos

def cause? : ScanError → Option SystemError
  | cannotOpen _ cause | cannotRead cause | cannotWrite cause => some cause
  | lexemeTooLong .. | unexpectedCharacter .. | invalidNumber .. => none

end ScanError

end Kaleidoscope
