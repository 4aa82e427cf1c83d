import Kaleidoscope.Literal.Spelling
import Kaleidoscope.Position
import Kaleidoscope.Punctuator
import Kaleidoscope.Symbols

/-!
# Tokens
-/

namespace Kaleidoscope

inductive TokenKind
  | endOfInput
  | number (value : Float)
  | identifier (name : Name)
  | punctuator (text : String)
  | keyword (keyword : Keyword)

structure Token where
  kind : TokenKind
  pos : Position

def TokenKind.pieces : TokenKind → List String
  | endOfInput => ["eof"]
  | number value => "number " :: (Literal.pieces value).map String.ofList
  | identifier name => ["identifier ", name.spelling]
  | punctuator text => ["punctuator ", text]
  | keyword k => ["keyword ", k.spelling]

namespace Token

def endOfInput (pos : Position) : Token := ⟨.endOfInput, pos⟩

instance : Inhabited Token := ⟨endOfInput .start⟩

def isEnd (t : Token) : Bool :=
  match t.kind with
  | .endOfInput => true
  | _ => false

def isPunctuator (t : Token) (text : String) : Bool :=
  match t.kind with
  | .punctuator p => p == text
  | _ => false

def isKeyword (t : Token) (k : Keyword) : Bool :=
  match t.kind with
  | .keyword k' => k' == k
  | _ => false

def name? (t : Token) : Option Name :=
  match t.kind with
  | .identifier name => some name
  | _ => none

def spelling (t : Token) : String :=
  match t.kind with
  | .endOfInput => "end of input"
  | .number value => Literal.spell value
  | .identifier name => name.spelling
  | .punctuator text => text
  | .keyword k => k.spelling

def pieces (t : Token) : List String :=
  t.pos.pieces ++ " " :: t.kind.pieces

def toText (t : Token) : String := String.join t.pieces

def record (t : Token) : Record :=
  ⟨.trace, t.toText⟩

end Token

end Kaleidoscope
