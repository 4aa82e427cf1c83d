/-!
# Punctuators

A punctuator is one of a fixed list of longer texts or a single punctuation character.
-/

namespace Kaleidoscope.Punctuator

def long : List String :=
  -- a longer one stands before its beginnings, so the first that fits is the longest that fits
  ["<<=", ">>=", "==", "!=", "<=", ">=", "->", "+=", "-=", "*=", "/=",
   "++", "--", "%=", "&=", "|=", "^=", "&&", "||", "<<", ">>"]

def isPunctuation (c : Char) : Bool :=
  decide ('!' ≤ c) && decide (c ≤ '~') && !c.isAlphanum

def single? (c : Char) : Option String :=
  if isPunctuation c then some (String.singleton c) else none

end Kaleidoscope.Punctuator
