/-!
# Reserved words
-/

namespace Kaleidoscope

inductive Keyword
  | definition
  | external
deriving DecidableEq, Repr

namespace Keyword

def all : List Keyword := [definition, external]

def spelling : Keyword → String
  | definition => "def"
  | external => "extern"

def ofSpelling? (text : String) : Option Keyword :=
  all.find? (·.spelling == text)

theorem mem_all (k : Keyword) : k ∈ all := by
  cases k <;> simp [all]

theorem ofSpelling?_spelling (k : Keyword) : ofSpelling? k.spelling = some k := by
  cases k <;> decide

end Keyword

end Kaleidoscope
