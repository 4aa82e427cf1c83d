import Kaleidoscope.Grammar.Error

/-!
# What a token is

A token is of one kind. What it is taken for excludes everything else.
-/

namespace Kaleidoscope.Token

variable {t : Token} {text : String} {name : Name} {op : Operator} {k : Keyword}

theorem isPunctuator_iff : t.isPunctuator text = true ↔ t.kind = .punctuator text := by
  unfold isPunctuator
  cases kind : t.kind <;> simp

theorem name?_eq_some : t.name? = some name ↔ t.kind = .identifier name := by
  unfold name?
  cases kind : t.kind <;> simp

theorem isEnd_iff : t.isEnd = true ↔ t.kind = .endOfInput := by
  unfold isEnd
  cases kind : t.kind <;> simp

theorem isKeyword_iff : t.isKeyword k = true ↔ t.kind = .keyword k := by
  unfold isKeyword
  cases kind : t.kind <;> simp

theorem operator?_eq_some : t.operator? = some op ↔ t.kind = .punctuator op.symbol := by
  unfold operator?
  cases kind : t.kind with
  | punctuator text =>
    constructor
    · intro h
      rw [Operator.symbol_of_ofSymbol? h]
    · intro h
      injection h with same
      rw [same]
      exact Operator.ofSymbol?_symbol op
  | _ => simp

/-! ## What it is not -/

theorem name?_of_isPunctuator (h : t.isPunctuator text = true) : t.name? = none := by
  unfold name?
  rw [isPunctuator_iff.mp h]

theorem name?_of_number {value : Float} (h : t.kind = .number value) : t.name? = none := by
  unfold name?
  rw [h]

theorem operator?_of_isPunctuator (h : t.isPunctuator text = true) :
    t.operator? = Operator.ofSymbol? text := by
  unfold operator?
  rw [isPunctuator_iff.mp h]

theorem operator?_of_isKeyword (h : t.isKeyword k = true) : t.operator? = none := by
  unfold operator?
  rw [isKeyword_iff.mp h]

theorem operator?_of_isEnd (h : t.isEnd = true) : t.operator? = none := by
  unfold operator?
  rw [isEnd_iff.mp h]

theorem isPunctuator_of_isKeyword (h : t.isKeyword k = true) (text : String) :
    t.isPunctuator text = false := by
  unfold isPunctuator
  rw [isKeyword_iff.mp h]

theorem isEnd_of_isPunctuator (h : t.isPunctuator text = true) : t.isEnd = false := by
  unfold isEnd
  rw [isPunctuator_iff.mp h]

theorem isEnd_of_isKeyword (h : t.isKeyword k = true) : t.isEnd = false := by
  unfold isEnd
  rw [isKeyword_iff.mp h]

theorem isEnd_of_name (h : t.name? = some name) : t.isEnd = false := by
  unfold isEnd
  rw [name?_eq_some.mp h]

theorem isEnd_of_operator (h : t.operator? = some op) : t.isEnd = false := by
  unfold isEnd
  rw [operator?_eq_some.mp h]

end Kaleidoscope.Token
