import Kaleidoscope.Grammar.Expression
import Kaleidoscope.Proofs.Grammar.Precedence
import Kaleidoscope.Proofs.Token.Kind

/-!
# What the grammar derives

Lists of tokens are derived from the productions with the trees that they stand for. A chain is
derived as one production, and its tree is the conventional one.
-/

namespace Kaleidoscope

namespace Grammar

mutual

inductive IsPrimary : List Token → Expr → Prop
  | number {t : Token} {value : Float} (kind : t.kind = .number value) :
    IsPrimary [t] (.number value)
  | var {t : Token} {name : Name} (named : t.name? = some name) :
    IsPrimary [t] (.var name.spelling)
  | call {t u v : Token} {name : Name} (named : t.name? = some name)
    (opens : u.isPunctuator "(" = true) (closes : v.isPunctuator ")" = true) :
    IsPrimary [t, u, v] (.call name.spelling [])
  | callWith {t u v : Token} {name : Name} {ts : List Token} {args : List Expr}
    (named : t.name? = some name) (opens : u.isPunctuator "(" = true) (inner : IsArguments ts args)
    (closes : v.isPunctuator ")" = true) :
    IsPrimary (t :: u :: (ts ++ [v])) (.call name.spelling args)
  | group {u v : Token} {ts : List Token} {first : Expr} {links : List Link}
    (opens : u.isPunctuator "(" = true) (inner : IsChain ts first links)
    (closes : v.isPunctuator ")" = true) : IsPrimary (u :: (ts ++ [v])) (conventional first links)

inductive IsLinks : List Token → List Link → Prop
  | nil : IsLinks [] []
  | cons {t : Token} {ts us : List Token} {l : Link} {links : List Link}
    (sign : t.operator? = some l.op) (operand : IsPrimary ts l.operand) (more : IsLinks us links) :
    IsLinks (t :: (ts ++ us)) (l :: links)

inductive IsChain : List Token → Expr → List Link → Prop
  | mk {ts us : List Token} {first : Expr} {links : List Link} (operand : IsPrimary ts first)
    (more : IsLinks us links) : IsChain (ts ++ us) first links

inductive IsArguments : List Token → List Expr → Prop
  | last {ts : List Token} {first : Expr} {links : List Link} (arg : IsChain ts first links) :
    IsArguments ts [conventional first links]
  | cons {t : Token} {ts us : List Token} {first : Expr} {links : List Link} {args : List Expr}
    (arg : IsChain ts first links) (comma : t.isPunctuator "," = true) (more : IsArguments us args) :
    IsArguments (ts ++ t :: us) (conventional first links :: args)

end

def OpensCall (ts : List Token) (u : Token) : Prop :=
  (∃ t ∈ ts.getLast?, t.name?.isSome) ∧ u.isPunctuator "(" = true

variable {ts us rest : List Token} {t u v : Token} {e first : Expr} {links : List Link}

theorem OpensCall.append_left (h : OpensCall us u) (ts : List Token) : OpensCall (ts ++ us) u := by
  obtain ⟨⟨t, last, name⟩, opens⟩ := h
  refine ⟨⟨t, ?_, name⟩, opens⟩
  rw [List.getLast?_append, last]
  rfl

theorem OpensCall.of_append (ts : List Token) (h : OpensCall (ts ++ us) u) (some : us ≠ []) :
    OpensCall us u := by
  obtain ⟨⟨t, last, name⟩, opens⟩ := h
  refine ⟨⟨t, ?_, name⟩, opens⟩
  rwa [List.getLast?_append, List.getLast?_eq_some_getLast some, Option.some_or,
    ← List.getLast?_eq_some_getLast] at last

theorem not_opensCall_of_operator {op : Operator} (sign : u.operator? = some op) :
    ¬ OpensCall ts u := by
  rintro ⟨-, opens⟩
  rw [Token.isPunctuator_iff, Token.operator?_eq_some.mp sign] at opens
  injection opens with symbol
  cases op <;> exact absurd symbol (by decide)

theorem not_opensCall_of_isPunctuator {text : String} (found : u.isPunctuator text = true)
    (other : text ≠ "(") : ¬ OpensCall ts u := by
  rintro ⟨-, opens⟩
  rw [Token.isPunctuator_iff, Token.isPunctuator_iff.mp found] at opens
  injection opens with same
  exact other same

theorem not_opensCall_nil (u : Token) : ¬ OpensCall [] u := by
  rintro ⟨⟨t, last, -⟩, -⟩
  cases last

theorem not_opensCall_of_last (ts : List Token) (h : t.name? = none) : ¬ OpensCall (ts ++ [t]) u := by
  rintro ⟨⟨t', last, named⟩, -⟩
  rw [List.getLast?_concat] at last
  cases last
  rw [h] at named
  cases named

theorem IsPrimary.ends (h : IsPrimary ts e) :
    (∃ t name, ts = [t] ∧ t.name? = some name) ∨ ∃ us t, ts = us ++ [t] ∧ t.name? = none := by
  cases h with
  | number kind => exact .inr ⟨[], _, rfl, Token.name?_of_number kind⟩
  | var named => exact .inl ⟨_, _, rfl, named⟩
  | @call t u v _ named opens closes => exact .inr ⟨[t, u], v, rfl, Token.name?_of_isPunctuator closes⟩
  | @callWith t u v _ inside _ named opens inner closes =>
    exact .inr ⟨t :: u :: inside, v, rfl, Token.name?_of_isPunctuator closes⟩
  | @group u v inside _ _ opens inner closes =>
    exact .inr ⟨u :: inside, v, rfl, Token.name?_of_isPunctuator closes⟩

/-! ## How an expression starts -/

def StartsExpression (t : Token) : Prop :=
  (∃ value, t.kind = .number value) ∨ (∃ name, t.name? = some name) ∨ t.isPunctuator "(" = true

theorem IsChain.split (h : IsChain ts first links) :
    ∃ us vs, ts = us ++ vs ∧ IsPrimary us first ∧ IsLinks vs links := by
  cases h with
  | mk operand more => exact ⟨_, _, rfl, operand, more⟩

theorem IsPrimary.starts (h : IsPrimary ts e) : ∃ t us, ts = t :: us ∧ StartsExpression t := by
  cases h with
  | number kind => exact ⟨_, _, rfl, .inl ⟨_, kind⟩⟩
  | var named => exact ⟨_, _, rfl, .inr (.inl ⟨_, named⟩)⟩
  | call named => exact ⟨_, _, rfl, .inr (.inl ⟨_, named⟩)⟩
  | callWith named => exact ⟨_, _, rfl, .inr (.inl ⟨_, named⟩)⟩
  | group opens => exact ⟨_, _, rfl, .inr (.inr opens)⟩

theorem IsChain.starts (h : IsChain ts first links) : ∃ t us, ts = t :: us ∧ StartsExpression t := by
  cases h with
  | mk operand =>
    obtain ⟨t, us, rfl, starts⟩ := operand.starts
    exact ⟨t, _, List.cons_append, starts⟩

theorem IsArguments.starts {args : List Expr} (h : IsArguments ts args) :
    ∃ t us, ts = t :: us ∧ StartsExpression t := by
  cases h with
  | last arg => exact arg.starts
  | cons arg =>
    obtain ⟨t, us, rfl, starts⟩ := arg.starts
    exact ⟨t, _, List.cons_append, starts⟩

namespace StartsExpression

theorem isPunctuator_eq_false {text : String} (h : StartsExpression t) (other : text ≠ "(") :
    t.isPunctuator text = false := by
  rw [Bool.eq_false_iff, Ne, Token.isPunctuator_iff]
  intro kind
  rcases h with ⟨value, number⟩ | ⟨name, named⟩ | opens
  · rw [kind] at number
    cases number
  · rw [Token.name?_eq_some, kind] at named
    cases named
  · rw [Token.isPunctuator_iff, kind] at opens
    injection opens with same
    exact other same

theorem isEnd_eq_false (h : StartsExpression t) : t.isEnd = false := by
  rw [Bool.eq_false_iff, Ne, Token.isEnd_iff]
  intro kind
  simp [StartsExpression, Token.name?_eq_some, Token.isPunctuator_iff, kind] at h

theorem isKeyword_eq_false (h : StartsExpression t) (k : Keyword) : t.isKeyword k = false := by
  rw [Bool.eq_false_iff, Ne, Token.isKeyword_iff]
  intro kind
  simp [StartsExpression, Token.name?_eq_some, Token.isPunctuator_iff, kind] at h

theorem operator?_eq_none (h : StartsExpression t) : t.operator? = none := by
  rw [Option.eq_none_iff_forall_ne_some]
  intro op sign
  rw [Token.operator?_eq_some] at sign
  simp only [StartsExpression, Token.name?_eq_some, Token.isPunctuator_iff, sign] at h
  cases op <;> simp [Operator.symbol] at h

end StartsExpression

/-! ## No end inside -/

def NoEnd (ts : List Token) : Prop := ∀ t ∈ ts, t.isEnd = false

theorem NoEnd.nil : NoEnd [] := nofun

theorem NoEnd.cons (h : t.isEnd = false) (h' : NoEnd ts) : NoEnd (t :: ts) :=
  List.forall_mem_cons.mpr ⟨h, h'⟩

theorem NoEnd.append (h : NoEnd ts) (h' : NoEnd us) : NoEnd (ts ++ us) :=
  List.forall_mem_append.mpr ⟨h, h'⟩

mutual

theorem IsPrimary.noEnd {ts : List Token} {e : Expr} : IsPrimary ts e → NoEnd ts
  | .number kind => by
    have inside : Token.isEnd _ = false := StartsExpression.isEnd_eq_false (.inl ⟨_, kind⟩)
    exact .cons inside .nil
  | .var named => .cons (Token.isEnd_of_name named) .nil
  | .call named opens closes =>
    .cons (Token.isEnd_of_name named)
      (.cons (Token.isEnd_of_isPunctuator opens) (.cons (Token.isEnd_of_isPunctuator closes) .nil))
  | .callWith named opens inner closes =>
    .cons (Token.isEnd_of_name named) (.cons (Token.isEnd_of_isPunctuator opens)
      (inner.noEnd.append (.cons (Token.isEnd_of_isPunctuator closes) .nil)))
  | .group opens inner closes =>
    .cons (Token.isEnd_of_isPunctuator opens)
      (inner.noEnd.append (.cons (Token.isEnd_of_isPunctuator closes) .nil))

theorem IsLinks.noEnd {ts : List Token} {links : List Link} : IsLinks ts links → NoEnd ts
  | .nil => .nil
  | .cons sign operand more => .cons (Token.isEnd_of_operator sign) (operand.noEnd.append more.noEnd)

theorem IsChain.noEnd {ts : List Token} {first : Expr} {links : List Link} :
    IsChain ts first links → NoEnd ts
  | .mk operand more => operand.noEnd.append more.noEnd

theorem IsArguments.noEnd {ts : List Token} {args : List Expr} : IsArguments ts args → NoEnd ts
  | .last arg => arg.noEnd
  | .cons arg comma more => arg.noEnd.append (.cons (Token.isEnd_of_isPunctuator comma) more.noEnd)

end

/-! ## Joining chains -/

theorem IsLinks.append {ts us : List Token} {links links' : List Link} (h : IsLinks ts links)
    (h' : IsLinks us links') : IsLinks (ts ++ us) (links ++ links') := by
  match h with
  | .nil => exact h'
  | .cons sign operand more =>
    rw [List.cons_append, List.append_assoc]
    exact .cons sign operand (more.append h')

theorem not_opensCall_append (h : ∀ v ∈ (us ++ u :: rest).head?, ¬ OpensCall ts v)
    (h' : ¬ OpensCall us u) : ¬ OpensCall (ts ++ us) u := by
  cases us with
  | nil =>
    rw [List.append_nil]
    exact h u rfl
  | cons v us =>
    intro opens
    exact h' (opens.of_append ts (List.cons_ne_nil v us))

end Grammar

end Kaleidoscope
