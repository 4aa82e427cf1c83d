import Kaleidoscope.Grammar.Error

/-!
# Reading expressions

An expression is a chain of primaries joined by binary operators. The grammar reads a list of
tokens, of which the first is the one under inspection. The list ends with the end of the input, or
where the next token could not be read: a reader that needs more than there is gives up.

    expression := primary (operator primary)*
    primary    := number | name | name '(' (expression (',' expression)*)? ')' | '(' expression ')'

Chains are read by precedence climbing: an operator takes as its right operand everything joined by
tighter operators, and operators of one precedence are joined from left to right.
-/

namespace Kaleidoscope

/-- What reading a list of fewer than `n + 1` tokens gives: a value and the tokens behind it, an error
and the tokens from the offending one on, or nothing for want of tokens. -/
inductive Parsed (α : Type) (n : Nat)
  | done (value : α) (rest : List Token) (shorter : rest.length < n)
  | wrong (e : SyntaxError) (rest : List Token) (noLonger : rest.length ≤ n)
  | cut

namespace Parsed

variable {α β : Type} {m n : Nat}

def weaken (le : m ≤ n) : Parsed α m → Parsed α n
  | done value rest shorter => .done value rest (Nat.lt_of_lt_of_le shorter le)
  | wrong e rest noLonger => .wrong e rest (Nat.le_trans noLonger le)
  | cut => .cut

def map (f : α → β) : Parsed α n → Parsed β n
  | done value rest shorter => .done (f value) rest shorter
  | wrong e rest noLonger => .wrong e rest noLonger
  | cut => .cut

def andThen (p : Parsed α n) (next : α → (ts : List Token) → Parsed β ts.length) : Parsed β n :=
  match p with
  | done value rest shorter => (next value rest).weaken (Nat.le_of_lt shorter)
  | wrong e rest noLonger => .wrong e rest noLonger
  | cut => .cut

def behind (t : Token) {rest : List Token} (p : Parsed α rest.length) : Parsed α (t :: rest).length :=
  p.weaken (Nat.le_succ _)

def refuse (e : SyntaxError) (t : Token) (rest : List Token) : Parsed α (t :: rest).length :=
  .wrong e (t :: rest) (Nat.le_refl _)

end Parsed

namespace Grammar

def tighterFollows (op : Operator) (ts : List Token) : Bool :=
  match ts.head?.bind Token.operator? with
  | some next => decide (op.precedence < next.precedence)
  | none => false

mutual

def expression (ts : List Token) : Parsed Expr ts.length :=
  match primary ts with
  | .done left rest shorter => (climb 0 left rest).weaken shorter
  | .wrong e rest noLonger => .wrong e rest noLonger
  | .cut => .cut
termination_by (ts.length, 1)

def primary (ts : List Token) : Parsed Expr ts.length :=
  match ts with
  | [] => .cut
  | t :: rest =>
    match t.kind with
    | .number value => .done (.number value) rest (Nat.lt_succ_self _)
    | .identifier name =>
      match rest with
      | [] => .cut
      | u :: inner =>
        if u.isPunctuator "(" then
          match inner with
          | [] => .cut
          | v :: behind =>
            if v.isPunctuator ")" then
              .done (.call name.spelling []) behind (by simp only [List.length_cons]; omega)
            else (((arguments (v :: behind)).map (.call name.spelling)).behind u).behind t
        else .done (.var name.spelling) (u :: inner) (Nat.lt_succ_self _)
    | _ =>
      if t.isPunctuator "(" then
        match expression rest with
        | .done _ [] _ => .cut
        | .done e (u :: behind) shorter =>
          if u.isPunctuator ")" then
            .done e behind (by simp only [List.length_cons] at *; omega)
          else
            .wrong (.expecting .closeGroup u) (u :: behind)
              (by simp only [List.length_cons] at *; omega)
        | .wrong e rest noLonger => .wrong e rest (by simp only [List.length_cons]; omega)
        | .cut => .cut
      else .refuse (.noExpression t) t rest
termination_by (ts.length, 0)

def arguments (ts : List Token) : Parsed (List Expr) ts.length :=
  match expression ts with
  | .done _ [] _ => .cut
  | .done arg (u :: behind) shorter =>
    have less : behind.length < ts.length := Nat.lt_of_succ_lt shorter
    if u.isPunctuator ")" then .done [arg] behind less
    else if u.isPunctuator "," then
      ((arguments behind).map (arg :: ·)).weaken (Nat.le_of_lt less)
    else .wrong (.expecting .argumentEnd u) (u :: behind) (by omega)
  | .wrong e rest noLonger => .wrong e rest noLonger
  | .cut => .cut
termination_by (ts.length, 2)

/-- Joins to `left` the operators that bind at least as tightly as `least`, with their operands. -/
def climb (least : Nat) (left : Expr) (ts : List Token) : Parsed Expr (ts.length + 1) :=
  match ts with
  | [] => .cut
  | t :: rest =>
    match t.operator? with
    | none => .done left (t :: rest) (Nat.lt_succ_self _)
    | some op =>
      if op.precedence < least then .done left (t :: rest) (Nat.lt_succ_self _)
      else
        match primary rest with
        | .done right rest₁ shorter₁ =>
          if tighterFollows op rest₁ then
            match climb (op.precedence + 1) right rest₁ with
            | .done right rest₂ shorter₂ =>
              (climb least (.binary op left right) rest₂).weaken
                (by simp only [List.length_cons]; omega)
            | .wrong e rest₂ noLonger₂ =>
              .wrong e rest₂ (by simp only [List.length_cons]; omega)
            | .cut => .cut
          else
            (climb least (.binary op left right) rest₁).weaken
              (by simp only [List.length_cons]; omega)
        | .wrong e rest₁ noLonger₁ => .wrong e rest₁ (by simp only [List.length_cons]; omega)
        | .cut => .cut
termination_by (ts.length, 0)

end

end Grammar

end Kaleidoscope
