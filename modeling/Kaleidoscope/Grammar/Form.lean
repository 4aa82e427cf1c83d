import Kaleidoscope.Grammar.Expression

/-!
# Reading top-level forms

    program    := (definition | external | expression | ';')* end
    definition := 'def' prototype expression
    external   := 'extern' prototype
    prototype  := name '(' name* ')'

A form that goes wrong is reported once. Reading starts again behind the offending token.
-/

namespace Kaleidoscope.Grammar

def parameters : List Token → List String × List Token
  | [] => ([], [])
  | t :: rest =>
    match t.name? with
    | some name => (name.spelling :: (parameters rest).1, (parameters rest).2)
    | none => ([], t :: rest)

theorem length_parameters_le (ts : List Token) : (parameters ts).2.length ≤ ts.length := by
  induction ts with
  | nil => exact Nat.le_refl _
  | cons t rest ih =>
    unfold parameters
    split
    · exact Nat.le_succ_of_le ih
    · exact Nat.le_refl _

def closedParameters (ts : List Token) : Parsed (List String) ts.length :=
  match (parameters ts).2, length_parameters_le ts with
  | [], _ => .cut
  | t :: rest, noLonger =>
    if t.isPunctuator ")" then .done (parameters ts).1 rest noLonger
    else .wrong (.expecting .closeParameters t) (t :: rest) noLonger

def prototype (ts : List Token) : Parsed Prototype ts.length :=
  match ts with
  | [] => .cut
  | t :: rest =>
    match t.name? with
    | none => .refuse (.expecting .functionName t) t rest
    | some name =>
      match rest with
      | [] => .cut
      | u :: inner =>
        if u.isPunctuator "(" then
          (((closedParameters inner).map (⟨name.spelling, ·⟩)).behind u).behind t
        else (Parsed.refuse (.expecting .openParameters u) u inner).behind t

def definition (ts : List Token) : Parsed Function ts.length :=
  (prototype ts).andThen fun proto rest => (expression rest).map (⟨proto, ·⟩)

def form (ts : List Token) : Parsed Item ts.length :=
  match ts with
  | [] => .cut
  | t :: rest =>
    if t.isKeyword .definition then ((definition rest).map .function).behind t
    else if t.isKeyword .external then ((prototype rest).map .external).behind t
    else (expression (t :: rest)).map fun body => .function ⟨.anonymous, body⟩

/-- A program as far as it was read. `complete` says that the end of the input was reached. -/
structure Program where
  items : List Item
  diagnostics : List SyntaxError
  complete : Bool

namespace Program

def withItem (item : Item) (p : Program) : Program :=
  { p with items := item :: p.items }

def withError (e : SyntaxError) (p : Program) : Program :=
  { p with diagnostics := e :: p.diagnostics }

end Program

def program (ts : List Token) : Program :=
  match ts with
  | [] => ⟨[], [], false⟩
  | t :: rest =>
    if t.isEnd then ⟨[], [], true⟩
    else if t.isPunctuator ";" then program rest
    else
      match form (t :: rest) with
      | .done item behind _shorter => (program behind).withItem item
      | .wrong e [] _ => ⟨[], [e], false⟩
      | .wrong e (u :: more) _noLonger =>
        if u.isEnd then ⟨[], [e], true⟩ else (program more).withError e
      | .cut => ⟨[], [], false⟩
termination_by ts.length
decreasing_by
  · exact Nat.lt_succ_self _
  · exact _shorter
  · exact _noLonger

end Kaleidoscope.Grammar
