import Kaleidoscope.Parser
import Kaleidoscope.Proofs.Token.Kind

/-!
# Parsing on demand

A parser that reads its source by recursive descent. It holds the token under inspection and asks its
stream for the next one whenever it needs it. Every production checks for itself what it expects, also
where the check can only succeed.

What ends the recursion is the supply of the source: a token that is not the end takes from it. Only
behind an error is a token asked for without a look at the one before, which may be the end.
-/

namespace Kaleidoscope

inductive Report
  | expectedToken (expected found : String) (pos : Position)
  | expectedExpression (found : String) (pos : Position)
  | unknownOperator (symbol : String) (pos : Position)
deriving DecidableEq, Repr

def Report.message : Report → String
  | expectedToken expected found pos =>
    "Expected " ++ expected ++ " but found '" ++ found ++ "' at " ++ pos.toText
  | expectedExpression found pos =>
    "Unknown token '" ++ found ++ "' when parsing a primary expression at " ++ pos.toText
  | unknownOperator symbol pos => "Unknown binary operator '" ++ symbol ++ "' at " ++ pos.toText

def SyntaxError.report : SyntaxError → Report
  | expectedToken expected found pos => .expectedToken expected.toText found pos
  | expectedExpression found pos => .expectedExpression found pos
  | unknownOperator symbol pos => .unknownOperator symbol pos

inductive Act
  | asked (answer : Except ScanError Token)
  | reported (e : Report)

namespace Act

def answer? : Act → Option (Except ScanError Token)
  | asked answer => some answer
  | reported _ => none

def report? : Act → Option Report
  | asked _ => none
  | reported e => some e

def records (name : String) : Act → List Record
  | asked (.ok t) => [t.record]
  | asked (.error _) => []
  | reported e => [⟨.debug, "in source file: " ++ name ++ ", error message: " ++ e.message⟩]

end Act

namespace Token

/-- How tightly the token binds as an operator; -1 if it is none. -/
def precedence (t : Token) : Int :=
  match t.kind with
  | .punctuator text => ((Operator.ofSymbol? text).map fun op => (op.precedence : Int)).getD (-1)
  | _ => -1

theorem isEnd_of_number {t : Token} {value : Float} (h : t.kind = .number value) : t.isEnd = false := by
  unfold isEnd
  rw [h]

theorem isEnd_of_punctuator {t : Token} {text : String} (h : t.kind = .punctuator text) :
    t.isEnd = false := by
  unfold isEnd
  rw [h]

end Token

/-! ## Readings -/

section
variable {ρ : Type}

structure Reading (ρ : Type) where
  stream : TokenStream ρ
  current : Token
  history : List Act
  settled : stream.buffer.extent = 0

structure Broken (ρ : Type) where
  error : ScanError
  stream : TokenStream ρ
  history : List Act

variable [Reader ρ]

namespace Reading

/-- What a parse goes down on. -/
def left (r : Reading ρ) : Nat :=
  if r.current.isEnd then 2 * r.stream.buffer.supply else 2 * r.stream.buffer.supply + 1

/-- What is left behind one more token is below this. -/
def bound (r : Reading ρ) : Nat := 2 * r.stream.buffer.supply + 1

theorem bound_le (r : Reading ρ) : r.bound ≤ r.left + 1 := by
  unfold bound left
  split <;> omega

theorem bound_eq {r : Reading ρ} (goes : r.current.isEnd = false) : r.bound = r.left := by
  simp [bound, left, goes]

/-- What has less left than a token that is not the end has a bound below it as well. -/
theorem bound_le_left {r r' : Reading ρ} (goes : r.current.isEnd = false) (noMore : r'.left ≤ r.left) :
    r'.bound ≤ r.left := by
  unfold left at noMore
  simp only [bound, left, goes, Bool.false_eq_true, if_false] at noMore ⊢
  split at noMore <;> omega

def report (e : Report) (r : Reading ρ) : Reading ρ :=
  { r with history := r.history ++ [.reported e] }

end Reading

namespace TokenStream

/-- A token leaves a stream at a committed place, and takes from the supply of one that stood at such a
place unless it is the end. -/
theorem next_progress {s s' : TokenStream ρ} {t : Token} (h : s.next = (.ok t, s')) :
    s'.buffer.extent = 0 ∧ (s.buffer.extent = 0 → s'.buffer.supply ≤ s.buffer.supply ∧
      (t.isEnd = false → s'.buffer.supply < s.buffer.supply)) := by
  simp only [next] at h
  split at h
  · cases h
  · rename_i b gap
    obtain ⟨committed, less⟩ := Buffer.skipGap_ok gap
    split at h
    · rename_i found s₁ kind
      cases h
      obtain ⟨settled, le, lt⟩ := kind_progress kind committed
      refine ⟨settled, fun start => ⟨Nat.le_trans le (less start), fun more => ?_⟩⟩
      refine Nat.lt_of_lt_of_le (lt ?_) (less start)
      rintro rfl
      cases more
    · cases h

def ask (s : TokenStream ρ) (history : List Act) : Except (Broken ρ) (Reading ρ) :=
  match h : s.next with
  | (.ok t, s') => .ok ⟨s', t, history ++ [.asked (.ok t)], (next_progress h).1⟩
  | (.error e, s') => .error ⟨e, s', history ++ [.asked (.error e)]⟩

theorem left_lt_of_ask {r r' : Reading ρ} (h : r.stream.ask r.history = .ok r') : r'.left < r.bound := by
  unfold ask at h
  split at h
  · rename_i t s' next
    cases h
    obtain ⟨le, lt⟩ := (next_progress next).2 r.settled
    unfold Reading.left Reading.bound
    dsimp only
    split
    · omega
    · rename_i goes
      have := lt (by simpa using goes)
      omega
  · cases h

end TokenStream

/-! ## Productions -/

/-- What a production comes to from a reading with at most `n` left: a value, an error at the token
under inspection, or a request that fails. -/
inductive Descent (ρ α : Type) [Reader ρ] (n : Nat)
  | done (value : α) (r : Reading ρ) (less : r.left < n)
  | wrong (e : Report) (r : Reading ρ) (noMore : r.left ≤ n)
  | broken (b : Broken ρ)

namespace Descent

variable {α β : Type} {m n : Nat}

def weaken (le : m ≤ n) : Descent ρ α m → Descent ρ α n
  | done value r less => .done value r (Nat.lt_of_lt_of_le less le)
  | wrong e r noMore => .wrong e r (Nat.le_trans noMore le)
  | broken b => .broken b

def map (f : α → β) : Descent ρ α n → Descent ρ β n
  | done value r less => .done (f value) r less
  | wrong e r noMore => .wrong e r noMore
  | broken b => .broken b

def andThen (d : Descent ρ α m) (le : m ≤ n)
    (next : α → (r : Reading ρ) → r.left < m → Descent ρ β n) : Descent ρ β n :=
  match d with
  | done value r less => next value r less
  | wrong e r noMore => .wrong e r (Nat.le_trans noMore le)
  | broken b => .broken b

theorem andThen_done {value : α} {r : Reading ρ} {less : r.left < m} (le : m ≤ n)
    (next : α → (r : Reading ρ) → r.left < m → Descent ρ β n) :
    (done value r less).andThen le next = next value r less := rfl

end Descent

namespace Reading

variable {α : Type} {n : Nat}

def advance (r : Reading ρ) : Descent ρ Unit r.bound :=
  match h : r.stream.ask r.history with
  | .ok r' => .done () r' (TokenStream.left_lt_of_ask h)
  | .error b => .broken b

def pass (r : Reading ρ) (goes : r.current.isEnd = false) : Descent ρ Unit r.left :=
  r.advance.weaken (Nat.le_of_eq (bound_eq goes))

def unexpected (r : Reading ρ) (expected : String) : Descent ρ α r.left :=
  .wrong (.expectedToken expected r.current.spelling r.current.pos) r (Nat.le_refl _)

def expect (r : Reading ρ) (text context : String) (le : r.left ≤ n)
    (next : r.current.isPunctuator text = true → Descent ρ α n) : Descent ρ α n :=
  if found : r.current.isPunctuator text = true then next found
  else (r.unexpected ("'" ++ text ++ "' " ++ context)).weaken le

/-! ## Expressions

    expression     ::= primary binoprhs
    primary        ::= numberexpr | identifierexpr | parenexpr
    numberexpr     ::= number
    identifierexpr ::= identifier | identifier '(' (expression (',' expression)*)? ')'
    parenexpr      ::= '(' expression ')'
    binoprhs       ::= (binop primary)*
-/

def numberExpression (r : Reading ρ) : Descent ρ Expr r.left :=
  match kind : r.current.kind with
  | .number value => (r.pass (Token.isEnd_of_number kind)).map fun _ => .number value
  | _ => r.unexpected "a number"

mutual

def expression (r : Reading ρ) : Descent ρ Expr r.left :=
  r.primary.andThen (Nat.le_refl _) fun left r₁ less => (r₁.binaryRest 0 left).weaken less
termination_by (r.left, 3)

def primary (r : Reading ρ) : Descent ρ Expr r.left :=
  match r.current.kind with
  | .identifier _ => r.identifierExpression
  | .number _ => r.numberExpression
  | _ =>
    if r.current.isPunctuator "(" then r.groupExpression
    else .wrong (.expectedExpression r.current.spelling r.current.pos) r (Nat.le_refl _)
termination_by (r.left, 2)

def groupExpression (r : Reading ρ) : Descent ρ Expr r.left :=
  r.expect "(" "to open a parenthesized expression" (Nat.le_refl _) fun opens =>
    (r.pass (Token.isEnd_of_isPunctuator opens)).andThen (Nat.le_refl _) fun _ r₁ less₁ =>
      r₁.expression.andThen (Nat.le_of_lt less₁) fun inner r₂ less₂ =>
        r₂.expect ")" "to close a parenthesized expression" (by omega) fun closes =>
          ((r₂.pass (Token.isEnd_of_isPunctuator closes)).map fun _ => inner).weaken (by omega)
termination_by (r.left, 1)

def identifierExpression (r : Reading ρ) : Descent ρ Expr r.left :=
  match named : r.current.name? with
  | none => r.unexpected "an identifier"
  | some name =>
    (r.pass (Token.isEnd_of_name named)).andThen (Nat.le_refl _) fun _ r₁ less₁ =>
      if opens : r₁.current.isPunctuator "(" = true then
        (r₁.pass (Token.isEnd_of_isPunctuator opens)).andThen (Nat.le_of_lt less₁) fun _ r₂ less₂ =>
          have args : Descent ρ (List Expr) (r₂.left + 1) :=
            if r₂.current.isPunctuator ")" then .done [] r₂ (Nat.lt_succ_self _)
            else (r₂.argumentLoop []).weaken (Nat.le_succ _)
          args.andThen (by omega) fun args r₃ less₃ =>
            (r₃.advance.map fun _ => .call name.spelling args).weaken
              (Nat.le_trans r₃.bound_le (by omega))
      else .done (.var name.spelling) r₁ less₁
termination_by (r.left, 1)

/-- The arguments of a call from the next one on, behind `args`. The parenthesis that closes them is
left. -/
def argumentLoop (r : Reading ρ) (args : List Expr) : Descent ρ (List Expr) r.left :=
  r.expression.andThen (Nat.le_refl _) fun arg r₁ less₁ =>
    if r₁.current.isPunctuator ")" then .done (args ++ [arg]) r₁ less₁
    else if comma : r₁.current.isPunctuator "," = true then
      (r₁.pass (Token.isEnd_of_isPunctuator comma)).andThen (Nat.le_of_lt less₁) fun _ r₂ less₂ =>
        (r₂.argumentLoop (args ++ [arg])).weaken (by omega)
    else (r₁.unexpected "',' or ')' in argument list").weaken (Nat.le_of_lt less₁)
termination_by (r.left, 4)

def binaryRest (r : Reading ρ) (least : Int) (left : Expr) : Descent ρ Expr (r.left + 1) :=
  if r.current.precedence < least then .done left r (Nat.lt_succ_self _)
  else
    match kind : r.current.kind with
    | .punctuator symbol =>
      (r.pass (Token.isEnd_of_punctuator kind)).andThen (Nat.le_succ _) fun _ r₁ less₁ =>
        r₁.primary.andThen (by omega) fun right r₂ less₂ =>
          have right : Descent ρ Expr (r₂.left + 1) :=
            if r.current.precedence < r₂.current.precedence then
              r₂.binaryRest (r.current.precedence + 1) right
            else .done right r₂ (Nat.lt_succ_self _)
          right.andThen (by omega) fun right r₃ less₃ =>
            match Expr.ofSymbol symbol left right r.current.pos with
            | .ok joined => (r₃.binaryRest least joined).weaken (by omega)
            | .error e => .wrong e.report r₃ (by omega)
    | _ => .done left r (Nat.lt_succ_self _)
termination_by (r.left, 0)

end

/-! ## Top-level forms

    definition   ::= 'def' prototype expression
    external     ::= 'extern' prototype
    toplevelexpr ::= expression
    prototype    ::= identifier '(' identifier* ')'
-/

def parameterLoop (r : Reading ρ) (params : List String) : Descent ρ (List String) (r.left + 1) :=
  match named : r.current.name? with
  | some name =>
    (r.pass (Token.isEnd_of_name named)).andThen (Nat.le_succ _) fun _ r₁ less₁ =>
      (r₁.parameterLoop (params ++ [name.spelling])).weaken (by omega)
  | none => .done params r (Nat.lt_succ_self _)
termination_by r.left

def prototype (r : Reading ρ) : Descent ρ Prototype r.left :=
  match named : r.current.name? with
  | none => r.unexpected "function name in prototype"
  | some name =>
    (r.pass (Token.isEnd_of_name named)).andThen (Nat.le_refl _) fun _ r₁ less₁ =>
      r₁.expect "(" "in prototype" (Nat.le_of_lt less₁) fun opens =>
        (r₁.pass (Token.isEnd_of_isPunctuator opens)).andThen (Nat.le_of_lt less₁) fun _ r₂ less₂ =>
          (r₂.parameterLoop []).andThen (by omega) fun params r₃ less₃ =>
            r₃.expect ")" "in prototype" (by omega) fun closes =>
              ((r₃.pass (Token.isEnd_of_isPunctuator closes)).map fun _ =>
                ⟨name.spelling, params⟩).weaken (by omega)

def definition (r : Reading ρ) (word : r.current.isKeyword .definition = true) :
    Descent ρ Function r.left :=
  (r.pass (Token.isEnd_of_isKeyword word)).andThen (Nat.le_refl _) fun _ r₁ less₁ =>
    r₁.prototype.andThen (Nat.le_of_lt less₁) fun proto r₂ less₂ =>
      (r₂.expression.map fun body => ⟨proto, body⟩).weaken (by omega)

def external (r : Reading ρ) (word : r.current.isKeyword .external = true) :
    Descent ρ Prototype r.left :=
  (r.pass (Token.isEnd_of_isKeyword word)).andThen (Nat.le_refl _) fun _ r₁ less₁ =>
    r₁.prototype.weaken (Nat.le_of_lt less₁)

def topLevelExpression (r : Reading ρ) : Descent ρ Function r.left :=
  r.expression.map fun body => ⟨.anonymous, body⟩

def form (r : Reading ρ) : Descent ρ Item r.left :=
  if word : r.current.isKeyword .definition = true then (r.definition word).map .function
  else if word : r.current.isKeyword .external = true then (r.external word).map .external
  else r.topLevelExpression.map .function

/-! ## The top level -/

inductive Turn (ρ : Type) [Reader ρ] (n : Nat)
  | goesOn (item : Option Item) (r : Reading ρ) (less : r.left < n)
  | broken (b : Broken ρ)

def skip (r : Reading ρ) (le : r.bound ≤ n) : Turn ρ n :=
  match h : r.stream.ask r.history with
  | .ok r' => .goesOn none r' (Nat.lt_of_lt_of_le (TokenStream.left_lt_of_ask h) le)
  | .error b => .broken b

/-- One turn: a semicolon is passed over, a form is read, or an error is reported and the token that it
shows is passed over. -/
def turn (r : Reading ρ) (goes : r.current.isEnd = false) : Turn ρ r.left :=
  if r.current.isPunctuator ";" then r.skip (Nat.le_of_eq (bound_eq goes))
  else
    match r.form with
    | .done item r' less => .goesOn (some item) r' less
    | .wrong e r' noMore => (r'.report e).skip (bound_le_left goes noMore)
    | .broken b => .broken b

end Reading

structure Ending (ρ : Type) where
  result : Except ScanError (List Item)
  stream : TokenStream ρ
  history : List Act

namespace Ending

def ofBroken (b : Broken ρ) : Ending ρ := ⟨.error b.error, b.stream, b.history⟩

def answers (d : Ending ρ) : List (Except ScanError Token) := d.history.filterMap Act.answer?

def diagnostics (d : Ending ρ) : List Report := d.history.filterMap Act.report?

end Ending

def Reading.run (r : Reading ρ) (items : List Item) : Ending ρ :=
  if ended : r.current.isEnd = true then ⟨.ok items, r.stream, r.history⟩
  else
    match r.turn (by simpa using ended) with
    | .goesOn item r' _less => r'.run (items ++ item.toList)
    | .broken b => .ofBroken b
termination_by r.left

def TokenStream.descend (s : TokenStream ρ) : Ending ρ :=
  match s.ask [] with
  | .ok r => r.run []
  | .error b => .ofBroken b

namespace Parser

def descendRest (p : Parser ρ) : Outcome ParseError (Ending ρ) (List Item) :=
  let ending := p.stream.descend
  let log := ending.history.flatMap (Act.records p.stream.buffer.name)
  match ending.result with
  | .error e => ⟨.error (.lexical e), ending, log⟩
  | .ok items =>
    if ending.diagnostics = [] then ⟨.ok items, ending, log ++ [parsed items.length]⟩
    else ⟨.ok [], ending, log⟩

def descend (p : Parser ρ) : Outcome ParseError (Ending ρ) (List Item) :=
  let again := p.stream.reset
  match again.result with
  | .error e => ⟨.error (.lexical e), ⟨.error e, again.state, []⟩, again.log⟩
  | .ok () => (descendRest ⟨again.state, []⟩).after again.log

end Parser

end

end Kaleidoscope
