import Kaleidoscope.Proofs.Parser.Following

/-!
# Which checks can fail

Every production of a descent checks for itself what it expects. Some of these checks were made before,
by the production that called this one, and cannot fail. What the others report is about the token
under inspection, which is the one that was asked for last.
-/

namespace Kaleidoscope

namespace Report

/-- What is reported at the token `t` if it is not what was expected. -/
inductive Raised (t : Token) : Report → Prop
  | noExpression (other : ¬ Grammar.StartsExpression t) :
    Raised t (.expectedExpression t.spelling t.pos)
  | functionName (unnamed : t.name? = none) :
    Raised t (.expectedToken "function name in prototype" t.spelling t.pos)
  | openParameters (shut : t.isPunctuator "(" = false) :
    Raised t (.expectedToken "'(' in prototype" t.spelling t.pos)
  | closeParameters (unnamed : t.name? = none) (open_ : t.isPunctuator ")" = false) :
    Raised t (.expectedToken "')' in prototype" t.spelling t.pos)
  | closeGroup (stopped : t.operator? = none) (open_ : t.isPunctuator ")" = false) :
    Raised t (.expectedToken "')' to close a parenthesized expression" t.spelling t.pos)
  | argumentEnd (stopped : t.operator? = none) (open_ : t.isPunctuator ")" = false)
    (last : t.isPunctuator "," = false) :
    Raised t (.expectedToken "',' or ')' in argument list" t.spelling t.pos)

/-- What would be reported where a check fails that was made before. -/
def Defensive : Report → Prop
  | expectedToken expected _ _ =>
    expected ∈ ["a number", "an identifier", "'(' to open a parenthesized expression"]
  | expectedExpression _ _ => False
  | unknownOperator _ _ => True

theorem Raised.not_defensive {t : Token} {e : Report} (h : e.Raised t) : ¬ e.Defensive := by
  cases h <;> simp [Defensive]

end Report

/-! ## Histories -/

namespace Act

/-- Every report follows the request for the token that it is about. -/
def Justified (history : List Act) : Prop :=
  ∀ past e more, history = past ++ .reported e :: more →
    ∃ earlier t, past = earlier ++ [.asked (.ok t)] ∧ e.Raised t

variable {history past : List Act} {t : Token} {e : Report}

theorem justified_nil : Justified [] := by
  intro past e more split
  cases past <;> cases split

theorem Justified.concat {act : Act} (h : Justified history)
    (last : ∀ e, act = .reported e → ∃ earlier t, history = earlier ++ [.asked (.ok t)] ∧ e.Raised t) :
    Justified (history ++ [act]) := by
  intro past e more split
  rcases List.eq_nil_or_concat more with rfl | ⟨more, act', rfl⟩
  · obtain ⟨rfl, same⟩ := List.append_inj' split rfl
    exact last e (List.singleton_inj.mp same)
  · rw [List.concat_eq_append, ← List.cons_append, ← List.append_assoc] at split
    exact h past e more (List.append_inj' split rfl).1

theorem Justified.asked (h : Justified history) (answer : Except ScanError Token) :
    Justified (history ++ [.asked answer]) := by
  apply h.concat
  intro e same
  cases same

theorem Justified.reported (h : Justified (past ++ [.asked (.ok t)])) (raised : e.Raised t) :
    Justified (past ++ [.asked (.ok t)] ++ [.reported e]) := by
  apply h.concat
  intro e' same
  cases same
  exact ⟨past, t, rfl, raised⟩

theorem Justified.exists_raised (h : Justified history) (mem : .reported e ∈ history) :
    ∃ t, e.Raised t := by
  obtain ⟨past, more, split⟩ := List.append_of_mem mem
  obtain ⟨-, t, -, raised⟩ := h past e more split
  exact ⟨t, raised⟩

end Act

section
variable {ρ : Type} [Reader ρ]

/-- The token under inspection is the one that was asked for last, and what was reported before is
about tokens that were. -/
structure Reading.Tracked (r : Reading ρ) : Prop where
  justified : Act.Justified r.history
  asked : ∃ past, r.history = past ++ [.asked (.ok r.current)]

omit [Reader ρ] in
theorem Reading.Tracked.report {r : Reading ρ} {e : Report} (h : r.Tracked)
    (raised : e.Raised r.current) : Act.Justified (r.report e).history := by
  obtain ⟨past, history⟩ := h.asked
  have before := h.justified
  rw [history] at before
  rw [Reading.report, history]
  exact before.reported raised

namespace TokenStream

variable {s : TokenStream ρ} {history : List Act}

theorem tracked_of_ask {r : Reading ρ} (h : Act.Justified history) (asked : s.ask history = .ok r) :
    r.Tracked := by
  unfold ask at asked
  split at asked
  · cases asked
    exact ⟨h.asked _, history, rfl⟩
  · cases asked

theorem justified_of_ask {b : Broken ρ} (h : Act.Justified history) (asked : s.ask history = .error b) :
    Act.Justified b.history := by
  unfold ask at asked
  split at asked
  · cases asked
  · cases asked
    exact h.asked _

end TokenStream

/-! ## Productions -/

/-- The production comes to a value in front of a token at which it `stops`, to an error about the token
under inspection, or to a request that fails. -/
inductive Descent.Keeps (stops : Token → Prop) {α : Type} {n : Nat} : Descent ρ α n → Prop
  | done {value : α} {r : Reading ρ} {less : r.left < n} (tracked : r.Tracked)
    (stopped : stops r.current) : Keeps stops (.done value r less)
  | wrong {e : Report} {r : Reading ρ} {noMore : r.left ≤ n} (tracked : r.Tracked)
    (raised : e.Raised r.current) : Keeps stops (.wrong e r noMore)
  | broken {b : Broken ρ} (justified : Act.Justified b.history) : Keeps stops (.broken b)

def Token.Any (_ : Token) : Prop := True

namespace Descent.Keeps

variable {α β : Type} {m n : Nat} {d : Descent ρ α m} {stops stops' : Token → Prop}

theorem imp (h : d.Keeps stops) (weaker : ∀ t, stops t → stops' t) : d.Keeps stops' := by
  cases h with
  | done tracked stopped => exact .done tracked (weaker _ stopped)
  | wrong tracked raised => exact .wrong tracked raised
  | broken justified => exact .broken justified

theorem weaken (h : d.Keeps stops) (le : m ≤ n) : (d.weaken le).Keeps stops := by
  cases h with
  | done tracked stopped => exact .done tracked stopped
  | wrong tracked raised => exact .wrong tracked raised
  | broken justified => exact .broken justified

theorem map (h : d.Keeps stops) (f : α → β) : (d.map f).Keeps stops := by
  cases h with
  | done tracked stopped => exact .done tracked stopped
  | wrong tracked raised => exact .wrong tracked raised
  | broken justified => exact .broken justified

theorem andThen {le : m ≤ n} {next : α → (r : Reading ρ) → r.left < m → Descent ρ β n}
    (h : d.Keeps stops)
    (goesOn : ∀ value r less, r.Tracked → stops r.current → (next value r less).Keeps stops') :
    (d.andThen le next).Keeps stops' := by
  cases h with
  | @done value r less tracked stopped => exact goesOn value r less tracked stopped
  | wrong tracked raised => exact .wrong tracked raised
  | broken justified => exact .broken justified

end Descent.Keeps

namespace Token

variable {t : Token}

theorem operator?_eq_none_iff : t.operator? = none ↔ t.precedence < 0 := by
  cases sign : t.operator? with
  | none => simp [precedence_of_none sign]
  | some op => simp [precedence_of_operator sign]

end Token

namespace Reading.Tracked

variable {r : Reading ρ}

theorem advance (h : r.Tracked) : r.advance.Keeps Token.Any := by
  unfold Reading.advance
  split
  · rename_i asked
    exact .done (TokenStream.tracked_of_ask h.justified asked) trivial
  · rename_i asked
    exact .broken (TokenStream.justified_of_ask h.justified asked)

theorem pass (h : r.Tracked) (goes : r.current.isEnd = false) : (r.pass goes).Keeps Token.Any :=
  h.advance.weaken _

theorem expect {α : Type} {n : Nat} {text context : String} {le : r.left ≤ n} {stops : Token → Prop}
    {next : r.current.isPunctuator text = true → Descent ρ α n} (h : r.Tracked)
    (raised : r.current.isPunctuator text = false → Report.Raised r.current
      (.expectedToken ("'" ++ text ++ "' " ++ context) r.current.spelling r.current.pos))
    (goesOn : ∀ found, (next found).Keeps stops) : (r.expect text context le next).Keeps stops := by
  unfold Reading.expect
  split
  · exact goesOn _
  · rename_i other
    exact .wrong h (raised (by simpa using other))

/-! ### Expressions -/

theorem numberExpression {value : Float} (h : r.Tracked) (kind : r.current.kind = .number value) :
    r.numberExpression.Keeps Token.Any := by
  unfold Reading.numberExpression
  split
  · rename_i kind'
    exact (h.pass (Token.isEnd_of_number kind')).map _
  · rename_i other
    exact absurd kind (other value)

mutual

theorem expression (r : Reading ρ) (h : r.Tracked) :
    r.expression.Keeps fun t => t.operator? = none := by
  rw [Reading.expression]
  apply (Tracked.primary r h).andThen
  intro left r₁ less h₁ _
  exact ((Tracked.binaryRest r₁ 0 left (Int.le_refl 0) h₁).weaken less).imp
    fun t loose => Token.operator?_eq_none_iff.mpr loose
termination_by (r.left, 3)

theorem primary (r : Reading ρ) (h : r.Tracked) : r.primary.Keeps Token.Any := by
  rw [Reading.primary]
  split
  · rename_i name kind
    exact Tracked.identifierExpression r (Token.name?_eq_some.mpr kind) h
  · rename_i value kind
    exact h.numberExpression kind
  · rename_i noName noNumber
    by_cases opens : r.current.isPunctuator "(" = true
    · rw [if_pos opens]
      exact Tracked.groupExpression r opens h
    · rw [if_neg opens]
      refine .wrong h (.noExpression ?_)
      rintro (⟨value, kind⟩ | ⟨name, named⟩ | opens')
      · exact noNumber value kind
      · exact noName name (Token.name?_eq_some.mp named)
      · exact opens opens'
termination_by (r.left, 2)

theorem groupExpression (r : Reading ρ) (opens : r.current.isPunctuator "(" = true) (h : r.Tracked) :
    r.groupExpression.Keeps Token.Any := by
  rw [Reading.groupExpression]
  apply h.expect
  · intro shut
    cases shut.symm.trans opens
  intro _
  apply (h.pass _).andThen
  intro _ r₁ less₁ h₁ _
  apply (Tracked.expression r₁ h₁).andThen
  intro inner r₂ less₂ h₂ stopped
  apply h₂.expect
  · exact .closeGroup stopped
  intro closes
  exact ((h₂.pass _).map _).weaken _
termination_by (r.left, 1)

theorem identifierExpression {name : Name} (r : Reading ρ) (named : r.current.name? = some name)
    (h : r.Tracked) : r.identifierExpression.Keeps Token.Any := by
  rw [Reading.identifierExpression]
  split
  · rename_i none
    cases named.symm.trans none
  · apply (h.pass _).andThen
    intro _ r₁ less₁ h₁ _
    by_cases opens : r₁.current.isPunctuator "(" = true
    · rw [dif_pos opens]
      apply (h₁.pass _).andThen
      intro _ r₂ less₂ h₂ _
      refine Descent.Keeps.andThen (?_ : Descent.Keeps Token.Any _) ?_
      · by_cases closes : r₂.current.isPunctuator ")" = true
        · rw [if_pos closes]
          exact .done h₂ trivial
        · rw [if_neg closes]
          exact (Tracked.argumentLoop r₂ [] h₂).weaken _
      intro args r₃ less₃ h₃ _
      exact (h₃.advance.map _).weaken _
    · rw [dif_neg opens]
      exact .done h₁ trivial
termination_by (r.left, 1)

theorem argumentLoop (r : Reading ρ) (args : List Expr) (h : r.Tracked) :
    (r.argumentLoop args).Keeps Token.Any := by
  rw [Reading.argumentLoop]
  apply (Tracked.expression r h).andThen
  intro arg r₁ less₁ h₁ stopped
  by_cases closes : r₁.current.isPunctuator ")" = true
  · rw [if_pos closes]
    exact .done h₁ trivial
  · rw [if_neg closes]
    by_cases comma : r₁.current.isPunctuator "," = true
    · rw [dif_pos comma]
      apply (h₁.pass _).andThen
      intro _ r₂ less₂ h₂ _
      exact (Tracked.argumentLoop r₂ (args ++ [arg]) h₂).weaken _
    · rw [dif_neg comma]
      exact .wrong h₁ (.argumentEnd stopped (by simpa using closes) (by simpa using comma))
termination_by (r.left, 4)

/-- No expression is made of an operator that is not known: a token binds only if it is one. -/
theorem binaryRest (r : Reading ρ) (least : Int) (left : Expr) (nonneg : 0 ≤ least) (h : r.Tracked) :
    (r.binaryRest least left).Keeps fun t => t.precedence < least := by
  rw [Reading.binaryRest]
  by_cases looser : r.current.precedence < least
  · rw [if_pos looser]
    exact .done h looser
  · rw [if_neg looser]
    have binds : ¬ r.current.precedence < 0 := by omega
    obtain ⟨op, sign⟩ := Option.ne_none_iff_exists'.mp (mt Token.operator?_eq_none_iff.mp binds)
    have kind' := Token.operator?_eq_some.mp sign
    split
    · rename_i symbol kind
      obtain rfl : op.symbol = symbol := TokenKind.punctuator.inj (kind'.symm.trans kind)
      apply (h.pass _).andThen
      intro _ r₁ less₁ h₁ _
      apply (Tracked.primary r₁ h₁).andThen
      intro right r₂ less₂ h₂ _
      refine Descent.Keeps.andThen (?_ : Descent.Keeps Token.Any _) ?_
      · by_cases tighter : r.current.precedence < r₂.current.precedence
        · rw [if_pos tighter]
          have nonneg' : 0 ≤ r.current.precedence + 1 := by omega
          exact (Tracked.binaryRest r₂ _ right nonneg' h₂).imp fun _ _ => trivial
        · rw [if_neg tighter]
          exact .done h₂ trivial
      intro right r₃ less₃ h₃ _
      simp only [Expr.ofSymbol_symbol]
      exact (Tracked.binaryRest r₃ least _ nonneg h₃).weaken _
    · rename_i other
      exact absurd kind' (other op.symbol)
termination_by (r.left, 0)

end

/-! ### Forms -/

theorem parameterLoop (r : Reading ρ) (params : List String) (h : r.Tracked) :
    (r.parameterLoop params).Keeps fun t => t.name? = none := by
  rw [Reading.parameterLoop]
  split
  · apply (h.pass _).andThen
    intro _ r₁ less₁ h₁ _
    exact (Tracked.parameterLoop r₁ _ h₁).weaken _
  · rename_i unnamed
    exact .done h unnamed
termination_by r.left

theorem prototype (h : r.Tracked) : r.prototype.Keeps Token.Any := by
  unfold Reading.prototype
  split
  · rename_i unnamed
    exact .wrong h (.functionName unnamed)
  · apply (h.pass _).andThen
    intro _ r₁ less₁ h₁ _
    apply h₁.expect .openParameters
    intro opens
    apply (h₁.pass _).andThen
    intro _ r₂ less₂ h₂ _
    apply (h₂.parameterLoop _ []).andThen
    intro params r₃ less₃ h₃ unnamed
    apply h₃.expect (.closeParameters unnamed)
    intro closes
    exact ((h₃.pass _).map _).weaken _

theorem definition (h : r.Tracked) (word : r.current.isKeyword .definition = true) :
    (r.definition word).Keeps Token.Any := by
  unfold Reading.definition
  apply (h.pass _).andThen
  intro _ r₁ less₁ h₁ _
  apply h₁.prototype.andThen
  intro proto r₂ less₂ h₂ _
  exact (((Tracked.expression r₂ h₂).imp fun _ _ => trivial).map _).weaken _

theorem external (h : r.Tracked) (word : r.current.isKeyword .external = true) :
    (r.external word).Keeps Token.Any := by
  unfold Reading.external
  apply (h.pass _).andThen
  intro _ r₁ less₁ h₁ _
  exact h₁.prototype.weaken _

theorem form (h : r.Tracked) : r.form.Keeps Token.Any := by
  unfold Reading.form
  split
  · exact (h.definition _).map _
  · split
    · exact (h.external _).map _
    · exact (((Tracked.expression r h).imp fun _ _ => trivial).map _).map _

end Reading.Tracked

/-! ## The top level -/

inductive Reading.Turn.Keeps {n : Nat} : Reading.Turn ρ n → Prop
  | goesOn {item : Option Item} {r : Reading ρ} {less : r.left < n} (tracked : r.Tracked) :
    Keeps (.goesOn item r less)
  | broken {b : Broken ρ} (justified : Act.Justified b.history) : Keeps (.broken b)

namespace Reading

variable {r : Reading ρ}

theorem skip_keeps {n : Nat} {le : r.bound ≤ n} (h : Act.Justified r.history) : (r.skip le).Keeps := by
  unfold skip
  split
  · rename_i asked
    exact .goesOn (TokenStream.tracked_of_ask h asked)
  · rename_i asked
    exact .broken (TokenStream.justified_of_ask h asked)

theorem Tracked.turn (h : r.Tracked) (goes : r.current.isEnd = false) : (r.turn goes).Keeps := by
  unfold Reading.turn
  split
  · exact skip_keeps h.justified
  · have form := h.form
    generalize r.form = d at form
    cases form with
    | done tracked => exact .goesOn tracked
    | wrong tracked raised => exact skip_keeps (tracked.report raised)
    | broken justified => exact .broken justified

theorem Tracked.run (h : r.Tracked) (items : List Item) : Act.Justified (r.run items).history := by
  fun_induction Reading.run r items with
  | case1 r items ended => exact h.justified
  | case2 r items ended item r' less turn ih =>
    have keeps := h.turn (by simpa using ended)
    rw [turn] at keeps
    cases keeps with
    | goesOn tracked => exact ih tracked
  | case3 r items ended b turn =>
    have keeps := h.turn (by simpa using ended)
    rw [turn] at keeps
    cases keeps with
    | broken justified => exact justified

end Reading

theorem TokenStream.descend_justified (s : TokenStream ρ) : Act.Justified s.descend.history := by
  unfold descend
  split
  · rename_i asked
    exact (tracked_of_ask Act.justified_nil asked).run []
  · rename_i asked
    exact justified_of_ask Act.justified_nil asked

/-! ## Assertions -/

namespace Reading

def asserting {α : Type} (r : Reading ρ) (k : Keyword) (next : r.current.isKeyword k = true → α) :
    Option α :=
  if word : r.current.isKeyword k = true then some (next word) else none

def assertedForm (r : Reading ρ) : Option (Descent ρ Item r.left) :=
  if r.current.isKeyword .definition then
    (r.asserting .definition r.definition).map (·.map .function)
  else if r.current.isKeyword .external then
    (r.asserting .external r.external).map (·.map .external)
  else some (r.topLevelExpression.map .function)

theorem bound_le_of_goes {r : Reading ρ} (goes : r.current.isEnd = false) : r.bound ≤ r.left :=
  Nat.le_of_eq (bound_eq goes)

theorem report_bound_le_left {r r' : Reading ρ} {e : Report} (goes : r.current.isEnd = false)
    (noMore : r'.left ≤ r.left) : (r'.report e).bound ≤ r.left :=
  bound_le_left goes noMore

def assertedTurn (r : Reading ρ) (goes : r.current.isEnd = false) : Option (Turn ρ r.left) :=
  if r.current.isPunctuator ";" then some (r.skip (bound_le_of_goes goes))
  else r.assertedForm.map fun
    | .done item r' less => .goesOn (some item) r' less
    | .wrong e r' noMore => (r'.report e).skip (report_bound_le_left goes noMore)
    | .broken b => .broken b

def assertedRun (r : Reading ρ) (items : List Item) : Option (Ending ρ) :=
  if ended : r.current.isEnd = true then some ⟨.ok items, r.stream, r.history⟩
  else
    match r.assertedTurn (by simpa using ended) with
    | some (.goesOn item r' _less) => r'.assertedRun (items ++ item.toList)
    | some (.broken b) => some (.ofBroken b)
    | none => none
termination_by r.left

theorem assertedForm_eq (r : Reading ρ) : r.assertedForm = some r.form := by
  unfold assertedForm form asserting
  by_cases word : r.current.isKeyword .definition = true
  · simp [word]
  · by_cases word' : r.current.isKeyword .external = true
    · simp [word, word']
    · simp [word, word']

theorem assertedTurn_eq (r : Reading ρ) (goes : r.current.isEnd = false) :
    r.assertedTurn goes = some (r.turn goes) := by
  unfold assertedTurn turn
  rw [assertedForm_eq]
  split
  · rfl
  · cases r.form <;> rfl

theorem assertedRun_eq (r : Reading ρ) (items : List Item) :
    r.assertedRun items = some (r.run items) := by
  fun_induction Reading.run r items with
  | case1 r items ended => rw [assertedRun, dif_pos ended]
  | case2 r items ended item r' less turn ih =>
    rw [assertedRun, dif_neg ended, assertedTurn_eq, turn]
    exact ih
  | case3 r items ended b turn =>
    rw [assertedRun, dif_neg ended, assertedTurn_eq, turn]

end Reading

def TokenStream.assertedDescend (s : TokenStream ρ) : Option (Ending ρ) :=
  match s.ask [] with
  | .ok r => r.assertedRun []
  | .error b => some (.ofBroken b)

theorem TokenStream.assertedDescend_eq (s : TokenStream ρ) : s.assertedDescend = some s.descend := by
  unfold assertedDescend descend
  cases s.ask [] with
  | ok r => exact r.assertedRun_eq []
  | error b => rfl

end

end Kaleidoscope
