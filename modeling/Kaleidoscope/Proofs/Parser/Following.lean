import Kaleidoscope.Proofs.Grammar.Parallel
import Kaleidoscope.Proofs.Parser.Descent
import Kaleidoscope.Proofs.Token.Tiling
import Kaleidoscope.Proofs.Token.Yields

/-!
# Productions on demand follow the grammar

The grammar reads a list of tokens, a parser on demand asks for them one by one. Both come to the same
value or error at the same token, and where the list ends before its time a request fails.
-/

namespace Kaleidoscope

section
variable {ρ : Type} [Reader ρ]

/-- What a stream of `source` has in store: the error that ends its tokens, and all that is done if the
tokens are taken up one by one. -/
structure Script where
  source : List UInt8
  failure : Option ScanError
  acts : List Act

namespace Script

def requests (S : Script) (ts : List Token) : List Act :=
  ts.map (fun t => .asked (.ok t)) ++ S.failure.toList.map fun e => .asked (.error e)

@[simp] theorem requests_cons (S : Script) (t : Token) (ts : List Token) :
    S.requests (t :: ts) = .asked (.ok t) :: S.requests ts := rfl

def Breaks (S : Script) (b : Broken ρ) : Prop :=
  S.failure = some b.error ∧ b.history = S.acts

end Script

/-- The reading stands at the first of `ts`, and the others are still to be asked for. -/
inductive Reading.Faces (S : Script) : Reading ρ → List Token → Prop
  | ended {r : Reading ρ} (last : r.current = .endOfInput (.behind (sourceText S.source)))
    (sound : S.failure = none)
    (place : r.stream.buffer.Splits S.source (sourceText S.source) [] []) (done : r.history = S.acts) :
    Faces S r [r.current]
  | more {r : Reading ρ} {ts : List Token} {before after : List Char} (goes : r.current.isEnd = false)
    (place : r.stream.buffer.Splits S.source before [] after) (yields : r.stream.Yields ts S.failure)
    (ahead : r.history ++ S.requests ts = S.acts) : Faces S r (r.current :: ts)

/-- The production on demand comes to what the grammar reads. -/
inductive Descent.Follows (S : Script) {α : Type} {m n : Nat} : Descent ρ α m → Parsed α n → Prop
  | done {value : α} {r : Reading ρ} {ts : List Token} {less : r.left < m} {shorter : ts.length < n}
    (faces : r.Faces S ts) : Follows S (.done value r less) (.done value ts shorter)
  | wrong {e : SyntaxError} {r : Reading ρ} {ts : List Token} {noMore : r.left ≤ m}
    {noLonger : ts.length ≤ n} (faces : r.Faces S ts) :
    Follows S (.wrong e.report r noMore) (.wrong e ts noLonger)
  | short {value : α} {b : Broken ρ} {shorter : 0 < n} (breaks : S.Breaks b) :
    Follows S (.broken b) (.done value [] shorter)
  | cut {b : Broken ρ} (breaks : S.Breaks b) : Follows S (.broken b) .cut

variable {S : Script}

namespace Descent.Follows

variable {α β : Type} {m n k l : Nat} {d : Descent ρ α m} {p : Parsed α n}

theorem weaken (h : d.Follows S p) (le : m ≤ k) : (d.weaken le).Follows S p := by
  cases h with
  | done faces => exact .done faces
  | wrong faces => exact .wrong faces
  | short breaks => exact .short breaks
  | cut breaks => exact .cut breaks

theorem map (h : d.Follows S p) (f : α → β) : (d.map f).Follows S (p.map f) := by
  cases h with
  | done faces => exact .done faces
  | wrong faces => exact .wrong faces
  | short breaks => exact .short breaks
  | cut breaks => exact .cut breaks

theorem map_map {γ : Type} (h : d.Follows S p) (f : α → β) (g : β → γ) :
    ((d.map f).map g).Follows S (p.map fun value => g (f value)) := by
  cases h with
  | done faces => exact .done faces
  | wrong faces => exact .wrong faces
  | short breaks => exact .short breaks
  | cut breaks => exact .cut breaks

theorem behind (h : d.Follows S p) (le : n ≤ l) : d.Follows S (p.weaken le) := by
  cases h with
  | done faces => exact .done faces
  | wrong faces => exact .wrong faces
  | short breaks => exact .short breaks
  | cut breaks => exact .cut breaks

end Descent.Follows

/-! ## Requests -/

namespace TokenStream

variable {s s' : TokenStream ρ} {t : Token} {ts : List Token} {history : List Act}

theorem ask_ok (next : s.next = (.ok t, s')) (history : List Act) :
    s.ask history = .ok ⟨s', t, history ++ [.asked (.ok t)], (next_progress next).1⟩ := by
  unfold ask
  split
  · rename_i found
    cases next.symm.trans found
    rfl
  · rename_i found
    cases next.symm.trans found

theorem ask_error {e : ScanError} (next : s.next = (.error e, s')) (history : List Act) :
    s.ask history = .error ⟨e, s', history ++ [.asked (.error e)]⟩ := by
  unfold ask
  split
  · rename_i found
    cases next.symm.trans found
  · rename_i found
    cases next.symm.trans found
    rfl

theorem ask_faces {before after : List Char} (place : s.buffer.Splits S.source before [] after)
    (yields : s.Yields ts S.failure) (ahead : history ++ S.requests ts = S.acts) :
    (∃ r, s.ask history = .ok r ∧ r.Faces S ts) ∨
      ts = [] ∧ ∃ b, s.ask history = .error b ∧ S.Breaks b := by
  generalize failure_eq : S.failure = failure at yields
  cases yields with
  | @failed _ s' e next =>
    refine .inr ⟨rfl, _, ask_error next history, failure_eq, ?_⟩
    rw [← ahead, Script.requests, failure_eq]
    rfl
  | @ended _ s' t next ends =>
    have text : before ++ after = sourceText S.source := by
      rw [place.text_eq, List.append_nil]
    refine .inl ⟨_, ask_ok next history, ?_⟩
    cases step place with
    | failed next' => cases next.symm.trans next'
    | token next' more =>
      cases next.symm.trans next'
      exact absurd ends (by simp [more])
    | ended next' _ splits =>
      cases next.symm.trans next'
      rw [text] at splits
      refine .ended (congrArg _ (congrArg _ text)) failure_eq splits ?_
      rw [← ahead, Script.requests, failure_eq]
      rfl
  | @more _ s' t ts _ next goes rest =>
    refine .inl ⟨_, ask_ok next history, ?_⟩
    cases step place with
    | failed next' => cases next.symm.trans next'
    | ended next' => cases next.symm.trans next'; cases goes
    | token next' _ _ _ _ _ splits =>
      cases next.symm.trans next'
      refine .more goes splits (failure_eq ▸ rest) ?_
      rw [← ahead, Script.requests_cons, List.append_assoc]
      rfl

end TokenStream

namespace Reading

variable {r : Reading ρ} {t : Token} {ts : List Token}

theorem Faces.exists_tail (h : r.Faces S ts) : ∃ rest, ts = r.current :: rest := by
  cases h <;> exact ⟨_, rfl⟩

theorem Faces.advance {n : Nat} (h : r.Faces S (t :: ts)) (goes : t.isEnd = false)
    (shorter : ts.length < n) : r.advance.Follows S (.done () ts shorter) := by
  cases h with
  | ended last => rw [last] at goes; cases goes
  | more _ place yields ahead =>
    unfold Reading.advance
    rcases TokenStream.ask_faces place yields ahead with ⟨r', asked, faces⟩ | ⟨rfl, b, asked, breaks⟩
    · split
      · rename_i found
        cases asked.symm.trans found
        exact .done faces
      · rename_i found
        cases asked.symm.trans found
    · split
      · rename_i found
        cases asked.symm.trans found
      · rename_i found
        cases asked.symm.trans found
        exact .short breaks

theorem Faces.pass {n : Nat} (h : r.Faces S (r.current :: ts)) (goes : r.current.isEnd = false)
    (shorter : ts.length < n) : (r.pass goes).Follows S (.done () ts shorter) :=
  (h.advance goes shorter).weaken _

end Reading

/-! ## Arguments -/

/-- The loop over the arguments behind `args` stops at the parenthesis behind which the grammar goes
on. -/
inductive Descent.Encloses (S : Script) (args : List Expr) {m n : Nat} :
    Descent ρ (List Expr) m → Parsed (List Expr) n → Prop
  | done {more : List Expr} {r : Reading ρ} {u : Token} {rest : List Token} {less : r.left < m}
    {shorter : rest.length < n} (closes : u.isPunctuator ")" = true) (faces : r.Faces S (u :: rest)) :
    Encloses S args (.done (args ++ more) r less) (.done more rest shorter)
  | wrong {e : SyntaxError} {r : Reading ρ} {ts : List Token} {noMore : r.left ≤ m}
    {noLonger : ts.length ≤ n} (faces : r.Faces S ts) :
    Encloses S args (.wrong e.report r noMore) (.wrong e ts noLonger)
  | cut {b : Broken ρ} (breaks : S.Breaks b) : Encloses S args (.broken b) .cut

namespace Descent.Encloses

variable {m n k l : Nat} {args : List Expr} {d : Descent ρ (List Expr) m} {p : Parsed (List Expr) n}

theorem weaken (h : d.Encloses S args p) (le : m ≤ k) : (d.weaken le).Encloses S args p := by
  cases h with
  | done closes faces => exact .done closes faces
  | wrong faces => exact .wrong faces
  | cut breaks => exact .cut breaks

theorem cons {arg : Expr} (h : d.Encloses S (args ++ [arg]) p) (le : n ≤ l) :
    d.Encloses S args ((p.map (arg :: ·)).weaken le) := by
  cases h with
  | done closes faces =>
    rw [List.append_assoc]
    exact .done closes faces
  | wrong faces => exact .wrong faces
  | cut breaks => exact .cut breaks

theorem close (h : d.Encloses S [] p) (f : List Expr → Expr) (le : m ≤ k) (le' : n ≤ l)
    (bound : ∀ r : Reading ρ, r.left < m → r.bound ≤ k) :
    (d.andThen le fun args r less => (r.advance.map fun _ => f args).weaken (bound r less)).Follows S
      ((p.map f).weaken le') := by
  cases h with
  | @done more r u rest less shorter closes faces =>
    have last := faces.advance (Token.isEnd_of_isPunctuator closes) (Nat.lt_of_lt_of_le shorter le')
    exact (last.map fun _ => f more).weaken (bound r less)
  | wrong faces => exact .wrong faces
  | cut breaks => exact .cut breaks

end Descent.Encloses

/-! ## Operators -/

namespace Token

variable {t : Token} {op : Operator}

theorem precedence_of_operator (sign : t.operator? = some op) : t.precedence = op.precedence := by
  unfold precedence
  rw [operator?_eq_some.mp sign]
  simp only [Operator.ofSymbol?_symbol, Option.map_some, Option.getD_some]

theorem precedence_of_none (none : t.operator? = none) : t.precedence = -1 := by
  unfold operator? at none
  unfold precedence
  split
  · rename_i text kind
    rw [kind] at none
    simp only at none
    rw [none]
    rfl
  · rfl

end Token

theorem Expr.ofSymbol_symbol (op : Operator) (left right : Expr) (pos : Position) :
    ofSymbol op.symbol left right pos = .ok (.binary op left right) := by
  unfold ofSymbol
  rw [Operator.ofSymbol?_symbol]

namespace Grammar

theorem primary_nil : primary [] = .cut := by
  rw [primary]

theorem expression_nil : expression [] = .cut := by
  rw [expression, primary_nil]

theorem arguments_nil : arguments [] = .cut := by
  rw [arguments, expression_nil]

theorem climb_nil (least : Nat) (left : Expr) : climb least left [] = .cut := by
  rw [climb]

theorem tighterFollows_nil (op : Operator) : tighterFollows op [] = false := rfl

theorem tighterFollows_iff {op : Operator} {t : Token} {ts : List Token} :
    tighterFollows op (t :: ts) = true ↔ (op.precedence : Int) < t.precedence := by
  unfold tighterFollows
  rw [List.head?_cons, Option.bind_some]
  cases sign : t.operator? with
  | none => simp [Token.precedence_of_none sign]
  | some next => simp [Token.precedence_of_operator sign]

end Grammar

/-! ## Expressions -/

namespace Reading

variable {r : Reading ρ} {t : Token} {ts rest : List Token}

theorem Faces.numberExpression {value : Float} (h : r.Faces S (r.current :: rest))
    (kind : r.current.kind = .number value) :
    r.primary.Follows S (Grammar.primary (r.current :: rest)) := by
  rw [Reading.primary, Grammar.primary]
  simp only [kind]
  unfold Reading.numberExpression
  split
  · rename_i value' same
    cases kind.symm.trans same
    exact (h.pass (Token.isEnd_of_number kind) (Nat.lt_succ_self _)).map fun _ => Expr.number value
  · rename_i other
    exact absurd kind (other value)

theorem Faces.identifierExpression {name : Name} (h : r.Faces S (r.current :: rest))
    (named : r.current.name? = some name)
    (inner : ∀ (r' : Reading ρ) (ts : List Token), ts.length < rest.length → r'.Faces S ts →
      (r'.argumentLoop []).Encloses S [] (Grammar.arguments ts)) :
    r.primary.Follows S (Grammar.primary (r.current :: rest)) := by
  rw [Reading.primary, Grammar.primary]
  simp only [Token.name?_eq_some.mp named]
  rw [Reading.identifierExpression]
  split
  · rename_i none
    cases named.symm.trans none
  · rename_i name' named'
    cases named.symm.trans named'
    have first := h.pass (Token.isEnd_of_name named) (Nat.lt_succ_self _)
    generalize r.pass (Token.isEnd_of_name named) = d at first
    cases first with
    | short breaks => exact .cut breaks
    | @done _ r₁ _ less₁ _ faces₁ =>
      obtain ⟨us, rfl⟩ := faces₁.exists_tail
      rw [Descent.andThen_done]
      by_cases opens : r₁.current.isPunctuator "(" = true
      · simp only [opens, dif_pos, if_true]
        have second := faces₁.pass (Token.isEnd_of_isPunctuator opens) (Nat.lt_succ_self _)
        generalize r₁.pass (Token.isEnd_of_isPunctuator opens) = d at second
        cases second with
        | short breaks => exact .cut breaks
        | @done _ r₂ _ less₂ _ faces₂ =>
          obtain ⟨vs, rfl⟩ := faces₂.exists_tail
          rw [Descent.andThen_done]
          by_cases closes : r₂.current.isPunctuator ")" = true
          · simp only [closes, if_true]
            have none : (Descent.done [] r₂ (Nat.lt_succ_self _)).Encloses S []
                (Parsed.done [] vs (Nat.lt_succ_self _)) := .done closes faces₂
            exact none.close (.call name.spelling) _ (by simp only [List.length_cons]; omega) _
          · simp only [closes, Bool.false_eq_true, if_false, Parsed.behind, Parsed.weaken_weaken]
            have args := inner r₂ _ (Nat.lt_succ_self _) faces₂
            exact (args.weaken (Nat.le_succ _)).close (.call name.spelling) _ _ _
      · simp only [opens]
        exact .done faces₁

theorem Faces.groupExpression (h : r.Faces S (r.current :: rest))
    (opens : r.current.isPunctuator "(" = true)
    (inner : ∀ r' : Reading ρ, r'.Faces S rest → r'.expression.Follows S (Grammar.expression rest)) :
    r.primary.Follows S (Grammar.primary (r.current :: rest)) := by
  rw [Reading.primary, Grammar.primary]
  simp only [Token.isPunctuator_iff.mp opens, opens, if_true]
  rw [Reading.groupExpression, Reading.expect, dif_pos opens]
  have first := h.pass (Token.isEnd_of_isPunctuator opens) (Nat.lt_succ_self _)
  generalize r.pass (Token.isEnd_of_isPunctuator opens) = d at first
  cases first with
  | short breaks =>
    rw [Grammar.expression_nil]
    exact .cut breaks
  | @done _ r₁ _ less₁ _ faces₁ =>
    rw [Descent.andThen_done]
    have second := inner r₁ faces₁
    generalize r₁.expression = d at second
    generalize Grammar.expression rest = p at second
    cases second with
    | wrong faces => exact .wrong faces
    | short breaks => exact .cut breaks
    | cut breaks => exact .cut breaks
    | @done e r₂ ts less₂ shorter faces₂ =>
      obtain ⟨us, rfl⟩ := faces₂.exists_tail
      rw [Descent.andThen_done]
      by_cases closes : r₂.current.isPunctuator ")" = true
      · rw [Reading.expect, dif_pos closes]
        simp only [closes, if_true]
        have shorter' : us.length < (r.current :: rest).length := by
          simp only [List.length_cons] at *
          omega
        have last := faces₂.pass (Token.isEnd_of_isPunctuator closes) shorter'
        have le : r₂.left ≤ r.left := by omega
        exact (last.map fun _ => e).weaken le
      · rw [Reading.expect, dif_neg closes]
        simp only [closes]
        exact .wrong (e := .expecting .closeGroup r₂.current) faces₂

theorem Faces.noExpression (h : r.Faces S (r.current :: rest))
    (other : ¬ Grammar.StartsExpression r.current) :
    r.primary.Follows S (Grammar.primary (r.current :: rest)) := by
  rw [Grammar.primary_of_other other, Reading.primary]
  simp only [Grammar.StartsExpression, not_or, not_exists, Token.name?_eq_some] at other
  obtain ⟨noNumber, noName, shut⟩ := other
  split
  · rename_i name kind
    exact absurd kind (noName name)
  · rename_i value kind
    exact absurd kind (noNumber value)
  · rw [if_neg shut]
    exact .wrong (e := .noExpression r.current) h

mutual

theorem Faces.expression (r : Reading ρ) (ts : List Token) (h : r.Faces S ts) :
    r.expression.Follows S (Grammar.expression ts) := by
  have operand := Faces.primary r ts h
  rw [Reading.expression, Grammar.expression]
  generalize r.primary = d at operand
  generalize Grammar.primary ts = p at operand
  cases operand with
  | wrong faces => exact .wrong faces
  | short breaks =>
    simp only [Grammar.climb_nil]
    exact .cut breaks
  | cut breaks => exact .cut breaks
  | @done left r₁ rest less shorter faces =>
    exact ((Faces.binaryRest r₁ 0 left rest faces).weaken less).behind shorter
termination_by (ts.length, 1)

theorem Faces.primary (r : Reading ρ) (ts : List Token) (h : r.Faces S ts) :
    r.primary.Follows S (Grammar.primary ts) := by
  obtain ⟨rest, rfl⟩ := h.exists_tail
  by_cases starts : Grammar.StartsExpression r.current
  · rcases starts with ⟨value, kind⟩ | ⟨name, named⟩ | opens
    · exact h.numberExpression kind
    · apply h.identifierExpression named
      intro r' us shorter faces
      have less : us.length < (r.current :: rest).length := Nat.lt_succ_of_lt shorter
      exact Faces.argumentLoop r' us [] faces
    · exact h.groupExpression opens fun r' faces => Faces.expression r' rest faces
  · exact h.noExpression starts
termination_by (ts.length, 0)

theorem Faces.argumentLoop (r : Reading ρ) (ts : List Token) (args : List Expr) (h : r.Faces S ts) :
    (r.argumentLoop args).Encloses S args (Grammar.arguments ts) := by
  have first := Faces.expression r ts h
  rw [Reading.argumentLoop, Grammar.arguments]
  generalize r.expression = d at first
  generalize Grammar.expression ts = p at first
  cases first with
  | wrong faces => exact .wrong faces
  | short breaks => exact .cut breaks
  | cut breaks => exact .cut breaks
  | @done arg r₁ rest less₁ shorter faces₁ =>
    obtain ⟨us, rfl⟩ := faces₁.exists_tail
    have shorter' : us.length < ts.length := Nat.lt_of_succ_lt shorter
    rw [Descent.andThen_done]
    dsimp only
    by_cases closes : r₁.current.isPunctuator ")" = true
    · rw [if_pos closes, if_pos closes]
      exact .done closes faces₁
    · rw [if_neg closes, if_neg closes]
      by_cases comma : r₁.current.isPunctuator "," = true
      · rw [dif_pos comma, if_pos comma]
        have next := faces₁.pass (Token.isEnd_of_isPunctuator comma) (Nat.lt_succ_self _)
        generalize r₁.pass (Token.isEnd_of_isPunctuator comma) = d at next
        cases next with
        | short breaks =>
          rw [Grammar.arguments_nil]
          exact .cut breaks
        | @done _ r₂ _ less₂ _ faces₂ =>
          rw [Descent.andThen_done]
          exact ((Faces.argumentLoop r₂ us (args ++ [arg]) faces₂).weaken _).cons _
      · rw [dif_neg comma, if_neg comma]
        exact .wrong (e := .expecting .argumentEnd r₁.current) faces₁
termination_by (ts.length, 2)

theorem Faces.binaryRest (r : Reading ρ) (least : Nat) (left : Expr) (ts : List Token)
    (h : r.Faces S ts) : (r.binaryRest least left).Follows S (Grammar.climb least left ts) := by
  obtain ⟨rest, rfl⟩ := h.exists_tail
  rw [Reading.binaryRest, Grammar.climb]
  cases sign : r.current.operator? with
  | none =>
    have looser : r.current.precedence < least := by
      rw [Token.precedence_of_none sign]
      omega
    rw [if_pos looser]
    exact .done h
  | some op =>
    simp only [Token.precedence_of_operator sign, Int.ofNat_lt]
    by_cases looser : op.precedence < least
    · rw [if_pos looser, if_pos looser]
      exact .done h
    · rw [if_neg looser, if_neg looser]
      have kind' := Token.operator?_eq_some.mp sign
      split
      · rename_i symbol kind
        obtain rfl : op.symbol = symbol := TokenKind.punctuator.inj (kind'.symm.trans kind)
        have next := h.pass (Token.isEnd_of_operator sign) (Nat.lt_succ_self _)
        generalize r.pass (Token.isEnd_of_operator sign) = d at next
        cases next with
        | short breaks =>
          rw [Grammar.primary_nil]
          exact .cut breaks
        | @done _ r₁ _ less₁ _ faces₁ =>
          have operand := Faces.primary r₁ rest faces₁
          rw [Descent.andThen_done]
          generalize r₁.primary = d at operand
          generalize Grammar.primary rest = p at operand
          cases operand with
          | wrong faces => exact .wrong faces
          | short breaks =>
            simp only [Grammar.tighterFollows_nil, Bool.false_eq_true, if_false, Grammar.climb_nil]
            exact .cut breaks
          | cut breaks => exact .cut breaks
          | @done right r₂ ts₂ less₂ shorter₂ faces₂ =>
            obtain ⟨us, rfl⟩ := faces₂.exists_tail
            rw [Descent.andThen_done]
            simp only [Grammar.tighterFollows_iff, Expr.ofSymbol_symbol]
            have behind : (r₂.current :: us).length < (r.current :: rest).length :=
              Nat.lt_succ_of_lt shorter₂
            -- both take the tighter operators first, and then go on with the wider left side
            by_cases tighter : (op.precedence : Int) < r₂.current.precedence
            · simp only [tighter, if_true]
              have inner := Faces.binaryRest r₂ (op.precedence + 1) right _ faces₂
              rw [Int.natCast_succ] at inner
              generalize r₂.binaryRest (op.precedence + 1) right = d at inner
              generalize Grammar.climb (op.precedence + 1) right (r₂.current :: us) = p at inner
              cases inner with
              | wrong faces => exact .wrong faces
              | short breaks =>
                simp only [Grammar.climb_nil]
                exact .cut breaks
              | cut breaks => exact .cut breaks
              | @done right' r₃ ts₃ less₃ shorter₃ faces₃ =>
                have behind₃ : ts₃.length < (r.current :: rest).length := by
                  simp only [List.length_cons] at *
                  omega
                have le : r₃.left + 1 ≤ r.left + 1 := by omega
                exact ((Faces.binaryRest r₃ least _ ts₃ faces₃).weaken le).behind _
            · simp only [tighter, if_false]
              have le : r₂.left + 1 ≤ r.left + 1 := by omega
              exact ((Faces.binaryRest r₂ least _ _ faces₂).weaken le).behind _
      -- a token that binds is a punctuator
      · rename_i other
        exact absurd kind' (other op.symbol)
termination_by (ts.length, 0)

end

/-! ## Forms -/

theorem Faces.parameterLoop (params : List String) (h : r.Faces S ts) :
    (r.parameterLoop params).Follows S (.done (params ++ (Grammar.parameters ts).1) (Grammar.parameters ts).2
      (Nat.lt_succ_of_le (Grammar.length_parameters_le ts))) := by
  induction ts generalizing r params with
  | nil => cases h
  | cons t rest ih =>
    obtain ⟨_, same⟩ := h.exists_tail
    cases same
    rw [Reading.parameterLoop]
    split
    · rename_i name named
      simp only [Grammar.parameters, named]
      have next := h.pass (Token.isEnd_of_name named) (Nat.lt_succ_self _)
      generalize r.pass (Token.isEnd_of_name named) = d at next
      cases next with
      | short breaks => exact .short breaks
      | @done _ r₁ _ less₁ _ faces₁ =>
        have others := ih (params ++ [name.spelling]) faces₁
        simp only [List.append_assoc, List.singleton_append] at others
        have le : r₁.left + 1 ≤ r.left + 1 := by omega
        exact (others.weaken le).behind (Nat.le_succ _)
    · rename_i none
      simp only [Grammar.parameters, none, List.append_nil]
      exact .done h

theorem Faces.prototype (h : r.Faces S ts) : r.prototype.Follows S (Grammar.prototype ts) := by
  obtain ⟨rest, rfl⟩ := h.exists_tail
  unfold Reading.prototype Grammar.prototype
  dsimp only
  split
  · rename_i none
    simp only [none]
    exact .wrong (e := .expecting .functionName r.current) h
  · rename_i name named
    simp only [named]
    have first := h.pass (Token.isEnd_of_name named) (Nat.lt_succ_self _)
    generalize r.pass (Token.isEnd_of_name named) = d at first
    cases first with
    | short breaks => exact .cut breaks
    | @done _ r₁ _ less₁ _ faces₁ =>
      obtain ⟨us, rfl⟩ := faces₁.exists_tail
      rw [Descent.andThen_done, Reading.expect]
      dsimp only
      by_cases opens : r₁.current.isPunctuator "(" = true
      · rw [dif_pos opens, if_pos opens]
        have second := faces₁.pass (Token.isEnd_of_isPunctuator opens) (Nat.lt_succ_self _)
        generalize r₁.pass (Token.isEnd_of_isPunctuator opens) = d at second
        cases second with
        | short breaks => exact .cut breaks
        | @done _ r₂ _ less₂ _ faces₂ =>
          rw [Descent.andThen_done]
          have params := faces₂.parameterLoop []
          generalize r₂.parameterLoop [] = d at params
          unfold Grammar.closedParameters
          generalize Grammar.length_parameters_le us = noLonger at params
          revert noLonger
          generalize Grammar.parameters us = read
          intro noLonger params
          obtain ⟨names, after⟩ := read
          cases params with
          | short breaks => exact .cut breaks
          | @done _ r₃ _ less₃ _ faces₃ =>
            obtain ⟨vs, rfl⟩ := faces₃.exists_tail
            rw [Descent.andThen_done, Reading.expect]
            dsimp only
            by_cases closes : r₃.current.isPunctuator ")" = true
            · rw [dif_pos closes, if_pos closes]
              have shorter : vs.length < (r.current :: r₁.current :: us).length := by
                simp only [List.length_cons] at *
                omega
              have last := faces₃.pass (Token.isEnd_of_isPunctuator closes) shorter
              have le : r₃.left ≤ r.left := by omega
              exact (last.map fun _ => Prototype.mk name.spelling names).weaken le
            · rw [dif_neg closes, if_neg closes]
              exact .wrong (e := .expecting .closeParameters r₃.current) faces₃
      · rw [dif_neg opens, if_neg opens]
        exact .wrong (e := .expecting .openParameters r₁.current) faces₁

theorem Faces.definition (h : r.Faces S (r.current :: rest))
    (word : r.current.isKeyword .definition = true) :
    (r.definition word).Follows S (Grammar.definition rest) := by
  unfold Reading.definition Grammar.definition
  have first := h.pass (Token.isEnd_of_isKeyword word) (Nat.lt_succ_self _)
  generalize r.pass (Token.isEnd_of_isKeyword word) = d at first
  cases first with
  | short breaks => exact .cut breaks
  | @done _ r₁ _ less₁ _ faces₁ =>
    rw [Descent.andThen_done]
    have proto := faces₁.prototype
    generalize r₁.prototype = d at proto
    generalize Grammar.prototype rest = p at proto
    cases proto with
    | wrong faces => exact .wrong faces
    | short breaks =>
      rw [Parsed.andThen, Grammar.expression_nil]
      exact .cut breaks
    | cut breaks => exact .cut breaks
    | @done proto r₂ us less₂ shorter₂ faces₂ =>
      rw [Descent.andThen_done, Parsed.andThen]
      have le : r₂.left ≤ r.left := by omega
      exact (((Faces.expression r₂ us faces₂).map _).weaken le).behind _

theorem Faces.external (h : r.Faces S (r.current :: rest))
    (word : r.current.isKeyword .external = true) :
    (r.external word).Follows S (Grammar.prototype rest) := by
  unfold Reading.external
  have first := h.pass (Token.isEnd_of_isKeyword word) (Nat.lt_succ_self _)
  generalize r.pass (Token.isEnd_of_isKeyword word) = d at first
  cases first with
  | short breaks => exact .cut breaks
  | @done _ r₁ _ less₁ _ faces₁ => exact faces₁.prototype.weaken (Nat.le_of_lt less₁)

theorem Faces.form (h : r.Faces S ts) : r.form.Follows S (Grammar.form ts) := by
  obtain ⟨rest, rfl⟩ := h.exists_tail
  unfold Reading.form Grammar.form
  dsimp only
  by_cases word : r.current.isKeyword .definition = true
  · rw [dif_pos word, if_pos word]
    exact ((h.definition word).map Item.function).behind _
  · rw [dif_neg word, if_neg word]
    by_cases word' : r.current.isKeyword .external = true
    · rw [dif_pos word', if_pos word']
      exact ((h.external word').map Item.external).behind _
    · rw [dif_neg word', if_neg word']
      exact (Faces.expression r _ h).map_map _ Item.function

end Reading

end

end Kaleidoscope
