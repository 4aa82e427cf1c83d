import Kaleidoscope.Proofs.Parser.Checks
import Kaleidoscope.Proofs.Parser.Requests

/-!
# What a parse reports

A parse reports what its grammar does not expect at the token under inspection. On demand it could
report that a number, a name, an open group or a known operator is missing, but never does: these are
looked for only where they are.
-/

namespace Kaleidoscope

namespace Grammar

variable {ts us rest : List Token} {t : Token} {e : SyntaxError}

def RaisedAt (e : SyntaxError) (rest : List Token) : Prop :=
  ∃ t more, rest = t :: more ∧ e.report.Raised t

theorem raisedAt_of (raised : e.report.Raised t) (more : List Token) : RaisedAt e (t :: more) :=
  ⟨t, more, rfl, raised⟩

theorem expression_stops {value : Expr} (h : (expression ts).Gives value (t :: us)) :
    t.operator? = none := by
  obtain ⟨-, -, -, u, after, left, ends, -⟩ := (expression_explained ts).of_gives h
  cases left
  rw [Option.eq_none_iff_forall_ne_some]
  intro op sign
  exact absurd (ends op sign) (Nat.not_lt_zero _)

mutual

theorem expression_raised (ts : List Token) {e : SyntaxError} {rest : List Token}
    (h : (expression ts).GoesWrong e rest) : RaisedAt e rest := by
  rcases expression_goesWrong.mp h with wrong | ⟨left, mid, given, wrong⟩
  · exact primary_raised ts wrong
  · have shorter := given.length_lt
    exact climb_raised 0 left mid wrong
termination_by (ts.length, 1)

theorem primary_raised (ts : List Token) {e : SyntaxError} {rest : List Token}
    (h : (primary ts).GoesWrong e rest) : RaisedAt e rest := by
  cases ts with
  | nil =>
    rw [primary] at h
    exact absurd h Parsed.not_goesWrong_cut
  | cons t us =>
    by_cases starts : StartsExpression t
    · rcases starts with ⟨value, kind⟩ | ⟨name, named⟩ | opens
      · exact absurd h (not_primary_goesWrong_number kind)
      · obtain ⟨u, v, behind, rfl, opens, more, wrong⟩ := (primary_goesWrong_name named).mp h
        exact arguments_raised (v :: behind) wrong
      · rcases (primary_goesWrong_group opens).mp h with wrong | ⟨inner, u, behind, given, more, rfl, rfl⟩
        · exact expression_raised us wrong
        · exact raisedAt_of (.closeGroup (expression_stops given) more) behind
    · obtain ⟨rfl, rfl⟩ := (primary_goesWrong_other starts).mp h
      exact raisedAt_of (.noExpression starts) us
termination_by (ts.length, 0)

theorem arguments_raised (ts : List Token) {e : SyntaxError} {rest : List Token}
    (h : (arguments ts).GoesWrong e rest) : RaisedAt e rest := by
  rcases arguments_goesWrong.mp h with wrong | ⟨arg, u, behind, given, more, wrong⟩
  · exact expression_raised ts wrong
  · have shorter : behind.length < ts.length := Nat.lt_of_succ_lt given.length_lt
    rcases wrong with ⟨comma, wrong⟩ | ⟨other, rfl, rfl⟩
    · exact arguments_raised behind wrong
    · exact raisedAt_of (.argumentEnd (expression_stops given) more other) behind
termination_by (ts.length, 2)

theorem climb_raised (least : Nat) (left : Expr) (ts : List Token) {e : SyntaxError}
    {rest : List Token} (h : (climb least left ts).GoesWrong e rest) : RaisedAt e rest := by
  cases ts with
  | nil =>
    rw [climb] at h
    exact absurd h Parsed.not_goesWrong_cut
  | cons t us =>
    obtain ⟨op, sign, binds, wrong | ⟨right, mid, given, wrong⟩⟩ := climb_goesWrong.mp h
    · exact primary_raised us wrong
    · have shorter : mid.length < (t :: us).length := Nat.lt_succ_of_lt given.length_lt
      rcases wrong with wrong | ⟨right', mid', given', wrong⟩
      · exact climb_raised (op.precedence + 1) right mid wrong
      · have shorter' : mid'.length < (t :: us).length :=
          Nat.lt_of_le_of_lt (Nat.le_of_lt_succ given'.length_lt) shorter
        exact climb_raised least (.binary op left right') mid' wrong
termination_by (ts.length, 0)

end

theorem prototype_raised (h : (prototype ts).GoesWrong e rest) : RaisedAt e rest := by
  cases ts with
  | nil => simp [prototype] at h
  | cons t us =>
    cases named : t.name? with
    | none =>
      simp only [prototype, named, Parsed.goesWrong_refuse] at h
      obtain ⟨rfl, rfl⟩ := h
      exact raisedAt_of (.functionName named) us
    | some name =>
      cases us with
      | nil => simp [prototype, named] at h
      | cons u inner =>
        by_cases opens : u.isPunctuator "(" = true
        · simp only [prototype, named, if_pos opens, Parsed.goesWrong_behind,
            Parsed.goesWrong_map] at h
          obtain ⟨v, more, found, open_, rfl, rfl⟩ := closedParameters_goesWrong.mp h
          have unnamed : v.name? = none := name?_of_head_parameters inner v (by rw [found]; rfl)
          exact raisedAt_of (.closeParameters unnamed open_) more
        · simp only [prototype, named, if_neg opens, Parsed.goesWrong_behind,
            Parsed.goesWrong_refuse] at h
          obtain ⟨rfl, rfl⟩ := h
          exact raisedAt_of (.openParameters (by simpa using opens)) inner

theorem form_raised (h : (form ts).GoesWrong e rest) : RaisedAt e rest := by
  cases ts with
  | nil => simp [form] at h
  | cons t us =>
    rcases keyword_cases t with word | word | wordless
    · rw [form_definition word, Parsed.goesWrong_behind, Parsed.goesWrong_map, definition,
        Parsed.goesWrong_andThen] at h
      rcases h with wrong | ⟨proto, mid, -, wrong⟩
      · exact prototype_raised wrong
      · rw [Parsed.goesWrong_map] at wrong
        exact expression_raised mid wrong
    · rw [form_external word, Parsed.goesWrong_behind, Parsed.goesWrong_map] at h
      exact prototype_raised h
    · rw [form_expression wordless, Parsed.goesWrong_map] at h
      exact expression_raised _ h

/-- Each error of a program is about a token of its own, in the order of the tokens. -/
theorem program_raised (ts : List Token) : ∃ shown, shown.Sublist ts ∧
    List.Forall₂ (fun (e : SyntaxError) t => e.report.Raised t) (program ts).diagnostics shown := by
  fun_induction program ts with
  | case1 => exact ⟨[], .slnil, .nil⟩
  | case2 => exact ⟨[], List.nil_sublist _, .nil⟩
  | case3 t rest _ _ ih =>
    obtain ⟨shown, inside, raised⟩ := ih
    exact ⟨shown, inside.cons t, raised⟩
  | case4 t rest _ _ item behind shorter found ih =>
    obtain ⟨read, -, split, -⟩ := form_again ⟨shorter, found⟩
    obtain ⟨shown, inside, raised⟩ := ih
    exact ⟨shown, split ▸ inside.trans (List.sublist_append_right read behind), raised⟩
  | case5 t rest _ _ e noLonger found =>
    obtain ⟨u, more, none, -⟩ := form_raised ⟨noLonger, found⟩
    cases none
  | case6 t rest _ _ e u more noLonger found =>
    obtain ⟨read, split, -⟩ := (form_fault ⟨noLonger, found⟩).split
    obtain ⟨_, _, same, raised⟩ := form_raised ⟨noLonger, found⟩
    cases same
    exact ⟨[u], by rw [split]; simp, .cons raised .nil⟩
  | case7 t rest _ _ e u more noLonger found _ ih =>
    obtain ⟨read, split, -⟩ := (form_fault ⟨noLonger, found⟩).split
    obtain ⟨_, _, same, raised⟩ := form_raised ⟨noLonger, found⟩
    cases same
    obtain ⟨shown, inside, others⟩ := ih
    refine ⟨u :: shown, ?_, .cons raised others⟩
    rw [split]
    exact (inside.cons_cons u).trans (List.sublist_append_right read _)
  | case8 => exact ⟨[], List.nil_sublist _, .nil⟩

end Grammar

section
variable {ρ : Type} [Reader ρ]

omit [Reader ρ] in
theorem Ending.mem_diagnostics {d : Ending ρ} {e : Report} :
    e ∈ d.diagnostics ↔ .reported e ∈ d.history := by
  unfold diagnostics
  rw [List.mem_filterMap]
  constructor
  · rintro ⟨act, mem, reported⟩
    cases act with
    | asked => cases reported
    | reported e' =>
      cases reported
      exact mem
  · exact fun mem => ⟨_, mem, rfl⟩

namespace Parser

variable {p : Parser ρ}

theorem descend_justified (p : Parser ρ) : Act.Justified p.descend.state.history := by
  unfold descend
  dsimp only
  split
  · exact Act.justified_nil
  · show Act.Justified (descendRest _).state.history
    rw [descendRest_state]
    exact TokenStream.descend_justified _

theorem parse_raised (p : Parser ρ) : ∃ shown, shown.Sublist p.stream.reset.state.all.2.1.toList ∧
    List.Forall₂ (fun (e : SyntaxError) t => e.report.Raised t) p.parse.state.diagnostics shown := by
  unfold parse
  dsimp only
  split
  · exact ⟨[], List.nil_sublist _, .nil⟩
  · show ∃ shown, _ ∧ List.Forall₂ _ (parseRest _).state.diagnostics shown
    rw [parseRest_state]
    exact Grammar.program_raised _

/-- Whatever the parser did before and however its reader fails, a parse reports an error right behind the
request for the token that the error is about, and only where that token is not what was expected. No
check fails that was made before, and no assertion. Where a source is read without failures, the parse
that has all tokens before it reports the same. -/
theorem reports_raised (p : Parser ρ) :
    let s := p.stream.reset.state
    (Act.Justified p.descend.state.history ∧ ∀ e ∈ p.descend.state.diagnostics, ¬ e.Defensive) ∧
    s.assertedDescend = some s.descend ∧
    (∃ shown, shown.Sublist s.all.2.1.toList ∧
      List.Forall₂ (fun (e : SyntaxError) t => e.report.Raised t ∧ ¬ e.report.Defensive)
        p.parse.state.diagnostics shown) ∧
    ∀ source, p.Placed source →
      p.descend.state.diagnostics = p.parse.state.diagnostics.map SyntaxError.report := by
  intro s
  have justified := p.descend_justified
  obtain ⟨shown, inside, raised⟩ := p.parse_raised
  refine ⟨⟨justified, ?_⟩, s.assertedDescend_eq, ⟨shown, inside, ?_⟩, fun _ placed => placed.descend_eq.2.2⟩
  · intro e mem
    obtain ⟨t, raised⟩ := justified.exists_raised (Ending.mem_diagnostics.mp mem)
    exact raised.not_defensive
  · exact raised.imp fun _ _ raised => ⟨raised, raised.not_defensive⟩

end Parser

end

/-- Each check that can fail does at one of these tokens. -/
theorem Grammar.program_unfinished :
    (program [⟨.keyword .definition, ⟨0, 0, 0⟩⟩, ⟨.punctuator ";", ⟨0, 3, 3⟩⟩,
      ⟨.keyword .definition, ⟨0, 4, 4⟩⟩, ⟨.identifier ⟨"f", 0⟩, ⟨0, 8, 8⟩⟩,
      ⟨.punctuator ";", ⟨0, 9, 9⟩⟩,
      ⟨.keyword .definition, ⟨0, 10, 10⟩⟩, ⟨.identifier ⟨"f", 0⟩, ⟨0, 14, 14⟩⟩,
      ⟨.punctuator "(", ⟨0, 15, 15⟩⟩, ⟨.punctuator ";", ⟨0, 16, 16⟩⟩,
      ⟨.punctuator "(", ⟨0, 17, 17⟩⟩, ⟨.identifier ⟨"x", 0⟩, ⟨0, 18, 18⟩⟩,
      ⟨.punctuator ";", ⟨0, 19, 19⟩⟩,
      ⟨.identifier ⟨"f", 0⟩, ⟨0, 20, 20⟩⟩, ⟨.punctuator "(", ⟨0, 21, 21⟩⟩,
      ⟨.identifier ⟨"x", 0⟩, ⟨0, 22, 22⟩⟩, ⟨.punctuator ";", ⟨0, 23, 23⟩⟩,
      ⟨.punctuator ")", ⟨0, 24, 24⟩⟩, ⟨.endOfInput, ⟨0, 25, 25⟩⟩]).diagnostics.map
        SyntaxError.report = [
      .expectedToken "function name in prototype" ";" ⟨0, 3, 3⟩,
      .expectedToken "'(' in prototype" ";" ⟨0, 9, 9⟩,
      .expectedToken "')' in prototype" ";" ⟨0, 16, 16⟩,
      .expectedToken "')' to close a parenthesized expression" ";" ⟨0, 19, 19⟩,
      .expectedToken "',' or ')' in argument list" ";" ⟨0, 23, 23⟩,
      .expectedExpression ")" ⟨0, 24, 24⟩] := by
  simp [program, form, definition, prototype, closedParameters, parameters, expression, primary,
    arguments, climb, Token.isEnd, Token.isPunctuator, Token.isKeyword, Token.name?, Token.operator?,
    Operator.ofSymbol?, Operator.all, Operator.symbol, Parsed.andThen, Parsed.map, Parsed.weaken,
    Parsed.behind, Parsed.refuse, SyntaxError.expecting, SyntaxError.noExpression, SyntaxError.report,
    Program.withError, Token.spelling, Expected.toText]

/-- Each check that can fail does in this source, and the next one starts behind the semicolon at which
it has failed. -/
theorem Parser.reports_raised_everywhere :
    let source : Array UInt8 := #[100, 101, 102, 59, 100, 101, 102, 32, 102, 59, 100, 101, 102, 32, 102,
      40, 59, 40, 120, 59, 102, 40, 120, 59, 41]
    let r := ByteReader.ofBytes source
    ∃ b, Buffer.new r "checks" = .ok b ∧
      let p := ofStream (.ofBuffer b)
      p.Placed source.toList ∧ Act.Justified p.descend.state.history ∧
      (∀ e ∈ p.descend.state.diagnostics, ¬ e.Defensive) ∧
      p.stream.reset.state.assertedDescend = some p.stream.reset.state.descend ∧
      p.descend.state.diagnostics = [
        .expectedToken "function name in prototype" ";" ⟨0, 3, 3⟩,
        .expectedToken "'(' in prototype" ";" ⟨0, 9, 9⟩,
        .expectedToken "')' in prototype" ";" ⟨0, 16, 16⟩,
        .expectedToken "')' to close a parenthesized expression" ";" ⟨0, 19, 19⟩,
        .expectedToken "',' or ')' in argument list" ";" ⟨0, 23, 23⟩,
        .expectedExpression ")" ⟨0, 24, 24⟩] := by
  intro source r
  have reads : Reader.Delivers source.toList r := ByteReader.delivers source
  obtain ⟨b, opened, splits⟩ := Buffer.new_splits reads "checks"
  have placed := placed_new reads opened
  obtain ⟨⟨justified, live⟩, asserted, -, same⟩ := (ofStream (.ofBuffer b)).reports_raised
  refine ⟨b, opened, placed, justified, live, asserted, ?_⟩
  have f : ∀ k : Keyword, k.spelling ≠ String.ofList ['f'] := by
    intro k
    cases k <;> decide
  have x : ∀ k : Keyword, k.spelling ≠ String.ofList ['x'] := by
    intro k
    cases k <;> decide
  have scan : Scan .start (sourceText source.toList) _ :=
    .lexeme [] 'd' ['e', 'f'] rfl rfl (Head.token_keyword .definition rfl _) <|
    .lexeme [] ';' [] rfl rfl rfl <|
    .lexeme [] 'd' ['e', 'f'] rfl rfl (Head.token_keyword .definition rfl _) <|
    .lexeme [' '] 'f' [] rfl rfl (Head.token_word f _) <|
    .lexeme [] ';' [] rfl rfl rfl <|
    .lexeme [] 'd' ['e', 'f'] rfl rfl (Head.token_keyword .definition rfl _) <|
    .lexeme [' '] 'f' [] rfl rfl (Head.token_word f _) <|
    .lexeme [] '(' [] rfl rfl rfl <|
    .lexeme [] ';' [] rfl rfl rfl <|
    .lexeme [] '(' [] rfl rfl rfl <|
    .lexeme [] 'x' [] rfl rfl (Head.token_word x _) <|
    .lexeme [] ';' [] rfl rfl rfl <|
    .lexeme [] 'f' [] rfl rfl (Head.token_word f _) <|
    .lexeme [] '(' [] rfl rfl rfl <|
    .lexeme [] 'x' [] rfl rfl (Head.token_word x _) <|
    .lexeme [] ';' [] rfl rfl rfl <|
    .lexeme [] ')' [] rfl rfl rfl <| @Scan.ended _ [] rfl
  rw [same _ placed, (parse_of_source reads opened scan).2]
  exact Grammar.program_unfinished

end Kaleidoscope
