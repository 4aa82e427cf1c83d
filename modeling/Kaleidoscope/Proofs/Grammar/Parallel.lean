import Kaleidoscope.Proofs.Grammar.Recovery

/-!
# Lists that are read alike

The grammar looks at what kind a token is and at nothing else in it. Two lists whose tokens are alike,
one by one, are read to the same trees, and go wrong at the same places. A token that no production
takes hides what stands behind it.
-/

namespace Kaleidoscope

def Grammar.marks : List String := ["(", ")", ","]

structure Token.Resembles (t t' : Token) : Prop where
  number : ∀ value, t.kind = .number value ↔ t'.kind = .number value
  name : t.name?.map Name.spelling = t'.name?.map Name.spelling
  operator : t.operator? = t'.operator?
  mark : ∀ text ∈ Grammar.marks, t.isPunctuator text = t'.isPunctuator text
  keyword : ∀ k, t.isKeyword k = t'.isKeyword k

structure Token.Idle (t : Token) : Prop where
  starts : ¬ Grammar.StartsExpression t
  operator : t.operator? = none
  mark : ∀ text ∈ Grammar.marks, t.isPunctuator text = false
  keyword : ∀ k, t.isKeyword k = false

namespace Token

variable {t t' : Token}

theorem Resembles.exists_name (h : t.Resembles t') {name : Name} (named : t.name? = some name) :
    ∃ name', t'.name? = some name' ∧ name'.spelling = name.spelling := by
  have same := h.name
  rw [named, Option.map_some, eq_comm, Option.map_eq_some_iff] at same
  exact same

theorem Resembles.name?_eq_none (h : t.Resembles t') (nameless : t.name? = none) : t'.name? = none := by
  have same := h.name
  rwa [nameless, Option.map_none, eq_comm, Option.map_eq_none_iff] at same

theorem Resembles.starts (h : t.Resembles t') (starts : Grammar.StartsExpression t') :
    Grammar.StartsExpression t := by
  rcases starts with ⟨value, kind⟩ | ⟨name, named⟩ | opens
  · exact .inl ⟨value, (h.number value).mpr kind⟩
  · have same := h.name
    rw [named, Option.map_some, Option.map_eq_some_iff] at same
    obtain ⟨name', named', -⟩ := same
    exact .inr (.inl ⟨name', named'⟩)
  · exact .inr (.inr ((h.mark "(" (by decide)).trans opens))

theorem Idle.name? (h : t.Idle) : t.name? = none := by
  rw [Option.eq_none_iff_forall_ne_some]
  intro name named
  exact h.starts (.inr (.inl ⟨name, named⟩))

theorem not_idle_of_mark {text : String} (mem : text ∈ Grammar.marks)
    (mark : t.isPunctuator text = true) : ¬ t.Idle := by
  intro idle
  rw [idle.mark text mem] at mark
  cases mark

/-- The tokens are the same mark, behind which the lists go on alike, or neither is that mark. -/
theorem Resembles.mark_cases {R : List Token → List Token → Prop} {us us' : List Token}
    (h : t.Resembles t') (next : t.Idle ∨ R us us') {text : String} (mem : text ∈ Grammar.marks) :
    (t.isPunctuator text = true ∧ t'.isPunctuator text = true ∧ R us us') ∨
      t.isPunctuator text = false ∧ t'.isPunctuator text = false := by
  have same := h.mark text mem
  cases mark : t.isPunctuator text with
  | true => exact .inl ⟨rfl, same ▸ mark, next.resolve_left (not_idle_of_mark mem mark)⟩
  | false => exact .inr ⟨rfl, same ▸ mark⟩

theorem not_idle_of_operator {op : Operator} (sign : t.operator? = some op) : ¬ t.Idle := by
  intro idle
  rw [idle.operator] at sign
  cases sign

theorem not_idle_of_name {name : Name} (named : t.name? = some name) : ¬ t.Idle := by
  intro idle
  rw [idle.name?] at named
  cases named

theorem not_idle_of_keyword {k : Keyword} (word : t.isKeyword k = true) : ¬ t.Idle := by
  intro idle
  rw [idle.keyword k] at word
  cases word

theorem idle_of_isEnd (h : t.isEnd = true) : t.Idle := by
  have kind := isEnd_iff.mp h
  constructor <;> simp [Grammar.StartsExpression, name?, operator?, isPunctuator, isKeyword, kind]

theorem idle_of_semicolon (h : t.isPunctuator ";" = true) : t.Idle := by
  have kind := isPunctuator_iff.mp h
  constructor
  · simp [Grammar.StartsExpression, name?, isPunctuator, kind]
  · rw [operator?_of_isPunctuator h]
    decide
  · simp [Grammar.marks, isPunctuator, kind]
  · simp [isKeyword, kind]

theorem Idle.resembles (h : t.Idle) (h' : t'.Idle) : t.Resembles t' where
  number value := ⟨fun kind => absurd (.inl ⟨value, kind⟩) h.starts,
    fun kind => absurd (.inl ⟨value, kind⟩) h'.starts⟩
  name := by rw [h.name?, h'.name?]
  operator := by rw [h.operator, h'.operator]
  mark text mem := by rw [h.mark text mem, h'.mark text mem]
  keyword k := by rw [h.keyword k, h'.keyword k]

end Token

def SyntaxError.showing (e : SyntaxError) (t : Token) : SyntaxError :=
  match e with
  | expectedToken expected _ _ => .expecting expected t
  | expectedExpression _ _ => .noExpression t
  | unknownOperator _ _ => .unknownOperator t.spelling t.pos

theorem SyntaxError.showing_of_shows {e : SyntaxError} {t : Token} (h : e.Shows t) :
    e.showing t = e := by
  obtain ⟨pos, found⟩ := h
  cases e <;> simp only [SyntaxError.pos, SyntaxError.found] at pos found <;>
    simp only [showing, expecting, noExpression, pos, found]

/-- Lists that `R` relates start with tokens that resemble each other, and go on alike behind a token
that a production can take. -/
structure Parallel (R : List Token → List Token → Prop) : Prop where
  heads : ∀ {ts ts'}, R ts ts' → (ts = [] ∧ ts' = []) ∨ ∃ t us t' us', ts = t :: us ∧ ts' = t' :: us' ∧
    t.Resembles t' ∧ (t.Idle ∨ R us us')

namespace Parsed

variable {α β : Type} {m n m' n' : Nat} {R : List Token → List Token → Prop}

inductive Alongside (R : List Token → List Token → Prop) : Parsed α m → Parsed α n → Prop
  | done {value : α} {rest rest' : List Token} {shorter : rest.length < m}
    {shorter' : rest'.length < n} (later : R rest rest') :
    Alongside R (.done value rest shorter) (.done value rest' shorter')
  | wrong {e : SyntaxError} {u u' : Token} {more more' : List Token}
    {noLonger : (u :: more).length ≤ m} {noLonger' : (u' :: more').length ≤ n} (shows : e.Shows u)
    (later : R (u :: more) (u' :: more')) :
    Alongside R (.wrong e (u :: more) noLonger) (.wrong (e.showing u') (u' :: more') noLonger')
  | cut : Alongside R .cut .cut

theorem Alongside.weaken {p : Parsed α m} {p' : Parsed α n} (h : p.Alongside R p') (le : m ≤ m')
    (le' : n ≤ n') : (p.weaken le).Alongside R (p'.weaken le') := by
  cases h with
  | done later => exact .done later
  | wrong shows later => exact .wrong shows later
  | cut => exact .cut

theorem Alongside.map {p : Parsed α m} {p' : Parsed α n} (h : p.Alongside R p') (f : α → β) :
    (p.map f).Alongside R (p'.map f) := by
  cases h with
  | done later => exact .done later
  | wrong shows later => exact .wrong shows later
  | cut => exact .cut

theorem Alongside.of_gives {p : Parsed α m} {p' : Parsed α n} {value : α} {rest rest' : List Token}
    (h : p.Gives value rest) (h' : p'.Gives value rest') (later : R rest rest') : p.Alongside R p' := by
  obtain ⟨shorter, rfl⟩ := h
  obtain ⟨shorter', rfl⟩ := h'
  exact .done later

theorem Alongside.of_goesWrong {p : Parsed α m} {p' : Parsed α n} {e : SyntaxError} {u u' : Token}
    {more more' : List Token} (h : p.GoesWrong e (u :: more))
    (h' : p'.GoesWrong (e.showing u') (u' :: more')) (shows : e.Shows u)
    (later : R (u :: more) (u' :: more')) : p.Alongside R p' := by
  obtain ⟨noLonger, rfl⟩ := h
  obtain ⟨noLonger', rfl⟩ := h'
  exact .wrong shows later

theorem Alongside.behind {ts ts' : List Token} {p : Parsed α ts.length} {p' : Parsed α ts'.length}
    (h : p.Alongside R p') (t t' : Token) : (p.behind t).Alongside R (p'.behind t') :=
  h.weaken _ _

theorem Alongside.andThen {p : Parsed α m} {p' : Parsed α n} (h : p.Alongside R p')
    {next : α → (ts : List Token) → Parsed β ts.length}
    (goes : ∀ value {ts ts'}, R ts ts' → (next value ts).Alongside R (next value ts')) :
    (p.andThen next).Alongside R (p'.andThen next) := by
  cases h with
  | @done value rest rest' shorter shorter' later =>
    exact (goes value later).weaken (Nat.le_of_lt shorter) (Nat.le_of_lt shorter')
  | wrong shows later => exact .wrong shows later
  | cut => exact .cut

section
variable {p : Parsed α m} {p' : Parsed α n}

theorem Alongside.gives {value : α} {rest : List Token} (h : p.Alongside R p')
    (given : p.Gives value rest) : ∃ rest', p'.Gives value rest' ∧ R rest rest' := by
  obtain ⟨shorter, rfl⟩ := given
  cases h with
  | @done value rest rest' shorter shorter' later => exact ⟨rest', ⟨shorter', rfl⟩, later⟩

theorem Alongside.goesWrong {e : SyntaxError} {rest : List Token} (h : p.Alongside R p')
    (wrong : p.GoesWrong e rest) : ∃ u more u' more', rest = u :: more ∧ e.Shows u ∧
      p'.GoesWrong (e.showing u') (u' :: more') ∧ R (u :: more) (u' :: more') := by
  obtain ⟨noLonger, rfl⟩ := wrong
  cases h with
  | @wrong e u u' more more' noLonger noLonger' shows later =>
    exact ⟨u, more, u', more', rfl, shows, ⟨noLonger', rfl⟩, later⟩

theorem Alongside.eq_cut (h : p.Alongside R p') (cut : p = .cut) : p' = .cut := by
  subst cut
  cases h
  rfl

end

end Parsed

namespace Grammar

variable {R : List Token → List Token → Prop} {ts ts' us us' : List Token} {t t' : Token}

theorem tighterFollows_of_parallel (parallel : Parallel R) (op : Operator) (h : R ts ts') :
    tighterFollows op ts = tighterFollows op ts' := by
  rcases parallel.heads h with ⟨rfl, rfl⟩ | ⟨t, us, t', us', rfl, rfl, like, -⟩
  · rfl
  · simp only [tighterFollows, List.head?_cons, Option.bind_some, like.operator]

theorem primary_of_other (other : ¬ StartsExpression t) (us : List Token) :
    primary (t :: us) = .refuse (.noExpression t) t us := by
  have wrong : (primary (t :: us)).GoesWrong (.noExpression t) (t :: us) :=
    (primary_goesWrong_other other).mpr ⟨rfl, rfl⟩
  obtain ⟨noLonger, eq⟩ := wrong
  exact eq

theorem name_alongside (parallel : Parallel R) {name : Name} (named : t.name? = some name)
    (like : t.Resembles t') (later : R us us')
    (inner : ∀ vs vs', vs.length < us.length → R vs vs' →
      (arguments vs).Alongside R (arguments vs')) :
    (primary (t :: us)).Alongside R (primary (t' :: us')) := by
  obtain ⟨name', named', spelled⟩ := like.exists_name named
  rw [primary, primary]
  simp only [Token.name?_eq_some.mp named, Token.name?_eq_some.mp named', spelled]
  rcases parallel.heads later with ⟨rfl, rfl⟩ | ⟨u, vs, u', vs', rfl, rfl, like, next⟩
  · exact .cut
  · rcases like.mark_cases next (show "(" ∈ marks by decide) with
      ⟨opens, opens', behind⟩ | ⟨shut, shut'⟩
    · simp only [opens, opens', if_true]
      rcases parallel.heads behind with ⟨rfl, rfl⟩ | ⟨v, ws, v', ws', rfl, rfl, like, next⟩
      · exact .cut
      · rcases like.mark_cases next (show ")" ∈ marks by decide) with
          ⟨closes, closes', last⟩ | ⟨more, more'⟩
        · simp only [closes, closes', if_true]
          exact .done last
        · simp only [more, more', if_neg Bool.false_ne_true]
          have args := inner (v :: ws) (v' :: ws') (Nat.lt_succ_self _) behind
          exact ((args.map _).behind u u').behind t t'
    · simp only [shut, shut', if_neg Bool.false_ne_true]
      exact .done later

theorem group_alongside (parallel : Parallel R) (opens : t.isPunctuator "(" = true)
    (like : t.Resembles t') (inner : (expression us).Alongside R (expression us')) :
    (primary (t :: us)).Alongside R (primary (t' :: us')) := by
  have opens' : t'.isPunctuator "(" = true := like.mark "(" (by decide) ▸ opens
  rw [primary, primary]
  simp only [Token.isPunctuator_iff.mp opens, Token.isPunctuator_iff.mp opens', opens, opens', if_true]
  generalize expression us = p at inner
  generalize expression us' = p' at inner
  cases inner with
  | done behind =>
    rcases parallel.heads behind with ⟨rfl, rfl⟩ | ⟨u, vs, u', vs', rfl, rfl, like, next⟩
    · exact .cut
    · rcases like.mark_cases next (show ")" ∈ marks by decide) with
        ⟨closes, closes', last⟩ | ⟨more, more'⟩
      · simp only [closes, closes', if_true]
        exact .done last
      · simp only [more, more', if_neg Bool.false_ne_true]
        exact .wrong (SyntaxError.shows_expecting .closeGroup u) behind
  | wrong shows behind => exact .wrong shows behind
  | cut => exact .cut

mutual

theorem expression_alongside (parallel : Parallel R) (ts ts' : List Token) (h : R ts ts') :
    (expression ts).Alongside R (expression ts') := by
  have operand := primary_alongside parallel ts ts' h
  rw [expression, expression]
  generalize primary ts = p at operand
  generalize primary ts' = p' at operand
  cases operand with
  | @done left rest rest' shorter shorter' later =>
    exact (climb_alongside parallel 0 left rest rest' later).weaken _ _
  | wrong shows later => exact .wrong shows later
  | cut => exact .cut
termination_by (ts.length, 1)

theorem primary_alongside (parallel : Parallel R) (ts ts' : List Token) (h : R ts ts') :
    (primary ts).Alongside R (primary ts') := by
  rcases parallel.heads h with ⟨rfl, rfl⟩ | ⟨t, us, t', us', rfl, rfl, like, next⟩
  · rw [primary]
    exact .cut
  · by_cases starts : StartsExpression t
    · have later : R us us' := next.resolve_left fun idle => idle.starts starts
      rcases starts with ⟨value, kind⟩ | ⟨name, named⟩ | opens
      · rw [primary, primary]
        simp only [kind, (like.number value).mp kind]
        exact .done later
      · apply name_alongside parallel named like later
        intro vs vs' shorter more
        have less : vs.length < (t :: us).length := Nat.lt_succ_of_lt shorter
        exact arguments_alongside parallel vs vs' more
      · exact group_alongside parallel opens like (expression_alongside parallel us us' later)
    · have other : ¬ StartsExpression t' := mt like.starts starts
      rw [primary_of_other starts, primary_of_other other]
      exact .wrong (SyntaxError.shows_noExpression t) h
termination_by (ts.length, 0)

theorem arguments_alongside (parallel : Parallel R) (ts ts' : List Token) (h : R ts ts') :
    (arguments ts).Alongside R (arguments ts') := by
  have arg := expression_alongside parallel ts ts' h
  rw [arguments, arguments]
  generalize expression ts = p at arg
  generalize expression ts' = p' at arg
  cases arg with
  | @done e rest rest' shorter shorter' behind =>
    rcases parallel.heads behind with ⟨rfl, rfl⟩ | ⟨u, vs, u', vs', rfl, rfl, like, next⟩
    · exact .cut
    · rcases like.mark_cases next (show ")" ∈ marks by decide) with
        ⟨closes, closes', last⟩ | ⟨more, more'⟩
      · simp only [closes, closes', if_true]
        exact .done last
      · simp only [more, more', if_neg Bool.false_ne_true]
        rcases like.mark_cases next (show "," ∈ marks by decide) with
          ⟨comma, comma', later⟩ | ⟨other, other'⟩
        · have less : vs.length < ts.length := Nat.lt_of_succ_lt shorter
          simp only [comma, comma', if_true]
          exact ((arguments_alongside parallel vs vs' later).map _).weaken _ _
        · simp only [other, other', if_neg Bool.false_ne_true]
          exact .wrong (SyntaxError.shows_expecting .argumentEnd u) behind
  | wrong shows behind => exact .wrong shows behind
  | cut => exact .cut
termination_by (ts.length, 2)

theorem climb_alongside (parallel : Parallel R) (least : Nat) (left : Expr) (ts ts' : List Token)
    (h : R ts ts') : (climb least left ts).Alongside R (climb least left ts') := by
  rcases parallel.heads h with ⟨rfl, rfl⟩ | ⟨t, us, t', us', rfl, rfl, like, next⟩
  · rw [climb]
    exact .cut
  · rw [climb, climb]
    cases sign : t.operator? with
    | none =>
      simp only [like.operator ▸ sign]
      exact .done h
    | some op =>
      -- an operator is not idle, so the lists go on alike behind it
      have later := next.resolve_left (Token.not_idle_of_operator sign)
      simp only [like.operator ▸ sign]
      by_cases looser : op.precedence < least
      · simp only [if_pos looser]
        exact .done h
      · have operand := primary_alongside parallel us us' later
        simp only [if_neg looser]
        generalize primary us = p at operand
        generalize primary us' = p' at operand
        cases operand with
        | wrong shows behind => exact .wrong shows behind
        | cut => exact .cut
        | @done right rest rest' shorter shorter' behind =>
          -- both climbs decide alike, since the tokens behind the operands resemble each other
          have same := tighterFollows_of_parallel parallel op behind
          have less : rest.length < (t :: us).length := Nat.lt_succ_of_lt shorter
          by_cases follows : tighterFollows op rest = true
          · simp only [if_pos follows, if_pos (same ▸ follows)]
            have inner := climb_alongside parallel (op.precedence + 1) right rest rest' behind
            generalize climb (op.precedence + 1) right rest = q at inner
            generalize climb (op.precedence + 1) right rest' = q' at inner
            cases inner with
            | wrong shows last => exact .wrong shows last
            | cut => exact .cut
            | @done right rest₂ rest₂' shorter₂ shorter₂' last =>
              have less₂ : rest₂.length < (t :: us).length :=
                Nat.lt_of_le_of_lt (Nat.le_of_lt_succ shorter₂) less
              have outer := climb_alongside parallel least (.binary op left right) rest₂ rest₂' last
              exact outer.weaken _ _
          · have loose : ¬ tighterFollows op rest' = true := same ▸ follows
            simp only [if_neg follows, if_neg loose]
            have outer := climb_alongside parallel least (.binary op left right) rest rest' behind
            exact outer.weaken _ _
termination_by (ts.length, 0)

end

/-! ## Forms -/

theorem parameters_alongside (parallel : Parallel R) (h : R ts ts') :
    (parameters ts).1 = (parameters ts').1 ∧ R (parameters ts).2 (parameters ts').2 := by
  induction ts generalizing ts' with
  | nil =>
    rcases parallel.heads h with ⟨-, rfl⟩ | ⟨t, us, t', us', nil, -⟩
    · exact ⟨rfl, h⟩
    · cases nil
  | cons t us ih =>
    rcases parallel.heads h with ⟨nil, -⟩ | ⟨t, us, t', us', eq, rfl, like, next⟩
    · cases nil
    · cases eq
      cases named : t.name? with
      | none =>
        simp only [parameters, named, like.name?_eq_none named, true_and]
        exact h
      | some name =>
        obtain ⟨name', named', spelled⟩ := like.exists_name named
        have later := next.resolve_left (Token.not_idle_of_name named)
        obtain ⟨same, behind⟩ := ih later
        simp only [parameters, named, named', spelled, same, true_and]
        exact behind

theorem closedParameters_of_nil (h : (parameters ts).2 = []) : closedParameters ts = .cut := by
  unfold closedParameters
  split
  · rfl
  · rename_i found _
    rw [h] at found
    cases found

theorem closedParameters_of_closes (h : (parameters ts).2 = t :: us)
    (closes : t.isPunctuator ")" = true) : (closedParameters ts).Gives (parameters ts).1 us := by
  unfold closedParameters
  split
  · rename_i found _
    rw [h] at found
    cases found
  · rename_i found _
    rw [h] at found
    cases found
    rw [if_pos closes]
    exact ⟨_, rfl⟩

theorem closedParameters_alongside (parallel : Parallel R) (h : R ts ts') :
    (closedParameters ts).Alongside R (closedParameters ts') := by
  obtain ⟨names, later⟩ := parameters_alongside parallel h
  rcases parallel.heads later with ⟨none, none'⟩ | ⟨u, more, u', more', found, found', like, next⟩
  · rw [closedParameters_of_nil none, closedParameters_of_nil none']
    exact .cut
  · rcases like.mark_cases next (show ")" ∈ marks by decide) with
      ⟨closes, closes', last⟩ | ⟨other, other'⟩
    · have given' := closedParameters_of_closes found' closes'
      rw [← names] at given'
      exact .of_gives (closedParameters_of_closes found closes) given' last
    · rw [found, found'] at later
      have wrong := closedParameters_goesWrong.mpr ⟨u, more, found, other, rfl, rfl⟩
      have wrong' := closedParameters_goesWrong.mpr ⟨u', more', found', other', rfl, rfl⟩
      exact .of_goesWrong wrong wrong' (SyntaxError.shows_expecting .closeParameters u) later

theorem prototype_alongside (parallel : Parallel R) (h : R ts ts') :
    (prototype ts).Alongside R (prototype ts') := by
  rcases parallel.heads h with ⟨rfl, rfl⟩ | ⟨t, us, t', us', rfl, rfl, like, next⟩
  · exact .cut
  · cases named : t.name? with
    | none =>
      simp only [prototype, named, like.name?_eq_none named]
      exact .wrong (SyntaxError.shows_expecting .functionName t) h
    | some name =>
      obtain ⟨name', named', spelled⟩ := like.exists_name named
      have later := next.resolve_left (Token.not_idle_of_name named)
      simp only [prototype, named, named', spelled]
      rcases parallel.heads later with ⟨rfl, rfl⟩ | ⟨u, vs, u', vs', rfl, rfl, like, next⟩
      · exact .cut
      · rcases like.mark_cases next (show "(" ∈ marks by decide) with
          ⟨opens, opens', behind⟩ | ⟨shut, shut'⟩
        · simp only [opens, opens', if_true]
          exact (((closedParameters_alongside parallel behind).map _).behind u u').behind t t'
        · simp only [shut, shut', if_neg Bool.false_ne_true]
          exact .wrong (SyntaxError.shows_expecting .openParameters u) later

theorem definition_alongside (parallel : Parallel R) (h : R ts ts') :
    (definition ts).Alongside R (definition ts') := by
  unfold definition
  apply (prototype_alongside parallel h).andThen
  intro proto ts ts' behind
  exact (expression_alongside parallel ts ts' behind).map _

theorem form_alongside (parallel : Parallel R) (h : R ts ts') :
    (form ts).Alongside R (form ts') := by
  rcases parallel.heads h with ⟨rfl, rfl⟩ | ⟨t, us, t', us', rfl, rfl, like, next⟩
  · exact .cut
  · rcases keyword_cases t with word | word | wordless
    · have later := next.resolve_left (Token.not_idle_of_keyword word)
      rw [form_definition word, form_definition (like.keyword _ ▸ word)]
      exact ((definition_alongside parallel later).map _).behind t t'
    · have later := next.resolve_left (Token.not_idle_of_keyword word)
      rw [form_external word, form_external (like.keyword _ ▸ word)]
      exact ((prototype_alongside parallel later).map _).behind t t'
    · have wordless' : ∀ k, t'.isKeyword k = false := by
        intro k
        rw [← like.keyword k]
        exact wordless k
      rw [form_expression wordless, form_expression wordless']
      exact (expression_alongside parallel _ _ h).map _

end Grammar

end Kaleidoscope
