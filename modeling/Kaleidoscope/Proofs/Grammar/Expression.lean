import Kaleidoscope.Proofs.Grammar.Derivation

/-!
# Expressions are read as they are derived

Reading takes a chain whole and stops at the token behind it. That token must not go on with the
chain: it is no operator, and does not open the arguments of a name that the chain ends with.
-/

namespace Kaleidoscope

def Parsed.Gives {α : Type} {n : Nat} (p : Parsed α n) (value : α) (rest : List Token) : Prop :=
  ∃ shorter, p = .done value rest shorter

namespace Parsed.Gives

variable {α β : Type} {m n : Nat} {value : α} {rest : List Token}

theorem weaken {p : Parsed α m} (h : p.Gives value rest) (le : m ≤ n) :
    (p.weaken le).Gives value rest := by
  obtain ⟨shorter, rfl⟩ := h
  exact ⟨Nat.lt_of_lt_of_le shorter le, rfl⟩

theorem map {p : Parsed α n} (h : p.Gives value rest) (f : α → β) :
    (p.map f).Gives (f value) rest := by
  obtain ⟨shorter, rfl⟩ := h
  exact ⟨shorter, rfl⟩

theorem behind {p : Parsed α rest.length} {t : Token} {rest' : List Token}
    (h : p.Gives value rest') : (p.behind t).Gives value rest' :=
  h.weaken _

theorem unique {p : Parsed α n} {value' : α} {rest' : List Token} (h : p.Gives value rest)
    (h' : p.Gives value' rest') : value = value' ∧ rest = rest' := by
  obtain ⟨_, eq⟩ := h
  obtain ⟨_, eq'⟩ := h'
  rw [eq] at eq'
  cases eq'
  exact ⟨rfl, rfl⟩

end Parsed.Gives

namespace Grammar

variable {ts us rest : List Token} {t u v : Token} {e first : Expr} {links : List Link}
  {args : List Expr}

/-! ## What a primary is read as -/

theorem primary_number {value : Float} (kind : t.kind = .number value) :
    (primary (t :: rest)).Gives (.number value) rest := by
  unfold primary
  simp only [kind]
  exact ⟨_, rfl⟩

theorem primary_var {name : Name} (named : t.name? = some name) (shut : u.isPunctuator "(" = false) :
    (primary (t :: u :: rest)).Gives (.var name.spelling) (u :: rest) := by
  unfold primary
  simp only [Token.name?_eq_some.mp named, shut]
  exact ⟨_, rfl⟩

theorem primary_call {name : Name} (named : t.name? = some name) (opens : u.isPunctuator "(" = true)
    (closes : v.isPunctuator ")" = true) :
    (primary (t :: u :: v :: rest)).Gives (.call name.spelling []) rest := by
  unfold primary
  simp only [Token.name?_eq_some.mp named, opens, closes]
  exact ⟨_, rfl⟩

theorem primary_callWith {name : Name} (named : t.name? = some name)
    (opens : u.isPunctuator "(" = true) (more : v.isPunctuator ")" = false)
    (inner : (arguments (v :: rest)).Gives args us) :
    (primary (t :: u :: v :: rest)).Gives (.call name.spelling args) us := by
  unfold primary
  simp only [Token.name?_eq_some.mp named, opens, more]
  exact (inner.map _).behind.behind

theorem primary_group (opens : u.isPunctuator "(" = true) (closes : v.isPunctuator ")" = true)
    (inner : (expression ts).Gives e (v :: rest)) : (primary (u :: ts)).Gives e rest := by
  obtain ⟨shorter, eq⟩ := inner
  unfold primary
  simp only [Token.isPunctuator_iff.mp opens, opens, eq, closes]
  exact ⟨_, rfl⟩

theorem arguments_last (arg : (expression ts).Gives e (v :: rest))
    (closes : v.isPunctuator ")" = true) : (arguments ts).Gives [e] rest := by
  obtain ⟨shorter, eq⟩ := arg
  unfold arguments
  simp only [eq, closes]
  exact ⟨_, rfl⟩

theorem arguments_cons (arg : (expression ts).Gives e (v :: us)) (comma : v.isPunctuator "," = true)
    (more : (arguments us).Gives args rest) : (arguments ts).Gives (e :: args) rest := by
  have notClosed : v.isPunctuator ")" = false := by
    rw [Bool.eq_false_iff, Ne, Token.isPunctuator_iff, Token.isPunctuator_iff.mp comma]
    simp
  obtain ⟨shorter, eq⟩ := arg
  unfold arguments
  simp only [eq, notClosed, comma]
  exact (more.map _).weaken (Nat.le_of_lt (Nat.lt_of_succ_lt shorter))

/-! ## What a climb takes -/

theorem climb_stop (least : Nat) (left : Expr) (ends : u.operator? = none) :
    (climb least left (u :: rest)).Gives left (u :: rest) := by
  unfold climb
  simp only [ends]
  exact ⟨_, rfl⟩

theorem climb_looser {least : Nat} (left : Expr) {op : Operator} (sign : u.operator? = some op)
    (looser : op.precedence < least) : (climb least left (u :: rest)).Gives left (u :: rest) := by
  unfold climb
  simp only [sign, looser]
  exact ⟨_, rfl⟩

theorem climb_ends (least : Nat) (left : Expr)
    (ends : ∀ op, u.operator? = some op → op.precedence < least) :
    (climb least left (u :: rest)).Gives left (u :: rest) := by
  cases sign : u.operator? with
  | none => exact climb_stop least left sign
  | some op => exact climb_looser left sign (ends op sign)

theorem climb_of_not_tighter {op : Operator} (right : Expr)
    (follows : tighterFollows op (u :: rest) = false) :
    (climb (op.precedence + 1) right (u :: rest)).Gives right (u :: rest) := by
  cases sign : u.operator? with
  | none => exact climb_stop _ _ sign
  | some next =>
    apply climb_looser _ sign
    simp only [tighterFollows, List.head?_cons, Option.bind_some, sign, decide_eq_false_iff_not] at follows
    omega

/-- An operator takes what the climb above it gives as its right side. -/
theorem climb_join {least : Nat} {left right right' : Expr} {op : Operator} {rest' : List Token}
    (sign : t.operator? = some op) (tight : least ≤ op.precedence)
    (operand : (primary ts).Gives right us)
    (inner : (climb (op.precedence + 1) right us).Gives right' rest)
    (outer : (climb least (.binary op left right') rest).Gives e rest') :
    (climb least left (t :: ts)).Gives e rest' := by
  obtain ⟨shorter, eq⟩ := operand
  unfold climb
  simp only [sign, Nat.not_lt_of_le tight, eq]
  by_cases follows : tighterFollows op us = true
  · obtain ⟨shorter', eq'⟩ := inner
    have le : rest.length + 1 ≤ (t :: ts).length + 1 := by
      rw [List.length_cons]
      omega
    simp only [follows, eq']
    exact outer.weaken le
  · rw [Bool.not_eq_true] at follows
    cases us with
    | nil =>
      obtain ⟨_, cut⟩ := inner
      unfold climb at cut
      cases cut
    | cons u us =>
      obtain ⟨rfl, rfl⟩ := inner.unique (climb_of_not_tighter right follows)
      have le : (u :: us).length + 1 ≤ (t :: ts).length + 1 :=
        Nat.succ_le_succ (Nat.le_succ_of_le (Nat.le_of_lt shorter))
      simp only [follows]
      exact outer.weaken le

theorem expression_climb {left : Expr} (operand : (primary ts).Gives left us)
    (joined : (climb 0 left us).Gives e rest) : (expression ts).Gives e rest := by
  obtain ⟨shorter, eq⟩ := operand
  unfold expression
  simp only [eq]
  exact joined.weaken shorter

/-! ## Whatever is derived is read -/

theorem IsLinks.next (h : IsLinks us links) {ts : List Token} (apart : ¬ OpensCall (ts ++ us) u)
    (rest : List Token) : ∃ v more, us ++ u :: rest = v :: more ∧ ¬ OpensCall ts v := by
  cases h with
  | nil => exact ⟨u, rest, rfl, by rwa [List.append_nil] at apart⟩
  | cons sign => exact ⟨_, _, List.cons_append, not_opensCall_of_operator sign⟩

theorem IsLinks.eq_nil (h : IsLinks us []) : us = [] := by
  cases h
  rfl

def ReadsPrimaries (n : Nat) : Prop :=
  ∀ {ts : List Token} {e : Expr}, IsPrimary ts e → ts.length ≤ n → ∀ {u : Token},
    ¬ OpensCall ts u → ∀ rest, (primary (ts ++ u :: rest)).Gives e (u :: rest)

theorem ReadsPrimaries.mono {m n : Nat} (h : ReadsPrimaries n) (le : m ≤ n) : ReadsPrimaries m :=
  fun derived short => h derived (Nat.le_trans short le)

/-- A climb takes the links before the first that is too loose. -/
theorem IsLinks.climbs (h : IsLinks ts links) (reads : ReadsPrimaries ts.length) (least : Nat)
    (ends : ∀ op, u.operator? = some op → op.precedence < least) (apart : ¬ OpensCall ts u)
    (left : Expr) (rest : List Token) :
    ∃ taken dropped, ts = taken ++ dropped ∧ IsLinks dropped (loose least links) ∧
      (climb least left (ts ++ u :: rest)).Gives (conventional left (tight least links))
        (dropped ++ u :: rest) := by
  -- The second climb starts at what the first one dropped. That is a derivation of its own, so the
  -- induction is on the number of tokens.
  induction bound : ts.length using Nat.strong_induction_on generalizing ts links least left with
  | _ n ih =>
  subst bound
  cases h with
  | nil =>
    refine ⟨[], [], rfl, .nil, ?_⟩
    rw [tight, List.takeWhile_nil, conventional_nil]
    exact climb_ends least left ends
  | @cons t inside us l links sign operand more =>
    by_cases binds : least ≤ l.precedence
    · have apart₁ : ¬ OpensCall us u := mt (·.append_left (t :: inside)) apart
      have shorter : us.length < (t :: (inside ++ us)).length := by
        simp only [List.length_cons, List.length_append]
        omega
      have ends₁ : ∀ op, u.operator? = some op → op.precedence < l.precedence + 1 :=
        fun op sign => Nat.lt_succ_of_lt (Nat.lt_of_lt_of_le (ends op sign) binds)
      obtain ⟨taken₁, dropped₁, split₁, looser, inner⟩ := ih us.length shorter more
        (reads.mono (Nat.le_of_lt shorter)) (l.precedence + 1) ends₁ apart₁ l.operand rfl
      have apart₂ : ¬ OpensCall dropped₁ u := fun opens => apart₁ (split₁ ▸ opens.append_left taken₁)
      have shorter' : dropped₁.length < (t :: (inside ++ us)).length := by
        simp only [split₁, List.length_cons, List.length_append]
        omega
      obtain ⟨taken₂, dropped₂, split₂, looser', outer⟩ := ih dropped₁.length shorter' looser
        (reads.mono (Nat.le_of_lt shorter')) least ends apart₂
        (.binary l.op left (conventional l.operand (tight (l.precedence + 1) links))) rfl
      obtain ⟨v, behind, next, apart₀⟩ := more.next (mt (·.append_left [t]) apart) rest
      have first := reads operand (by simp; omega) apart₀ behind
      rw [← next] at first
      refine ⟨t :: (inside ++ (taken₁ ++ taken₂)), dropped₂, ?_, ?_, ?_⟩
      · rw [split₁, split₂]
        simp only [List.cons_append, List.append_assoc]
      · rwa [loose_cons links binds, loose_eq_loose (Nat.le_succ_of_le binds)]
      · rw [conventional_climb left links binds, List.cons_append, List.append_assoc]
        exact climb_join sign binds first inner outer
    · have looser : l.precedence < least := Nat.lt_of_not_le binds
      refine ⟨[], t :: (inside ++ us), rfl, ?_, ?_⟩
      · rw [loose_cons_of_lt links looser]
        exact .cons sign operand more
      · rw [tight_cons_of_lt links looser, conventional_nil]
        exact climb_looser left sign looser

theorem IsChain.reads (h : IsChain ts first links) (reads : ReadsPrimaries ts.length)
    (ends : u.operator? = none) (apart : ¬ OpensCall ts u) (rest : List Token) :
    (expression (ts ++ u :: rest)).Gives (conventional first links) (u :: rest) := by
  cases h with
  | @mk ts us first links operand more =>
    obtain ⟨v, behind, next, apart₀⟩ := more.next apart rest
    have read := reads operand (by simp) apart₀ behind
    obtain ⟨taken, dropped, split, none, inner⟩ :=
      more.climbs (reads.mono (by simp)) 0 (by simp [ends]) (mt (·.append_left ts) apart) first rest
    rw [loose_zero] at none
    rw [tight_zero, none.eq_nil, next] at inner
    rw [List.append_assoc, next]
    exact expression_climb read inner

theorem IsArguments.reads {ts : List Token} {args : List Expr} (h : IsArguments ts args)
    (reads : ReadsPrimaries ts.length) (closes : v.isPunctuator ")" = true) (rest : List Token) :
    (arguments (ts ++ v :: rest)).Gives args rest := by
  match h with
  | .last arg =>
    have read := arg.reads reads (by rw [Token.operator?_of_isPunctuator closes]; decide)
      (not_opensCall_of_isPunctuator closes (by decide)) rest
    exact arguments_last read closes
  | @IsArguments.cons t ts us _ _ _ arg comma more =>
    have read := arg.reads (reads.mono (by simp)) (by rw [Token.operator?_of_isPunctuator comma]; decide)
      (not_opensCall_of_isPunctuator comma (by decide)) (us ++ v :: rest)
    have behind := more.reads (reads.mono (by simp; omega)) closes rest
    rw [List.append_assoc]
    exact arguments_cons read comma behind

theorem readsPrimaries (n : Nat) : ReadsPrimaries n := by
  induction n with
  | zero =>
    intro ts e h short
    obtain ⟨t, us, rfl, -⟩ := h.starts
    cases short
  | succ n ih =>
    intro ts e h short u apart rest
    cases h with
    | number kind => exact primary_number kind
    | @var t name named =>
      apply primary_var named
      rw [Bool.eq_false_iff]
      intro opens
      exact apart ⟨⟨t, rfl, by rw [named]; rfl⟩, opens⟩
    | call named opens closes => exact primary_call named opens closes
    | @callWith t u' v name inside args named opens inner closes =>
      have read := inner.reads (ih.mono (by simp at short; omega)) closes (u :: rest)
      obtain ⟨first, behind, rfl, starts⟩ := inner.starts
      rw [List.cons_append, List.cons_append, List.append_assoc]
      exact primary_callWith named opens (starts.isPunctuator_eq_false (by decide)) read
    | @group u' v inside first links opens inner closes =>
      rw [List.cons_append, List.append_assoc]
      apply primary_group opens closes
      apply inner.reads (ih.mono (by simp at short; omega))
      · rw [Token.operator?_of_isPunctuator closes]
        decide
      · exact not_opensCall_of_isPunctuator closes (by decide)

/-- A chain is read whole, as its conventional tree, up to a token that does not go on with it. -/
theorem expression_gives_conventional (chain : IsChain ts first links) (ends : u.operator? = none)
    (apart : ¬ OpensCall ts u) (rest : List Token) :
    (expression (ts ++ u :: rest)).Gives (conventional first links) (u :: rest) :=
  chain.reads (readsPrimaries ts.length) ends apart rest

theorem expression_gives_conventional_levels :
    let sign (op : Operator) : Token := ⟨.punctuator op.symbol, .start⟩
    let name (s : String) : Token := ⟨.identifier ⟨s, 0⟩, .start⟩
    let chain := [name "a", sign .less, name "b", sign .subtract, name "c", sign .multiply, name "d",
      sign .subtract, name "e"]
    let stop : Token := ⟨.punctuator ";", .start⟩
    stop.operator? = none ∧ ¬ OpensCall chain stop ∧ (expression (chain ++ [stop])).Gives
      (.binary .less (.var "a") (.binary .subtract (.binary .subtract (.var "b")
        (.binary .multiply (.var "c") (.var "d"))) (.var "e"))) [stop] := by
  intro sign name chain stop
  have ends : stop.operator? = none := by decide
  have apart : ¬ OpensCall chain stop := fun opens => absurd opens.2 (by decide)
  have operand (s : String) : IsPrimary [name s] (.var s) := @IsPrimary.var _ ⟨s, 0⟩ rfl
  have signed (op : Operator) : (sign op).operator? = some op := Operator.ofSymbol?_symbol op
  have link {us : List Token} {links : List Link} (op : Operator) (s : String)
      (more : IsLinks us links) : IsLinks (sign op :: name s :: us) (⟨op, .var s⟩ :: links) := by
    have behind := IsLinks.cons (l := ⟨op, .var s⟩) (signed op) (operand s) more
    exact behind
  have derived := IsChain.mk (operand "a") (link .less "b" (link .subtract "c"
    (link .multiply "d" (link .subtract "e" .nil))))
  have read := expression_gives_conventional derived ends apart []
  have tree : conventional (.var "a") [⟨.less, .var "b"⟩, ⟨.subtract, .var "c"⟩,
      ⟨.multiply, .var "d"⟩, ⟨.subtract, .var "e"⟩] = .binary .less (.var "a") (.binary .subtract
        (.binary .subtract (.var "b") (.binary .multiply (.var "c") (.var "d"))) (.var "e")) := by
    simp [conventional, cut?, Link.precedence, Operator.precedence]
  rw [tree] at read
  exact ⟨ends, apart, read⟩

end Grammar

end Kaleidoscope
