import Kaleidoscope.Proofs.Grammar.Expression

/-!
# Whatever is read is derived

A value that reading gives is the tree of the tokens that were taken, and the token behind them does
not go on with them. Reading is cut short only where the end of the input is missing.
-/

namespace Kaleidoscope

/-- What `p` gives for `ts` is explained by `D`, from what was taken, its value and what is left. -/
def Parsed.Explained {α : Type} {n : Nat} (ts : List Token) (D : List Token → α → List Token → Prop) :
    Parsed α n → Prop
  | .done value rest _ => ∃ read, ts = read ++ rest ∧ D read value rest
  | .wrong _ _ _ => True
  | .cut => Grammar.NoEnd ts

@[simp] theorem Parsed.weaken_weaken {α : Type} {m n k : Nat} (p : Parsed α m) (le : m ≤ n)
    (le' : n ≤ k) : (p.weaken le).weaken le' = p.weaken (Nat.le_trans le le') := by
  cases p <;> rfl

namespace Parsed.Explained

open Grammar

variable {α β : Type} {m n : Nat} {ts read rest : List Token}
  {D : List Token → α → List Token → Prop}

theorem behind {p : Parsed α m} (h : p.Explained rest D) (split : ts = read ++ rest)
    (noEnd : NoEnd read) {E : List Token → α → List Token → Prop} (le : m ≤ n)
    (join : ∀ more value rest', rest = more ++ rest' → D more value rest' →
      E (read ++ more) value rest') :
    (p.weaken le).Explained ts E := by
  cases p with
  | wrong e rest' noLonger => trivial
  | cut =>
    rw [split]
    exact noEnd.append h
  | done value rest' shorter =>
    obtain ⟨more, rfl, derived⟩ := h
    exact ⟨read ++ more, by rw [split, List.append_assoc], join more value rest' rfl derived⟩

theorem map {p : Parsed α n} (h : p.Explained ts D) (f : α → β) :
    (p.map f).Explained ts fun read value rest => ∃ v, value = f v ∧ D read v rest := by
  cases p with
  | wrong e rest' noLonger => trivial
  | cut => exact h
  | done value rest' shorter =>
    obtain ⟨read, split, derived⟩ := h
    exact ⟨read, split, value, rfl, derived⟩

theorem mono {p : Parsed α n} (h : p.Explained ts D) {E : List Token → α → List Token → Prop}
    (weaker : ∀ read value rest, D read value rest → E read value rest) : p.Explained ts E := by
  cases p with
  | wrong e rest' noLonger => trivial
  | cut => exact h
  | done value rest' shorter =>
    obtain ⟨read, split, derived⟩ := h
    exact ⟨read, split, weaker read value rest' derived⟩

end Parsed.Explained

namespace Grammar

/-- The token behind `read` goes on neither with a name that ends it nor with an operator that binds
at least as tightly as `least`. -/
def Stops (least : Nat) (read rest : List Token) : Prop :=
  ∃ u more, rest = u :: more ∧ (∀ op, u.operator? = some op → op.precedence < least) ∧
    ¬ OpensCall read u

def PrimaryRead (read : List Token) (e : Expr) (rest : List Token) : Prop :=
  IsPrimary read e ∧ ∀ u ∈ rest.head?, ¬ OpensCall read u

def ExpressionRead (read : List Token) (e : Expr) (rest : List Token) : Prop :=
  (∃ first links, IsChain read first links ∧ e = conventional first links) ∧ Stops 0 read rest

def ArgumentsRead (read : List Token) (args : List Expr) (_rest : List Token) : Prop :=
  ∃ inner v, read = inner ++ [v] ∧ v.isPunctuator ")" = true ∧ IsArguments inner args

def LinksRead (least : Nat) (left : Expr) (read : List Token) (e : Expr) (rest : List Token) : Prop :=
  (∃ links, IsLinks read links ∧ e = conventional left links ∧ ∀ l ∈ links, least ≤ l.precedence) ∧
    Stops least read rest

theorem PrimaryRead.of_last (ts : List Token) {rest : List Token} {t : Token} {e : Expr}
    (derived : IsPrimary (ts ++ [t]) e) (nameless : t.name? = none) :
    PrimaryRead (ts ++ [t]) e rest :=
  ⟨derived, fun _ _ => not_opensCall_of_last ts nameless⟩

theorem callWith_explained {t u : Token} {name : Name} {ts : List Token}
    (named : t.name? = some name) (opens : u.isPunctuator "(" = true)
    (args : (arguments ts).Explained ts ArgumentsRead) :
    ((((arguments ts).map (Expr.call name.spelling)).behind u).behind t).Explained (t :: u :: ts)
      PrimaryRead := by
  have passed : NoEnd [t, u] :=
    .cons (Token.isEnd_of_name named) (.cons (Token.isEnd_of_isPunctuator opens) .nil)
  unfold Parsed.behind
  rw [Parsed.weaken_weaken]
  apply (args.map _).behind (List.append_cons [t] u ts).symm passed
  rintro read e rest - ⟨args, rfl, inner, v, rfl, closes, derived⟩
  exact .of_last (t :: u :: inner) (.callWith named opens derived closes)
    (Token.name?_of_isPunctuator closes)

theorem IsLinks.head_le {us : List Token} (rest : List Token) {links : List Link} {bound : Nat}
    (h : IsLinks us links)
    (le : ∀ u ∈ (us ++ rest).head?, ∀ op, u.operator? = some op → op.precedence ≤ bound) :
    ∀ l ∈ links.head?, l.precedence ≤ bound := by
  cases h with
  | nil => simp
  | cons sign =>
    rintro l mem
    cases mem
    exact le _ rfl _ sign

theorem stops_of_not_tighter {ts more rest : List Token} {u : Token} {op : Operator}
    (split : ts = more ++ u :: rest) (follows : ¬ tighterFollows op ts = true) :
    Stops (op.precedence + 1) [] ts := by
  cases ts with
  | nil => simp at split
  | cons v behind =>
    refine ⟨v, behind, rfl, ?_, not_opensCall_nil v⟩
    intro next sign
    simp only [tighterFollows, List.head?_cons, Option.bind_some, sign, decide_eq_true_eq] at follows
    exact Nat.lt_succ_of_le (Nat.le_of_not_lt follows)

/-- An operator, what the climb above it takes and what is taken after that are links of one chain. -/
theorem LinksRead.join {least : Nat} {t : Token} {op : Operator} {left right right' e : Expr}
    {read more more' rest rest' : List Token} (sign : t.operator? = some op)
    (binds : least ≤ op.precedence) (operand : PrimaryRead read right (more ++ rest))
    (inner : LinksRead (op.precedence + 1) right more right' rest) (split : rest = more' ++ rest')
    (outer : LinksRead least (.binary op left right') more' e rest') :
    LinksRead least left (t :: (read ++ more) ++ more') e rest' := by
  obtain ⟨derived, apart⟩ := operand
  obtain ⟨⟨links, chain, rfl, tighter⟩, u, after, rfl, ends, apart'⟩ := inner
  obtain ⟨⟨links', chain', rfl, binds'⟩, u', after', rfl, ends', apart''⟩ := outer
  have looser : ∀ l ∈ links'.head?, l.precedence ≤ op.precedence := by
    apply chain'.head_le (u' :: after')
    rw [← split]
    rintro v mem next sign'
    cases mem
    exact Nat.le_of_lt_succ (ends next sign')
  refine ⟨⟨⟨op, right⟩ :: links ++ links', ?_, ?_, ?_⟩, u', after', rfl, ends', ?_⟩
  · rw [List.cons_append, List.cons_append, List.append_assoc]
    exact .cons sign derived (chain.append chain')
  · exact (conventional_join (l := ⟨op, right⟩) left tighter looser).symm
  · exact List.forall_mem_cons.mpr ⟨binds, List.forall_mem_append.mpr
      ⟨fun l mem => Nat.le_trans binds (Nat.le_of_succ_le (tighter l mem)), binds'⟩⟩
  · have some : read ++ more ≠ [] := by
      obtain ⟨first, others, rfl, -⟩ := derived.starts
      exact List.cons_ne_nil _ _
    have next : ∀ v ∈ (more' ++ u' :: after').head?, ¬ OpensCall (t :: (read ++ more)) v := by
      rw [← split]
      rintro v mem opens
      cases mem
      exact not_opensCall_append apart apart' (OpensCall.of_append [t] opens some)
    exact not_opensCall_append next apart''

mutual

theorem expression_explained (ts : List Token) : (expression ts).Explained ts ExpressionRead := by
  have operand := primary_explained ts
  unfold expression
  cases eq : primary ts with
  | cut => rwa [eq] at operand
  | wrong e rest noLonger => trivial
  | done left rest shorter =>
    have joined := climb_explained 0 left rest
    rw [eq] at operand
    obtain ⟨read, split, derived, apart⟩ := operand
    apply joined.behind split derived.noEnd
    rintro more e behind here ⟨⟨links, chain, rfl, -⟩, u, after, rfl, ends, apart'⟩
    rw [here] at apart
    exact ⟨⟨left, links, .mk derived chain, rfl⟩, u, after, rfl, ends,
      not_opensCall_append apart apart'⟩
termination_by (ts.length, 1)

theorem primary_explained (ts : List Token) : (primary ts).Explained ts PrimaryRead := by
  unfold primary
  cases ts with
  | nil => exact .nil
  | cons t rest =>
    dsimp only
    split
    · rename_i value kind
      exact ⟨[t], rfl, .of_last [] (.number kind) (Token.name?_of_number kind)⟩
    · rename_i name kind
      have named := Token.name?_eq_some.mpr kind
      cases rest with
      | nil => exact .cons (Token.isEnd_of_name named) .nil
      | cons u inner =>
        dsimp only
        by_cases opens : u.isPunctuator "(" = true
        · rw [if_pos opens]
          cases inner with
          | nil =>
            exact .cons (Token.isEnd_of_name named) (.cons (Token.isEnd_of_isPunctuator opens) .nil)
          | cons v behind =>
            dsimp only
            by_cases closes : v.isPunctuator ")" = true
            · rw [if_pos closes]
              exact ⟨[t, u, v], rfl,
                .of_last [t, u] (.call named opens closes) (Token.name?_of_isPunctuator closes)⟩
            · rw [if_neg closes]
              exact callWith_explained named opens (arguments_explained (v :: behind))
        · rw [if_neg opens]
          refine ⟨[t], rfl, .var named, ?_⟩
          rintro v mem ⟨-, opens'⟩
          cases mem
          exact opens opens'
    · rename_i noNumber noName
      by_cases opens : t.isPunctuator "(" = true
      · rw [if_pos opens]
        have inner := expression_explained rest
        cases eq : expression rest with
        | wrong e rest' noLonger => trivial
        | cut =>
          rw [eq] at inner
          exact .cons (Token.isEnd_of_isPunctuator opens) inner
        | done e rest' shorter =>
          rw [eq] at inner
          obtain ⟨read, rfl, ⟨first, links, chain, rfl⟩, u, behind, rfl, -, -⟩ := inner
          dsimp only
          by_cases closes : u.isPunctuator ")" = true
          · rw [if_pos closes]
            have derived := IsPrimary.group opens chain closes
            refine ⟨t :: (read ++ [u]), by simp, ?_⟩
            exact .of_last (t :: read) derived (Token.name?_of_isPunctuator closes)
          · rw [if_neg closes]
            trivial
      · rw [if_neg opens]
        trivial
termination_by (ts.length, 0)

theorem arguments_explained (ts : List Token) : (arguments ts).Explained ts ArgumentsRead := by
  have arg := expression_explained ts
  unfold arguments
  cases eq : expression ts with
  | cut => rwa [eq] at arg
  | wrong e rest noLonger => trivial
  | done e rest shorter =>
    rw [eq] at arg
    obtain ⟨read, split, ⟨first, links, chain, rfl⟩, u, behind, rfl, -, -⟩ := arg
    dsimp only
    by_cases closes : u.isPunctuator ")" = true
    · rw [if_pos closes]
      exact ⟨read ++ [u], by simp [split], read, u, rfl, closes, .last chain⟩
    · rw [if_neg closes]
      by_cases comma : u.isPunctuator "," = true
      · rw [if_pos comma]
        have more := (arguments_explained behind).map (conventional first links :: ·)
        apply more.behind (split.trans (List.append_cons read u behind))
        · exact chain.noEnd.append (.cons (Token.isEnd_of_isPunctuator comma) .nil)
        · rintro read' args rest - ⟨tail, rfl, inner, v, rfl, closes, derived⟩
          exact ⟨read ++ u :: inner, v, by simp, closes, .cons chain comma derived⟩
      · rw [if_neg comma]
        trivial
termination_by (ts.length, 2)

theorem climb_explained (least : Nat) (left : Expr) (ts : List Token) :
    (climb least left ts).Explained ts (LinksRead least left) := by
  unfold climb
  cases ts with
  | nil => exact .nil
  | cons t rest =>
    dsimp only
    cases sign : t.operator? with
    | none =>
      refine ⟨[], rfl, ⟨[], .nil, (conventional_nil left).symm, by simp⟩, t, rest, rfl, ?_, ?_⟩
      · simp [sign]
      · exact not_opensCall_nil t
    | some op =>
      dsimp only
      by_cases looser : op.precedence < least
      · rw [if_pos looser]
        refine ⟨[], rfl, ⟨[], .nil, (conventional_nil left).symm, by simp⟩, t, rest, rfl, ?_, ?_⟩
        · simpa [sign] using looser
        · exact not_opensCall_nil t
      · rw [if_neg looser]
        have operand := primary_explained rest
        cases eq : primary rest with
        | wrong e rest' noLonger => trivial
        | cut =>
          rw [eq] at operand
          exact .cons (Token.isEnd_of_operator sign) operand
        | done right rest₁ shorter₁ =>
          rw [eq] at operand
          obtain ⟨read, rfl, derived, apart⟩ := operand
          dsimp only
          by_cases follows : tighterFollows op rest₁ = true
          -- the climb above the operator takes its right side
          · rw [if_pos follows]
            have inner := climb_explained (op.precedence + 1) right rest₁
            cases eq' : climb (op.precedence + 1) right rest₁ with
            | wrong e rest' noLonger => trivial
            | cut =>
              rw [eq'] at inner
              exact .cons (Token.isEnd_of_operator sign) (derived.noEnd.append inner)
            | done right' rest₂ shorter₂ =>
              rw [eq'] at inner
              obtain ⟨more, rfl, taken⟩ := inner
              have passed : NoEnd (t :: (read ++ more)) := by
                obtain ⟨⟨links, chain, -⟩, -⟩ := taken
                exact .cons (Token.isEnd_of_operator sign) (derived.noEnd.append chain.noEnd)
              have outer := climb_explained least (.binary op left right') rest₂
              apply outer.behind (by simp) passed
              intro more' e rest' split joined
              exact .join sign (Nat.le_of_not_lt looser) ⟨derived, apart⟩ taken split joined
          · rw [if_neg follows]
            -- The operand is taken as it is: the climb above it would have stopped at once.
            have outer := climb_explained least (.binary op left right) rest₁
            have passed : NoEnd (t :: read) := .cons (Token.isEnd_of_operator sign) derived.noEnd
            apply outer.behind (List.cons_append).symm passed
            intro more e rest' split joined
            have operand : PrimaryRead read right ([] ++ rest₁) := ⟨derived, apart⟩
            have taken : LinksRead (op.precedence + 1) right [] right rest₁ := by
              refine ⟨⟨[], .nil, (conventional_nil right).symm, by simp⟩, ?_⟩
              obtain ⟨-, u, after, rfl, -⟩ := joined
              exact stops_of_not_tighter split follows
            have both := LinksRead.join sign (Nat.le_of_not_lt looser) operand taken split joined
            rwa [List.append_nil] at both
termination_by (ts.length, 0)

end

end Grammar

end Kaleidoscope
