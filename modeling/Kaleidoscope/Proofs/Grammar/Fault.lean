import Kaleidoscope.Proofs.Grammar.Soundness

/-!
# Where reading goes wrong

Reading an expression goes wrong at the first token that no expression can have there. What was read
before it can still be completed, and what stands behind it does not matter.
-/

namespace Kaleidoscope

namespace SyntaxError

def found : SyntaxError → String
  | expectedToken _ found _ | expectedExpression found _ => found
  | unknownOperator symbol _ => symbol

def Shows (e : SyntaxError) (t : Token) : Prop := e.pos = t.pos ∧ e.found = t.spelling

theorem shows_expecting (expected : Expected) (t : Token) : (expecting expected t).Shows t :=
  ⟨rfl, rfl⟩

theorem shows_noExpression (t : Token) : (noExpression t).Shows t := ⟨rfl, rfl⟩

end SyntaxError

def Parsed.GoesWrong {α : Type} {n : Nat} (p : Parsed α n) (e : SyntaxError) (rest : List Token) :
    Prop :=
  ∃ noLonger, p = .wrong e rest noLonger

namespace Parsed

variable {α β : Type} {m n : Nat} {e e' : SyntaxError} {t : Token} {rest ts : List Token}

@[simp] theorem not_goesWrong_done {value : α} {shorter : ts.length < n} :
    ¬ (Parsed.done value ts shorter).GoesWrong e rest := nofun

@[simp] theorem not_goesWrong_cut : ¬ (Parsed.cut : Parsed α n).GoesWrong e rest := nofun

@[simp] theorem goesWrong_wrong {noLonger : ts.length ≤ n} :
    (Parsed.wrong e' ts noLonger : Parsed α n).GoesWrong e rest ↔ e = e' ∧ rest = ts := by
  unfold GoesWrong
  grind

@[simp] theorem goesWrong_weaken {p : Parsed α m} {le : m ≤ n} :
    (p.weaken le).GoesWrong e rest ↔ p.GoesWrong e rest := by
  cases p <;> simp [weaken]

@[simp] theorem goesWrong_map {p : Parsed α n} {f : α → β} :
    (p.map f).GoesWrong e rest ↔ p.GoesWrong e rest := by
  cases p <;> simp [map]

@[simp] theorem goesWrong_behind {p : Parsed α ts.length} :
    (p.behind t).GoesWrong e rest ↔ p.GoesWrong e rest :=
  goesWrong_weaken

@[simp] theorem goesWrong_refuse :
    (Parsed.refuse e' t ts : Parsed α _).GoesWrong e rest ↔ e = e' ∧ rest = t :: ts :=
  goesWrong_wrong

@[simp] theorem gives_done {value value' : α} {shorter : ts.length < n} :
    (Parsed.done value' ts shorter).Gives value rest ↔ value = value' ∧ rest = ts := by
  unfold Gives
  grind

@[simp] theorem not_gives_wrong {value : α} {noLonger : ts.length ≤ n} :
    ¬ (Parsed.wrong e ts noLonger : Parsed α n).Gives value rest := nofun

@[simp] theorem not_gives_cut {value : α} : ¬ (Parsed.cut : Parsed α n).Gives value rest := nofun

@[simp] theorem gives_weaken {p : Parsed α m} {le : m ≤ n} {value : α} :
    (p.weaken le).Gives value rest ↔ p.Gives value rest := by
  cases p <;> simp [weaken]

@[simp] theorem gives_map {p : Parsed α n} {f : α → β} {value : β} :
    (p.map f).Gives value rest ↔ ∃ v, p.Gives v rest ∧ value = f v := by
  cases p with
  | done v ts shorter =>
    simp only [map, gives_done, and_assoc, exists_eq_left]
    exact and_comm
  | wrong e ts noLonger => simp [map]
  | cut => simp [map]

@[simp] theorem gives_behind {p : Parsed α ts.length} {value : α} :
    (p.behind t).Gives value rest ↔ p.Gives value rest :=
  gives_weaken

theorem gives_andThen {p : Parsed α n} {next : α → (ts : List Token) → Parsed β ts.length} {value : β} :
    (p.andThen next).Gives value rest ↔ ∃ v mid, p.Gives v mid ∧ (next v mid).Gives value rest := by
  cases p <;> simp [andThen, and_assoc]

theorem goesWrong_andThen {p : Parsed α n} {next : α → (ts : List Token) → Parsed β ts.length} :
    (p.andThen next).GoesWrong e rest ↔
      p.GoesWrong e rest ∨ ∃ v mid, p.Gives v mid ∧ (next v mid).GoesWrong e rest := by
  cases p <;> simp [andThen, and_assoc]

theorem Gives.length_lt {p : Parsed α n} {value : α} (h : p.Gives value rest) : rest.length < n := by
  obtain ⟨shorter, -⟩ := h
  exact shorter

theorem Explained.of_gives {p : Parsed α n} {D : List Token → α → List Token → Prop} {value : α}
    (h : p.Explained ts D) (given : p.Gives value rest) :
    ∃ read, ts = read ++ rest ∧ D read value rest := by
  obtain ⟨shorter, rfl⟩ := given
  exact h

end Parsed

namespace Grammar

variable {ts us rest : List Token} {t u : Token} {e : SyntaxError}

/-! ## Which reader goes wrong -/

theorem expression_goesWrong : (expression ts).GoesWrong e rest ↔
    (primary ts).GoesWrong e rest ∨
      ∃ left mid, (primary ts).Gives left mid ∧ (climb 0 left mid).GoesWrong e rest := by
  rw [expression]
  cases primary ts <;> simp [and_assoc]

theorem arguments_goesWrong : (arguments ts).GoesWrong e rest ↔
    (expression ts).GoesWrong e rest ∨
      ∃ arg u behind, (expression ts).Gives arg (u :: behind) ∧ u.isPunctuator ")" = false ∧
        (u.isPunctuator "," = true ∧ (arguments behind).GoesWrong e rest ∨
          u.isPunctuator "," = false ∧ e = .expecting .argumentEnd u ∧ rest = u :: behind) := by
  rw [arguments]
  cases expression ts with
  | cut => simp
  | wrong e' ts' noLonger => simp
  | done arg ts' shorter =>
    cases ts' with
    | nil => simp
    | cons u behind =>
      by_cases closes : u.isPunctuator ")" = true
      · simp [closes, and_assoc]
      · by_cases comma : u.isPunctuator "," = true
        · simp [closes, comma, and_assoc]
        · simp [closes, comma, and_assoc]

theorem not_primary_goesWrong_number {value : Float} (kind : t.kind = .number value) :
    ¬ (primary (t :: us)).GoesWrong e rest := by
  rw [primary]
  simp [kind]

theorem primary_goesWrong_name {name : Name} (named : t.name? = some name) :
    (primary (t :: us)).GoesWrong e rest ↔
      ∃ u v behind, us = u :: v :: behind ∧ u.isPunctuator "(" = true ∧
        v.isPunctuator ")" = false ∧ (arguments (v :: behind)).GoesWrong e rest := by
  rw [primary]
  simp only [Token.name?_eq_some.mp named]
  cases us with
  | nil => simp
  | cons u us =>
    by_cases opens : u.isPunctuator "(" = true
    · cases us with
      | nil => simp [opens]
      | cons v behind =>
        by_cases closes : v.isPunctuator ")" = true
        · simp [opens, closes, and_assoc]
        · simp [opens, closes, and_assoc]
    · simp [opens, and_assoc]

theorem primary_goesWrong_group (opens : t.isPunctuator "(" = true) :
    (primary (t :: us)).GoesWrong e rest ↔
      (expression us).GoesWrong e rest ∨
        ∃ inner u behind, (expression us).Gives inner (u :: behind) ∧ u.isPunctuator ")" = false ∧
          e = .expecting .closeGroup u ∧ rest = u :: behind := by
  rw [primary]
  simp only [Token.isPunctuator_iff.mp opens, opens]
  cases expression us with
  | cut => simp
  | wrong e' ts' noLonger => simp
  | done inner ts' shorter =>
    cases ts' with
    | nil => simp
    | cons u behind =>
      by_cases closes : u.isPunctuator ")" = true
      · simp [closes, and_assoc]
      · simp [closes, and_assoc]

theorem primary_goesWrong_other (other : ¬ StartsExpression t) :
    (primary (t :: us)).GoesWrong e rest ↔ e = .noExpression t ∧ rest = t :: us := by
  simp only [StartsExpression, not_or, not_exists, Token.name?_eq_some] at other
  obtain ⟨noNumber, noName, shut⟩ := other
  rw [primary]
  split
  · rename_i value kind
    exact absurd kind (noNumber value)
  · rename_i name kind
    exact absurd kind (noName name)
  · simp [shut]

/-- An operator that is not followed by a tighter one takes its right side as the climb above it would. -/
theorem climb_goesWrong {least : Nat} {left : Expr} : (climb least left (t :: us)).GoesWrong e rest ↔
    ∃ op, t.operator? = some op ∧ least ≤ op.precedence ∧
      ((primary us).GoesWrong e rest ∨
        ∃ right mid, (primary us).Gives right mid ∧
          ((climb (op.precedence + 1) right mid).GoesWrong e rest ∨
            ∃ right' mid', (climb (op.precedence + 1) right mid).Gives right' mid' ∧
              (climb least (.binary op left right') mid').GoesWrong e rest)) := by
  rw [climb]
  cases sign : t.operator? with
  | none => simp
  | some op =>
    by_cases looser : op.precedence < least
    · simp [looser, Nat.not_le_of_lt looser]
    · have binds : least ≤ op.precedence := Nat.le_of_not_lt looser
      cases primary us with
      | cut => simp [looser]
      | wrong e' ts' noLonger => simp [looser, binds]
      | done right mid shorter =>
        simp only [looser, binds, if_false, Option.some.injEq, exists_eq_left', true_and,
          Parsed.not_goesWrong_done, false_or, Parsed.gives_done, and_assoc, exists_and_left,
          exists_eq_left]
        by_cases follows : tighterFollows op mid = true
        · rw [if_pos follows]
          cases climb (op.precedence + 1) right mid <;> simp [and_assoc]
        · rw [if_neg follows]
          rw [Bool.not_eq_true] at follows
          cases mid with
          | nil =>
            rw [climb, climb]
            simp
          | cons v more =>
            obtain ⟨shorter', eq⟩ := climb_of_not_tighter right follows
            rw [eq]
            simp [and_assoc]

/-! ## What was read is read again -/

variable {value left : Expr} {least : Nat}

theorem primary_again (h : (primary ts).Gives value rest) :
    ∃ read, ts = read ++ rest ∧ IsPrimary read value ∧
      ∀ v ∈ rest.head?, ∀ more, (primary (read ++ v :: more)).Gives value (v :: more) := by
  obtain ⟨read, split, derived, apart⟩ := (primary_explained ts).of_gives h
  refine ⟨read, split, derived, ?_⟩
  intro v mem more
  exact readsPrimaries read.length derived (Nat.le_refl _) (apart v mem) more

theorem expression_again (h : (expression ts).Gives value rest) :
    ∃ read first links, ts = read ++ rest ∧ IsChain read first links ∧
      ∀ v ∈ rest.head?, ∀ more, (expression (read ++ v :: more)).Gives value (v :: more) := by
  obtain ⟨read, split, ⟨first, links, chain, tree⟩, u, after, left, ends, apart⟩ :=
    (expression_explained ts).of_gives h
  refine ⟨read, first, links, split, chain, ?_⟩
  intro v mem more
  rw [left] at mem
  cases mem
  rw [tree]
  refine expression_gives_conventional chain ?_ apart more
  rw [Option.eq_none_iff_forall_ne_some]
  intro op sign
  exact absurd (ends op sign) (Nat.not_lt_zero _)

theorem climb_again (h : (climb least left ts).Gives value rest) :
    ∃ read links, ts = read ++ rest ∧ IsLinks read links ∧
      ∀ v ∈ rest.head?, ∀ more, (climb least left (read ++ v :: more)).Gives value (v :: more) := by
  obtain ⟨read, split, ⟨links, derived, tree, binds⟩, u, after, left, ends, apart⟩ :=
    (climb_explained least left ts).of_gives h
  refine ⟨read, links, split, derived, ?_⟩
  intro v mem more
  rw [left] at mem
  cases mem
  obtain ⟨taken, dropped, split', looser, given⟩ :=
    derived.climbs (readsPrimaries read.length) least ends apart _ more
  rw [loose_eq_nil binds] at looser
  rw [tight_eq_self binds, looser.eq_nil, ← tree] at given
  exact given

/-! ## Where an error is found -/

theorem exists_cons_append (ts : List Token) (h : t ∈ us.head?) (more : List Token) :
    ∃ u others, ts ++ t :: more = u :: others ∧ u ∈ (ts ++ us).head? := by
  cases ts with
  | nil => exact ⟨t, more, rfl, h⟩
  | cons u ts => exact ⟨u, _, rfl, rfl⟩

def Begins (D : List Token → Prop) (ts : List Token) : Prop := ∃ more, D (ts ++ more)

theorem Begins.of_append {D : List Token → Prop} (h : Begins D (ts ++ us)) : Begins D ts := by
  obtain ⟨more, derived⟩ := h
  rw [List.append_assoc] at derived
  exact ⟨us ++ more, derived⟩

/-- Reading `ts` fails with `e` at the first of `rest`. What was read begins a `D`, and with the token
that `e` shows behind it reading fails whatever follows. -/
inductive Fault (D : List Token → Prop) (Fails : List Token → List Token → Prop) (e : SyntaxError) :
    List Token → List Token → Prop
  | mk {read more : List Token} {u : Token} (shows : e.Shows u) (begins : Begins D read)
    (always : ∀ more, Fails (read ++ u :: more) (u :: more)) :
    Fault D Fails e (read ++ u :: more) (u :: more)

section
variable {D D' : List Token → Prop} {Fails Fails' : List Token → List Token → Prop}

theorem Fault.here (shown : e.Shows t) (begins : Begins D [])
    (always : ∀ more, Fails (t :: more) (t :: more)) : Fault D Fails e (t :: us) (t :: us) :=
  @Fault.mk D Fails e [] us t shown begins always

theorem Fault.rest_eq (h : Fault D Fails e ts rest) : ∃ u more, rest = u :: more := by
  cases h
  exact ⟨_, _, rfl⟩

theorem Fault.behind (h : Fault D Fails e us rest) (read : List Token)
    (begins : ∀ ts, D ts → Begins D' (read ++ ts))
    (always : ∀ v ∈ us.head?, ∀ more rest, Fails (v :: more) rest → Fails' (read ++ v :: more) rest) :
    Fault D' Fails' e (read ++ us) rest := by
  obtain @⟨inside, more, u, shown, ⟨others, derived⟩, fails⟩ := h
  rw [← List.append_assoc]
  refine .mk shown ?_ ?_
  · have whole := begins _ derived
    rw [← List.append_assoc] at whole
    exact whole.of_append
  · intro more'
    have head : u ∈ (u :: more).head? := rfl
    obtain ⟨v, others', eq, mem⟩ := exists_cons_append inside head more'
    have here := fails more'
    rw [eq] at here
    rw [List.append_assoc, eq]
    exact always v mem others' _ here

end

/-! ## Expressions go wrong as soon as they can -/

def PrimaryTokens (ts : List Token) : Prop := ∃ e, IsPrimary ts e

def ChainTokens (ts : List Token) : Prop := ∃ first links, IsChain ts first links

def LinkTokens (ts : List Token) : Prop := ∃ links, IsLinks ts links

def ArgumentTokens (ts : List Token) : Prop := ∃ args, IsArguments ts args

theorem PrimaryTokens.chain (h : PrimaryTokens ts) : ChainTokens ts := by
  obtain ⟨first, operand⟩ := h
  rw [← List.append_nil ts]
  exact ⟨first, [], .mk operand .nil⟩

theorem begins_primary : Begins PrimaryTokens [] :=
  ⟨[⟨.number 0, .start⟩], _, .number rfl⟩

def closing : Token := ⟨.punctuator ")", .start⟩

theorem isPunctuator_closing : closing.isPunctuator ")" = true := rfl

mutual

theorem expression_fault (ts : List Token) {e : SyntaxError} {rest : List Token}
    (h : (expression ts).GoesWrong e rest) :
    Fault ChainTokens (fun ts rest => (expression ts).GoesWrong e rest) e ts rest := by
  rcases expression_goesWrong.mp h with wrong | ⟨left, mid, given, wrong⟩
  · apply (primary_fault ts wrong).behind []
    · intro ts primary
      exact ⟨[], by simpa using primary.chain⟩
    · intro v _ more rest fails
      exact expression_goesWrong.mpr (.inl fails)
  · have shorter := given.length_lt
    obtain ⟨read, split, derived, again⟩ := primary_again given
    rw [split]
    apply (climb_fault 0 left mid wrong).behind read
    · intro ts links
      obtain ⟨links, more⟩ := links
      exact ⟨[], left, links, by simpa using IsChain.mk derived more⟩
    · intro v mem more rest fails
      exact expression_goesWrong.mpr (.inr ⟨left, _, again v mem more, fails⟩)
termination_by (ts.length, 1)

theorem primary_fault (ts : List Token) {e : SyntaxError} {rest : List Token}
    (h : (primary ts).GoesWrong e rest) :
    Fault PrimaryTokens (fun ts rest => (primary ts).GoesWrong e rest) e ts rest := by
  cases ts with
  | nil =>
    rw [primary] at h
    exact absurd h Parsed.not_goesWrong_cut
  | cons t us =>
    by_cases starts : StartsExpression t
    · rcases starts with ⟨value, kind⟩ | ⟨name, named⟩ | opens
      · exact absurd h (not_primary_goesWrong_number kind)
      · obtain ⟨u, v, behind, rfl, opens, more, wrong⟩ := (primary_goesWrong_name named).mp h
        apply (arguments_fault (v :: behind) wrong).behind [t, u]
        · intro ts args
          obtain ⟨args, inner⟩ := args
          exact ⟨[closing], _, .callWith named opens inner isPunctuator_closing⟩
        · intro w mem more' rest fails
          cases mem
          exact (primary_goesWrong_name named).mpr ⟨u, v, more', rfl, opens, more, fails⟩
      · rcases (primary_goesWrong_group opens).mp h with wrong | ⟨inner, u, behind, given, more, rfl, rfl⟩
        · apply (expression_fault us wrong).behind [t]
          · intro ts chain
            obtain ⟨first, links, chain⟩ := chain
            exact ⟨[closing], _, .group opens chain isPunctuator_closing⟩
          · intro v _ more rest fails
            exact (primary_goesWrong_group opens).mpr (.inl fails)
        · obtain ⟨read, first, links, rfl, chain, again⟩ := expression_again given
          rw [← List.cons_append]
          apply Fault.mk (SyntaxError.shows_expecting _ u)
          · exact ⟨[closing], _, .group opens chain isPunctuator_closing⟩
          · intro more'
            exact (primary_goesWrong_group opens).mpr
              (.inr ⟨inner, u, more', again u rfl more', more, rfl, rfl⟩)
    · obtain ⟨rfl, rfl⟩ := (primary_goesWrong_other starts).mp h
      apply Fault.here (SyntaxError.shows_noExpression t) begins_primary
      intro more
      exact (primary_goesWrong_other starts).mpr ⟨rfl, rfl⟩
termination_by (ts.length, 0)

theorem arguments_fault (ts : List Token) {e : SyntaxError} {rest : List Token}
    (h : (arguments ts).GoesWrong e rest) :
    Fault ArgumentTokens (fun ts rest => (arguments ts).GoesWrong e rest) e ts rest := by
  rcases arguments_goesWrong.mp h with wrong | ⟨arg, u, behind, given, more, wrong⟩
  · apply (expression_fault ts wrong).behind []
    · intro ts chain
      obtain ⟨first, links, chain⟩ := chain
      exact ⟨[], _, by simpa using IsArguments.last chain⟩
    · intro v _ more rest fails
      exact arguments_goesWrong.mpr (.inl fails)
  · have shorter : behind.length < ts.length := Nat.lt_of_succ_lt given.length_lt
    obtain ⟨read, first, links, rfl, chain, again⟩ := expression_again given
    rcases wrong with ⟨comma, wrong⟩ | ⟨other, rfl, rfl⟩
    · rw [List.append_cons]
      apply (arguments_fault behind wrong).behind (read ++ [u])
      · intro ts args
        obtain ⟨args, inner⟩ := args
        exact ⟨[], _, by simpa using IsArguments.cons chain comma inner⟩
      · intro v _ more' rest fails
        rw [← List.append_cons]
        exact arguments_goesWrong.mpr
          (.inr ⟨arg, u, _, again u rfl _, more, .inl ⟨comma, fails⟩⟩)
    · apply Fault.mk (SyntaxError.shows_expecting _ u)
      · exact ⟨[], _, by simpa using IsArguments.last chain⟩
      · intro more'
        exact arguments_goesWrong.mpr
          (.inr ⟨arg, u, more', again u rfl more', more, .inr ⟨other, rfl, rfl⟩⟩)
termination_by (ts.length, 2)

theorem climb_fault (least : Nat) (left : Expr) (ts : List Token) {e : SyntaxError}
    {rest : List Token} (h : (climb least left ts).GoesWrong e rest) :
    Fault LinkTokens (fun ts rest => (climb least left ts).GoesWrong e rest) e ts rest := by
  cases ts with
  | nil =>
    rw [climb] at h
    exact absurd h Parsed.not_goesWrong_cut
  | cons t us =>
    obtain ⟨op, sign, binds, wrong | ⟨right, mid, given, wrong⟩⟩ := climb_goesWrong.mp h
    · apply (primary_fault us wrong).behind [t]
      · intro ts operand
        obtain ⟨right, operand⟩ := operand
        exact ⟨[], [⟨op, right⟩], by simpa using IsLinks.cons (l := ⟨op, right⟩) sign operand .nil⟩
      · intro v _ more rest fails
        exact climb_goesWrong.mpr ⟨op, sign, binds, .inl fails⟩
    · have shorter := given.length_lt
      obtain ⟨read, rfl, operand, again⟩ := primary_again given
      rcases wrong with wrong | ⟨right', mid', given', wrong⟩
      · rw [← List.cons_append]
        apply (climb_fault (op.precedence + 1) right mid wrong).behind (t :: read)
        · intro ts links
          obtain ⟨links, more⟩ := links
          exact ⟨[], _, by simpa using IsLinks.cons (l := ⟨op, right⟩) sign operand more⟩
        · intro v mem more rest fails
          exact climb_goesWrong.mpr ⟨op, sign, binds, .inr ⟨right, _, again v mem more, .inl fails⟩⟩
      · have shorter' := given'.length_lt
        obtain ⟨read', links, rfl, derived, again'⟩ := climb_again given'
        rw [← List.append_assoc, ← List.cons_append]
        apply (climb_fault least (.binary op left right') mid' wrong).behind (t :: (read ++ read'))
        · intro ts more
          obtain ⟨links', more⟩ := more
          have whole := IsLinks.cons (l := ⟨op, right⟩) sign operand (derived.append more)
          exact ⟨[], _, by simpa using whole⟩
        · intro v mem more rest fails
          -- what follows the operand starts as before: with a token of `read'`, or with `v`
          obtain ⟨w, others, eq, first⟩ := exists_cons_append read' mem more
          have operand' := again w first others
          have inner := again' v mem more
          rw [eq] at inner
          rw [List.cons_append, List.append_assoc, eq]
          exact climb_goesWrong.mpr
            ⟨op, sign, binds, .inr ⟨right, _, operand', .inr ⟨right', _, inner, fails⟩⟩⟩
termination_by (ts.length, 0)

end

end Grammar

end Kaleidoscope
