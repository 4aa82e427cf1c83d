import Kaleidoscope.Proofs.Grammar.Derivation

/-!
# The sentences of the grammar

A sentence is a list of forms and semicolons with the end of the input behind it. The grammar is
ambiguous in one place: a name may end a form that has a group behind it, or be called with it. A
greedy derivation always calls, and every sentence has one.
-/

namespace Kaleidoscope.Grammar

inductive IsPrototype : List Token → Prototype → Prop
  | mk {t u v : Token} {name : Name} {params : List Token} {names : List Name}
    (named : t.name? = some name) (opens : u.isPunctuator "(" = true)
    (spelled : params.map Token.name? = names.map some) (closes : v.isPunctuator ")" = true) :
    IsPrototype (t :: u :: (params ++ [v])) ⟨name.spelling, names.map Name.spelling⟩

inductive Form
  | definition (proto : Prototype) (body : Expr)
  | external (proto : Prototype)
  | expression (body : Expr)

def Form.item : Form → Item
  | definition proto body => .function ⟨proto, body⟩
  | external proto => .external proto
  | expression body => .function ⟨.anonymous, body⟩

inductive IsForm : List Token → Form → Prop
  | definition {t : Token} {ps ts : List Token} {proto : Prototype} {first : Expr}
    {links : List Link} (word : t.isKeyword .definition = true) (head : IsPrototype ps proto)
    (body : IsChain ts first links) :
    IsForm (t :: (ps ++ ts)) (.definition proto (conventional first links))
  | external {t : Token} {ps : List Token} {proto : Prototype}
    (word : t.isKeyword .external = true) (head : IsPrototype ps proto) :
    IsForm (t :: ps) (.external proto)
  | expression {ts : List Token} {first : Expr} {links : List Link} (body : IsChain ts first links) :
    IsForm ts (.expression (conventional first links))

/-- The forms of a sentence. If it is derived greedily, no form ends with a name that has an opening
parenthesis behind it. -/
inductive Sentence (greedy : Bool) : List Token → List Form → Prop
  | finish {t : Token} (ends : t.isEnd = true) : Sentence greedy [t] []
  | semicolon {t : Token} {ts : List Token} {forms : List Form} (mark : t.isPunctuator ";" = true)
    (more : Sentence greedy ts forms) : Sentence greedy (t :: ts) forms
  | form {read ts : List Token} {form : Form} {forms : List Form} (head : IsForm read form)
    (apart : greedy = true → ∀ u ∈ ts.head?, ¬ OpensCall read u)
    (more : Sentence greedy ts forms) : Sentence greedy (read ++ ts) (form :: forms)

def Derivable (ts : List Token) : Prop := ∃ forms, Sentence false ts forms

variable {ts us read : List Token} {t u v : Token} {e e' first first' : Expr}
  {links links' : List Link} {proto : Prototype} {form : Form} {forms : List Form} {greedy : Bool}

/-! ## How forms start and end -/

theorem IsPrototype.not_opensCall (h : IsPrototype ts proto) (us : List Token) :
    ¬ OpensCall (us ++ ts) u := by
  cases h with
  | @mk t u v name params names named opens spelled closes =>
    rw [← List.cons_append, ← List.cons_append, ← List.append_assoc]
    exact not_opensCall_of_last _ (Token.name?_of_isPunctuator closes)

theorem IsForm.starts (h : IsForm ts form) :
    ∃ t us, ts = t :: us ∧ (StartsExpression t ∨ ∃ k, t.isKeyword k = true) := by
  cases h with
  | definition word => exact ⟨_, _, rfl, .inr ⟨_, word⟩⟩
  | external word => exact ⟨_, _, rfl, .inr ⟨_, word⟩⟩
  | expression body =>
    obtain ⟨t, us, rfl, starts⟩ := body.starts
    exact ⟨t, us, rfl, .inl starts⟩

theorem IsForm.starts_outside (h : IsForm (t :: ts) form) :
    t.isEnd = false ∧ t.isPunctuator ";" = false ∧ t.operator? = none := by
  obtain ⟨t', us, eq, starts | ⟨k, word⟩⟩ := h.starts
  · cases eq
    exact ⟨starts.isEnd_eq_false, starts.isPunctuator_eq_false (by decide), starts.operator?_eq_none⟩
  · cases eq
    exact ⟨Token.isEnd_of_isKeyword word, Token.isPunctuator_of_isKeyword word ";",
      Token.operator?_of_isKeyword word⟩

theorem Sentence.starts (h : Sentence greedy ts forms) : ∃ t us, ts = t :: us ∧ t.operator? = none := by
  cases h with
  | finish ends => exact ⟨_, _, rfl, Token.operator?_of_isEnd ends⟩
  | semicolon mark => exact ⟨_, _, rfl, Token.operator?_of_isPunctuator mark⟩
  | form head =>
    obtain ⟨t, us, rfl, -⟩ := head.starts
    exact ⟨t, _, List.cons_append, head.starts_outside.2.2⟩

/-! ## Greedy derivations -/

theorem IsPrimary.group_of_opens (h : IsPrimary (u :: us) e) (opens : u.isPunctuator "(" = true) :
    ∃ inner v first links, us = inner ++ [v] ∧ IsChain inner first links ∧
      v.isPunctuator ")" = true := by
  have kind := Token.isPunctuator_iff.mp opens
  have nameless := Token.name?_of_isPunctuator opens
  cases h with
  | number number =>
    rw [kind] at number
    cases number
  | var named =>
    rw [nameless] at named
    cases named
  | call named =>
    rw [nameless] at named
    cases named
  | callWith named =>
    rw [nameless] at named
    cases named
  | group _ inner closes => exact ⟨_, _, _, _, rfl, inner, closes⟩

theorem IsPrimary.merge (h : IsPrimary ts e) (opens : OpensCall ts u) (group : IsPrimary (u :: us) e') :
    ∃ call, IsPrimary (ts ++ u :: us) call := by
  rcases h.ends with ⟨t, name, rfl, named⟩ | ⟨before, t, rfl, nameless⟩
  · obtain ⟨inner, v, first, links, rfl, chain, closes⟩ := group.group_of_opens opens.2
    exact ⟨_, .callWith named opens.2 (.last chain) closes⟩
  · exact absurd opens (not_opensCall_of_last before nameless)

theorem IsLinks.merge {ts : List Token} {links : List Link} (h : IsLinks ts links)
    (opens : OpensCall ts u) (group : IsPrimary (u :: us) e') :
    ∃ links', IsLinks (ts ++ u :: us) links' := by
  match h with
  | .nil => exact absurd opens (not_opensCall_nil u)
  | @IsLinks.cons t inside behind l links sign operand more =>
    rw [List.cons_append, List.append_assoc]
    cases behind with
    | nil =>
      rw [List.append_nil] at opens
      obtain ⟨t', rest, rfl, -⟩ := operand.starts
      obtain ⟨call, derived⟩ := operand.merge (opens.of_append [t] (List.cons_ne_nil _ _)) group
      refine ⟨⟨l.op, call⟩ :: [], ?_⟩
      rw [List.nil_append, ← List.append_nil (_ ++ _)]
      exact .cons sign derived .nil
    | cons w behind =>
      have opens' : OpensCall (w :: behind) u := opens.of_append (t :: inside) (List.cons_ne_nil _ _)
      obtain ⟨links', merged⟩ := more.merge opens' group
      exact ⟨l :: links', .cons sign operand merged⟩

/-- A chain that ends with a name goes on with a chain that starts with a group. -/
theorem IsChain.merge (h : IsChain ts first links) (opens : OpensCall ts u)
    (h' : IsChain (u :: us) first' links') :
    ∃ first links, IsChain (ts ++ u :: us) first links := by
  obtain ⟨inside, behind, rfl, operand, more⟩ := h.split
  obtain ⟨start, others, split, group, more'⟩ := h'.split
  obtain ⟨v, rest, rfl, -⟩ := group.starts
  obtain rfl : u = v := (List.cons.inj split).1
  rw [split, ← List.append_assoc]
  by_cases alone : behind = []
  · subst alone
    rw [List.append_nil] at opens ⊢
    obtain ⟨call, derived⟩ := operand.merge opens group
    exact ⟨call, links', .mk derived more'⟩
  · obtain ⟨merged, derived⟩ := more.merge (opens.of_append inside alone) group
    rw [List.append_assoc inside, List.append_assoc inside]
    exact ⟨first, merged ++ links', .mk operand (derived.append more')⟩

/-- A form that ends with a name goes on with an expression that starts with a group. -/
theorem IsForm.merge {form' : Form} (h : IsForm ts form) (opens : OpensCall ts u)
    (h' : IsForm (u :: us) form') : ∃ form, IsForm (ts ++ u :: us) form := by
  have wordless (k : Keyword) : u.isKeyword k = false :=
    StartsExpression.isKeyword_eq_false (.inr (.inr opens.2)) k
  cases h' with
  | definition word => exact absurd word (by simp [wordless])
  | external word => exact absurd word (by simp [wordless])
  | expression body' =>
    cases h with
    | external word head => exact absurd opens (head.not_opensCall [_])
    | expression body =>
      obtain ⟨first, links, chain⟩ := body.merge opens body'
      exact ⟨_, .expression chain⟩
    | @definition t ps inside proto first links word head body =>
      have some : inside ≠ [] := by
        obtain ⟨v, rest, rfl, -⟩ := body.starts
        exact List.cons_ne_nil v rest
      have inner : OpensCall inside u := OpensCall.of_append (t :: ps) opens some
      obtain ⟨first, links, chain⟩ := body.merge inner body'
      rw [List.cons_append, List.append_assoc]
      exact ⟨_, .definition word head chain⟩

theorem Sentence.relax (h : Sentence greedy ts forms) : Sentence false ts forms := by
  induction h with
  | finish ends => exact .finish ends
  | semicolon mark _ ih => exact .semicolon mark ih
  | form head _ _ ih => exact .form head nofun ih

theorem Sentence.exists_greedy (h : Sentence greedy ts forms) : ∃ forms, Sentence true ts forms := by
  induction h with
  | finish ends => exact ⟨[], .finish ends⟩
  | semicolon mark _ ih =>
    obtain ⟨forms, more⟩ := ih
    exact ⟨forms, .semicolon mark more⟩
  | @form read ts form _ head _ _ ih =>
    obtain ⟨forms, more⟩ := ih
    by_cases apart : ∀ u ∈ ts.head?, ¬ OpensCall read u
    · exact ⟨form :: forms, .form head (fun _ => apart) more⟩
    · obtain ⟨u, others, rfl, -⟩ := more.starts
      have opens : OpensCall read u := by simpa using apart
      generalize whole : u :: others = behind at more
      cases more with
      | finish ends =>
        cases whole
        exact absurd ends (by simp [Token.isEnd_of_isPunctuator opens.2])
      | semicolon mark =>
        cases whole
        exact absurd opens (not_opensCall_of_isPunctuator mark (by decide))
      | @form read' ts' form' _ head' apart' more' =>
        obtain ⟨v, rest, rfl, -⟩ := head'.starts
        obtain rfl : u = v := (List.cons.inj whole).1
        obtain ⟨merged, derived⟩ := head.merge opens head'
        rw [← List.append_assoc]
        -- The merged form ends as the second one does, and that one is apart from what follows.
        refine ⟨_, .form derived ?_ more'⟩
        intro _ w mem opens'
        exact apart' rfl w mem (opens'.of_append read (List.cons_ne_nil _ _))

end Kaleidoscope.Grammar
