import Kaleidoscope.Proofs.Grammar.Fault
import Kaleidoscope.Proofs.Grammar.Program
import Mathlib.Data.List.Forall2

/-!
# The errors of a program

A program's first error is found at the first token with which what was read can no longer become a
sentence. The other errors are those of what stands behind that token, read as a program of its own.
-/

namespace Kaleidoscope

namespace Grammar

variable {ts us read rest : List Token} {t u v : Token} {e : SyntaxError} {proto : Prototype}

/-! ## Prototypes -/

theorem name?_of_head_parameters (ts : List Token) : ∀ t ∈ (parameters ts).2.head?, t.name? = none := by
  induction ts with
  | nil => simp [parameters]
  | cons t ts ih =>
    unfold parameters
    cases named : t.name? with
    | none => simp [named]
    | some name => exact ih

theorem closedParameters_goesWrong : (closedParameters ts).GoesWrong e rest ↔
    ∃ t more, (parameters ts).2 = t :: more ∧ t.isPunctuator ")" = false ∧
      e = .expecting .closeParameters t ∧ rest = t :: more := by
  unfold closedParameters
  split
  · rename_i found _
    simp [found]
  · rename_i t more _ found _
    by_cases closes : t.isPunctuator ")" = true
    · simp [found, closes, and_assoc]
    · simp [found, closes, and_assoc]

def ParameterTokens (ts : List Token) : Prop := ∃ names : List Name, ts.map Token.name? = names.map some

def PrototypeTokens (ts : List Token) : Prop := ∃ proto, IsPrototype ts proto

theorem closedParameters_fault (h : (closedParameters ts).GoesWrong e rest) :
    Fault ParameterTokens (fun ts rest => (closedParameters ts).GoesWrong e rest) e ts rest := by
  obtain ⟨t, more, found, open_, rfl, rfl⟩ := closedParameters_goesWrong.mp h
  obtain ⟨inner, names, split, spelled, -⟩ := parameters_split ts
  have nameless : t.name? = none := name?_of_head_parameters ts t (by rw [found]; rfl)
  rw [split, found]
  apply Fault.mk (SyntaxError.shows_expecting _ t)
  · exact ⟨[], names, by simpa using spelled⟩
  · intro more'
    have again := parameters_append spelled nameless more'
    exact closedParameters_goesWrong.mpr ⟨t, more', by rw [again], open_, rfl, rfl⟩

def aName : Token := ⟨.identifier ⟨"f", 0⟩, .start⟩

def opening : Token := ⟨.punctuator "(", .start⟩

theorem begins_prototype : Begins PrototypeTokens [] := by
  have named : aName.name? = some ⟨"f", 0⟩ := rfl
  have opens : opening.isPunctuator "(" = true := rfl
  exact ⟨_, _, @IsPrototype.mk aName opening closing _ [] [] named opens rfl isPunctuator_closing⟩

theorem prototype_fault (h : (prototype ts).GoesWrong e rest) :
    Fault PrototypeTokens (fun ts rest => (prototype ts).GoesWrong e rest) e ts rest := by
  cases ts with
  | nil => simp [prototype] at h
  | cons t us =>
    cases named : t.name? with
    | none =>
      simp only [prototype, named, Parsed.goesWrong_refuse] at h
      obtain ⟨rfl, rfl⟩ := h
      apply Fault.here (SyntaxError.shows_expecting _ t) begins_prototype
      simp [prototype, named]
    | some name =>
      cases us with
      | nil => simp [prototype, named] at h
      | cons u inner =>
        by_cases opens : u.isPunctuator "(" = true
        · simp only [prototype, named, if_pos opens, Parsed.goesWrong_behind,
            Parsed.goesWrong_map] at h
          apply (closedParameters_fault h).behind [t, u]
          · intro ts params
            obtain ⟨names, spelled⟩ := params
            exact ⟨[closing], _, .mk named opens spelled isPunctuator_closing⟩
          · intro v _ more rest fails
            simpa [prototype, named, opens] using fails
        · simp only [prototype, named, if_neg opens, Parsed.goesWrong_behind,
            Parsed.goesWrong_refuse] at h
          obtain ⟨rfl, rfl⟩ := h
          apply @Fault.mk _ _ _ [t] inner u (SyntaxError.shows_expecting _ u)
          · exact ⟨[opening, closing], _, @IsPrototype.mk t opening closing name [] [] named rfl rfl rfl⟩
          · simp [prototype, named, opens]

/-! ## Forms -/

theorem form_definition (word : t.isKeyword .definition = true) (us : List Token) :
    form (t :: us) = ((definition us).map .function).behind t := by
  unfold form
  simp [word]

theorem form_external (word : t.isKeyword .external = true) (us : List Token) :
    form (t :: us) = ((prototype us).map .external).behind t := by
  have other : t.isKeyword .definition = false := by
    rw [Bool.eq_false_iff, Ne, Token.isKeyword_iff, Token.isKeyword_iff.mp word]
    simp
  unfold form
  simp [word, other]

theorem form_expression (wordless : ∀ k, t.isKeyword k = false) (us : List Token) :
    form (t :: us) = (expression (t :: us)).map fun body => .function ⟨.anonymous, body⟩ := by
  unfold form
  simp [wordless]

theorem keyword_cases (t : Token) : t.isKeyword .definition = true ∨ t.isKeyword .external = true ∨
    ∀ k, t.isKeyword k = false := by
  by_cases word : t.isKeyword .definition = true
  · exact .inl word
  · by_cases word' : t.isKeyword .external = true
    · exact .inr (.inl word')
    · refine .inr (.inr ?_)
      intro k
      cases k with
      | definition => simpa using word
      | external => simpa using word'

def FormTokens (ts : List Token) : Prop := ∃ form, IsForm ts form

def DefinitionTokens (ts : List Token) : Prop :=
  ∃ ps bs proto first links, ts = ps ++ bs ∧ IsPrototype ps proto ∧ IsChain bs first links

theorem definition_fault (h : (definition ts).GoesWrong e rest) :
    Fault DefinitionTokens (fun ts rest => (definition ts).GoesWrong e rest) e ts rest := by
  unfold definition at h
  rcases Parsed.goesWrong_andThen.mp h with wrong | ⟨proto, mid, given, wrong⟩
  · apply (prototype_fault wrong).behind []
    · intro ts head
      obtain ⟨proto, head⟩ := head
      obtain ⟨bs, operand⟩ := begins_primary
      obtain ⟨first, links, body⟩ := operand.chain
      exact ⟨bs, ts, bs, proto, first, links, rfl, head, body⟩
    · intro v _ more rest fails
      unfold definition
      exact Parsed.goesWrong_andThen.mpr (.inl fails)
  · rw [Parsed.goesWrong_map] at wrong
    obtain ⟨ps, rfl, head⟩ := (prototype_explained ts).of_gives given
    apply (expression_fault mid wrong).behind ps
    · intro ts body
      obtain ⟨first, links, body⟩ := body
      exact ⟨[], ps, ts, proto, first, links, by simp, head, body⟩
    · intro v _ more rest fails
      unfold definition
      exact Parsed.goesWrong_andThen.mpr (.inr ⟨proto, _, IsPrototype.gives head _, by simpa using fails⟩)

theorem form_fault (h : (form ts).GoesWrong e rest) :
    Fault FormTokens (fun ts rest => (form ts).GoesWrong e rest) e ts rest := by
  cases ts with
  | nil => simp [form] at h
  | cons t us =>
    rcases keyword_cases t with word | word | wordless
    · rw [form_definition word, Parsed.goesWrong_behind, Parsed.goesWrong_map] at h
      apply (definition_fault h).behind [t]
      · intro ts inner
        obtain ⟨ps, bs, proto, first, links, rfl, head, body⟩ := inner
        exact ⟨[], _, by simpa using IsForm.definition word head body⟩
      · intro v _ more rest fails
        rw [List.singleton_append, form_definition word]
        simpa using fails
    · rw [form_external word, Parsed.goesWrong_behind, Parsed.goesWrong_map] at h
      apply (prototype_fault h).behind [t]
      · intro ts inner
        obtain ⟨proto, head⟩ := inner
        exact ⟨[], _, by simpa using IsForm.external word head⟩
      · intro v _ more rest fails
        rw [List.singleton_append, form_external word]
        simpa using fails
    · rw [form_expression wordless, Parsed.goesWrong_map] at h
      apply (expression_fault _ h).behind []
      · intro ts inner
        obtain ⟨first, links, body⟩ := inner
        exact ⟨[], _, by simpa using IsForm.expression body⟩
      · intro v mem more rest fails
        cases mem
        rw [List.nil_append, form_expression wordless]
        simpa using fails

theorem form_again {item : Item} (h : (form ts).Gives item rest) :
    ∃ read form, ts = read ++ rest ∧ IsForm read form ∧
      ∀ v ∈ rest.head?, ∀ more, (Grammar.form (read ++ v :: more)).Gives item (v :: more) := by
  cases ts with
  | nil => simp [form] at h
  | cons t us =>
    rcases keyword_cases t with word | word | wordless
    · rw [form_definition word, Parsed.gives_behind, Parsed.gives_map] at h
      obtain ⟨f, given, rfl⟩ := h
      unfold definition at given
      obtain ⟨proto, mid, first, given⟩ := Parsed.gives_andThen.mp given
      obtain ⟨body, second, rfl⟩ := Parsed.gives_map.mp given
      obtain ⟨ps, rfl, head⟩ := (prototype_explained us).of_gives first
      obtain ⟨bs, first, links, rfl, chain, again⟩ := expression_again second
      refine ⟨t :: (ps ++ bs), _, by simp, .definition word head chain, ?_⟩
      intro v mem more
      rw [List.cons_append, List.append_assoc, form_definition word, Parsed.gives_behind,
        Parsed.gives_map]
      refine ⟨_, ?_, rfl⟩
      unfold definition
      exact (IsPrototype.gives head _).andThen ((again v mem more).map _)
    · rw [form_external word, Parsed.gives_behind, Parsed.gives_map] at h
      obtain ⟨proto, given, rfl⟩ := h
      obtain ⟨ps, rfl, head⟩ := (prototype_explained us).of_gives given
      refine ⟨t :: ps, _, rfl, .external word head, ?_⟩
      intro v _ more
      rw [List.cons_append, form_external word]
      exact ((IsPrototype.gives head _).map _).behind
    · rw [form_expression wordless, Parsed.gives_map] at h
      obtain ⟨body, given, rfl⟩ := h
      obtain ⟨bs, first, links, split, chain, again⟩ := expression_again given
      refine ⟨bs, _, split, .expression chain, ?_⟩
      intro v mem more
      obtain ⟨t', others, rfl, -⟩ := chain.starts
      obtain rfl : t = t' := (List.cons.inj split).1
      rw [List.cons_append, form_expression wordless]
      exact (again v mem more).map _

/-! ## Programs -/

theorem program_of_isEnd (ends : t.isEnd = true) (us : List Token) :
    program (t :: us) = ⟨[], [], true⟩ := by
  rw [program]
  simp [ends]

theorem program_of_gives {item : Item} (notEnd : t.isEnd = false)
    (notMark : t.isPunctuator ";" = false) (h : (form (t :: us)).Gives item rest) :
    program (t :: us) = (program rest).withItem item := by
  obtain ⟨shorter, eq⟩ := h
  rw [program]
  simp [notEnd, notMark, eq]

theorem program_of_goesWrong (notEnd : t.isEnd = false) (notMark : t.isPunctuator ";" = false)
    (h : (form (t :: us)).GoesWrong e (u :: rest)) :
    program (t :: us) = if u.isEnd then ⟨[], [e], true⟩ else (program rest).withError e := by
  obtain ⟨noLonger, eq⟩ := h
  rw [program]
  by_cases ends : u.isEnd = true <;> simp [notEnd, notMark, eq, ends]

theorem program_of_cut (notEnd : t.isEnd = false) (notMark : t.isPunctuator ";" = false)
    (h : form (t :: us) = .cut) : program (t :: us) = ⟨[], [], false⟩ := by
  rw [program]
  simp [notEnd, notMark, h]

theorem program_of_semicolon (mark : t.isPunctuator ";" = true) (us : List Token) :
    program (t :: us) = program us := by
  rw [program]
  simp [Token.isEnd_of_isPunctuator mark, mark]

/-- The first error of a program is `e`, and reading starts again behind the first of `rest`. -/
def StartsAgain (e : SyntaxError) (ts rest : List Token) : Prop :=
  ∃ u more, rest = u :: more ∧
    (program ts).diagnostics = e :: if u.isEnd then [] else (program more).diagnostics

/-- A form that goes wrong makes the first error of the program that starts with it. -/
theorem starts_again (h : (form (t :: us)).GoesWrong e rest) (notEnd : t.isEnd = false)
    (notMark : t.isPunctuator ";" = false) : Fault Derivable (StartsAgain e) e (t :: us) rest := by
  have ends : Token.isEnd ⟨.endOfInput, .start⟩ = true := rfl
  apply (form_fault h).behind []
  · intro ts head
    obtain ⟨form, head⟩ := head
    have whole : Sentence false (ts ++ [⟨.endOfInput, .start⟩]) [form] := .form head nofun (.finish ends)
    exact ⟨_, _, whole⟩
  · intro v mem more rest fails
    cases mem
    obtain ⟨u, more', rfl⟩ := (form_fault fails).rest_eq
    refine ⟨u, more', rfl, ?_⟩
    rw [List.nil_append, program_of_goesWrong notEnd notMark fails]
    cases u.isEnd <;> rfl

theorem program_fault (closed : Closed ts) (wrong : (program ts).diagnostics ≠ []) :
    ∃ e rest, Fault Derivable (StartsAgain e) e ts rest := by
  fun_induction program ts with
  | case1 => exact absurd closed id
  | case2 => exact absurd rfl wrong
  | case3 t us notEnd mark ih =>
    simp only [Closed, notEnd] at closed
    obtain ⟨e, rest, fault⟩ := ih closed wrong
    refine ⟨e, rest, fault.behind [t] ?_ ?_⟩
    · intro ts more
      obtain ⟨forms, more⟩ := more
      exact ⟨[], forms, by simpa using Sentence.semicolon mark more⟩
    · intro v _ more rest again
      unfold StartsAgain
      rwa [List.singleton_append, program_of_semicolon mark]
  -- the form is read again, whatever stands behind it
  | case4 t us notEnd notMark item behind shorter found ih =>
    rw [Bool.not_eq_true] at notEnd notMark
    obtain ⟨read, form, split, head, again⟩ := form_again ⟨shorter, found⟩
    rw [split] at closed ⊢
    obtain ⟨e, rest, fault⟩ := ih (closed.behind head.noEnd) wrong
    refine ⟨e, rest, fault.behind read ?_ ?_⟩
    · intro ts more
      obtain ⟨forms, more⟩ := more
      have whole : Sentence false (read ++ ts) (form :: forms) :=
        .form head (fun greedy => absurd greedy Bool.false_ne_true) more
      exact ⟨[], _, by simpa using whole⟩
    · intro v mem more rest fails
      have given := again v mem more
      obtain ⟨t', others, rfl, -⟩ := head.starts
      obtain rfl : t = t' := (List.cons.inj split).1
      unfold StartsAgain
      rw [List.cons_append] at given ⊢
      rw [program_of_gives notEnd notMark given]
      exact fails
  | case5 t us notEnd notMark e noLonger found =>
    exact ⟨e, _, starts_again ⟨_, found⟩ (by simpa using notEnd) (by simpa using notMark)⟩
  | case6 t us notEnd notMark e u more noLonger found =>
    exact ⟨e, _, starts_again ⟨_, found⟩ (by simpa using notEnd) (by simpa using notMark)⟩
  | case7 t us notEnd notMark e u more noLonger found =>
    exact ⟨e, _, starts_again ⟨_, found⟩ (by simpa using notEnd) (by simpa using notMark)⟩
  -- tokens that are closed cannot run out
  | case8 t us notEnd notMark found =>
    have missing := form_explained (t :: us)
    rw [found] at missing
    exact absurd missing closed.not_noEnd

theorem not_begins_of_startsAgain (always : ∀ more, StartsAgain e (read ++ u :: more) (u :: more)) :
    ¬ Begins Derivable (read ++ [u]) := by
  intro begins
  obtain ⟨more, forms, sentence⟩ := begins
  obtain ⟨forms', greedy⟩ := sentence.exists_greedy
  obtain ⟨v, rest, -, first⟩ := always more
  rw [List.append_assoc, List.singleton_append] at greedy
  rw [greedy.reads] at first
  cases first

/-- The first error shows the first token with which no sentence can begin, and the other errors are
those of what is behind that token. -/
theorem program_first (closed : Closed ts) (not : ¬ Derivable ts) :
    ∃ read u more e, ts = read ++ u :: more ∧ Begins Derivable read ∧
      ¬ Begins Derivable (read ++ [u]) ∧ e.Shows u ∧
      (program ts).diagnostics = e :: if u.isEnd then [] else (program more).diagnostics := by
  have wrong : (program ts).diagnostics ≠ [] := mt (program_clean_iff closed).mp not
  obtain ⟨e, rest, fault⟩ := program_fault closed wrong
  obtain @⟨read, more, u, shown, begins, always⟩ := fault
  obtain ⟨v, more', same, first⟩ := always more
  cases same
  exact ⟨read, u, more, e, rfl, begins, not_begins_of_startsAgain always, shown, first⟩

/-- Each error shows a token of its own, in the order of the tokens. -/
theorem program_shows (closed : Closed ts) :
    ∃ shown, shown.Sublist ts ∧ List.Forall₂ SyntaxError.Shows (program ts).diagnostics shown := by
  -- on the number of tokens: the other errors are those of what is behind the first one shown
  induction length : ts.length using Nat.strong_induction_on generalizing ts with
  | _ n ih =>
  subst length
  by_cases derivable : Derivable ts
  · rw [(program_clean_iff closed).mpr derivable]
    exact ⟨[], List.nil_sublist ts, .nil⟩
  · obtain ⟨read, u, more, e, rfl, -, -, shown, first⟩ := program_first closed derivable
    rw [first]
    by_cases ends : u.isEnd = true
    · rw [if_pos ends]
      exact ⟨[u], by simp, .cons shown .nil⟩
    · rw [if_neg ends]
      have behind : Closed (u :: more) := closed.behind closed.noEnd_of_append
      simp only [Closed, ends] at behind
      have shorter : more.length < (read ++ u :: more).length := by simp; omega
      obtain ⟨others, later, rest⟩ := ih more.length shorter behind rfl
      refine ⟨u :: others, ?_, .cons shown rest⟩
      exact (later.cons_cons u).trans (List.sublist_append_right read _)

/-! ## Tokens without an end -/

theorem suffix_of_fault {D : List Token → Prop} {Fails : List Token → List Token → Prop}
    (h : Fault D Fails e ts rest) : rest <:+ ts := by
  obtain ⟨-, -, -⟩ := h
  exact List.suffix_append _ _

theorem NoEnd.suffix (h : NoEnd ts) (behind : rest <:+ ts) : NoEnd rest :=
  fun t mem => h t (behind.mem mem)

/-- No program ends before the end of the input. -/
theorem program_incomplete (h : NoEnd ts) : (program ts).complete = false := by
  fun_induction program ts with
  | case1 => rfl
  | case2 t rest ends => exact absurd (h t List.mem_cons_self) (by simp [ends])
  | case3 t rest _ _ ih => exact ih (h.suffix (List.suffix_cons t rest))
  | case4 t rest _ _ item behind shorter found ih =>
    obtain ⟨read, form, split, -, -⟩ := form_again ⟨shorter, found⟩
    exact ih (h.suffix ⟨read, split.symm⟩)
  | case5 => rfl
  -- an error at the end of the input would show it
  | case6 t rest _ _ e u more noLonger found ends =>
    have behind := suffix_of_fault (form_fault ⟨noLonger, found⟩)
    exact absurd (h.suffix behind u List.mem_cons_self) (by simp [ends])
  | case7 t rest _ _ e u more noLonger found _ ih =>
    have behind := suffix_of_fault (form_fault ⟨noLonger, found⟩)
    exact ih (h.suffix ((List.suffix_cons u more).trans behind))
  | case8 => rfl

end Grammar

end Kaleidoscope
