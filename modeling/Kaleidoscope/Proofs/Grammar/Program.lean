import Kaleidoscope.Grammar.Form
import Kaleidoscope.Proofs.Grammar.Sentence
import Kaleidoscope.Proofs.Grammar.Soundness

/-!
# Sentences are what is read without errors

A program is read without errors if it is a sentence, and its items are the forms of the greedy
derivation.
-/

namespace Kaleidoscope

theorem Parsed.Gives.andThen {α β : Type} {n : Nat} {p : Parsed α n} {value : α} {value' : β}
    {rest rest' : List Token} (h : p.Gives value rest)
    {next : α → (ts : List Token) → Parsed β ts.length} (h' : (next value rest).Gives value' rest') :
    (p.andThen next).Gives value' rest' := by
  obtain ⟨shorter, rfl⟩ := h
  exact h'.weaken (Nat.le_of_lt shorter)

namespace Grammar

variable {ts us read rest : List Token} {t u v : Token} {proto : Prototype} {form : Form}
  {forms : List Form}

/-! ## Whatever is derived is read -/

theorem parameters_append {params : List Token} {names : List Name}
    (spelled : params.map Token.name? = names.map some) (nameless : v.name? = none)
    (rest : List Token) : parameters (params ++ v :: rest) = (names.map Name.spelling, v :: rest) := by
  induction params generalizing names with
  | nil =>
    cases names with
    | nil => simp [parameters, nameless]
    | cons name names => simp at spelled
  | cons t params ih =>
    cases names with
    | nil => simp at spelled
    | cons name names =>
      simp only [List.map_cons, List.cons.injEq] at spelled
      simp [parameters, spelled.1, ih spelled.2]

theorem closedParameters_gives {params : List Token} {names : List Name}
    (spelled : params.map Token.name? = names.map some) (closes : v.isPunctuator ")" = true)
    (rest : List Token) :
    (closedParameters (params ++ v :: rest)).Gives (names.map Name.spelling) rest := by
  have read := parameters_append spelled (Token.name?_of_isPunctuator closes) rest
  unfold closedParameters
  split
  · rename_i found _
    rw [read] at found
    cases found
  · rename_i w rest' _ found _
    rw [read] at found
    cases found
    rw [if_pos closes, read]
    exact ⟨_, rfl⟩

theorem IsPrototype.gives (h : IsPrototype ts proto) (rest : List Token) :
    (prototype (ts ++ rest)).Gives proto rest := by
  cases h with
  | @mk t u v name params names named opens spelled closes =>
    rw [List.cons_append, List.cons_append, List.append_assoc]
    unfold prototype
    simp only [named, opens]
    exact ((closedParameters_gives spelled closes rest).map _).behind.behind

theorem IsForm.gives (h : IsForm ts form) (ends : u.operator? = none) (apart : ¬ OpensCall ts u)
    (rest : List Token) : (Grammar.form (ts ++ u :: rest)).Gives form.item (u :: rest) := by
  cases h with
  | @definition t ps inside proto first links word head body =>
    have apart' : ¬ OpensCall inside u := mt (·.append_left (t :: ps)) apart
    have chain := body.reads (readsPrimaries inside.length) ends apart' rest
    rw [List.cons_append, List.append_assoc]
    unfold Grammar.form
    simp only [word]
    have both : (Grammar.definition (ps ++ (inside ++ u :: rest))).Gives
        ⟨proto, conventional first links⟩ (u :: rest) :=
      (head.gives (inside ++ u :: rest)).andThen (chain.map _)
    exact (both.map Item.function).behind
  | @external t ps proto word head =>
    have other : t.isKeyword .definition = false := by
      rw [Bool.eq_false_iff, Ne, Token.isKeyword_iff, Token.isKeyword_iff.mp word]
      simp
    rw [List.cons_append]
    unfold Grammar.form
    simp only [word, other]
    exact ((head.gives (u :: rest)).map Item.external).behind
  | expression body =>
    have chain := body.reads (readsPrimaries ts.length) ends apart rest
    obtain ⟨t, others, rfl, starts⟩ := body.starts
    rw [List.cons_append] at chain ⊢
    unfold Grammar.form
    simp only [starts.isKeyword_eq_false]
    exact chain.map _

theorem Sentence.reads (h : Sentence true ts forms) :
    program ts = ⟨forms.map Form.item, [], true⟩ := by
  induction h with
  | finish ends =>
    unfold program
    simp [ends]
  | semicolon mark _ ih =>
    unfold program
    simp [Token.isEnd_of_isPunctuator mark, mark, ih]
  | @form read ts form forms head apart more ih =>
    obtain ⟨u, rest, rfl, ends⟩ := more.starts
    have found := head.gives ends (apart rfl u rfl) rest
    obtain ⟨t, others, rfl, -⟩ := head.starts
    obtain ⟨notEnd, notMark, -⟩ := head.starts_outside
    rw [List.cons_append] at found ⊢
    obtain ⟨shorter, eq⟩ := found
    unfold program
    simp [notEnd, notMark, eq, ih, Program.withItem]

/-! ## Whatever is read is derived -/

def PrototypeRead (read : List Token) (proto : Prototype) (_rest : List Token) : Prop :=
  IsPrototype read proto

def FormRead (read : List Token) (item : Item) (rest : List Token) : Prop :=
  ∃ form, IsForm read form ∧ item = form.item ∧ ∀ u ∈ rest.head?, ¬ OpensCall read u

def ParametersRead (read : List Token) (params : List String) (_rest : List Token) : Prop :=
  ∃ inner v names, read = inner ++ [v] ∧ v.isPunctuator ")" = true ∧
    inner.map Token.name? = List.map some names ∧ params = List.map Name.spelling names

theorem parameters_split (ts : List Token) :
    ∃ inner names, ts = inner ++ (parameters ts).2 ∧
      inner.map Token.name? = List.map some names ∧
      (parameters ts).1 = List.map Name.spelling names := by
  induction ts with
  | nil => exact ⟨[], [], rfl, rfl, rfl⟩
  | cons t ts ih =>
    obtain ⟨inner, names, split, spelled, params⟩ := ih
    unfold parameters
    cases named : t.name? with
    | none => exact ⟨[], [], rfl, rfl, rfl⟩
    | some name =>
      refine ⟨t :: inner, name :: names, ?_, ?_, ?_⟩
      · exact congrArg (t :: ·) split
      · simp [named, spelled]
      · simp [params]

theorem noEnd_of_names {inner : List Token} {names : List Name}
    (spelled : inner.map Token.name? = names.map some) : NoEnd inner := by
  intro t mem
  have found : t.name? ∈ names.map some := by
    rw [← spelled]
    exact List.mem_map_of_mem mem
  obtain ⟨name, -, named⟩ := List.mem_map.mp found
  exact Token.isEnd_of_name named.symm

theorem IsPrototype.noEnd (h : IsPrototype ts proto) : NoEnd ts := by
  cases h with
  | mk named opens spelled closes =>
    exact .cons (Token.isEnd_of_name named) (.cons (Token.isEnd_of_isPunctuator opens)
      ((noEnd_of_names spelled).append (.cons (Token.isEnd_of_isPunctuator closes) .nil)))

theorem IsForm.noEnd (h : IsForm ts form) : NoEnd ts := by
  cases h with
  | definition word head body =>
    exact .cons (Token.isEnd_of_isKeyword word) (head.noEnd.append body.noEnd)
  | external word head => exact .cons (Token.isEnd_of_isKeyword word) head.noEnd
  | expression body => exact body.noEnd

theorem closedParameters_explained (ts : List Token) :
    (closedParameters ts).Explained ts ParametersRead := by
  obtain ⟨inner, names, split, spelled, params⟩ := parameters_split ts
  unfold closedParameters
  split
  · rename_i found _
    rw [found, List.append_nil] at split
    rw [split]
    exact noEnd_of_names spelled
  · rename_i t rest le found _
    rw [found] at split
    by_cases closes : t.isPunctuator ")" = true
    · rw [if_pos closes]
      exact ⟨inner ++ [t], by simp [split], inner, t, names, rfl, closes, spelled, params⟩
    · rw [if_neg closes]
      trivial

theorem prototype_explained (ts : List Token) : (prototype ts).Explained ts PrototypeRead := by
  unfold prototype
  cases ts with
  | nil => exact .nil
  | cons t rest =>
    dsimp only
    cases named : t.name? with
    | none => trivial
    | some name =>
      cases rest with
      | nil => exact .cons (Token.isEnd_of_name named) .nil
      | cons u inner =>
        dsimp only
        by_cases opens : u.isPunctuator "(" = true
        · rw [if_pos opens]
          have params := (closedParameters_explained inner).map (Prototype.mk name.spelling)
          have passed : NoEnd [t, u] :=
            .cons (Token.isEnd_of_name named) (.cons (Token.isEnd_of_isPunctuator opens) .nil)
          unfold Parsed.behind
          rw [Parsed.weaken_weaken]
          apply params.behind (List.append_cons [t] u inner).symm passed
          rintro read proto rest - ⟨params, rfl, within, v, names, rfl, closes, spelled, rfl⟩
          exact .mk named opens spelled closes
        · rw [if_neg opens]
          trivial

theorem definition_explained (ts : List Token) :
    (Grammar.definition ts).Explained ts fun read f rest =>
      ∃ ps bs first links, read = ps ++ bs ∧ IsPrototype ps f.proto ∧ IsChain bs first links ∧
        f.body = conventional first links ∧ ∀ u ∈ rest.head?, ¬ OpensCall bs u := by
  unfold Grammar.definition
  have head := prototype_explained ts
  cases eq : prototype ts with
  | wrong e rest noLonger => trivial
  | cut => rwa [eq] at head
  | done proto rest shorter =>
    rw [eq] at head
    obtain ⟨ps, split, derived⟩ := head
    have body := (expression_explained rest).map (Function.mk proto)
    apply body.behind split (IsPrototype.noEnd derived) (Nat.le_of_lt shorter)
    rintro bs f behind - ⟨e, rfl, ⟨first, links, chain, rfl⟩, u, after, rfl, -, apart⟩
    refine ⟨ps, bs, first, links, rfl, derived, chain, rfl, ?_⟩
    rintro v mem
    cases mem
    exact apart

theorem form_explained (ts : List Token) : (Grammar.form ts).Explained ts FormRead := by
  unfold Grammar.form
  cases ts with
  | nil => exact .nil
  | cons t rest =>
    dsimp only
    by_cases word : t.isKeyword .definition = true
    · rw [if_pos word]
      have body := (definition_explained rest).map Item.function
      apply body.behind (List.singleton_append).symm (.cons (Token.isEnd_of_isKeyword word) .nil)
      rintro read item behind -
        ⟨⟨proto, e⟩, rfl, ps, bs, first, links, rfl, head, chain, rfl, apart⟩
      have derived := IsForm.definition word head chain
      refine ⟨_, derived, rfl, ?_⟩
      intro u mem opens
      obtain ⟨v, others, rfl, -⟩ := chain.starts
      exact apart u mem (opens.of_append (t :: ps) (List.cons_ne_nil v others))
    · rw [if_neg word]
      by_cases word' : t.isKeyword .external = true
      · rw [if_pos word']
        have head := (prototype_explained rest).map Item.external
        apply head.behind (List.singleton_append).symm (.cons (Token.isEnd_of_isKeyword word') .nil)
        rintro read item behind - ⟨proto, rfl, derived⟩
        exact ⟨_, .external word' derived, rfl, fun u _ => derived.not_opensCall [t]⟩
      · rw [if_neg word']
        have body := (expression_explained (t :: rest)).map fun e => Item.function ⟨.anonymous, e⟩
        apply body.mono
        rintro read item behind ⟨e, rfl, ⟨first, links, chain, rfl⟩, u, after, rfl, -, apart⟩
        refine ⟨_, .expression chain, rfl, ?_⟩
        rintro v mem
        cases mem
        exact apart

/-! ## Programs -/

/-- The last token, and no other, is the end of the input. -/
def Closed : List Token → Prop
  | [] => False
  | t :: ts => if t.isEnd then ts = [] else Closed ts

theorem closed_concat (noEnd : NoEnd ts) (ends : t.isEnd = true) : Closed (ts ++ [t]) := by
  induction ts with
  | nil => simp [Closed, ends]
  | cons u ts ih =>
    obtain ⟨here, later⟩ := List.forall_mem_cons.mp noEnd
    simp only [List.cons_append, Closed, here]
    exact ih later

theorem Closed.behind (h : Closed (ts ++ us)) (noEnd : NoEnd ts) : Closed us := by
  induction ts with
  | nil => exact h
  | cons t ts ih =>
    obtain ⟨here, later⟩ := List.forall_mem_cons.mp noEnd
    simp only [List.cons_append, Closed, here] at h
    exact ih h later

theorem Closed.noEnd_of_append (h : Closed (ts ++ t :: us)) : NoEnd ts := by
  induction ts with
  | nil => exact .nil
  | cons u ts ih =>
    by_cases ends : u.isEnd = true
    · simp [Closed, ends] at h
    · simp only [List.cons_append, Closed, ends] at h
      exact .cons (by simpa using ends) (ih h)

theorem Closed.not_noEnd (h : Closed ts) : ¬ NoEnd ts := by
  intro noEnd
  rw [← List.append_nil ts] at h
  exact h.behind noEnd

theorem exists_sentence_of_program (closed : Closed ts) (clean : (program ts).diagnostics = []) :
    ∃ forms, Sentence true ts forms := by
  fun_induction program ts with
  | case1 => exact absurd closed id
  | case2 t rest ends =>
    simp only [Closed, ends] at closed
    rw [closed]
    exact ⟨[], .finish ends⟩
  | case3 t rest notEnd mark ih =>
    simp only [Closed, notEnd] at closed
    obtain ⟨forms, more⟩ := ih closed clean
    exact ⟨forms, .semicolon mark more⟩
  | case4 t rest notEnd notMark item behind shorter found ih =>
    have explained := form_explained (t :: rest)
    rw [found] at explained
    obtain ⟨read, split, form, head, -, apart⟩ := explained
    rw [split] at closed ⊢
    obtain ⟨forms, more⟩ := ih (closed.behind head.noEnd) clean
    exact ⟨form :: forms, .form head (fun _ => apart) more⟩
  | case5 => cases clean
  | case6 => cases clean
  | case7 => cases clean
  | case8 t rest notEnd notMark found =>
    have missing := form_explained (t :: rest)
    rw [found] at missing
    exact absurd missing closed.not_noEnd

/-- The programs without errors are the sentences of the grammar. -/
theorem program_clean_iff (closed : Closed ts) : (program ts).diagnostics = [] ↔ Derivable ts := by
  constructor
  · intro clean
    obtain ⟨forms, sentence⟩ := exists_sentence_of_program closed clean
    exact ⟨forms, sentence.relax⟩
  · rintro ⟨forms, sentence⟩
    obtain ⟨forms', greedy⟩ := sentence.exists_greedy
    rw [greedy.reads]

end Grammar

end Kaleidoscope
