import Kaleidoscope.Proofs.Parser.Pieces
import Kaleidoscope.Proofs.Parser.Printing
import Kaleidoscope.Proofs.Token.Sharing

/-!
# The names in a tree

Every identifier that a successful parse reads comes to stand in its items, and every name in the items
was an identifier. So the items tell what the symbol table holds.
-/

namespace Kaleidoscope

/-! ## Names -/

def Leaf.name? : Leaf → Option String
  | name spelling => some spelling
  | _ => none

namespace Expr

mutual

def names : Expr → List String
  | number _ => []
  | var name => [name]
  | binary _ left right => names left ++ names right
  | call callee args => callee :: namesOfArgs args

def namesOfArgs : List Expr → List String
  | [] => []
  | e :: es => names e ++ namesOfArgs es

end

mutual

theorem names_eq : ∀ e : Expr, e.names = e.leaves.filterMap Leaf.name?
  | number _ => rfl
  | var _ => rfl
  | binary op left right => by
    simp [names, leaves, names_eq left, names_eq right, List.filterMap_cons, Leaf.name?]
  | call callee args => by simp [names, leaves, namesOfArgs_eq args, Leaf.name?]

theorem namesOfArgs_eq : ∀ es : List Expr, namesOfArgs es = (leavesOfArgs es).filterMap Leaf.name?
  | [] => rfl
  | e :: es => by simp [namesOfArgs, leavesOfArgs, names_eq e, namesOfArgs_eq es]

end

end Expr

/-- The names of a function or of an external one, of its parameters, and in its body. An expression that
stands on its own has no name. -/
def Item.names : Item → List String
  | function f => (if f.proto.isAnonymous then [] else [f.proto.name]) ++ f.proto.params ++ f.body.names
  | external proto => proto.name :: proto.params

theorem Prototype.names_eq (p : Prototype) : p.leaves.filterMap Leaf.name? = p.name :: p.params := by
  have params (names : List String) : (names.map Leaf.name).filterMap Leaf.name? = names := by
    rw [List.filterMap_map]
    exact List.filterMap_some
  simp [leaves, params, Leaf.name?]

theorem Token.name?_leaf? (t : Token) : t.leaf?.bind Leaf.name? = t.name?.map Name.spelling := by
  unfold leaf? name?
  cases t.kind with
  | punctuator text =>
    show ((Operator.ofSymbol? text).map Leaf.operator).bind Leaf.name? = none
    cases Operator.ofSymbol? text <;> rfl
  | _ => rfl

namespace Grammar

variable {ts : List Token} {form : Form} {forms : List Form} {greedy : Bool}

theorem Form.names_eq (named : ∀ f, form.item = .function f →
      (f.proto.name = "" ↔ ∃ e, form = .expression e)) :
    form.item.names = form.item.leaves.filterMap Leaf.name? := by
  cases form with
  | definition proto body =>
    have some : proto.isAnonymous = false := by
      have anonymous := named ⟨proto, body⟩ rfl
      simpa [Prototype.isAnonymous] using anonymous
    simp [Form.item, Item.names, Item.leaves, some, body.names_eq, proto.names_eq]
  | external proto => simp [Form.item, Item.names, Item.leaves, proto.names_eq]
  | expression body =>
    have none : Prototype.anonymous.isAnonymous = true := rfl
    have bare : Prototype.anonymous.params = [] := rfl
    simp [Form.item, Item.names, Item.leaves, none, bare, body.names_eq]

theorem Sentence.names (h : Sentence greedy ts forms) (spelled : Spelled ts) :
    (forms.map Form.item).flatMap Item.names = (ts.filterMap Token.name?).map Name.spelling := by
  have named := h.name_eq_iff spelled
  calc (forms.map Form.item).flatMap Item.names
    _ = forms.flatMap fun form => form.item.leaves.filterMap Leaf.name? := by
        rw [List.flatMap_map]
        exact List.flatMap_congr fun form mem => form.names_eq (named form mem)
    _ = ((forms.map Form.item).flatMap Item.leaves).filterMap Leaf.name? := by
        rw [List.filterMap_flatMap, List.flatMap_map]
    _ = (ts.filterMap Token.leaf?).filterMap Leaf.name? := by rw [h.leaves spelled]
    _ = (ts.filterMap Token.name?).map Name.spelling := by
        rw [List.filterMap_filterMap, List.map_filterMap]
        simp only [Token.name?_leaf?]

end Grammar

/-! ## What a stream has entered -/

section
variable {ρ : Type} [Reader ρ] {source : List UInt8}

namespace TokenStream

variable {s s' : TokenStream ρ} {tokens : Array Token} {t : Token}

/-- The stream has entered the identifiers among the tokens, none of which is empty, and nothing else. -/
structure Enters (s : TokenStream ρ) (tokens : Array Token) : Prop where
  holds : s.symbols.Holds (tokens.toList.filterMap Token.name?) []
  spelled : Grammar.Spelled tokens.toList

theorem Enters.failed (h : s.Enters tokens) {e : ScanError} (next : s.next = (.error e, s')) :
    s'.Enters tokens := by
  have held := s.holds_next h.holds
  rw [next, returned, List.append_nil] at held
  exact ⟨held, h.spelled⟩

theorem Enters.next (h : s.Enters tokens) (next : s.next = (.ok t, s')) :
    s'.Enters (tokens.push t) := by
  have held := s.holds_next h.holds
  have spelled := s.returned_ne_empty h.holds.faithful
  rw [next] at held spelled
  constructor
  · rw [Array.toList_push, List.filterMap_append]
    exact held
  · intro u mem name named
    rw [Array.toList_push] at mem
    rcases List.mem_append.mp mem with old | new
    · exact h.spelled u old name named
    · obtain rfl := List.mem_singleton.mp new
      exact spelled name (Option.mem_toList.mpr named)

theorem Enters.feed {step : Array Token → Token → Option ScanError × Array Token}
    (pushes : ∀ tokens t, step tokens t = (none, tokens.push t)) (h : s.Enters tokens) :
    (s.feed step tokens).2.2.Enters (s.feed step tokens).2.1 := by
  fun_induction TokenStream.feed step tokens s with
  | case1 tokens s e s₁ next => exact h.failed next
  | case2 tokens s t s₁ next e tokens₁ stepped =>
    rw [pushes] at stepped
    cases stepped
  | case3 tokens s t s₁ next tokens₁ stepped more _ ih =>
    rw [pushes] at stepped
    cases stepped
    exact ih (h.next next)
  | case4 tokens s t s₁ next tokens₁ stepped ended =>
    rw [pushes] at stepped
    cases stepped
    exact h.next next

theorem enters_all {serial : Nat} (fresh : s.symbols = .seeded serial) : s.all.2.2.Enters s.all.2.1 := by
  refine Enters.feed (fun _ _ => rfl) ⟨?_, fun _ mem => absurd mem List.not_mem_nil⟩
  rw [fresh]
  exact SymbolTable.holds_seeded serial

end TokenStream

/-! ## The names of a parse -/

namespace Parser

variable {p : Parser ρ} {items : List Item}

/-- The names in the items are the identifiers that were read, and the table holds just these. -/
theorem parseRest_names {serial : Nat} (fresh : p.stream.symbols = .seeded serial)
    (given : p.parseRest.result = .ok items) (clean : p.parseRest.state.diagnostics = []) :
    ∃ names, p.parseRest.state.stream.symbols.Holds names [] ∧
      items.flatMap Item.names = names.map Name.spelling := by
  cases failure : p.stream.all.1 with
  | some e =>
    rw [parseRest_of_failure failure] at given
    cases given
  | none =>
    have scans : p.stream.all = (none, p.stream.all.2.1, p.stream.all.2.2) := Prod.ext failure rfl
    obtain ⟨diagnostics, found⟩ := parseRest_of_all failure rfl
    rw [diagnostics] at clean
    rw [given, if_pos clean] at found
    obtain ⟨holds, spelled⟩ := p.stream.enters_all fresh
    obtain ⟨forms, sentence⟩ :=
      Grammar.exists_sentence_of_program (TokenStream.all_closed scans) clean
    refine ⟨_, by rwa [parseRest_state], ?_⟩
    rw [Except.ok.inj found, sentence.reads]
    exact sentence.names spelled

theorem reset_of_ok (given : p.parse.result = .ok items) : p.stream.reset.result = .ok () := by
  unfold parse at given
  cases done : p.stream.reset.result with
  | ok => rfl
  | error e =>
    simp only [done] at given
    cases given

/-- Whatever the parser did before, wherever it stands and however its reader has failed, a parse that
reports nothing leaves the reserved words and the names of its items in the symbol table, each once, and
nothing else. -/
theorem symbols_of_parse (given : p.parse.result = .ok items)
    (clean : p.parse.state.diagnostics = []) :
    let symbols := p.parse.state.stream.symbols
    (∀ spelling, symbols.contains spelling = true ↔
      spelling = "def" ∨ spelling = "extern" ∨ spelling ∈ items.flatMap Item.names) ∧
    symbols.size = 2 + (items.flatMap Item.names).dedup.length := by
  have done := reset_of_ok given
  rw [parse_of_reset done] at given clean ⊢
  obtain ⟨names, holds, same⟩ := parseRest_names rfl given clean
  rw [same]
  exact ⟨holds.contains_iff, holds.size_eq⟩

end Parser

end

/-- The name of the first source is forgotten when the second one is parsed. -/
theorem Parser.symbols_of_parse_second :
    let r := ByteReader.ofBytes #[121]
    let r' := ByteReader.ofBytes #[102, 40, 120, 41]
    let demands : List (Demand ByteReader) := [.parse, .reopen "b" (.ok r')]
    ∃ b items, Buffer.new r "a" = .ok b ∧
      let p := serveAll serve (ofStream (.ofBuffer b)) demands
      p.parse.result = .ok items ∧ p.parse.state.diagnostics = [] ∧
      items.flatMap Item.names = ["f", "x"] ∧
      p.parse.state.stream.symbols.contains "y" = false ∧ p.parse.state.stream.symbols.size = 4 := by
  intro r r' demands
  have reads := ByteReader.delivers #[121]
  have reads' : Reader.Delivers [102, 40, 120, 41] r' := ByteReader.delivers #[102, 40, 120, 41]
  obtain ⟨b, opened, -⟩ := Buffer.new_splits reads "a"
  obtain ⟨b', opened', -⟩ := Buffer.new_splits reads' "b"
  have f : IsIdentifier "f" := by decide
  have x : IsIdentifier "x" := by decide
  have writable : (Expr.call "f" [.var "x"]).Writable := by
    constructor <;> simp [Expr.leaves, Expr.leavesOfArgs, f, x]
  have lexemes : Heads [] (sourceText [102, 40, 120, 41]) (Expr.call "f" [.var "x"]).heads :=
    .cons (List.cons_ne_nil 'f' _) rfl (.cons (List.cons_ne_nil '(' _) rfl
      (.cons (List.cons_ne_nil 'x' _) rfl (.cons (List.cons_ne_nil ')' _) rfl .nil)))
  obtain ⟨given, clean⟩ := parse_of_heads reads' opened' lexemes rfl fun _ _ => sentence_of_is writable
  have there : (serveAll serve (ofStream (.ofBuffer b)) demands).Placed [102, 40, 120, 41] :=
    ⟨_, _, _, (reopen_ok reads' _ "b").2⟩
  obtain ⟨result, diagnostics⟩ := there.parse_eq (placed_new reads' opened')
  rw [given] at result
  rw [clean] at diagnostics
  obtain ⟨contains, size⟩ := symbols_of_parse result diagnostics
  have names : ([Grammar.Form.expression (.call "f" [.var "x"])].map Grammar.Form.item).flatMap
      Item.names = ["f", "x"] := rfl
  rw [names] at contains size
  refine ⟨b, _, opened, result, diagnostics, names, ?_, size⟩
  rw [Bool.eq_false_iff, Ne, contains]
  decide

end Kaleidoscope
