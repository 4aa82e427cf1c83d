import Kaleidoscope.Proofs.Grammar.Joining
import Kaleidoscope.Proofs.Parser

/-!
# A parse follows from the text

What a parse gives, and what it reports, follows from the text of its source. Where the buffer stands,
how its reader cuts the source into pieces and which names were seen before do not matter.
-/

namespace Kaleidoscope

namespace Scanned

def program (r : Scanned) : Grammar.Program := Grammar.program r.tokens

def result (r : Scanned) : Except ParseError (List Item) :=
  match r.program.complete, r.failure with
  | false, some e => .error (.lexical e)
  | _, _ => .ok (if r.program.diagnostics = [] then r.program.items else [])

end Scanned

theorem Token.moves_unnumbered : Grammar.Moves Token.unnumbered id where
  kind t := by
    unfold SameKind Token.unnumbered
    cases t.kind <;> rfl
  pos _ := rfl

theorem Grammar.program_unnumbered (ts : List Token) :
    program (ts.map Token.unnumbered) = program ts := by
  rw [program_map Token.moves_unnumbered]
  unfold Program.moved
  rw [SyntaxError.moved_id, List.map_id]

section
variable {ρ : Type} [Reader ρ] {source : List UInt8} {before lexeme after : List Char} {r : Scanned}

theorem TokenStream.tiles_splits {s : TokenStream ρ} (h : s.buffer.Splits source before [] after)
    (faithful : s.symbols.Faithful) :
    ∃ before lexeme after, s.tiles.2.2.buffer.Splits source before lexeme after := by
  fun_induction tiles s generalizing before after with
  | case1 s e s₁ next =>
    obtain ⟨gap, tail, b, rest, -, -, -, eq, -, splits⟩ := next_splits h
    have stream : s₁.buffer = b := by rw [← show s.next.2 = s₁ by rw [next], eq]
    rw [← stream] at splits
    exact ⟨_, _, rest, splits⟩
  | case2 s t s₁ next more _ ih =>
    obtain ⟨⟨before', rest, splits⟩, faithful', -⟩ := next_ok h faithful next
    exact ih splits faithful'
  | case3 s t s₁ next ended =>
    obtain ⟨⟨before', rest, splits⟩, -⟩ := next_ok h faithful next
    exact ⟨_, _, rest, splits⟩

theorem TokenStream.all_splits {s : TokenStream ρ} (h : s.buffer.Splits source before [] after)
    (faithful : s.symbols.Faithful) :
    ∃ before lexeme after, s.all.2.2.buffer.Splits source before lexeme after := by
  have splits := tiles_splits h faithful
  rw [all_eq_tiles]
  generalize s.tiles = all at splits ⊢
  obtain ⟨tiles, result, s'⟩ := all
  cases result <;> exact splits

namespace Parser

theorem parseRest_of_scan {p : Parser ρ} (scan : Scan (.behind before) after r)
    (h : p.stream.buffer.Splits source before [] after) (regular : p.stream.symbols.Regular) :
    p.parseRest.result = r.result ∧ p.parseRest.state.diagnostics = r.program.diagnostics ∧
      p.parseRest.state.stream = p.stream.all.2.2 := by
  obtain ⟨failure, tokens⟩ := TokenStream.all_of_scan scan h regular
  have program : Grammar.program p.stream.all.2.1.toList = r.program := by
    rw [Scanned.program, ← tokens, Grammar.program_unnumbered]
  unfold parseRest Scanned.result
  rw [← failure, ← program]
  generalize p.stream.all = all
  obtain ⟨failure, ts, s⟩ := all
  dsimp only
  generalize Grammar.program ts.toList = program
  obtain ⟨items, diagnostics, complete⟩ := program
  cases complete <;> cases failure <;> cases diagnostics <;> exact ⟨rfl, rfl, rfl⟩

theorem parse_eq_rest {p : Parser ρ} (h : p.stream.buffer.Splits source before lexeme after) :
    ∃ b : Buffer ρ, b.Splits source [] [] (sourceText source) ∧
      let again : Parser ρ := ⟨⟨b, p.stream.symbols.clear⟩, []⟩
      p.parse.result = again.parseRest.result ∧ p.parse.state = again.parseRest.state := by
  obtain ⟨done, -, start⟩ := TokenStream.reset_splits h
  refine ⟨p.stream.reset.state.buffer, start, ?_⟩
  rw [parse_of_reset done]
  exact ⟨rfl, rfl⟩

/-- A parse gives and reports what follows from the text of its source, which is still the source
behind it. -/
theorem parse_of_scan {p : Parser ρ} (scan : Scan .start (sourceText source) r)
    (h : p.stream.buffer.Splits source before lexeme after) :
    p.parse.result = r.result ∧ p.parse.state.diagnostics = r.program.diagnostics ∧
      ∃ before lexeme after, p.parse.state.stream.buffer.Splits source before lexeme after := by
  obtain ⟨b, splits, parsed⟩ := parse_eq_rest h
  have regular := SymbolTable.regular_seeded p.stream.symbols.nextSerial
  rw [← Position.behind_nil] at scan
  let again : Parser ρ := ⟨⟨b, p.stream.symbols.clear⟩, []⟩
  obtain ⟨result, diagnostics, stream⟩ := parseRest_of_scan (p := again) scan splits regular
  rw [parsed.1, parsed.2, stream]
  exact ⟨result, diagnostics, TokenStream.all_splits (s := again.stream) splits regular.faithful⟩

theorem parse_of_source {reader : ρ} {name : String} {b : Buffer ρ}
    (reads : Reader.Delivers source reader) (opened : Buffer.new reader name = .ok b)
    (scan : Scan .start (sourceText source) r) :
    (ofStream (.ofBuffer b)).parse.result = r.result ∧
      (ofStream (.ofBuffer b)).parse.state.diagnostics = r.program.diagnostics := by
  obtain ⟨result, diagnostics, -⟩ :=
    parse_of_scan (p := ofStream (.ofBuffer b)) scan (TokenStream.ofBuffer_splits reads opened)
  exact ⟨result, diagnostics⟩

/-! ## Parsers in one source -/

def Placed (p : Parser ρ) (source : List UInt8) : Prop :=
  ∃ before lexeme after, p.stream.buffer.Splits source before lexeme after

theorem placed_new {r : ρ} {name : String} {b : Buffer ρ} (reads : Reader.Delivers source r)
    (opened : Buffer.new r name = .ok b) : (ofStream (.ofBuffer b)).Placed source :=
  ⟨_, _, _, TokenStream.ofBuffer_splits reads opened⟩

theorem Placed.parse_eq {ρ' : Type} [Reader ρ'] {p : Parser ρ} {p' : Parser ρ'} (h : p.Placed source)
    (h' : p'.Placed source) :
    p.parse.result = p'.parse.result ∧ p.parse.state.diagnostics = p'.parse.state.diagnostics := by
  obtain ⟨before, lexeme, after, splits⟩ := h
  obtain ⟨before', lexeme', after', splits'⟩ := h'
  obtain ⟨scanned, scan⟩ := exists_scan .start (sourceText source)
  obtain ⟨result, diagnostics, -⟩ := parse_of_scan scan splits
  obtain ⟨result', diagnostics', -⟩ := parse_of_scan scan splits'
  exact ⟨result.trans result'.symm, diagnostics.trans diagnostics'.symm⟩

end Parser

end

end Kaleidoscope
