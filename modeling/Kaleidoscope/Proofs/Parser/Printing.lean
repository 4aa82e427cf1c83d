import Kaleidoscope.Proofs.Parser.Failure
import Kaleidoscope.Proofs.Tree.Lexemes

/-!
# Parses and printed trees

The items of a parse without diagnostics have words for their names, so they are known from what is
printed of them. An expression is parsed again from its text.
-/

namespace Kaleidoscope

namespace Grammar

def Worded (ts : List Token) : Prop := ∀ t ∈ ts, ∀ name, t.name? = some name → IsWord name.spelling

variable {ts : List Token} {forms : List Form} {greedy : Bool}

theorem Worded.spelled (h : Worded ts) : Spelled ts := fun t mem name named => (h t mem name named).1

theorem Worded.leaf (h : Worded ts) {name : String} (mem : Leaf.name name ∈ ts.filterMap Token.leaf?) :
    IsWord name := by
  obtain ⟨t, here, leaf⟩ := List.mem_filterMap.mp mem
  unfold Token.leaf? at leaf
  split at leaf
  · rename_i found kind
    cases leaf
    exact h t here found (Token.name?_eq_some.mpr kind)
  · cases leaf
  · simp at leaf
  · cases leaf

theorem Sentence.named (h : Sentence greedy ts forms) (worded : Worded ts) :
    ∀ i ∈ forms.map Form.item, i.Named := by
  intro i mem
  apply Item.named_of_leaves
  · intro name leaf
    apply worded.leaf
    rw [← h.leaves worded.spelled]
    exact List.mem_flatMap.mpr ⟨i, mem, leaf⟩
  · rintro f rfl none
    obtain ⟨form, inside, item⟩ := List.mem_map.mp mem
    obtain ⟨e, rfl⟩ := (h.name_eq_iff worded.spelled form inside f item).mp none
    cases item
    rfl

end Grammar

namespace Parser

open Literal

section
variable {ρ ρ' : Type} [Reader ρ] [Reader ρ'] {source source' : List UInt8} {r : ρ} {r' : ρ'}
  {name name' : String} {b : Buffer ρ} {b' : Buffer ρ'} {items items' : List Item}

theorem parse_named (reads : Reader.Delivers source r) (opened : Buffer.new r name = .ok b)
    (given : (ofStream (.ofBuffer b)).parse.result = .ok items)
    (clean : (ofStream (.ofBuffer b)).parse.state.diagnostics = []) : ∀ i ∈ items, i.Named := by
  have parsed := parse_result reads opened
  generalize scans : (TokenStream.ofBuffer b).all = all at parsed
  obtain ⟨failure, tokens, s⟩ := all
  cases failure with
  | some e => simp [given] at parsed
  | none =>
    obtain ⟨diagnostics, result⟩ := parse_of_all reads opened scans
    have worded := TokenStream.all_words (TokenStream.ofBuffer_splits reads opened)
      (SymbolTable.faithful_seeded 0) scans
    rw [diagnostics] at clean
    rw [given, if_pos clean] at result
    obtain ⟨forms, sentence⟩ :=
      Grammar.exists_sentence_of_program (TokenStream.all_closed scans) clean
    rw [Except.ok.inj result, sentence.reads]
    exact sentence.named worded

/-! ## Parsing what is printed -/

theorem parse_of_heads (reads : Reader.Delivers source r) (opened : Buffer.new r name = .ok b)
    {heads : List Head} {rest : List Char} {forms : List Grammar.Form}
    (lexemes : Heads rest (sourceText source) heads)
    (ended : Head.ofText (afterGap false rest) = .ended)
    (derived : ∀ ts t, List.Forall₂ Token.Is ts heads → t.isEnd = true →
      Grammar.Sentence true (ts ++ [t]) forms) :
    (ofStream (.ofBuffer b)).parse.result = .ok (forms.map Grammar.Form.item) ∧
      (ofStream (.ofBuffer b)).parse.state.diagnostics = [] := by
  obtain ⟨ts, t, s, scans, tokens, last⟩ := TokenStream.all_of_heads
    (TokenStream.ofBuffer_splits reads opened) (SymbolTable.sound_seeded 0) lexemes ended
  obtain ⟨diagnostics, result⟩ := parse_of_all reads opened scans
  rw [(derived ts t tokens last).reads] at diagnostics result
  exact ⟨result, diagnostics⟩

theorem sentence_of_is {e : Expr} {ts : List Token} {t : Token} (writable : e.Writable)
    (tokens : List.Forall₂ Token.Is ts e.heads) (last : t.isEnd = true) :
    Grammar.Sentence true (ts ++ [t]) [.expression e] := by
  obtain ⟨first, links, chain, rfl⟩ := Expr.derives_of_is writable tokens
  refine .form (.expression chain) ?_ (.finish last)
  intro _ u mem opens
  cases mem
  have inside := Token.isEnd_of_isPunctuator opens.2
  simp [last] at inside

/-- Printed and parsed again, an expression is the one item of the parse. -/
theorem parse_source {e : Expr} (writable : e.Writable)
    (reads : Reader.Delivers (String.ofList e.source).toUTF8.data.toList r) (name : String) :
    ∃ b, Buffer.new r name = .ok b ∧
      (ofStream (.ofBuffer b)).parse.result = .ok [.function ⟨.anonymous, e⟩] ∧
      (ofStream (.ofBuffer b)).parse.state.diagnostics = [] := by
  have lexemes : Heads [] (sourceText (String.ofList e.source).toUTF8.data.toList) e.heads := by
    rw [sourceText_utf8 writable.ascii, ← List.append_nil e.source]
    exact e.heads_source writable nofun
  obtain ⟨b, opened, -⟩ := Buffer.new_splits reads name
  exact ⟨b, opened, parse_of_heads reads opened lexemes rfl fun _ _ => sentence_of_is writable⟩

/-- A variable, a call and two numbers that are written with exponents. -/
theorem parse_source_exponents :
    let e : Expr := .binary .less (.call "f" [.var "x_1", .number 2.5e-7]) (.number 1e21)
    let r := FaultyReader.ofBytes (String.ofList e.source).toUTF8.data ⟨some 2, 3, none, false⟩ none
    String.ofList e.source = "(f(x_1, 2.5e-7)) < (1e+21)" ∧ e.Writable ∧
      Reader.Delivers (String.ofList e.source).toUTF8.data.toList r ∧
      ∃ b, Buffer.new r "exponents" = .ok b ∧
        (ofStream (.ofBuffer b)).parse.result = .ok [.function ⟨.anonymous, e⟩] ∧
        (ofStream (.ofBuffer b)).parse.state.diagnostics = [] := by
  intro e r
  have f : IsIdentifier "f" := by decide
  have x : IsIdentifier "x_1" := by decide
  have little : (2.5e-7 : Float).toBits.toNat < infiniteBits := by decide +kernel
  have great : (1e21 : Float).toBits.toNat < infiniteBits := by decide +kernel
  have writable : e.Writable := by
    constructor <;> simp [e, Expr.leaves, Expr.leavesOfArgs, f, x, little, great]
  have reads := FaultyReader.delivers (String.ofList e.source).toUTF8.data
    ⟨some 2, 3, none, false⟩ none rfl rfl (by decide)
  exact ⟨by decide +kernel, writable, reads, parse_source writable reads "exponents"⟩

/-! ## What is printed of two parses -/

/-- Two parses without diagnostics that print the same give the same items. -/
theorem items_eq_of_printed (reads : Reader.Delivers source r) (opened : Buffer.new r name = .ok b)
    (reads' : Reader.Delivers source' r') (opened' : Buffer.new r' name' = .ok b')
    (given : (ofStream (.ofBuffer b)).parse.result = .ok items)
    (clean : (ofStream (.ofBuffer b)).parse.state.diagnostics = [])
    (given' : (ofStream (.ofBuffer b')).parse.result = .ok items')
    (clean' : (ofStream (.ofBuffer b')).parse.state.diagnostics = [])
    (printed : String.join (items.map Item.toText) = String.join (items'.map Item.toText)) :
    items = items' :=
  Item.list_unique (parse_named reads opened given clean) (parse_named reads' opened' given' clean')
    printed

/-- The same call in two layouts, read in one piece and in several. -/
theorem items_eq_of_printed_layouts :
    let r := ByteReader.ofBytes #[102, 40, 120, 41]
    let r' := FaultyReader.ofBytes #[102, 32, 40, 10, 120, 41] ⟨some 2, 3, none, false⟩ none
    Reader.Delivers [102, 40, 120, 41] r ∧ Reader.Delivers [102, 32, 40, 10, 120, 41] r' ∧
      ∃ b b' items items', Buffer.new r "tight" = .ok b ∧ Buffer.new r' "loose" = .ok b' ∧
      (ofStream (.ofBuffer b)).parse.result = .ok items ∧
      (ofStream (.ofBuffer b)).parse.state.diagnostics = [] ∧
      (ofStream (.ofBuffer b')).parse.result = .ok items' ∧
      (ofStream (.ofBuffer b')).parse.state.diagnostics = [] ∧
      String.join (items.map Item.toText) = String.join (items'.map Item.toText) ∧
      items = items' := by
  have reads := ByteReader.delivers #[102, 40, 120, 41]
  have reads' := FaultyReader.delivers #[102, 32, 40, 10, 120, 41] ⟨some 2, 3, none, false⟩ none
    rfl rfl (by decide)
  obtain ⟨b, opened, -⟩ := Buffer.new_splits reads "tight"
  obtain ⟨b', opened', -⟩ := Buffer.new_splits reads' "loose"
  have f : IsIdentifier "f" := by decide
  have x : IsIdentifier "x" := by decide
  have writable : (Expr.call "f" [.var "x"]).Writable := by
    constructor <;> simp [Expr.leaves, Expr.leavesOfArgs, f, x]
  have lexemes : Heads [] (sourceText [102, 40, 120, 41]) (Expr.call "f" [.var "x"]).heads :=
    .cons (List.cons_ne_nil 'f' _) rfl (.cons (List.cons_ne_nil '(' _) rfl
      (.cons (List.cons_ne_nil 'x' _) rfl (.cons (List.cons_ne_nil ')' _) rfl .nil)))
  have lexemes' : Heads [] (sourceText [102, 32, 40, 10, 120, 41])
      (Expr.call "f" [.var "x"]).heads :=
    .cons (List.cons_ne_nil 'f' _) rfl (.cons (List.cons_ne_nil '(' _) rfl
      (.cons (List.cons_ne_nil 'x' _) rfl (.cons (List.cons_ne_nil ')' _) rfl .nil)))
  obtain ⟨given, clean⟩ := parse_of_heads reads opened lexemes rfl fun _ _ =>
    sentence_of_is writable
  obtain ⟨given', clean'⟩ := parse_of_heads reads' opened' lexemes' rfl fun _ _ =>
    sentence_of_is writable
  exact ⟨reads, reads', b, b', _, _, opened, opened', given, clean, given', clean', rfl,
    items_eq_of_printed reads opened reads' opened' given clean given' clean' rfl⟩

end

end Parser

end Kaleidoscope
