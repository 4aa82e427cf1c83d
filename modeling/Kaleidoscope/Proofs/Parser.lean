import Kaleidoscope.Parser
import Kaleidoscope.Proofs.Grammar.Leaves
import Kaleidoscope.Proofs.Grammar.Recovery
import Kaleidoscope.Proofs.Token.Replay

/-!
# What a parse accepts

A parse of a source without lexical errors reads its tokens again from the start. It has no
diagnostics if the tokens are a sentence of the grammar, and then gives the forms of the sentence.
-/

namespace Kaleidoscope

section
variable {ρ : Type} [Reader ρ] {source : List UInt8} {r : ρ} {name : String} {b : Buffer ρ}
  {tokens : Array Token} {s : TokenStream ρ}

theorem TokenStream.all_closed {s s' : TokenStream ρ} (h : s.all = (none, tokens, s')) :
    Grammar.Closed tokens.toList := by
  obtain ⟨t, eq, ended⟩ := all_none h
  obtain ⟨inside, last⟩ := s.tiles_isEnd
  rw [eq]
  apply Grammar.closed_concat _ (last t ended)
  rintro u mem
  obtain ⟨tile, there, rfl⟩ := List.mem_map.mp mem
  exact inside tile there

theorem TokenStream.all_words {s s' : TokenStream ρ} {before after : List Char}
    (splits : s.buffer.Splits source before [] after) (faithful : s.symbols.Faithful)
    (h : s.all = (none, tokens, s')) :
    ∀ t ∈ tokens.toList, ∀ name, t.name? = some name → IsWord name.spelling := by
  obtain ⟨t, eq, ended⟩ := all_none h
  rw [eq]
  intro u mem name named
  rcases List.mem_append.mp mem with inside | last
  · obtain ⟨tile, there, rfl⟩ := List.mem_map.mp inside
    exact tiles_spelled splits faithful tile there name named
  · rw [List.mem_singleton.mp last, Token.name?_eq_some] at named
    have ends := s.tiles_isEnd.2 t ended
    rw [Token.isEnd_iff, named] at ends
    cases ends

theorem TokenStream.all_spelled {s s' : TokenStream ρ} {before after : List Char}
    (splits : s.buffer.Splits source before [] after) (faithful : s.symbols.Faithful)
    (h : s.all = (none, tokens, s')) : Grammar.Spelled tokens.toList :=
  fun t mem name named => (all_words splits faithful h t mem name named).1

theorem TokenStream.all_noEnd (h : s.all.1 = some e) : Grammar.NoEnd s.all.2.1.toList := by
  have inside := s.tiles_isEnd.1
  rw [all_eq_tiles] at h ⊢
  generalize s.tiles = all at h inside ⊢
  obtain ⟨tiles, result, s'⟩ := all
  cases result with
  | ok t => cases h
  | error e' =>
    intro t mem
    obtain ⟨tile, there, rfl⟩ := List.mem_map.mp mem
    exact inside tile there

namespace Parser

theorem parseRest_state (p : Parser ρ) : p.parseRest.state =
    ⟨p.stream.all.2.2, (Grammar.program p.stream.all.2.1.toList).diagnostics⟩ := by
  unfold parseRest
  generalize p.stream.all = all
  obtain ⟨failure, tokens, s⟩ := all
  dsimp only
  split
  · rfl
  · split <;> rfl

theorem parseRest_of_failure {p : Parser ρ} (h : p.stream.all.1 = some e) :
    p.parseRest.result = .error (.lexical e) := by
  have incomplete := Grammar.program_incomplete (TokenStream.all_noEnd h)
  unfold parseRest
  generalize p.stream.all = all at h incomplete
  obtain ⟨failure, tokens, s⟩ := all
  subst h
  simp only [incomplete]

theorem parse_of_reset {p : Parser ρ} (done : p.stream.reset.result = .ok ()) :
    p.parse = (parseRest ⟨p.stream.reset.state, []⟩).after p.stream.reset.log := by
  unfold parse
  simp only [done]

/-- Without lexical errors a parse gives the items of its program, or none if there are
diagnostics. -/
theorem parseRest_of_all {p : Parser ρ} (sound : p.stream.all.1 = none)
    (found : p.stream.all.2.1 = tokens) :
    p.parseRest.state.diagnostics = (Grammar.program tokens.toList).diagnostics ∧
      p.parseRest.result =
        .ok (if (Grammar.program tokens.toList).diagnostics = [] then
          (Grammar.program tokens.toList).items else []) := by
  unfold parseRest
  generalize p.stream.all = all at sound found
  obtain ⟨failure, ts, s⟩ := all
  subst sound found
  dsimp only
  split
  · rename_i failed
    cases failed
  · split <;> simp_all

theorem parse_of_all (reads : Reader.Delivers source r) (opened : Buffer.new r name = .ok b)
    (scans : (TokenStream.ofBuffer b).all = (none, tokens, s)) :
    (ofStream (.ofBuffer b)).parse.state.diagnostics =
        (Grammar.program tokens.toList).diagnostics ∧
      (ofStream (.ofBuffer b)).parse.result =
        .ok (if (Grammar.program tokens.toList).diagnostics = [] then
          (Grammar.program tokens.toList).items else []) := by
  obtain ⟨reset, alike⟩ := TokenStream.reset_alike reads opened
  obtain ⟨sound, found⟩ := alike.all
  rw [scans] at sound found
  unfold parse
  simp only [ofStream, reset]
  exact parseRest_of_all sound found

/-- A source is parsed without diagnostics if its tokens are a sentence of the grammar. Its items are
then the forms of the sentence, in which a name before an opening parenthesis is always called. -/
theorem parse_iff_derivable (reads : Reader.Delivers source r) (opened : Buffer.new r name = .ok b)
    (scans : (TokenStream.ofBuffer b).all = (none, tokens, s)) :
    ((∃ items, (ofStream (.ofBuffer b)).parse.result = .ok items ∧
        (ofStream (.ofBuffer b)).parse.state.diagnostics = []) ↔
      Grammar.Derivable tokens.toList) ∧
    ∀ items, (ofStream (.ofBuffer b)).parse.result = .ok items →
      (ofStream (.ofBuffer b)).parse.state.diagnostics = [] →
      (∃ forms, Grammar.Sentence true tokens.toList forms) ∧
      (∀ forms, Grammar.Sentence true tokens.toList forms →
        items = forms.map Grammar.Form.item ∧
        ∀ form ∈ forms, ∀ f, form.item = .function f →
          (f.proto.name = "" ↔ ∃ e, form = .expression e)) ∧
      items.flatMap Item.leaves = tokens.toList.filterMap Token.leaf? := by
  obtain ⟨diagnostics, result⟩ := parse_of_all reads opened scans
  have closed := TokenStream.all_closed scans
  have spelled := TokenStream.all_spelled (TokenStream.ofBuffer_splits reads opened)
    (SymbolTable.faithful_seeded 0) scans
  refine ⟨⟨?_, ?_⟩, ?_⟩
  · rintro ⟨_, -, clean⟩
    rw [diagnostics] at clean
    exact (Grammar.program_clean_iff closed).mp clean
  · intro derivable
    exact ⟨_, result, diagnostics.trans ((Grammar.program_clean_iff closed).mpr derivable)⟩
  · intro items given clean
    rw [diagnostics] at clean
    rw [given, if_pos clean] at result
    have items_eq := Except.ok.inj result
    obtain ⟨forms, sentence⟩ := Grammar.exists_sentence_of_program closed clean
    refine ⟨⟨forms, sentence⟩, ?_, ?_⟩
    · intro forms' sentence'
      rw [items_eq, sentence'.reads]
      exact ⟨rfl, sentence'.name_eq_iff spelled⟩
    · rw [items_eq, sentence.reads]
      exact sentence.leaves spelled

/-- The name and the group behind it are one call. -/
theorem parse_iff_derivable_call :
    let r := ByteReader.ofBytes #[102, 10, 40, 120, 41]
    Reader.Delivers [102, 10, 40, 120, 41] r ∧ ∃ b tokens s, Buffer.new r "call" = .ok b ∧
      (TokenStream.ofBuffer b).all = (none, tokens, s) ∧
      ((∃ items, (ofStream (.ofBuffer b)).parse.result = .ok items ∧
          (ofStream (.ofBuffer b)).parse.state.diagnostics = []) ↔
        Grammar.Derivable tokens.toList) := by
  have reads := ByteReader.delivers #[102, 10, 40, 120, 41]
  obtain ⟨b, opened, splits⟩ := Buffer.new_splits reads "call"
  have text : TokenStream.Scans (sourceText [102, 10, 40, 120, 41]) :=
    .token (List.cons_ne_nil 'f' _) rfl (.token (List.cons_ne_nil '(' _) rfl
      (.token (List.cons_ne_nil 'x' _) rfl (.token (List.cons_ne_nil ')' _) rfl (.ended rfl))))
  obtain ⟨t, ended⟩ := TokenStream.exists_end_of_scans (s := .ofBuffer b) splits text
  have sound := TokenStream.all_of_end ended
  exact ⟨reads, b, _, _, opened, sound, (parse_iff_derivable reads opened sound).1⟩

end Parser

end

end Kaleidoscope
