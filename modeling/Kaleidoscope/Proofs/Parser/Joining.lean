import Kaleidoscope.Proofs.Literal.Spelling
import Kaleidoscope.Proofs.Parser.Scan
import Kaleidoscope.Proofs.Token.Joining

/-!
# Sources joined by a semicolon

A semicolon on a line of its own separates two sources: what is wrong with the first is found before
it or at it, and the second is parsed as if it stood alone.
-/

namespace Kaleidoscope

/-! ## Tokens are shown without blanks -/

theorem SymbolTable.Regular.spelling_intern {symbols : SymbolTable} (h : symbols.Regular)
    (spelling : String) (pos : Position) :
    Token.spelling ⟨(symbols.intern spelling).1.kind, pos⟩ = spelling := by
  by_cases reserved : ∃ k : Keyword, k.spelling = spelling
  · obtain ⟨k, rfl⟩ := reserved
    rw [h.stocked.intern_keyword]
    rfl
  · have other : ∀ k : Keyword, k.spelling ≠ spelling := fun k same => reserved ⟨k, same⟩
    obtain ⟨name, eq, spelled⟩ := h.name_of_intern other
    rw [eq]
    exact spelled

/-- A token is shown as its lexeme is written, unless it is a number. -/
theorem Head.spelling_token {head : Head} {pos : Position} {t : Token}
    (found : head.token pos = .ok t) (some : head.committed ≠ []) :
    (∃ value, t.spelling = Literal.spell value) ∨ t.spelling.toList = head.committed := by
  cases head with
  | number form text =>
    cases found
    exact .inl ⟨_, rfl⟩
  | word text =>
    cases found
    have word := (SymbolTable.regular_seeded 0).spelling_intern (String.ofList text) pos
    have same : (⟨((SymbolTable.seeded 0).intern (String.ofList text)).1.kind, pos⟩ : Token).SameKind
        ⟨((SymbolTable.seeded 0).intern (String.ofList text)).1.kind.unnumbered, pos⟩ :=
      Token.moves_unnumbered.kind ⟨_, pos⟩
    right
    exact (congrArg String.toList (same.spelling.symm.trans word)).trans String.toList_ofList
  | punctuator text =>
    cases found
    exact .inr rfl
  | _ => exact absurd rfl some

theorem Head.blank_of_token {cs : List Char} {pos : Position} {t : Token}
    (found : (ofText cs).token pos = .ok t) (some : (ofText cs).committed ≠ []) :
    ' ' ∉ t.spelling.toList := by
  intro mem
  rcases spelling_token found some with ⟨value, number⟩ | written
  · rw [number] at mem
    exact absurd (Literal.spell_inside value ' ' mem) (by decide)
  · rw [written] at mem
    exact absurd (isBlank_of_committed ' ' mem) (by decide)

/-! ## The tokens of a scan -/

section
variable {p : Position} {cs : List Char} {r : Scanned} {t : Token}

theorem Scan.inside (h : Scan p cs r) :
    ∀ t ∈ r.tiles.map Tile.token, t.isEnd = false ∧ t.spelling ≠ "end of input" := by
  induction h with
  | ended => simp
  | failed => simp
  | token passes some committed found more ih =>
    rw [← committed] at some
    rw [Scanned.cons, List.map_cons, List.forall_mem_cons]
    refine ⟨⟨(Head.token_of_committed some found).2.1, ?_⟩, ih⟩
    intro shown
    apply Head.blank_of_token found some
    rw [shown]
    decide

theorem Scan.isEnd_of_last (h : Scan p cs r) (ends : r.last = .ok t) : t.isEnd = true := by
  induction h with
  | ended =>
    cases ends
    rfl
  | token _ _ _ _ _ ih => exact ih ends
  | failed => cases ends

theorem Scan.of_semicolon (h : Scan (p.passing ['\n', ';', '\n']) cs r) :
    Scan p ('\n' :: ';' :: '\n' :: cs) (r.cons
      ⟨⟨.punctuator ";", p.passing ['\n']⟩, ((p.passing ['\n']).passing [';']).offset⟩) := by
  have short : firstOf Punctuator.long (';' :: '\n' :: cs) = none :=
    firstOf_long_of_head (by decide +kernel) _
  have head : Head.ofText (';' :: '\n' :: cs) = .punctuator ";" :=
    ofText_punctuator (by decide) (by decide) (by decide) short
  have behind : Scan ((p.passing ['\n']).passing [';']) ('\n' :: cs) r := by
    have apart : Scan (((p.passing ['\n']).passing [';']).passing ['\n']) cs r := by
      rw [← Position.passing_append, ← Position.passing_append]
      exact h
    exact apart.behind_gap rfl
  refine @Scan.token p ['\n'] [';'] ('\n' :: cs) _ r rfl (List.cons_ne_nil _ _) ?_ ?_ behind
  · rw [List.singleton_append, head]
    rfl
  · rw [List.singleton_append, head]
    rfl

end

/-! ## Results without a lexical error -/

theorem Scanned.result_of_last {r : Scanned} {t : Token} (ends : r.last = .ok t) :
    r.result = .ok (if r.program.diagnostics = [] then r.program.items else []) := by
  unfold result failure
  rw [ends]
  cases r.program.complete <;> rfl

theorem Token.moves_below (text : List Char) :
    Grammar.Moves (Token.below text) (Position.below text) :=
  ⟨fun _ => rfl, fun _ => rfl⟩

theorem Scanned.program_below (text : List Char) (r : Scanned) :
    (r.below text).program = r.program.moved (Position.below text) := by
  unfold program
  rw [tokens_below, Grammar.program_map (Token.moves_below text)]

def Token.semicolonBehind (text : List Char) : Token :=
  ⟨.punctuator ";", Position.start.below (text ++ ['\n'])⟩

theorem exists_scan_joined {first second : List Char} {r r' : Scanned} {t t' : Token}
    (scan : Scan .start first r) (ends : r.last = .ok t) (scan' : Scan .start second r')
    (ends' : r'.last = .ok t') :
    ∃ r'' t'', Scan .start (first ++ ['\n', ';', '\n'] ++ second) r'' ∧ r''.last = .ok t'' ∧
      r''.program = r.program.followedBy (.semicolonBehind first)
        (r'.program.moved (.below (first ++ ['\n', ';', '\n']))) := by
  have closed : (first ++ ['\n', ';', '\n']).getLast? = some '\n' := by
    rw [List.getLast?_append]
    rfl
  have behind := scan'.behind_lines (.inr closed)
  rw [Position.passing_append] at behind
  have there : (Position.start.passing first).passing ['\n'] =
      Position.start.below (first ++ ['\n']) := by
    rw [← Position.passing_append, ← Position.behind_eq_passing, Position.behind_eq_below]
    exact .inr List.getLast?_concat
  have joined := scan.append ends (.inr (.inr rfl)) behind.of_semicolon
  rw [there] at joined
  rw [List.append_assoc]
  have last : (r'.below (first ++ ['\n', ';', '\n'])).last =
      .ok (t'.below (first ++ ['\n', ';', '\n'])) := by
    unfold Scanned.below
    rw [ends']
    rfl
  refine ⟨_, _, joined, last, ?_⟩
  rw [← Scanned.program_below]
  have semicolon : (Token.semicolonBehind first).isPunctuator ";" = true := beq_self_eq_true ";"
  apply Grammar.program_followedBy (scan.isEnd_of_last ends) semicolon
  refine ⟨r.tiles.map Tile.token, fun t mem => (scan.inside t mem).1,
    fun t mem => (scan.inside t mem).2, Scanned.tokens_of_last ends, ?_⟩
  rw [Scanned.tokens_append]
  rfl

namespace Parser

section
variable {ρ ρ' ρ'' : Type} [Reader ρ] [Reader ρ'] [Reader ρ''] {first second : List UInt8} {r : ρ}
  {r' : ρ'} {r'' : ρ''} {name name' : String} {b : Buffer ρ} {b' : Buffer ρ'}

/-- Two sources joined by a semicolon have the diagnostics of both, and the items of both if there are
none. What the first one misses at its end is missed at the semicolon. -/
theorem parse_joined (reads : Reader.Delivers first r) (opened : Buffer.new r name = .ok b)
    (reads' : Reader.Delivers second r') (opened' : Buffer.new r' name' = .ok b')
    (reads'' : Reader.Delivers (first ++ [10, 59, 10] ++ second) r'') (name'' : String)
    (sound : (TokenStream.ofBuffer b).all.1 = none)
    (sound' : (TokenStream.ofBuffer b').all.1 = none) :
    ∃ b'' items items' items'', Buffer.new r'' name'' = .ok b'' ∧
      (ofStream (.ofBuffer b)).parse.result = .ok items ∧
      (ofStream (.ofBuffer b')).parse.result = .ok items' ∧
      (ofStream (.ofBuffer b'')).parse.result = .ok items'' ∧
      (ofStream (.ofBuffer b'')).parse.state.diagnostics =
        (ofStream (.ofBuffer b)).parse.state.diagnostics.map
            (SyntaxError.closedBy (.semicolonBehind (sourceText first))) ++
          (ofStream (.ofBuffer b')).parse.state.diagnostics.map
            (SyntaxError.moved (.below (sourceText (first ++ [10, 59, 10])))) ∧
      ((ofStream (.ofBuffer b)).parse.state.diagnostics = [] →
        (ofStream (.ofBuffer b')).parse.state.diagnostics = [] → items'' = items ++ items') := by
  obtain ⟨s, t, scan, ends⟩ := TokenStream.exists_scan_of_sound reads opened sound
  obtain ⟨s', t', scan', ends'⟩ := TokenStream.exists_scan_of_sound reads' opened' sound'
  obtain ⟨s'', t'', joined, ends'', program⟩ := exists_scan_joined scan ends scan' ends'
  have text : sourceText first ++ ['\n', ';', '\n'] = sourceText (first ++ [10, 59, 10]) :=
    (sourceText_append first [10, 59, 10]).symm
  rw [text] at program
  rw [text, ← sourceText_append] at joined
  obtain ⟨b'', opened'', -⟩ := Buffer.new_splits reads'' name''
  obtain ⟨result, diagnostics⟩ := parse_of_source reads opened scan
  obtain ⟨result', diagnostics'⟩ := parse_of_source reads' opened' scan'
  obtain ⟨result'', diagnostics''⟩ := parse_of_source reads'' opened'' joined
  rw [Scanned.result_of_last ends] at result
  rw [Scanned.result_of_last ends'] at result'
  rw [Scanned.result_of_last ends''] at result''
  refine ⟨b'', _, _, _, opened'', result, result', result'', ?_, ?_⟩
  · rw [diagnostics'', program, diagnostics, diagnostics']
    rfl
  · rw [diagnostics, diagnostics']
    intro clean clean'
    have clean'' : s''.program.diagnostics = [] := by
      rw [program]
      simp [Grammar.Program.followedBy, Grammar.Program.moved, clean, clean']
    rw [if_pos clean, if_pos clean', if_pos clean'', program]
    rfl

/-- The first source ends before its parameters do, the second has a parenthesis too many. -/
theorem parse_joined_faults :
    let first : Array UInt8 := #[100, 101, 102, 32, 102, 40]
    let second : Array UInt8 := #[49, 41]
    let joined : Array UInt8 := first ++ #[10, 59, 10] ++ second
    let r := ByteReader.ofBytes first
    let r' := ByteReader.ofBytes second
    let r'' := FaultyReader.ofBytes joined ⟨some 4, 3, none, false⟩ none
    Reader.Delivers first.toList r ∧ Reader.Delivers second.toList r' ∧
      Reader.Delivers (first.toList ++ [10, 59, 10] ++ second.toList) r'' ∧
      ∃ b b' b'' items'', Buffer.new r "first" = .ok b ∧ Buffer.new r' "second" = .ok b' ∧
      (TokenStream.ofBuffer b).all.1 = none ∧ (TokenStream.ofBuffer b').all.1 = none ∧
      Buffer.new r'' "joined" = .ok b'' ∧ (ofStream (.ofBuffer b'')).parse.result = .ok items'' ∧
      (ofStream (.ofBuffer b'')).parse.state.diagnostics =
        (ofStream (.ofBuffer b)).parse.state.diagnostics.map
            (SyntaxError.closedBy (.semicolonBehind (sourceText first.toList))) ++
          (ofStream (.ofBuffer b')).parse.state.diagnostics.map
            (SyntaxError.moved (.below (sourceText (first.toList ++ [10, 59, 10])))) := by
  have reads := ByteReader.delivers #[100, 101, 102, 32, 102, 40]
  have reads' := ByteReader.delivers #[49, 41]
  have reads'' := FaultyReader.delivers #[100, 101, 102, 32, 102, 40, 10, 59, 10, 49, 41]
    ⟨some 4, 3, none, false⟩ none rfl rfl (by decide)
  obtain ⟨b, opened, splits⟩ := Buffer.new_splits reads "first"
  obtain ⟨b', opened', splits'⟩ := Buffer.new_splits reads' "second"
  have text : TokenStream.Scans (sourceText [100, 101, 102, 32, 102, 40]) :=
    .token (List.cons_ne_nil 'd' _) rfl (.token (List.cons_ne_nil 'f' _) rfl
      (.token (List.cons_ne_nil '(' _) rfl (.ended rfl)))
  have text' : TokenStream.Scans (sourceText [49, 41]) :=
    .token (List.cons_ne_nil '1' _) rfl (.token (List.cons_ne_nil ')' _) rfl (.ended rfl))
  obtain ⟨t, ended⟩ := TokenStream.exists_end_of_scans (s := .ofBuffer b) splits text
  obtain ⟨t', ended'⟩ := TokenStream.exists_end_of_scans (s := .ofBuffer b') splits' text'
  have sound : (TokenStream.ofBuffer b).all.1 = none := by rw [TokenStream.all_of_end ended]
  have sound' : (TokenStream.ofBuffer b').all.1 = none := by rw [TokenStream.all_of_end ended']
  obtain ⟨b'', items, items', items'', opened'', -, -, result'', diagnostics, -⟩ :=
    parse_joined reads opened reads' opened' reads'' "joined" sound sound'
  exact ⟨reads, reads', reads'', b, b', b'', items'', opened, opened', sound, sound', opened'',
    result'', diagnostics⟩

end

end Parser

end Kaleidoscope
