import Kaleidoscope.Proofs.Token.Scan

/-!
# Texts joined at a line

A text whose last line is closed can be scanned on its own: what stands behind it is scanned as if it
stood alone, and only its positions are others.
-/

namespace Kaleidoscope

/-! ## Below another text -/

/-- Where the position `p` of a text comes to be if the lines of `text` are put before it. -/
def Position.below (text : List Char) (p : Position) : Position :=
  ⟨p.line + text.count '\n', p.column, p.offset + text.length⟩

def Token.below (text : List Char) (t : Token) : Token := ⟨t.kind, t.pos.below text⟩

def Tile.below (text : List Char) (t : Tile) : Tile := ⟨t.token.below text, t.stop + text.length⟩

def ScanError.below (text : List Char) : ScanError → ScanError
  | lexemeTooLong start => .lexemeTooLong (start.below text)
  | unexpectedCharacter c pos => .unexpectedCharacter c (pos.below text)
  | invalidNumber shown start => .invalidNumber shown (start.below text)
  | e => e

def Scanned.below (text : List Char) (r : Scanned) : Scanned where
  tiles := r.tiles.map (Tile.below text)
  last := (r.last.map (Token.below text)).mapError (ScanError.below text)

namespace Scanned

def append (r r' : Scanned) : Scanned := ⟨r.tiles ++ r'.tiles, r'.last⟩

theorem tokens_append (r r' : Scanned) :
    (r.append r').tokens = r.tiles.map Tile.token ++ r'.tokens := by
  unfold append tokens
  rw [List.map_append, List.append_assoc]

theorem failure_append (r r' : Scanned) : (r.append r').failure = r'.failure := rfl

theorem tokens_of_last {r : Scanned} {t : Token} (ends : r.last = .ok t) :
    r.tokens = r.tiles.map Tile.token ++ [t] := by
  unfold tokens
  rw [ends]
  rfl

end Scanned

theorem sourceText_append (first second : List UInt8) :
    sourceText (first ++ second) = sourceText first ++ sourceText second :=
  List.map_append

section
variable {text gap cs rest : List Char} {p : Position} {t : Token} {r r' : Scanned}

theorem Position.below_after (p : Position) (c : Char) :
    (p.after c).below text = (p.below text).after c := by
  unfold after below
  by_cases newline : c = '\n'
  · simp only [if_pos newline, Nat.add_right_comm]
  · simp only [if_neg newline, Nat.add_right_comm]

theorem Position.below_passing (p : Position) (cs : List Char) :
    (p.passing cs).below text = (p.below text).passing cs := by
  induction cs generalizing p with
  | nil => rfl
  | cons c cs ih =>
    unfold passing at ih ⊢
    rw [List.foldl_cons, List.foldl_cons, ih, below_after]

theorem Position.behind_eq_below (closed : text = [] ∨ text.getLast? = some '\n') :
    behind text = start.below text := by
  unfold behind ofIndex below start
  rw [List.take_length]
  rcases closed with rfl | last
  · rfl
  · obtain ⟨lines, rfl⟩ := List.getLast?_eq_some_iff.mp last
    rw [lineStart_newline]
    simp

theorem Head.token_below (head : Head) (p : Position) :
    head.token (p.below text) =
      ((head.token p).map (Token.below text)).mapError (ScanError.below text) := by
  cases head <;> rfl

theorem Scanned.failure_below (r : Scanned) :
    (r.below text).failure = r.failure.map (ScanError.below text) := by
  obtain ⟨tiles, last⟩ := r
  cases last <;> rfl

theorem Scanned.tokens_below (r : Scanned) :
    (r.below text).tokens = r.tokens.map (Token.below text) := by
  obtain ⟨tiles, last⟩ := r
  cases last <;>
    simp [below, tokens, Except.map, Except.mapError, Except.toOption, Tile.below]

theorem Scan.move_below (h : Scan p cs r) (text : List Char) : Scan (p.below text) cs (r.below text) := by
  induction h with
  | @ended p gap passes =>
    have last := Scan.ended (p := p.below text) passes
    rw [← Position.below_passing] at last
    exact last
  | token passes some committed found _ ih =>
    rw [Position.below_passing, Position.below_passing] at ih
    have below := Scan.token passes some committed (by
      rw [← Position.below_passing, Head.token_below, found]
      rfl) ih
    rw [← Position.below_passing, ← Position.below_passing] at below
    exact below
  | failed passes some found =>
    apply Scan.failed passes some
    rw [← Position.below_passing, Head.token_below, found]
    rfl

theorem Scan.behind_lines (h : Scan .start cs r) (closed : text = [] ∨ text.getLast? = some '\n') :
    Scan (Position.start.passing text) cs (r.below text) := by
  rw [← Position.behind_eq_passing, Position.behind_eq_below closed]
  exact h.move_below text

/-! ## One text behind another -/

def OnNewLine (cs rest : List Char) : Prop :=
  cs = [] ∨ cs.getLast? = some '\n' ∨ rest.head? = some '\n'

theorem OnNewLine.of_append (h : OnNewLine (cs ++ gap) rest) : OnNewLine gap rest := by
  rcases h with none | last | head
  · exact .inl (List.append_eq_nil_iff.mp none).2
  · by_cases none : gap = []
    · exact .inl none
    · rw [List.getLast?_append_of_ne_nil _ none] at last
      exact .inr (.inl last)
  · exact .inr (.inr head)

theorem afterGap_of_ended {comment : Bool} (passes : afterGap comment cs = [])
    (lines : OnNewLine cs rest) (outside : cs = [] → comment = true → rest.head? = some '\n') :
    afterGap comment (cs ++ rest) = afterGap false rest := by
  induction cs generalizing comment with
  | nil =>
    cases comment with
    | false => rfl
    | true =>
      obtain ⟨more, rfl⟩ := List.head?_eq_some_iff.mp (outside rfl rfl)
      rfl
  | cons c cs ih =>
    rcases afterGap_step comment c with ⟨comment', newline, passed⟩ | ended
    · rw [List.cons_append, passed]
      rw [passed] at passes
      have inner : OnNewLine cs rest := OnNewLine.of_append (show OnNewLine ([c] ++ cs) rest from lines)
      apply ih passes inner
      intro none inside
      subst none
      rcases lines with none | last | head
      · cases none
      · have same : c = '\n' := Option.some.inj last
        rw [newline same] at inside
        cases inside
      · exact head
    · rw [ended] at passes
      cases passes

theorem Scan.behind_gap (h : Scan (p.passing gap) rest r)
    (passes : afterGap false (gap ++ rest) = afterGap false rest) : Scan p (gap ++ rest) r := by
  generalize start : p.passing gap = q at h
  cases h with
  | ended ended =>
    subst start
    rw [← Position.passing_append]
    exact .ended (passes.trans ended)
  | token there some committed found more =>
    subst start
    rw [← Position.passing_append p] at found more ⊢
    rw [← List.append_assoc] at passes ⊢
    exact .token (passes.trans there) some committed found more
  | failed there some found =>
    subst start
    rw [← Position.passing_append] at found
    rw [← List.append_assoc] at passes ⊢
    exact .failed (passes.trans there) some found

/-- Behind a text that ends without an error, a text on a line of its own is scanned as it stands. -/
theorem Scan.append (h : Scan p cs r) (ends : r.last = .ok t) (lines : OnNewLine cs rest)
    (more : Scan (p.passing cs) rest r') : Scan p (cs ++ rest) (r.append r') := by
  induction h with
  | ended passes =>
    apply more.behind_gap
    apply afterGap_of_ended passes lines
    intro _ inside
    cases inside
  | @token p gap lexeme cs t' r passes some committed found _ ih =>
    rw [Position.passing_append, Position.passing_append] at more
    have inner : OnNewLine (lexeme ++ cs) rest := lines.of_append
    have behind := ih ends inner.of_append more
    have follows : Follows cs (cs ++ rest) := by
      cases cs with
      | cons c cs => exact .inl rfl
      | nil =>
        -- no lexeme ends with a newline, so the line is closed behind it
        rw [List.append_nil] at inner committed
        rcases inner with none | last | head
        · exact absurd none some
        · have inside : '\n' ∈ (Head.ofText lexeme).committed := by
            rw [committed]
            exact List.mem_of_getLast? last
          exact absurd (Head.isBlank_of_committed '\n' inside) (by decide)
        · obtain ⟨others, rfl⟩ := List.head?_eq_some_iff.mp head
          exact .inr (show '\n' ∈ separators by decide)
    have head := Head.ofText_follows some committed follows
    have passes' : afterGap false (gap ++ (lexeme ++ (cs ++ rest))) = lexeme ++ (cs ++ rest) := by
      have here := afterGap_append (List.append_ne_nil_of_left_ne_nil some cs) passes
      have first := (here (lexeme ++ cs)).symm.trans passes
      rw [here, afterGap_lexeme some first]
    rw [List.append_assoc, List.append_assoc]
    exact .token passes' some (by rw [head, committed]) (by rw [head, found]) behind
  | failed => cases ends

end

namespace TokenStream

section
variable {ρ ρ' ρ'' : Type} [Reader ρ] [Reader ρ'] [Reader ρ''] {first second : List UInt8} {r : ρ}
  {r' : ρ'} {r'' : ρ''} {name name' : String} {b : Buffer ρ} {b' : Buffer ρ'}

/-- Scanning a source that ends with a newline, and another one behind it, gives the tokens of the
first without its end and what scanning the second gives, moved below the first. -/
theorem all_joined (reads : Reader.Delivers first r) (opened : Buffer.new r name = .ok b)
    (reads' : Reader.Delivers second r') (opened' : Buffer.new r' name' = .ok b')
    (reads'' : Reader.Delivers (first ++ second) r'') (name'' : String)
    (newline : first.getLast? = some 10) (sound : (ofBuffer b).all.1 = none) :
    ∃ b'', Buffer.new r'' name'' = .ok b'' ∧
      (ofBuffer b'').all.1 = (ofBuffer b').all.1.map (ScanError.below (sourceText first)) ∧
      (ofBuffer b'').all.2.1.toList.map Token.unnumbered =
        ((ofBuffer b).all.2.1.toList.dropLast ++
          (ofBuffer b').all.2.1.toList.map (Token.below (sourceText first))).map Token.unnumbered := by
  obtain ⟨r₁, t, scan, ends⟩ := exists_scan_of_sound reads opened sound
  obtain ⟨r₂, scan'⟩ := exists_scan .start (sourceText second)
  obtain ⟨-, tokens⟩ := all_of_source reads opened scan
  obtain ⟨failure', tokens'⟩ := all_of_source reads' opened' scan'
  have closed : (sourceText first).getLast? = some '\n' := by
    rw [sourceText, List.getLast?_map, newline]
    rfl
  have joined := scan.append ends (.inr (.inl closed)) (scan'.behind_lines (.inr closed))
  rw [← sourceText_append] at joined
  obtain ⟨b'', opened'', -⟩ := Buffer.new_splits reads'' name''
  obtain ⟨failure'', tokens''⟩ := all_of_source reads'' opened'' joined
  refine ⟨b'', opened'', ?_, ?_⟩
  · rw [failure'', failure', Scanned.failure_append, Scanned.failure_below]
  · have front : (ofBuffer b).all.2.1.toList.dropLast.map Token.unnumbered =
        r₁.tiles.map Tile.token := by
      rw [List.map_dropLast, tokens, Scanned.tokens_of_last ends, List.dropLast_concat]
    have back : ((ofBuffer b').all.2.1.toList.map (Token.below (sourceText first))).map
        Token.unnumbered = r₂.tokens.map (Token.below (sourceText first)) := by
      rw [← tokens', List.map_map, List.map_map]
      rfl
    rw [tokens'', Scanned.tokens_append, Scanned.tokens_below, List.map_append, front, back]

/-- The second source ends with a number without digits. -/
theorem all_joined_malformed :
    let first : Array UInt8 := #[97, 59, 35, 10]
    let second : Array UInt8 := #[60, 61, 48, 120, 103]
    let r := ByteReader.ofBytes first
    let r' := ByteReader.ofBytes second
    let r'' := FaultyReader.ofBytes (first ++ second) ⟨some 3, 2, none, false⟩ none
    Reader.Delivers first.toList r ∧ Reader.Delivers second.toList r' ∧
      Reader.Delivers (first.toList ++ second.toList) r'' ∧ first.toList.getLast? = some 10 ∧
      ∃ b b' b'', Buffer.new r "first" = .ok b ∧ Buffer.new r' "second" = .ok b' ∧
      Buffer.new r'' "joined" = .ok b'' ∧ (ofBuffer b).all.1 = none ∧
      (ofBuffer b'').all.1 =
        (ofBuffer b').all.1.map (ScanError.below (sourceText first.toList)) ∧
      (ofBuffer b'').all.2.1.toList.map Token.unnumbered =
        ((ofBuffer b).all.2.1.toList.dropLast ++ (ofBuffer b').all.2.1.toList.map
          (Token.below (sourceText first.toList))).map Token.unnumbered := by
  have reads := ByteReader.delivers #[97, 59, 35, 10]
  have reads' := ByteReader.delivers #[60, 61, 48, 120, 103]
  have reads'' := FaultyReader.delivers #[97, 59, 35, 10, 60, 61, 48, 120, 103]
    ⟨some 3, 2, none, false⟩ none rfl rfl (by decide)
  obtain ⟨b, opened, splits⟩ := Buffer.new_splits reads "first"
  obtain ⟨b', opened', -⟩ := Buffer.new_splits reads' "second"
  have text : Scans (sourceText [97, 59, 35, 10]) :=
    .token (List.cons_ne_nil 'a' _) rfl (.token (List.cons_ne_nil ';' _) rfl (.ended rfl))
  obtain ⟨t, ended⟩ := exists_end_of_scans (s := .ofBuffer b) splits text
  have sound : (ofBuffer b).all.1 = none := by rw [all_of_end ended]
  obtain ⟨b'', opened'', failure, tokens⟩ :=
    all_joined reads opened reads' opened' reads'' "joined" rfl sound
  exact ⟨reads, reads', reads'', rfl, b, b', b'', opened, opened', opened'', sound, failure, tokens⟩

end

end TokenStream

end Kaleidoscope
