import Kaleidoscope.Proofs.Token.Lookahead

/-!
# What a text is scanned to

The tokens of a text follow from the text and from the position at which it starts. Only the numbers
of their names depend on what was scanned before.
-/

namespace Kaleidoscope

/-! ## Names told by their spelling -/

def TokenKind.unnumbered : TokenKind → TokenKind
  | identifier name => .identifier ⟨name.spelling, 0⟩
  | kind => kind

/-- The token with its name, if it has one, told by the spelling alone. -/
def Token.unnumbered (t : Token) : Token := ⟨t.kind.unnumbered, t.pos⟩

def Tile.unnumbered (t : Tile) : Tile := ⟨t.token.unnumbered, t.stop⟩

@[simp] theorem Token.isEnd_unnumbered (t : Token) : t.unnumbered.isEnd = t.isEnd := by
  unfold isEnd unnumbered
  cases t.kind <;> rfl

theorem SymbolTable.Regular.intern_unnumbered {t t' : SymbolTable} (h : t.Regular)
    (h' : t'.Regular) (spelling : String) :
    (t.intern spelling).1.kind.unnumbered = (t'.intern spelling).1.kind.unnumbered := by
  by_cases reserved : ∃ k : Keyword, k.spelling = spelling
  · obtain ⟨k, rfl⟩ := reserved
    rw [h.stocked.intern_keyword, h'.stocked.intern_keyword]
  · have other : ∀ k : Keyword, k.spelling ≠ spelling := fun k same => reserved ⟨k, same⟩
    obtain ⟨name, eq, spelled⟩ := h.name_of_intern other
    obtain ⟨name', eq', spelled'⟩ := h'.name_of_intern other
    rw [eq, eq']
    simp only [Word.kind, TokenKind.unnumbered, spelled, spelled']

def Head.token (head : Head) (pos : Position) : Except ScanError Token :=
  (head.answer .empty pos).1.map fun kind => ⟨kind.unnumbered, pos⟩

theorem Head.answer_unnumbered {symbols : SymbolTable} (regular : symbols.Regular) (head : Head)
    (pos : Position) :
    ((head.answer symbols pos).1.map (⟨·, pos⟩)).map Token.unnumbered = head.token pos := by
  cases head with
  | word text =>
    have same := regular.intern_unnumbered (SymbolTable.regular_seeded 0) (String.ofList text)
    simp only [answer, token, Except.map, Token.unnumbered, same]
    rfl
  | _ => rfl

theorem Head.token_word {text : List Char} (other : ∀ k : Keyword, k.spelling ≠ String.ofList text)
    (pos : Position) :
    (Head.word text).token pos = .ok ⟨.identifier ⟨String.ofList text, 0⟩, pos⟩ := by
  obtain ⟨name, word, spelled⟩ := (SymbolTable.regular_seeded 0).name_of_intern other
  unfold Head.token Head.answer
  simp only [SymbolTable.empty, word, Word.kind, Except.map, TokenKind.unnumbered, spelled]

theorem Head.token_keyword {text : List Char} (k : Keyword) (spelled : String.ofList text = k.spelling)
    (pos : Position) : (Head.word text).token pos = .ok ⟨.keyword k, pos⟩ := by
  have word := (SymbolTable.stocked_seeded 0).intern_keyword k
  unfold Head.token Head.answer
  simp only [SymbolTable.empty, spelled, word, Word.kind, Except.map, TokenKind.unnumbered]

theorem Head.token_of_committed {head : Head} {pos : Position} {t : Token}
    (some : head.committed ≠ []) (found : head.token pos = .ok t) :
    head.pending = [] ∧ t.isEnd = false ∧ t.pos = pos := by
  obtain ⟨none, kind, answered, notEnd⟩ := head.answer_of_committed some .empty pos
  have eq : t = (⟨kind, pos⟩ : Token).unnumbered := by
    unfold token at found
    rw [answered] at found
    exact (Except.ok.inj found).symm
  rw [eq, Token.isEnd_unnumbered]
  exact ⟨none, notEnd, rfl⟩

theorem Head.answer_regular {symbols : SymbolTable} (regular : symbols.Regular) (head : Head)
    (pos : Position) : (head.answer symbols pos).2.Regular := by
  cases head with
  | word text => exact regular.intern (String.ofList text)
  | _ => exact regular

/-! ## Positions -/

namespace Position

def passing (p : Position) (cs : List Char) : Position := cs.foldl after p

theorem passing_append (p : Position) (cs ds : List Char) :
    p.passing (cs ++ ds) = (p.passing cs).passing ds :=
  List.foldl_append

theorem behind_concat (before : List Char) (c : Char) :
    behind (before ++ [c]) = (behind before).after c := by
  have there : (before ++ [c])[before.length]? = some c := by simp
  rw [← ofIndex_append before [c], ← ofIndex_succ there]
  unfold behind
  rw [List.length_append, List.length_singleton]

theorem behind_append (before cs : List Char) :
    behind (before ++ cs) = (behind before).passing cs := by
  induction cs generalizing before with
  | nil => rw [List.append_nil]; rfl
  | cons c cs ih => rw [List.append_cons, ih, behind_concat]; rfl

theorem behind_nil : behind [] = start := ofIndex_zero []

theorem behind_eq_passing (cs : List Char) : behind cs = start.passing cs := by
  rw [← List.nil_append cs, behind_append, behind_nil, List.nil_append]

end Position

/-! ## Scans -/

/-- The tokens before the end of a text with the places where they stop, and what comes last: the end
of the input or an error. -/
structure Scanned where
  tiles : List Tile
  last : Except ScanError Token

namespace Scanned

def cons (t : Tile) (r : Scanned) : Scanned := ⟨t :: r.tiles, r.last⟩

def tokens (r : Scanned) : List Token := r.tiles.map Tile.token ++ r.last.toOption.toList

def failure (r : Scanned) : Option ScanError :=
  match r.last with
  | .ok _ => none
  | .error e => some e

end Scanned

/-- The text `cs`, which starts at `p`, is scanned to `r`. -/
inductive Scan : Position → List Char → Scanned → Prop
  | ended {p : Position} {gap : List Char} (passes : afterGap false gap = []) :
    Scan p gap ⟨[], .ok (.endOfInput (p.passing gap))⟩
  | token {p : Position} {gap lexeme rest : List Char} {t : Token} {r : Scanned}
    (passes : afterGap false (gap ++ (lexeme ++ rest)) = lexeme ++ rest) (some : lexeme ≠ [])
    (committed : (Head.ofText (lexeme ++ rest)).committed = lexeme)
    (found : (Head.ofText (lexeme ++ rest)).token (p.passing gap) = .ok t)
    (more : Scan ((p.passing gap).passing lexeme) rest r) :
    Scan p (gap ++ (lexeme ++ rest)) (r.cons ⟨t, ((p.passing gap).passing lexeme).offset⟩)
  | failed {p : Position} {gap tail : List Char} {e : ScanError}
    (passes : afterGap false (gap ++ tail) = tail) (some : tail ≠ [])
    (found : (Head.ofText tail).token (p.passing gap) = .error e) :
    Scan p (gap ++ tail) ⟨[], .error e⟩

/-- A scan of a text of which the first token, and what is skipped before it, is spelled out. -/
theorem Scan.lexeme {p : Position} {rest : List Char} {t : Token} {r : Scanned} (gap : List Char)
    (c : Char) (cs : List Char) (passes : afterGap false (gap ++ (c :: cs ++ rest)) = c :: cs ++ rest)
    (committed : (Head.ofText (c :: cs ++ rest)).committed = c :: cs)
    (found : (Head.ofText (c :: cs ++ rest)).token (p.passing gap) = .ok t)
    (more : Scan ((p.passing gap).passing (c :: cs)) rest r) :
    Scan p (gap ++ (c :: cs ++ rest)) (r.cons ⟨t, ((p.passing gap).passing (c :: cs)).offset⟩) :=
  .token passes (List.cons_ne_nil c cs) committed found more

theorem exists_scan (p : Position) (cs : List Char) : ∃ r, Scan p cs r := by
  induction length : cs.length using Nat.strongRecOn generalizing p cs with
  | ind n ih =>
  subst length
  obtain ⟨gap, split⟩ := afterGap_suffix false cs
  generalize tail_eq : afterGap false cs = tail at split
  subst split
  have answers := Head.answer_cases (Head.ofText_fits tail) .empty (p.passing gap)
  rcases answers with ⟨rfl, head⟩ | ⟨some, -, kind, answered, -⟩ | ⟨some, e, answered, -⟩
  · rw [List.append_nil] at tail_eq ⊢
    exact ⟨_, .ended tail_eq⟩
  · obtain ⟨rest, here⟩ := Head.committed_prefix tail
    generalize lexeme_eq : (Head.ofText tail).committed = lexeme at some here
    subst here
    have shorter : rest.length < (gap ++ (lexeme ++ rest)).length := by
      have := List.length_pos_iff.mpr some
      simp only [List.length_append]
      omega
    obtain ⟨r, more⟩ := ih rest.length shorter ((p.passing gap).passing lexeme) rest rfl
    have found : (Head.ofText (lexeme ++ rest)).token (p.passing gap) =
        .ok (⟨kind, p.passing gap⟩ : Token).unnumbered := by
      unfold Head.token
      rw [answered]
      rfl
    exact ⟨_, .token tail_eq some lexeme_eq found more⟩
  · have found : (Head.ofText tail).token (p.passing gap) = .error e := by
      unfold Head.token
      rw [answered]
      rfl
    exact ⟨_, .failed tail_eq some found⟩

namespace TokenStream

section
variable {ρ : Type} [Reader ρ] {s : TokenStream ρ} {source : List UInt8} {before after : List Char}

/-- What a stream answers next, if the gap behind its cursor is known. -/
theorem next_of_gap {gap tail : List Char} (h : s.buffer.Splits source before [] (gap ++ tail))
    (regular : s.symbols.Regular) (passes : afterGap false (gap ++ tail) = tail) :
    ∃ result s' rest, s.next = (result, s') ∧ result.map Token.unnumbered =
        (Head.ofText tail).token ((Position.behind before).passing gap) ∧ s'.symbols.Regular ∧
      tail = (Head.ofText tail).committed ++ (Head.ofText tail).pending ++ rest ∧
      s'.buffer.Splits source (before ++ gap ++ (Head.ofText tail).committed)
        (Head.ofText tail).pending rest := by
  obtain ⟨gap', tail', b, rest, tail_eq, split, -, next, here, splits⟩ := next_splits h
  obtain rfl : tail' = tail := tail_eq.trans passes
  obtain rfl : gap = gap' := List.append_cancel_right split
  refine ⟨_, _, rest, next, ?_, Head.answer_regular regular _ _, here, splits⟩
  rw [Head.answer_unnumbered regular, Position.behind_append]

theorem ok_of_map {result : Except ScanError Token} {t : Token}
    (h : result.map Token.unnumbered = .ok t) : ∃ u, result = .ok u ∧ u.unnumbered = t := by
  cases result with
  | ok u => exact ⟨u, rfl, Except.ok.inj h⟩
  | error e => cases h

/-- A stream gives what the text behind its cursor is scanned to. -/
theorem tiles_of_scan {p : Position} {r : Scanned} (scan : Scan p after r)
    (h : s.buffer.Splits source before [] after) (start : p = .behind before)
    (regular : s.symbols.Regular) :
    s.tiles.1.map Tile.unnumbered = r.tiles ∧ s.tiles.2.1.map Token.unnumbered = r.last := by
  induction scan generalizing s before with
  | @ended p gap passes =>
    subst start
    rw [← List.append_nil gap] at h passes
    obtain ⟨result, s', rest, next, answer, -⟩ := next_of_gap h regular (by rw [passes])
    obtain ⟨t, rfl, eq⟩ := ok_of_map (t := .endOfInput ((Position.behind before).passing gap)) answer
    have ends : t.isEnd = true := by
      rw [← Token.isEnd_unnumbered, eq]
      rfl
    rw [tiles_eq, next]
    simp only [ends, if_true]
    exact ⟨rfl, answer⟩
  | @token p gap lexeme rest t r passes some committed found more ih =>
    subst start
    obtain ⟨result, s', rest', next, answer, regular', here, splits⟩ := next_of_gap h regular passes
    obtain ⟨none, notEnd, -⟩ := Head.token_of_committed (by rwa [committed]) found
    rw [found] at answer
    obtain ⟨u, rfl, eq⟩ := ok_of_map answer
    rw [committed, none, List.append_nil] at here
    rw [committed, none, ← List.append_cancel_left here] at splits
    -- the stream stops where the lexeme does, and so does the scan
    have stop : s'.buffer.pos = ((Position.behind before).passing gap).passing lexeme := by
      rw [splits.pos, List.append_nil, Position.behind_append, Position.behind_append]
    have more_start : ((Position.behind before).passing gap).passing lexeme =
        .behind (before ++ gap ++ lexeme) := by
      rw [Position.behind_append, Position.behind_append]
    obtain ⟨tiles, last⟩ := ih splits more_start regular'
    rw [← eq, Token.isEnd_unnumbered] at notEnd
    rw [tiles_eq, next]
    simp only [notEnd, if_neg Bool.false_ne_true, stop, List.map_cons, tiles, Scanned.cons]
    refine ⟨?_, last⟩
    rw [← eq]
    rfl
  | @failed p gap tail e passes some found =>
    subst start
    obtain ⟨result, s', rest, next, answer, -⟩ := next_of_gap h regular passes
    rw [found] at answer
    cases result with
    | ok t => cases answer
    | error e' =>
      rw [tiles_eq, next]
      exact ⟨rfl, answer⟩

theorem all_of_scan {r : Scanned} (scan : Scan (.behind before) after r)
    (h : s.buffer.Splits source before [] after) (regular : s.symbols.Regular) :
    s.all.1 = r.failure ∧ s.all.2.1.toList.map Token.unnumbered = r.tokens := by
  obtain ⟨tiles, last⟩ := tiles_of_scan scan h rfl regular
  rw [all_eq_tiles]
  unfold Scanned.failure Scanned.tokens
  rw [← tiles, ← last]
  generalize s.tiles = all
  obtain ⟨tiles, result, s'⟩ := all
  cases result with
  | ok t => simp [Except.map, Except.toOption, Tile.unnumbered]
  | error e => simp [Except.map, Except.toOption, Tile.unnumbered]

theorem all_of_source {r : ρ} {name : String} {b : Buffer ρ} {result : Scanned}
    (reads : Reader.Delivers source r) (opened : Buffer.new r name = .ok b)
    (scan : Scan .start (sourceText source) result) :
    (ofBuffer b).all.1 = result.failure ∧
      (ofBuffer b).all.2.1.toList.map Token.unnumbered = result.tokens := by
  rw [← Position.behind_nil] at scan
  exact all_of_scan scan (ofBuffer_splits reads opened) (SymbolTable.regular_seeded 0)

theorem exists_scan_of_sound {r : ρ} {name : String} {b : Buffer ρ}
    (reads : Reader.Delivers source r) (opened : Buffer.new r name = .ok b)
    (sound : (ofBuffer b).all.1 = none) :
    ∃ result t, Scan .start (sourceText source) result ∧ result.last = .ok t := by
  obtain ⟨result, scan⟩ := exists_scan .start (sourceText source)
  have fine : result.failure = none := (all_of_source reads opened scan).1.symm.trans sound
  obtain ⟨tiles, last⟩ := result
  cases last with
  | ok t => exact ⟨_, t, scan, rfl⟩
  | error e => cases fine

end

end TokenStream

end Kaleidoscope
