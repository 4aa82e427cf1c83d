import Kaleidoscope.Proofs.Symbols
import Kaleidoscope.Proofs.Token.Kind
import Kaleidoscope.Proofs.Token.Tiling

/-!
# Two streams over one source

Streams that stand at one place of the same source, with the same names, give the same tokens. What
all tokens of a stream are follows from its tiles.
-/

namespace Kaleidoscope

theorem Head.pending_of_ok {symbols symbols' : SymbolTable} {pos : Position} {head : Head}
    {kind : TokenKind} (h : head.answer symbols pos = (.ok kind, symbols')) : head.pending = [] := by
  cases head with
  | tooLong => cases h
  | malformed => cases h
  | _ => rfl

theorem Head.answer_spelled {symbols : SymbolTable} (cs : List Char) (faithful : symbols.Faithful)
    (pos : Position) :
    ((Head.ofText cs).answer symbols pos).2.Faithful ∧
      ∀ name, ((Head.ofText cs).answer symbols pos).1 = .ok (.identifier name) →
        IsWord name.spelling := by
  cases head : Head.ofText cs with
  | word text =>
    obtain ⟨faithful', spelled⟩ := faithful.intern (String.ofList text)
    refine ⟨faithful', ?_⟩
    intro name eq
    have found : (symbols.intern (String.ofList text)).1 = .name name := by
      simp only [Head.answer, Except.ok.injEq] at eq
      cases word : (symbols.intern (String.ofList text)).1 with
      | name n =>
        rw [word] at eq
        injection eq with same
        rw [same]
      | keyword k =>
        rw [word] at eq
        cases eq
    rw [spelled name found]
    exact Head.isWord_of_ofText head
  | _ => exact ⟨faithful, by simp [Head.answer]⟩

namespace TokenStream

/-! ## Streams at one place -/

/-- Both streams stand at one place of the same source, and know the same names. -/
def Alike {ρ ρ' : Type} [Reader ρ] [Reader ρ'] (s : TokenStream ρ) (s' : TokenStream ρ') : Prop :=
  s.symbols = s'.symbols ∧ ∃ source before after,
    s.buffer.Splits source before [] after ∧ s'.buffer.Splits source before [] after

section
variable {ρ ρ' : Type} [Reader ρ] [Reader ρ'] {s : TokenStream ρ} {s' : TokenStream ρ'}

theorem Alike.next (h : Alike s s') :
    s.next.1 = s'.next.1 ∧ ∀ t, s.next.1 = .ok t → Alike s.next.2 s'.next.2 := by
  obtain ⟨symbols, source, before, after, splits, splits'⟩ := h
  obtain ⟨gap, tail, b, rest, tail_eq, split, -, eq, here, passed⟩ := next_splits splits
  obtain ⟨gap', tail', b', rest', tail_eq', split', -, eq', here', passed'⟩ := next_splits splits'
  -- The gap, the head and what it commits follow from the text, which both streams share.
  obtain rfl : tail = tail' := tail_eq.trans tail_eq'.symm
  obtain rfl : gap = gap' := List.append_cancel_right (split.symm.trans split')
  obtain rfl : rest = rest' := List.append_cancel_left (here.symm.trans here')
  rw [eq, eq', ← symbols]
  refine ⟨rfl, ?_⟩
  intro t ok
  cases answered : (Head.ofText tail).answer s.symbols (.behind (before ++ gap)) with
  | mk result names =>
    cases result with
    | error e =>
      rw [answered] at ok
      cases ok
    | ok kind =>
      rw [Head.pending_of_ok answered] at passed passed'
      exact ⟨rfl, source, _, rest, passed, passed'⟩

theorem Alike.pos (h : Alike s s') : s.buffer.pos = s'.buffer.pos := by
  obtain ⟨-, source, before, after, splits, splits'⟩ := h
  rw [splits.pos, splits'.pos]

theorem Alike.tiles (h : Alike s s') : s.tiles.1 = s'.tiles.1 ∧ s.tiles.2.1 = s'.tiles.2.1 := by
  fun_induction TokenStream.tiles s generalizing s' with
  | case1 s e s₁ next =>
    obtain ⟨same, -⟩ := h.next
    rw [next] at same
    rw [tiles_eq s', ← Prod.eta s'.next, ← same]
    exact ⟨rfl, rfl⟩
  | case2 s t s₁ next more _ ih =>
    obtain ⟨same, behind⟩ := h.next
    rw [next] at same behind
    have alike : Alike s₁ s'.next.2 := behind t rfl
    obtain ⟨tiles, last⟩ := ih alike
    rw [tiles_eq s', ← Prod.eta s'.next, ← same]
    simp only [more, alike.pos, tiles, last]
    exact ⟨rfl, rfl⟩
  | case3 s t s₁ next ended =>
    obtain ⟨same, -⟩ := h.next
    rw [next] at same
    rw [Bool.not_eq_false] at ended
    rw [tiles_eq s', ← Prod.eta s'.next, ← same]
    simp only [ended]
    exact ⟨rfl, rfl⟩

end

/-! ## All tokens -/

section
variable {ρ : Type} [Reader ρ]

theorem feed_eq {τ : Type} (step : τ → Token → Option ScanError × τ) (acc : τ) (s : TokenStream ρ) :
    s.feed step acc =
      match s.next with
      | (.error e, s') => (some e, acc, s')
      | (.ok t, s') =>
        match step acc t with
        | (some e, acc') => (some e, acc', s')
        | (none, acc') => if t.isEnd then (none, acc', s') else s'.feed step acc' := by
  rw [feed]
  split
  · rename_i next
    rw [next]
  · rename_i t s' next
    simp only [next]
    generalize step acc t = stepped
    obtain ⟨failure, acc'⟩ := stepped
    cases failure with
    | some e => rfl
    | none => cases t.isEnd <;> rfl

/-- A step that never fails is handed every token. -/
theorem feed_of_works {τ : Type} {step : τ → Token → Option ScanError × τ}
    (works : ∀ acc t, (step acc t).1 = none) (s : TokenStream ρ) (acc : τ) :
    s.feed step acc =
      match s.tiles with
      | (tiles, .ok t, s') =>
        (none, (tiles.map Tile.token ++ [t]).foldl (fun acc t => (step acc t).2) acc, s')
      | (tiles, .error e, s') =>
        (some e, (tiles.map Tile.token).foldl (fun acc t => (step acc t).2) acc, s') := by
  have stepped (acc : τ) (t : Token) : step acc t = (none, (step acc t).2) :=
    Prod.ext (works acc t) rfl
  fun_induction TokenStream.tiles s generalizing acc with
  | case1 s e s₁ next =>
    rw [feed_eq, next]
    simp
  | case2 s t s₁ next more _ ih =>
    rw [feed_eq, next]
    dsimp only
    rw [stepped]
    simp only [more]
    rw [if_neg Bool.false_ne_true, ih]
    generalize s₁.tiles = all
    obtain ⟨tiles, result, s₂⟩ := all
    cases result <;> simp
  | case3 s t s₁ next ended =>
    rw [Bool.not_eq_false] at ended
    rw [feed_eq, next]
    dsimp only
    rw [stepped]
    simp [ended]

theorem all_eq_tiles (s : TokenStream ρ) :
    s.all =
      match s.tiles with
      | (tiles, .ok t, s') => (none, (tiles.map Tile.token ++ [t]).toArray, s')
      | (tiles, .error e, s') => (some e, (tiles.map Tile.token).toArray, s') := by
  unfold all
  rw [feed_of_works (fun _ _ => rfl) s #[]]
  generalize s.tiles = all
  obtain ⟨tiles, result, s'⟩ := all
  cases result <;> simp

theorem Alike.all {ρ' : Type} [Reader ρ'] {s : TokenStream ρ} {s' : TokenStream ρ'}
    (h : Alike s s') : s.all.1 = s'.all.1 ∧ s.all.2.1 = s'.all.2.1 := by
  obtain ⟨tiles, last⟩ := h.tiles
  rw [all_eq_tiles, all_eq_tiles, ← Prod.eta s.tiles, ← Prod.eta s'.tiles, ← Prod.eta s.tiles.2,
    ← Prod.eta s'.tiles.2, tiles, last]
  cases s'.tiles.2.1 <;> exact ⟨rfl, rfl⟩

theorem tiles_isEnd (s : TokenStream ρ) :
    (∀ tile ∈ s.tiles.1, tile.token.isEnd = false) ∧ ∀ t, s.tiles.2.1 = .ok t → t.isEnd = true := by
  fun_induction tiles s with
  | case1 => simp
  | case2 s t s' next more _ ih => exact ⟨List.forall_mem_cons.mpr ⟨more, ih.1⟩, ih.2⟩
  | case3 s t s' next ended =>
    rw [Bool.not_eq_false] at ended
    refine ⟨by simp, ?_⟩
    intro u eq
    rwa [← Except.ok.inj eq]

variable {s : TokenStream ρ} {source : List UInt8} {before after : List Char}

/-- A token that is found leaves the stream at a committed place, and a name is a word. -/
theorem next_ok {t : Token} {s' : TokenStream ρ} (h : s.buffer.Splits source before [] after)
    (faithful : s.symbols.Faithful) (next : s.next = (.ok t, s')) :
    (∃ before' rest, s'.buffer.Splits source before' [] rest) ∧ s'.symbols.Faithful ∧
      ∀ name, t.name? = some name → IsWord name.spelling := by
  obtain ⟨gap, tail, b, rest, -, -, -, eq, -, splits⟩ := next_splits h
  have spelled := Head.answer_spelled tail faithful (.behind (before ++ gap))
  rw [next] at eq
  cases answered : (Head.ofText tail).answer s.symbols (.behind (before ++ gap)) with
  | mk result names =>
    rw [answered] at eq spelled
    cases result with
    | error e => cases eq
    | ok kind =>
      cases eq
      rw [Head.pending_of_ok answered] at splits
      refine ⟨⟨_, rest, splits⟩, spelled.1, ?_⟩
      intro name named
      rw [Token.name?_eq_some] at named
      exact spelled.2 name (congrArg Except.ok named)

theorem tiles_spelled (h : s.buffer.Splits source before [] after) (faithful : s.symbols.Faithful) :
    ∀ tile ∈ s.tiles.1, ∀ name, tile.token.name? = some name → IsWord name.spelling := by
  fun_induction tiles s generalizing before after with
  | case1 => simp
  | case2 s t s' next more _ ih =>
    obtain ⟨⟨before', rest, splits⟩, faithful', spelled⟩ := next_ok h faithful next
    exact List.forall_mem_cons.mpr ⟨spelled, ih splits faithful'⟩
  | case3 => simp

theorem all_of_end {t : Token} (h : s.tiles.2.1 = .ok t) :
    s.all = (none, (s.tiles.1.map Tile.token ++ [t]).toArray, s.tiles.2.2) := by
  rw [all_eq_tiles, ← Prod.eta s.tiles, ← Prod.eta s.tiles.2, h]

theorem all_none {s' : TokenStream ρ} {tokens : Array Token} (h : s.all = (none, tokens, s')) :
    ∃ t, tokens.toList = s.tiles.1.map Tile.token ++ [t] ∧ s.tiles.2.1 = .ok t := by
  rw [all_eq_tiles] at h
  generalize s.tiles = all at h ⊢
  obtain ⟨tiles, result, s₁⟩ := all
  cases result with
  | error e => cases h
  | ok t =>
    cases h
    exact ⟨t, rfl, rfl⟩

/-! ## Texts without errors -/

inductive Scans : List Char → Prop
  | ended {cs : List Char} (head : Head.ofText (afterGap false cs) = .ended) : Scans cs
  | token {cs rest : List Char} (some : (Head.ofText (afterGap false cs)).committed ≠ [])
    (split : afterGap false cs = (Head.ofText (afterGap false cs)).committed ++ rest)
    (more : Scans rest) : Scans cs

theorem exists_end_of_scans (h : s.buffer.Splits source before [] after) (scans : Scans after) :
    ∃ t, s.tiles.2.1 = .ok t := by
  induction scans generalizing s before with
  | ended head =>
    obtain ⟨gap, tail, b, rest, rfl, -, -, next, -, -⟩ := next_splits h
    rw [head] at next
    rw [tiles_eq, next]
    exact ⟨_, rfl⟩
  | token some split more ih =>
    obtain ⟨gap, tail, b, rest, rfl, -, -, next, here, splits⟩ := next_splits h
    obtain ⟨none, kind, answered, notEnd⟩ :=
      Head.answer_of_committed _ some s.symbols (.behind (before ++ gap))
    rw [none] at here splits
    rw [List.append_nil] at here
    rw [List.append_cancel_left (here.symm.trans split)] at splits
    rw [answered] at next
    rw [tiles_eq, next]
    simp only [Except.map, notEnd]
    exact ih splits

/-! ## Starting again -/

/-- A reset forgets the names, and leads to the start of the source from wherever the stream stands. -/
theorem reset_splits {lexeme : List Char} (place : s.buffer.Splits source before lexeme after) :
    s.reset.result = .ok () ∧ s.reset.state.symbols = s.symbols.clear ∧
      s.reset.state.buffer.Splits source [] [] (sourceText source) := by
  obtain ⟨b, rewound, start⟩ := place.rewind
  simp only [reset, rewound]
  exact ⟨trivial, trivial, start⟩

variable {r : ρ} {name : String} {b : Buffer ρ}

theorem ofBuffer_splits (reads : Reader.Delivers source r)
    (opened : Buffer.new r name = .ok b) :
    (ofBuffer b).buffer.Splits source [] [] (sourceText source) := by
  obtain ⟨b', eq, splits⟩ := Buffer.new_splits reads name
  rw [opened] at eq
  cases eq
  exact splits

theorem reset_alike (reads : Reader.Delivers source r)
    (opened : Buffer.new r name = .ok b) :
    (ofBuffer b).reset.result = .ok () ∧ Alike (ofBuffer b).reset.state (ofBuffer b) := by
  have splits := ofBuffer_splits reads opened
  obtain ⟨result, symbols, again⟩ := reset_splits splits
  exact ⟨result, symbols, source, [], _, again, splits⟩

end

end TokenStream

end Kaleidoscope
