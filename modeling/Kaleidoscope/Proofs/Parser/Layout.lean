import Kaleidoscope.Proofs.Parser.Joining
import Kaleidoscope.Proofs.Token.Layout

/-!
# Sources with more layout

Blanks and comments beside the tokens of a source show in what a parse reports only as other
positions, and in what it gives not at all.
-/

namespace Kaleidoscope

def SyntaxError.unplaced (e : SyntaxError) : SyntaxError := e.moved fun _ => .start

theorem Token.moves_unplaced : Grammar.Moves (fun t => ⟨t.kind, .start⟩) fun _ => .start :=
  ⟨fun _ => rfl, fun _ => rfl⟩

theorem Scanned.program_of_kinds {r r' : Scanned}
    (kinds : r'.tokens.map Token.kind = r.tokens.map Token.kind) :
    r'.program.items = r.program.items ∧
      r'.program.diagnostics.map SyntaxError.unplaced =
        r.program.diagnostics.map SyntaxError.unplaced := by
  have unplaced (ts : List Token) : (Grammar.program ts).moved (fun _ => .start) =
      Grammar.program ((ts.map Token.kind).map (⟨·, .start⟩)) := by
    rw [List.map_map, ← Grammar.program_map Token.moves_unplaced]
    rfl
  have same : r'.program.moved (fun _ => .start) = r.program.moved fun _ => .start := by
    rw [program, unplaced, kinds, ← unplaced, program]
  have items := congrArg Grammar.Program.items same
  have diagnostics := congrArg Grammar.Program.diagnostics same
  exact ⟨items, diagnostics⟩

namespace TokenStream

theorem places_of_scan {ρ : Type} [Reader ρ] {s : TokenStream ρ} {scanned : Scanned}
    (tiles : s.tiles.1.map Tile.unnumbered = scanned.tiles) {i : Nat} :
    (∃ tile ∈ s.tiles.1, i = tile.start ∨ i = tile.stop) ↔
      ∃ tile ∈ scanned.tiles, i = tile.start ∨ i = tile.stop := by
  rw [← tiles]
  simp only [List.mem_map, exists_exists_and_eq_and]
  rfl

end TokenStream

namespace Parser

section
variable {ρ ρ' : Type} [Reader ρ] [Reader ρ'] {source : List UInt8} {r : ρ} {r' : ρ'}
  {name : String} {b : Buffer ρ} {added : Nat → List UInt8}

/-- Layout put before or behind any of its tokens, the end included, leaves a source the same items,
and the same diagnostics at other places. -/
theorem parse_of_layout (reads : Reader.Delivers source r) (opened : Buffer.new r name = .ok b)
    (sound : (TokenStream.ofBuffer b).all.1 = none)
    (layout : ∀ i, Layout (sourceText (added i)))
    (places : ∀ i, added i ≠ [] → i = source.length ∨
      ∃ tile ∈ (TokenStream.ofBuffer b).tiles.1, i = tile.start ∨ i = tile.stop)
    (reads' : Reader.Delivers (withAdded added 0 source) r') (name' : String) :
    ∃ b' items, Buffer.new r' name' = .ok b' ∧
      (ofStream (.ofBuffer b)).parse.result = .ok items ∧
      (ofStream (.ofBuffer b')).parse.result = .ok items ∧
      (ofStream (.ofBuffer b')).parse.state.diagnostics.map SyntaxError.unplaced =
        (ofStream (.ofBuffer b)).parse.state.diagnostics.map SyntaxError.unplaced := by
  obtain ⟨s, t, scan, ends⟩ := TokenStream.exists_scan_of_sound reads opened sound
  have splits := TokenStream.ofBuffer_splits reads opened
  obtain ⟨tiles, -⟩ := TokenStream.tiles_of_scan scan splits Position.behind_nil.symm
    (SymbolTable.regular_seeded 0)
  have beside : Beside (fun i => sourceText (added i)) .start (sourceText source) s := by
    intro i _ inside apart
    have length : (sourceText source).length = source.length := List.length_map _
    have zero : Position.start.offset = 0 := rfl
    by_cases none : added i = []
    · exact congrArg sourceText none
    · rcases places i none with last | there
      · omega
      · obtain ⟨tile, mem, here⟩ := (TokenStream.places_of_scan tiles).mp there
        have := apart tile mem
        omega
  obtain ⟨s', t', scan', ends', kinds⟩ := scan.add_layout ends layout beside .start
  have text : withAdded (fun i => sourceText (added i)) 0 (sourceText source) =
      sourceText (withAdded added 0 source) := (map_withAdded _ 0 source).symm
  rw [show Position.start.offset = 0 from rfl, text] at scan'
  obtain ⟨items, diagnostics⟩ := Scanned.program_of_kinds kinds
  have clean : s'.program.diagnostics = [] ↔ s.program.diagnostics = [] := by
    rw [← List.map_eq_nil_iff, diagnostics, List.map_eq_nil_iff]
  obtain ⟨b', opened', -⟩ := Buffer.new_splits reads' name'
  obtain ⟨result, reported⟩ := parse_of_source reads opened scan
  obtain ⟨result', reported'⟩ := parse_of_source reads' opened' scan'
  rw [Scanned.result_of_last ends] at result
  rw [Scanned.result_of_last ends', items, if_congr clean rfl rfl] at result'
  refine ⟨b', _, opened', result, result', ?_⟩
  rw [reported, reported', diagnostics]

/-- A comment parts two lexemes that touch each other. -/
theorem parse_of_layout_touching :
    let source : Array UInt8 := #[48, 101, 53, 41]
    let added (i : Nat) : List UInt8 := if i = 1 then [35, 99, 10] else if i = 4 then [9] else []
    let r := ByteReader.ofBytes source
    let r' := FaultyReader.ofBytes #[48, 35, 99, 10, 101, 53, 41, 9] ⟨some 2, 3, none, false⟩ none
    Reader.Delivers source.toList r ∧ (∀ i, Layout (sourceText (added i))) ∧
      Reader.Delivers (withAdded added 0 source.toList) r' ∧
      ∃ b b' items, Buffer.new r "source" = .ok b ∧ (TokenStream.ofBuffer b).all.1 = none ∧
      (∀ i, added i ≠ [] → i = source.toList.length ∨
        ∃ tile ∈ (TokenStream.ofBuffer b).tiles.1, i = tile.start ∨ i = tile.stop) ∧
      Buffer.new r' "changed" = .ok b' ∧ (ofStream (.ofBuffer b)).parse.result = .ok items ∧
      (ofStream (.ofBuffer b')).parse.result = .ok items ∧
      (ofStream (.ofBuffer b')).parse.state.diagnostics.map SyntaxError.unplaced =
        (ofStream (.ofBuffer b)).parse.state.diagnostics.map SyntaxError.unplaced := by
  intro source added r r'
  have reads : Reader.Delivers source.toList r := ByteReader.delivers source
  have reads' : Reader.Delivers (withAdded added 0 source.toList) r' :=
    FaultyReader.delivers #[48, 35, 99, 10, 101, 53, 41, 9] ⟨some 2, 3, none, false⟩ none rfl rfl
      (by decide)
  have layout (i : Nat) : Layout (sourceText (added i)) := by
    intro rest
    by_cases one : i = 1
    · subst one
      exact @Gap.comment rest ['c'] [] (by decide) .nil
    · by_cases four : i = 4
      · subst four
        exact .blank rfl .nil
      · simp only [added, if_neg one, if_neg four]
        exact .nil
  obtain ⟨b, opened, splits⟩ := Buffer.new_splits reads "source"
  have scan : Scan .start (sourceText source.toList) _ :=
    @Scan.token _ [] ['0'] _ _ _ rfl (List.cons_ne_nil _ _) rfl rfl
      (@Scan.token _ [] ['e', '5'] _ _ _ rfl (List.cons_ne_nil _ _) rfl rfl
        (@Scan.token _ [] [')'] _ _ _ rfl (List.cons_ne_nil _ _) rfl rfl (@Scan.ended _ [] rfl)))
  have sound : (TokenStream.ofBuffer b).all.1 = none := (TokenStream.all_of_source reads opened scan).1
  obtain ⟨tiles, -⟩ := TokenStream.tiles_of_scan scan (TokenStream.ofBuffer_splits reads opened)
    Position.behind_nil.symm (SymbolTable.regular_seeded 0)
  -- layout is added between the first two tokens, which touch, and at the end
  have places (i : Nat) (some : added i ≠ []) : i = source.toList.length ∨
      ∃ tile ∈ (TokenStream.ofBuffer b).tiles.1, i = tile.start ∨ i = tile.stop := by
    by_cases one : i = 1
    · exact .inr ((TokenStream.places_of_scan tiles).mpr ⟨_, List.mem_cons_self, .inr one⟩)
    · by_cases four : i = 4
      · exact .inl four
      · simp [added, one, four] at some
  obtain ⟨b', items, opened', result, result', diagnostics⟩ :=
    parse_of_layout reads opened sound layout places reads' "changed"
  exact ⟨reads, layout, reads', b, b', items, opened, sound, places, opened', result, result',
    diagnostics⟩

end

end Parser

end Kaleidoscope
