import Kaleidoscope.Proofs.Parser.Requests
import Kaleidoscope.Proofs.Token.Dump

/-!
# Lexical errors end a parse

A parse takes up every token up to the end of the input or the first lexical error, whatever syntax
errors it reports on the way. It fails where a token dump of the same source fails, with the same
error.
-/

namespace Kaleidoscope

section
variable {ρ ρ' : Type} [Reader ρ] [Reader ρ'] {source : List UInt8} {r : ρ} {r' : ρ'}
  {name name' : String} {b : Buffer ρ} {b' : Buffer ρ'} {e : ScanError}

namespace Parser

theorem parse_result (reads : Reader.Delivers source r) (opened : Buffer.new r name = .ok b) :
    match (TokenStream.ofBuffer b).all.1 with
    | none => ∃ items, (ofStream (.ofBuffer b)).parse.result = .ok items
    | some e => (ofStream (.ofBuffer b)).parse.result = .error (.lexical e) := by
  obtain ⟨reset, alike⟩ := TokenStream.reset_alike reads opened
  cases failure : (TokenStream.ofBuffer b).all.1 with
  | none =>
    have sound : (TokenStream.ofBuffer b).all = (none, (TokenStream.ofBuffer b).all.2) :=
      Prod.ext failure rfl
    exact ⟨_, (parse_of_all reads opened sound).2⟩
  | some e =>
    unfold parse
    simp only [ofStream, reset]
    exact parseRest_of_failure (alike.all.1.trans failure)

/-- Parsing and dumping a source fail with the same lexical error, or both succeed. So does a parse that
asks for its tokens one by one. -/
theorem parse_agrees_with_dump (reads : Reader.Delivers source r)
    (opened : Buffer.new r name = .ok b) (reads' : Reader.Delivers source r')
    (opened' : Buffer.new r' name' = .ok b') {out : Sink} (roomy : out.room = none) :
    (∀ e, (ofStream (.ofBuffer b)).parse.result = .error (.lexical e) ↔
      ((TokenStream.ofBuffer b').dump out).result = .error e) ∧
    ((∃ items, (ofStream (.ofBuffer b)).parse.result = .ok items) ↔
      ((TokenStream.ofBuffer b').dump out).result = .ok ()) ∧
    (∀ e, (ofStream (.ofBuffer b)).descend.result = .error (.lexical e) ↔
      ((TokenStream.ofBuffer b').dump out).result = .error e) ∧
    ((∃ items, (ofStream (.ofBuffer b)).descend.result = .ok items) ↔
      ((TokenStream.ofBuffer b').dump out).result = .ok ()) := by
  have splits := TokenStream.ofBuffer_splits reads opened
  have splits' := TokenStream.ofBuffer_splits reads' opened'
  have alike : TokenStream.Alike (.ofBuffer b) (.ofBuffer b') := ⟨rfl, source, _, _, splits, splits'⟩
  have parsed := parse_result reads opened
  have yields := (TokenStream.ofBuffer b').yields_all
  rw [(placed_new reads opened).descend_eq.1, (yields.dump_roomy (.ofBuffer splits') roomy).1,
    ← alike.all.1]
  cases failure : (TokenStream.ofBuffer b).all.1 with
  | none =>
    rw [failure] at parsed
    obtain ⟨items, given⟩ := parsed
    simp [given]
  | some e =>
    rw [failure] at parsed
    simp [parsed]

/-- The definition has no name, and the number behind it no digits. -/
theorem parse_agrees_with_dump_pieces :
    let content : Array UInt8 := #[100, 101, 102, 32, 49, 10, 48, 120, 103]
    let r := ByteReader.ofBytes content
    let r' := FaultyReader.ofBytes content ⟨some 2, 3, none, false⟩ none
    Reader.Delivers content.toList r ∧ Reader.Delivers content.toList r' ∧
      Sink.unlimited.room = none ∧ ∃ b b', Buffer.new r "whole" = .ok b ∧
      Buffer.new r' "pieces" = .ok b' ∧
      (∀ e, (ofStream (.ofBuffer b)).parse.result = .error (.lexical e) ↔
        ((TokenStream.ofBuffer b').dump .unlimited).result = .error e) ∧
      ((∃ items, (ofStream (.ofBuffer b)).parse.result = .ok items) ↔
        ((TokenStream.ofBuffer b').dump .unlimited).result = .ok ()) ∧
      (∀ e, (ofStream (.ofBuffer b)).descend.result = .error (.lexical e) ↔
        ((TokenStream.ofBuffer b').dump .unlimited).result = .error e) ∧
      ((∃ items, (ofStream (.ofBuffer b)).descend.result = .ok items) ↔
        ((TokenStream.ofBuffer b').dump .unlimited).result = .ok ()) := by
  have reads := ByteReader.delivers #[100, 101, 102, 32, 49, 10, 48, 120, 103]
  have reads' := FaultyReader.delivers #[100, 101, 102, 32, 49, 10, 48, 120, 103]
    ⟨some 2, 3, none, false⟩ none rfl rfl (by decide)
  obtain ⟨b, opened, -⟩ := Buffer.new_splits reads "whole"
  obtain ⟨b', opened', -⟩ := Buffer.new_splits reads' "pieces"
  have roomy : Sink.unlimited.room = none := rfl
  exact ⟨reads, reads', roomy, b, b', opened, opened',
    parse_agrees_with_dump reads opened reads' opened' roomy⟩

end Parser

end

end Kaleidoscope
