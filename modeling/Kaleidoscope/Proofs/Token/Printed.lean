import Kaleidoscope.Proofs.Tree.Lexemes

/-!
# Scanning a printed number

The spelling of a number is one number token and nothing else, and it is the number that was spelled.
-/

namespace Kaleidoscope

open Literal

theorem Literal.sourceText_spell (v : Float) :
    sourceText (spell v).toUTF8.data.toList = (spell v).toList := by
  have ascii : Ascii (spell v).toList := fun c mem => ascii_of_inside (spell_inside v c mem)
  have bytes := sourceText_utf8 ascii
  rwa [String.ofList_toList] at bytes

namespace TokenStream

section
variable {ρ : Type} [Reader ρ] {s s' : TokenStream ρ} {source : List UInt8} {before rest : List Char}
  {v : Float} {r : ρ}

/-- A spelling is taken whole, whatever number it is. -/
theorem next_of_spelling (splits : s.buffer.Splits source before [] ((spell v).toList ++ rest))
    (finite : v.toBits.toNat < infiniteBits) (apart : Apart rest) :
    ∃ b : Buffer ρ, s.next = (.ok ⟨.number v, .behind before⟩, ⟨b, s.symbols⟩) ∧
      b.Splits source (before ++ (spell v).toList) [] rest := by
  obtain ⟨b, rest', next, cut, behind⟩ := next_of_gapless splits (afterGap_spell finite rest)
  rw [ofText_spell finite apart] at next cut behind
  have left : rest = rest' := by simpa [Head.committed, Head.pending] using cut
  subst left
  refine ⟨b, ?_, behind⟩
  rw [next, Head.answer, value_spell finite]
  rfl

theorem all_of_two {t u : Token} {s'' : TokenStream ρ} (first : s.next = (.ok t, s')) (more : t.isEnd = false)
    (second : s'.next = (.ok u, s'')) (ends : u.isEnd = true) : s.all = (none, #[t, u], s'') := by
  rw [all_eq_tiles, tiles_eq, first]
  simp only [more]
  rw [tiles_eq s', second]
  simp [ends]

/-- The spelling of a number is scanned to that number, which takes all of it, and the end of the input. -/
theorem all_of_spelling (finite : v.toBits.toNat < infiniteBits)
    (reads : Reader.Delivers (spell v).toUTF8.data.toList r) (name : String) :
    ∃ b s s', Buffer.new r name = .ok b ∧
      (ofBuffer b).next = (.ok ⟨.number v, .start⟩, s) ∧
      s.buffer.pos = .behind (spell v).toList ∧ s.buffer.AtEnd ∧
      s.next = (.ok (.endOfInput (.behind (spell v).toList)), s') ∧
      (ofBuffer b).all =
        (none, #[⟨.number v, .start⟩, .endOfInput (.behind (spell v).toList)], s') := by
  obtain ⟨b, opened, splits⟩ := Buffer.new_splits reads name
  have text := Literal.sourceText_spell v
  have start : (ofBuffer b).buffer.Splits (spell v).toUTF8.data.toList [] []
      ((spell v).toList ++ []) := by
    rw [List.append_nil]
    exact text ▸ splits
  obtain ⟨b₁, first, behind⟩ := next_of_spelling start finite nofun
  rw [List.nil_append] at behind
  have ended : (⟨b₁, (ofBuffer b).symbols⟩ : TokenStream ρ).buffer.Splits _ (sourceText _) [] [] :=
    text.symm ▸ behind
  obtain ⟨s', second, -⟩ := next_of_end ended
  rw [text] at second
  refine ⟨b, _, s', opened, first, ?_, behind.atEnd_iff.mpr rfl, second, ?_⟩
  · rw [behind.pos, List.append_nil]
  · exact all_of_two first rfl second rfl

end

/-- A number below `1e-5` is spelled with an exponent. -/
theorem all_of_spelling_exponent :
    let v : Float := 2.5e-7
    let r := FaultyReader.ofBytes (spell v).toUTF8.data ⟨some 2, 3, none, false⟩ none
    spell v = "2.5e-7" ∧ v.toBits.toNat < infiniteBits ∧
      Reader.Delivers (spell v).toUTF8.data.toList r ∧
      ∃ b s', Buffer.new r "exponent" = .ok b ∧
        (ofBuffer b).all =
          (none, #[⟨.number v, .start⟩, .endOfInput (.behind (spell v).toList)], s') := by
  intro v r
  have finite : v.toBits.toNat < infiniteBits := by decide +kernel
  have reads := FaultyReader.delivers (spell v).toUTF8.data ⟨some 2, 3, none, false⟩ none rfl rfl
    (by decide)
  obtain ⟨b, s, s', opened, -, -, -, -, all⟩ := all_of_spelling finite reads "exponent"
  exact ⟨by decide +kernel, finite, reads, b, s', opened, all⟩

end TokenStream

end Kaleidoscope
