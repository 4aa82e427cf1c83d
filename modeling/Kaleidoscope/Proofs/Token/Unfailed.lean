import Kaleidoscope.Proofs.Session
import Kaleidoscope.Proofs.Token.Longest

/-!
# Streams that have not failed

As long as every call of a session succeeds, its stream stands at a committed place of the source that
it was opened on or taken to.
-/

namespace Kaleidoscope

namespace TokenStream

section
variable {ρ : Type} [Reader ρ] {source : List UInt8} {s s' : TokenStream ρ} {r : ρ} {path : String}
  {out : Sink}

inductive Unfailed : TokenStream ρ → List UInt8 → Prop
  | new {source : List UInt8} {r : ρ} {name : String} {b : Buffer ρ} (reads : Reader.Delivers source r)
    (opened : Buffer.new r name = .ok b) : Unfailed (ofBuffer b) source
  | placed {source : List UInt8} {before after : List Char} {b : Buffer ρ}
    (place : b.Splits source before [] after) : Unfailed (ofBuffer b) source
  | next {source : List UInt8} {s s' : TokenStream ρ} {t : Token} (h : Unfailed s source)
    (found : s.next = (.ok t, s')) : Unfailed s' source
  | reset {source : List UInt8} {s : TokenStream ρ} (h : Unfailed s source)
    (done : s.reset.result = .ok ()) : Unfailed s.reset.state source
  | dump {source : List UInt8} {s : TokenStream ρ} {out : Sink} (h : Unfailed s source)
    (done : (s.dump out).result = .ok ()) : Unfailed (s.dump out).state.1 source
  | reopen {source source' : List UInt8} {s : TokenStream ρ} {path : String} {r : ρ}
    (h : Unfailed s source') (reads : Reader.Delivers source r)
    (done : (s.reopen path (.ok r)).result = .ok ()) : Unfailed (s.reopen path (.ok r)).state source

structure Stands (s : TokenStream ρ) (source : List UInt8) : Prop where
  place : ∃ before after, s.buffer.Splits source before [] after
  regular : s.symbols.Regular

namespace Stands

theorem ofBuffer {b : Buffer ρ} {before after : List Char} (place : b.Splits source before [] after) :
    (ofBuffer b).Stands source :=
  ⟨⟨before, after, place⟩, SymbolTable.regular_seeded 0⟩

theorem next (h : s.Stands source) {t : Token} (found : s.next = (.ok t, s')) : s'.Stands source := by
  obtain ⟨⟨before, after, splits⟩, regular⟩ := h
  obtain ⟨place, -, -⟩ := next_ok splits regular.faithful found
  have poised : s.Poised source := ⟨before, [], after, splits, .inl rfl⟩
  have names := poised.regular_next regular
  rw [found] at names
  exact ⟨place, names⟩

theorem reset (h : s.Stands source) : s.reset.result = .ok () ∧
    s.reset.state.symbols = s.symbols.clear ∧
    s.reset.state.buffer.Splits source [] [] (sourceText source) := by
  obtain ⟨before, after, splits⟩ := h.place
  exact reset_splits splits

theorem reset_state (h : s.Stands source) : s.reset.state.Stands source := by
  obtain ⟨-, names, start⟩ := h.reset
  refine ⟨⟨[], _, start⟩, ?_⟩
  rw [names]
  exact SymbolTable.regular_seeded _

theorem feed (h : s.Stands source) {τ : Type} {step : τ → Token → Option ScanError × τ} {acc acc' : τ}
    (ended : s.feed step acc = (none, acc', s')) : s'.Stands source := by
  fun_induction TokenStream.feed step acc s with
  | case1 => cases ended
  | case2 => cases ended
  | case3 acc s t s₁ found acc₁ stepped more _ ih => exact ih (h.next found) ended
  | case4 acc s t s₁ found acc₁ stepped more =>
    cases ended
    exact h.next found

theorem dump (h : s.Stands source) (done : (s.dump out).result = .ok ()) :
    (s.dump out).state.1.Stands source := by
  unfold TokenStream.dump at done ⊢
  dsimp only at done ⊢
  split
  · rename_i fed
    rw [fed] at done
    cases done
  · rename_i fed
    exact (h.feed fed).reset_state

theorem reopen (reads : Reader.Delivers source r) (s : TokenStream ρ) (path : String) :
    (s.reopen path (.ok r)).state.Stands source := by
  obtain ⟨-, symbols, again⟩ := s.reopen_ok reads path
  refine ⟨⟨[], _, again⟩, ?_⟩
  rw [symbols]
  exact SymbolTable.regular_seeded _

end Stands

theorem Unfailed.stands (h : s.Unfailed source) : s.Stands source := by
  induction h with
  | new reads opened => exact .ofBuffer (ofBuffer_splits reads opened)
  | placed place => exact .ofBuffer place
  | next _ found ih => exact ih.next found
  | reset _ _ ih => exact ih.reset_state
  | dump _ done ih => exact ih.dump done
  | @reopen source _ s path r _ reads => exact .reopen reads s path

end

end TokenStream

end Kaleidoscope
