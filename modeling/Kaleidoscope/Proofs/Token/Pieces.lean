import Kaleidoscope.Proofs.Source.Pieces
import Kaleidoscope.Proofs.Token.Dump

/-!
# Streams over sources that come in pieces

Streams that stand abreast answer every demand alike and stay abreast, also where they are taken to another
source.
-/

namespace Kaleidoscope

/-! ## Demands -/

namespace TokenStream

inductive Demand (ρ : Type)
  | next
  | reset
  | dump (out : Sink)
  | reopen (path : String) (opened : Except SystemError ρ)

inductive Demand.Alike {ρ ρ' : Type} (R : ρ → ρ' → Prop) : Demand ρ → Demand ρ' → Prop
  | next : Alike R .next .next
  | reset : Alike R .reset .reset
  | dump (out : Sink) : Alike R (.dump out) (.dump out)
  | reopen (path : String) {r : ρ} {r' : ρ'} :
    R r r' → Alike R (.reopen path (.ok r)) (.reopen path (.ok r'))
  | missing (path : String) (cause : SystemError) :
    Alike R (.reopen path (.error cause)) (.reopen path (.error cause))

inductive Demand.Answer
  | token (result : Except ScanError Token)
  | done (result : Except ScanError Unit)
  | dumped (result : Except ScanError Unit) (out : Sink)

section
variable {ρ : Type}

def sight (s : TokenStream ρ) : View × SymbolTable := (s.buffer.view, s.symbols)

def serve [Reader ρ] (s : TokenStream ρ) : Demand ρ → Demand.Answer × TokenStream ρ
  | .next => (.token s.next.1, s.next.2)
  | .reset => (.done s.reset.result, s.reset.state)
  | .dump out => (.dumped (s.dump out).result (s.dump out).state.2, (s.dump out).state.1)
  | .reopen path opened => (.done (s.reopen path opened).result, (s.reopen path opened).state)

end

/-! ## Streams that stand abreast -/

section
variable {ρ : Type} [Reader ρ] {s : TokenStream ρ} {symbols : SymbolTable} {source : List UInt8}
  {before lexeme after : List Char}

theorem StandsAt.reset (h : s.StandsAt symbols source before lexeme after) :
    s.reset.result = .ok () ∧
      s.reset.state.StandsAt symbols.clear source [] [] (sourceText source) := by
  obtain ⟨result, symbols, start⟩ := reset_splits h.splits
  exact ⟨result, symbols.trans (congrArg SymbolTable.clear h.symbols), start⟩

end

section
variable {ρ ρ' : Type} [Reader ρ] [Reader ρ'] {s : TokenStream ρ} {s' : TokenStream ρ'}

theorem abreast_ofBuffer {b : Buffer ρ} {b' : Buffer ρ'} (h : b.Level b') :
    Abreast (ofBuffer b) (ofBuffer b') := by
  obtain ⟨source, before, lexeme, after, splits, splits'⟩ := h.splits
  exact ⟨.empty, source, before, lexeme, after, ⟨rfl, splits⟩, ⟨rfl, splits'⟩⟩

namespace Abreast

theorem symbols (h : Abreast s s') : s.symbols = s'.symbols := by
  obtain ⟨symbols, source, before, lexeme, after, stands, stands'⟩ := h
  rw [stands.symbols, stands'.symbols]

theorem sight (h : Abreast s s') : s.sight = s'.sight := by
  have symbols := h.symbols
  obtain ⟨_, source, before, lexeme, after, stands, stands'⟩ := h
  unfold TokenStream.sight
  rw [symbols, stands.splits.shows.view, stands'.splits.shows.view]

theorem reset (h : Abreast s s') :
    s.reset.result = s'.reset.result ∧ Abreast s.reset.state s'.reset.state := by
  obtain ⟨symbols, source, before, lexeme, after, stands, stands'⟩ := h
  obtain ⟨result, again⟩ := stands.reset
  obtain ⟨result', again'⟩ := stands'.reset
  exact ⟨result.trans result'.symm, _, source, _, _, _, again, again'⟩

theorem reopen {r : ρ} {r' : ρ'} (h : Abreast s s') (concur : Reader.Concur r r') (path : String) :
    (s.reopen path (.ok r)).result = (s'.reopen path (.ok r')).result ∧
      Abreast (s.reopen path (.ok r)).state (s'.reopen path (.ok r')).state := by
  obtain ⟨source, delivers, delivers'⟩ := concur
  obtain ⟨result, symbols, anew⟩ := s.reopen_ok delivers path
  obtain ⟨result', symbols', anew'⟩ := s'.reopen_ok delivers' path
  rw [← h.symbols] at symbols'
  exact ⟨result.trans result'.symm, _, source, _, _, _, ⟨symbols, anew⟩, ⟨symbols', anew'⟩⟩

theorem feed {τ : Type} (h : Abreast s s') (step : τ → Token → Option ScanError × τ) (acc : τ) :
    (s.feed step acc).1 = (s'.feed step acc).1 ∧ (s.feed step acc).2.1 = (s'.feed step acc).2.1 ∧
      Abreast (s.feed step acc).2.2 (s'.feed step acc).2.2 := by
  fun_induction TokenStream.feed step acc s generalizing s' with
  | case1 acc s e s₁ next =>
    obtain ⟨same, later⟩ := h.next
    rw [next] at same later
    rw [feed_eq step acc s', ← Prod.eta s'.next, ← same]
    exact ⟨rfl, rfl, later⟩
  | case2 acc s t s₁ next e acc₁ stepped =>
    obtain ⟨same, later⟩ := h.next
    rw [next] at same later
    rw [feed_eq step acc s', ← Prod.eta s'.next, ← same]
    simp only [stepped]
    exact ⟨trivial, trivial, later⟩
  | case3 acc s t s₁ next acc₁ stepped more _ ih =>
    obtain ⟨same, later⟩ := h.next
    rw [next] at same later
    rw [feed_eq step acc s', ← Prod.eta s'.next, ← same]
    simp only [stepped, more]
    exact ih later
  | case4 acc s t s₁ next acc₁ stepped ended =>
    obtain ⟨same, later⟩ := h.next
    rw [next] at same later
    rw [Bool.not_eq_false] at ended
    rw [feed_eq step acc s', ← Prod.eta s'.next, ← same]
    simp only [stepped, ended, ite_true]
    exact ⟨trivial, trivial, later⟩

theorem dump (h : Abreast s s') (out : Sink) :
    (s.dump out).result = (s'.dump out).result ∧ (s.dump out).state.2 = (s'.dump out).state.2 ∧
      Abreast (s.dump out).state.1 (s'.dump out).state.1 := by
  obtain ⟨failure, acc, later⟩ := h.feed dumpStep (out, #[])
  obtain ⟨result, state, written⟩ := dump_eq s out
  obtain ⟨result', state', written'⟩ := dump_eq s' out
  rw [result, state, written, result', state', written', ← failure, ← acc]
  cases (s.feed dumpStep (out, #[])).1 with
  | none =>
    obtain ⟨same, again⟩ := later.reset
    exact ⟨same, rfl, again⟩
  | some e => exact ⟨rfl, rfl, later⟩

theorem serve {demand : Demand ρ} {demand' : Demand ρ'} (h : Abreast s s')
    (alike : demand.Alike Reader.Concur demand') :
    (s.serve demand).1 = (s'.serve demand').1 ∧ Abreast (s.serve demand).2 (s'.serve demand').2 := by
  cases alike with
  | next => exact ⟨congrArg Demand.Answer.token h.next.1, h.next.2⟩
  | reset => exact ⟨congrArg Demand.Answer.done h.reset.1, h.reset.2⟩
  | dump out =>
    obtain ⟨result, written, later⟩ := h.dump out
    exact ⟨congr (congrArg Demand.Answer.dumped result) written, later⟩
  | reopen path concur =>
    obtain ⟨result, later⟩ := h.reopen concur path
    exact ⟨congrArg Demand.Answer.done result, later⟩
  | missing path cause => exact ⟨rfl, h⟩

theorem transcript {demands : List (Demand ρ)} {demands' : List (Demand ρ')} (h : Abreast s s')
    (alike : List.Forall₂ (Demand.Alike Reader.Concur) demands demands') :
    transcript TokenStream.serve TokenStream.sight s demands =
        Kaleidoscope.transcript TokenStream.serve TokenStream.sight s' demands' ∧
      Abreast (serveAll TokenStream.serve s demands) (serveAll TokenStream.serve s' demands') :=
  transcript_eq (R := Abreast) (S := Demand.Alike Reader.Concur) (F := fun _ => False) Abreast.sight
    (fun abreast asked _ => abreast.serve asked) h alike fun _ _ => id

end Abreast

end

end TokenStream

end Kaleidoscope
