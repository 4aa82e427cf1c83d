import Kaleidoscope.Proofs.Grammar.Recovery
import Kaleidoscope.Proofs.Parser
import Mathlib.Order.Bounds.Defs

/-!
# The diagnostics of a parse

A parse reports the first token with which the tokens before it begin no sentence, and reads what is
behind that token as if nothing stood before it.
-/

namespace Kaleidoscope

section
variable {ρ : Type} [Reader ρ] {source : List UInt8} {before after : List Char}
  {s s' : TokenStream ρ} {tokens : Array Token}

theorem TokenStream.all_increasing (splits : s.buffer.Splits source before [] after)
    (h : s.all = (none, tokens, s')) :
    tokens.toList.Pairwise fun t u => compare t.pos u.pos = .lt := by
  obtain ⟨t, eq, ended⟩ := all_none h
  obtain ⟨stop, tiling, stops, -⟩ := tiles_tiling splits
  rw [ended] at stops
  obtain ⟨rfl, rfl⟩ := stops
  rw [eq, List.pairwise_append]
  refine ⟨List.pairwise_map.mpr tiling.increasing, List.pairwise_singleton _ _, ?_⟩
  intro u mem v last
  obtain ⟨tile, inside, rfl⟩ := List.mem_map.mp mem
  rw [List.mem_singleton.mp last, tiling.pos tile inside]
  exact Position.compare_ofIndex (tiling.start_lt_stop tile inside) (Nat.le_refl _)

end

namespace Grammar

variable {ts read more shown : List Token} {u : Token} {es : List SyntaxError}

structure Reports (ts : List Token) (es : List SyntaxError) : Prop where
  clean : Derivable ts → es = []
  /-- The first error shows the first token up to which `ts` is not the beginning of a sentence. -/
  first : ¬ Derivable ts → ∃ i t e, ts[i]? = some t ∧
    IsLeast {i | ¬ Begins Derivable (ts.take (i + 1))} i ∧ e.pos = t.pos ∧ e.found = t.spelling ∧
    es = e :: if t.isEnd then [] else (program (ts.drop (i + 1))).diagnostics
  shows : ∃ shown, shown.Sublist ts ∧ List.Forall₂ SyntaxError.Shows es shown
  increasing : es.Pairwise fun e e' => compare e.pos e'.pos = .lt

theorem isLeast_length (begins : Begins Derivable read) (stuck : ¬ Begins Derivable (read ++ [u])) :
    IsLeast {i | ¬ Begins Derivable ((read ++ u :: more).take (i + 1))} read.length := by
  constructor
  · show ¬ Begins Derivable ((read ++ u :: more).take (read.length + 1))
    rw [List.append_cons, List.take_left' (by simp)]
    exact stuck
  intro i stuck'
  by_contra before
  apply stuck'
  have short : i + 1 ≤ read.length := Nat.lt_of_not_le before
  rw [List.take_append_of_le_length short]
  rw [← List.take_append_drop (i + 1) read] at begins
  exact begins.of_append

theorem increasing_of_shows (h : List.Forall₂ SyntaxError.Shows es shown)
    (increasing : shown.Pairwise fun t u => compare t.pos u.pos = .lt) :
    es.Pairwise fun e e' => compare e.pos e'.pos = .lt := by
  have pos : es.map SyntaxError.pos = shown.map Token.pos := by
    induction h with
    | nil => rfl
    | cons here _ ih => simp [here.1, ih increasing.of_cons]
  have mapped : (es.map SyntaxError.pos).Pairwise fun p q => compare p q = .lt := by
    rw [pos]
    exact List.pairwise_map.mpr increasing
  exact List.pairwise_map.mp mapped

theorem program_reports (closed : Closed ts)
    (increasing : ts.Pairwise fun t u => compare t.pos u.pos = .lt) :
    Reports ts (program ts).diagnostics where
  clean := (program_clean_iff closed).mpr
  first not := by
    obtain ⟨read, u, more, e, rfl, begins, stuck, ⟨pos, found⟩, first⟩ := program_first closed not
    refine ⟨read.length, u, e, by simp, isLeast_length begins stuck, pos, found, ?_⟩
    rw [first, List.append_cons, List.drop_left' (by simp)]
  shows := program_shows closed
  increasing := by
    obtain ⟨shown, sub, shows⟩ := program_shows closed
    exact increasing_of_shows shows (increasing.sublist sub)

end Grammar

namespace Parser

section
variable {ρ : Type} [Reader ρ] {source : List UInt8} {r : ρ} {name : String} {b : Buffer ρ}
  {tokens : Array Token} {s : TokenStream ρ}

/-- A parse reports each error at the first token where it can be known, goes on behind that token as
if nothing stood before, and gives no items if it has reported any. -/
theorem parse_reports (reads : Reader.Delivers source r) (opened : Buffer.new r name = .ok b)
    (scans : (TokenStream.ofBuffer b).all = (none, tokens, s)) :
    Grammar.Reports tokens.toList (ofStream (.ofBuffer b)).parse.state.diagnostics ∧
      ((ofStream (.ofBuffer b)).parse.state.diagnostics ≠ [] →
        (ofStream (.ofBuffer b)).parse.result = .ok []) := by
  obtain ⟨diagnostics, result⟩ := parse_of_all reads opened scans
  have closed := TokenStream.all_closed scans
  have increasing := TokenStream.all_increasing (TokenStream.ofBuffer_splits reads opened) scans
  rw [diagnostics]
  refine ⟨Grammar.program_reports closed increasing, ?_⟩
  intro wrong
  rw [result, if_neg wrong]

/-- The definition goes wrong at the number, and what is behind it at the end. -/
theorem parse_reports_twice :
    let r := ByteReader.ofBytes #[100, 101, 102, 32, 49, 10, 40, 120]
    Reader.Delivers [100, 101, 102, 32, 49, 10, 40, 120] r ∧ ∃ b tokens s,
      Buffer.new r "twice" = .ok b ∧ (TokenStream.ofBuffer b).all = (none, tokens, s) ∧
      Grammar.Reports tokens.toList (ofStream (.ofBuffer b)).parse.state.diagnostics ∧
      ((ofStream (.ofBuffer b)).parse.state.diagnostics ≠ [] →
        (ofStream (.ofBuffer b)).parse.result = .ok []) := by
  have reads := ByteReader.delivers #[100, 101, 102, 32, 49, 10, 40, 120]
  obtain ⟨b, opened, splits⟩ := Buffer.new_splits reads "twice"
  have text : TokenStream.Scans (sourceText [100, 101, 102, 32, 49, 10, 40, 120]) :=
    .token (List.cons_ne_nil 'd' _) rfl (.token (List.cons_ne_nil '1' _) rfl
      (.token (List.cons_ne_nil '(' _) rfl (.token (List.cons_ne_nil 'x' _) rfl (.ended rfl))))
  obtain ⟨t, ended⟩ := TokenStream.exists_end_of_scans (s := .ofBuffer b) splits text
  have sound := TokenStream.all_of_end ended
  exact ⟨reads, b, _, _, opened, sound, parse_reports reads opened sound⟩

end

end Parser

end Kaleidoscope
