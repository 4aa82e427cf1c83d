import Kaleidoscope.Proofs.Sink
import Kaleidoscope.Proofs.Token.Sharing
import Kaleidoscope.Proofs.Token.Unfailed
import Kaleidoscope.Proofs.Token.Yields

/-!
# Dumps into sinks with little room

A dump writes the lines of the tokens that are left as far as they fit. A line that does not fit ends it
before any error that would have been found later.
-/

namespace Kaleidoscope

/-! ## The lines of a dump -/

namespace TokenStream

def dumpStep (acc : Sink × Array Record) (t : Token) : Option ScanError × (Sink × Array Record) :=
  if (acc.1.write (line t)).1 then (none, (acc.1.write (line t)).2, acc.2.push t.record)
  else (some (.cannotWrite Sink.full), (acc.1.write (line t)).2, acc.2.push t.record)

section
variable {ρ : Type} [Reader ρ] {s s' : TokenStream ρ} {source : List UInt8} {tokens : List Token}
  {failure : Option ScanError}

theorem feed_congr {τ : Type} {step : τ → Token → Option ScanError × τ}
    (step' : τ → Token → Option ScanError × τ) (same : ∀ acc t, step acc t = step' acc t)
    (s : TokenStream ρ) (acc : τ) : s.feed step acc = s.feed step' acc := by
  have steps : step = step' := funext fun acc => funext (same acc)
  rw [steps]

/-- A dump ends with its first failure, or with a reset. -/
theorem dump_eq (s : TokenStream ρ) (out : Sink) :
    let fed := s.feed dumpStep (out, #[])
    (s.dump out).result = fed.1.elim fed.2.2.reset.result .error ∧
      (s.dump out).state.1 = fed.1.elim fed.2.2.reset.state (fun _ => fed.2.2) ∧
      (s.dump out).state.2 = fed.2.1.1 := by
  unfold dump
  dsimp only
  rw [feed_congr dumpStep]
  · generalize s.feed dumpStep (out, #[]) = fed
    obtain ⟨failure, acc, s'⟩ := fed
    cases failure <;> exact ⟨rfl, rfl, rfl⟩
  · intro acc t
    unfold dumpStep
    generalize acc.1.write (line t) = written
    obtain ⟨fits, out⟩ := written
    cases fits <;> rfl

/-- The lines are written in their order, up to the one that does not fit. -/
theorem Yields.feed_dumpStep (h : s.Yields tokens failure) (acc : Sink × Array Record) :
    (s.feed dumpStep acc).2.1.1 = (acc.1.writeAll (tokens.map line)).2 ∧
      (s.feed dumpStep acc).1 =
        if (acc.1.writeAll (tokens.map line)).1 then failure else some (.cannotWrite Sink.full) := by
  induction h generalizing acc with
  | failed next =>
    rw [feed_eq, next]
    exact ⟨rfl, rfl⟩
  | @ended s s' t next ends =>
    rw [feed_eq, next, List.map_singleton, Sink.writeAll_cons]
    by_cases fits : (acc.1.write (line t)).1 = true
    · simp [dumpStep, fits, ends, Sink.writeAll]
    · simp [dumpStep, fits]
  | @more s s' t tokens failure next goes rest ih =>
    rw [feed_eq, next, List.map_cons, Sink.writeAll_cons]
    by_cases fits : (acc.1.write (line t)).1 = true
    · simpa [dumpStep, fits, goes] using ih ((acc.1.write (line t)).2, acc.2.push t.record)
    · simp [dumpStep, fits]

/-- An error that comes from the source is no error of the sink. -/
theorem Yields.failure_position (h : s.Yields tokens failure) (stands : s.Stands source) :
    ∀ e ∈ failure, e.position? ≠ none := by
  induction h with
  | @failed s s' e next =>
    obtain ⟨before, after, splits⟩ := stands.place
    intro e' same
    cases same
    cases step splits with
    | token found => rw [found] at next; cases next
    | ended found => rw [found] at next; cases next
    | failed found pos =>
      rw [found] at next
      cases next
      simp [pos]
  | ended => exact nofun
  | more next _ _ ih => exact ih (stands.next next)

/-! ## Behind a dump -/

def dumpOf (tokens : List Token) : ByteArray := (String.join (tokens.map line)).toUTF8

theorem line_unnumbered (t : Token) : line t.unnumbered = line t := by
  obtain ⟨kind, pos⟩ := t
  cases kind <;> rfl

theorem dumpOf_eq {tokens tokens' : List Token}
    (same : tokens.map Token.unnumbered = tokens'.map Token.unnumbered) :
    dumpOf tokens = dumpOf tokens' := by
  have lines (tokens : List Token) : tokens.map line = (tokens.map Token.unnumbered).map line := by
    rw [List.map_map]
    exact List.map_congr_left fun t _ => (line_unnumbered t).symm
  unfold dumpOf
  rw [lines tokens, lines tokens', same]

theorem Yields.dumpOf_eq_start {ρ' : Type} [Reader ρ'] {s' : TokenStream ρ'} {tokens' : List Token}
    {failure' : Option ScanError} (h : s.Yields tokens failure) (h' : s'.Yields tokens' failure')
    (regular : s.symbols.Regular) (regular' : s'.symbols.Regular)
    (start : s.buffer.Splits source [] [] (sourceText source))
    (start' : s'.buffer.Splits source [] [] (sourceText source)) : dumpOf tokens = dumpOf tokens' := by
  obtain ⟨scanned, scan⟩ := exists_scan (.behind []) (sourceText source)
  obtain ⟨-, all⟩ := all_of_scan scan start regular
  obtain ⟨-, all'⟩ := all_of_scan scan start' regular'
  rw [h.all_eq.2] at all
  rw [h'.all_eq.2] at all'
  exact dumpOf_eq (all.trans all'.symm)

/-- The stream is back at the start with the reserved words alone, and its tokens can be dumped again as
those of a new stream. -/
structure Restarted (s : TokenStream ρ) (source : List UInt8) : Prop where
  size : s.symbols.size = 2
  words : ∀ spelling, s.symbols.contains spelling = true ↔ spelling = "def" ∨ spelling = "extern"
  place : s.buffer.Splits source [] [] (sourceText source)
  again : ∀ (ρ' : Type) [Reader ρ'] (r : ρ') (name : String) (b : Buffer ρ'),
    Reader.Delivers source r → Buffer.new r name = .ok b →
    ∀ tokens failure, (ofBuffer b).Yields tokens failure →
    ∀ room, (s.dump (.limited room)).state.2.written = (dumpOf tokens).extract 0 room

theorem Yields.dump_written (h : s.Yields tokens failure) (room : Nat) :
    (s.dump (.limited room)).state.2.written = (dumpOf tokens).extract 0 room := by
  obtain ⟨-, -, sink⟩ := dump_eq s (.limited room)
  obtain ⟨lines, -⟩ := h.feed_dumpStep (.limited room, #[])
  obtain ⟨-, written⟩ := Sink.writeAll_limited (tokens.map line) .empty room
  rw [sink, lines]
  exact written.trans ByteArray.empty_append

theorem Yields.feed_limited (h : s.Yields tokens failure) (room : Nat) :
    (s.feed dumpStep (.limited room, #[])).1 =
      if (dumpOf tokens).size ≤ room then failure else some (.cannotWrite Sink.full) := by
  obtain ⟨-, ending⟩ := h.feed_dumpStep (.limited room, #[])
  obtain ⟨fits, -⟩ := Sink.writeAll_limited (tokens.map line) .empty room
  rw [ending]
  change (if (Sink.writeAll ⟨.empty, some room⟩ (tokens.map line)).1 = true then _ else _) = _
  rw [fits]
  simp [dumpOf]

/-- The reset behind the last line does not fail. -/
theorem Stands.dump_result_eq (h : s.Stands source) (out : Sink) :
    (s.dump out).result = (s.feed dumpStep (out, #[])).1.elim (.ok ()) .error := by
  obtain ⟨result, -, -⟩ := dump_eq s out
  generalize fed_eq : s.feed dumpStep (out, #[]) = fed at result ⊢
  obtain ⟨failed, acc, s'⟩ := fed
  rw [result]
  cases failed with
  | some e => rfl
  | none => exact (h.feed fed_eq).reset.1

theorem Yields.dump_result (h : s.Yields tokens failure) (stands : s.Stands source) (room : Nat) :
    (s.dump (.limited room)).result =
      if (dumpOf tokens).size ≤ room then failure.elim (.ok ()) .error
      else .error (.cannotWrite Sink.full) := by
  rw [stands.dump_result_eq, h.feed_limited]
  split <;> rfl

/-- Where there is room for everything, every line is written and the failure is that of the stream. -/
theorem Yields.dump_roomy (h : s.Yields tokens failure) (stands : s.Stands source) {out : Sink}
    (roomy : out.room = none) :
    (s.dump out).result = failure.elim (.ok ()) .error ∧
      (s.dump out).state.2.written = out.written ++ dumpOf tokens := by
  obtain ⟨bytes, room⟩ := out
  obtain rfl : room = none := roomy
  obtain ⟨-, -, sink⟩ := dump_eq s ⟨bytes, none⟩
  obtain ⟨lines, ending⟩ := h.feed_dumpStep (⟨bytes, none⟩, #[])
  rw [Sink.writeAll_unlimited] at lines ending
  rw [stands.dump_result_eq, ending, sink, lines]
  exact ⟨rfl, rfl⟩

theorem Stands.restarted_reset (h : s.Stands source) : s.reset.state.Restarted source := by
  obtain ⟨-, names, start⟩ := h.reset
  have holds := SymbolTable.holds_seeded s.symbols.nextSerial
  refine ⟨?_, ?_, start, ?_⟩
  · rw [names]
    exact holds.size_eq
  · intro spelling
    have here := holds.contains_iff spelling
    rw [List.map_nil] at here
    simp only [List.not_mem_nil, or_false] at here
    rw [names]
    exact here
  · intro ρ' _ r name b reads opened tokens failure yields room
    have regular : (TokenStream.ofBuffer b).symbols.Regular := SymbolTable.regular_seeded 0
    have all := yields_all s.reset.state
    rw [all.dump_written, all.dumpOf_eq_start yields h.reset_state.regular regular start
      (ofBuffer_splits reads opened)]

theorem Stands.restarted_dump {out : Sink} (h : s.Stands source) (done : (s.dump out).result = .ok ()) :
    (s.dump out).state.1.Restarted source := by
  obtain ⟨result, state, -⟩ := dump_eq s out
  generalize fed_eq : s.feed dumpStep (out, #[]) = fed at result state
  obtain ⟨failure, acc, s'⟩ := fed
  rw [done] at result
  cases failure with
  | some e => cases result
  | none =>
    rw [state]
    exact (h.feed fed_eq).restarted_reset

/-- A dump writes the lines of the tokens that are left, as far as there is room. It fails for want of room
exactly if they do not fit, and otherwise as the stream does. Without a failure it starts anew. -/
theorem dump_limited (h : s.Unfailed source) :
    ∃ tokens failure, s.Yields tokens failure ∧ ∀ room,
      (s.dump (.limited room)).state.2.written = (dumpOf tokens).extract 0 room ∧
      ((∃ cause, (s.dump (.limited room)).result = .error (.cannotWrite cause)) ↔
        room < (dumpOf tokens).size) ∧
      ((dumpOf tokens).size ≤ room →
        (s.dump (.limited room)).result = failure.elim (.ok ()) .error) ∧
      ((s.dump (.limited room)).result = .ok () →
        (s.dump (.limited room)).state.1.Restarted source) := by
  have stands := h.stands
  have yields := yields_all s
  refine ⟨_, _, yields, fun room => ?_⟩
  generalize s.all.2.1.toList = tokens at yields ⊢
  generalize s.all.1 = failure at yields ⊢
  have result := yields.dump_result stands room
  refine ⟨yields.dump_written room, ?_, ?_, ?_⟩
  · rw [result]
    constructor
    · rintro ⟨cause, full⟩
      by_contra fits
      rw [if_pos (Nat.le_of_not_lt fits)] at full
      cases failure with
      | none => cases full
      | some e =>
        cases full
        exact yields.failure_position stands _ rfl rfl
    · intro full
      exact ⟨_, if_neg (Nat.not_le_of_lt full)⟩
  · intro fits
    rw [result, if_pos fits]
  · intro done
    exact stands.restarted_dump done

end

/-- There is room for the line of a plus sign, and for a part of the next one. -/
theorem dump_limited_line :
    ∃ b, Buffer.new (ByteReader.ofBytes #[43]) "a" = .ok b ∧ (ofBuffer b).Unfailed [43] ∧
      ((ofBuffer b).dump (.limited 20)).state.2.written = "1:1 punctuator +\n1:2".toUTF8 ∧
      ∃ cause, ((ofBuffer b).dump (.limited 20)).result = .error (.cannotWrite cause) := by
  have reads := ByteReader.delivers #[43]
  obtain ⟨b, opened, splits⟩ := Buffer.new_splits reads "a"
  have unfailed : (ofBuffer b).Unfailed [43] := .new reads opened
  have start : (ofBuffer b).buffer.Splits [43] [] [] ['+'] := splits
  have head : Head.ofText ['+'] = .punctuator "+" := by rfl
  obtain ⟨b₁, rest, first, cut, behind⟩ := next_of_gapless start rfl
  rw [head] at first cut behind
  obtain rfl : [] = rest := List.tail_eq_of_cons_eq cut
  obtain ⟨s', second, -⟩ := next_of_end (s := ⟨b₁, (ofBuffer b).symbols⟩) behind
  have lines : (ofBuffer b).Yields [⟨.punctuator "+", .behind []⟩, .endOfInput (.behind ['+'])] none :=
    .more first rfl (.ended second rfl)
  obtain ⟨tokens, failure, yields, limited⟩ := dump_limited unfailed
  obtain rfl : tokens = _ := yields.all_eq.2.symm.trans lines.all_eq.2
  obtain ⟨written, full, -⟩ := limited 20
  refine ⟨b, opened, unfailed, written.trans ?_, full.mpr ?_⟩
  · decide +kernel
  · decide +kernel

end TokenStream

end Kaleidoscope
