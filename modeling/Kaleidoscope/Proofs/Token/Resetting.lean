import Kaleidoscope.Session
import Kaleidoscope.Proofs.Token.Agreement
import Kaleidoscope.Proofs.Token.Dump

/-!
# Resets that fail

A reset forgets the names before it goes back to the start of the source. If it cannot go back, the stream
stands where it stood and gives the same tokens, but its names are others than those that it gave before.
-/

namespace Kaleidoscope

/-! ## The names of a session -/

namespace TokenStream

section
variable {ρ : Type} [Reader ρ] {s : TokenStream ρ} {names past : List Name}

inductive Reached : TokenStream ρ → List Name → List Name → Prop
  | new (b : Buffer ρ) : Reached (ofBuffer b) [] []
  | next {s : TokenStream ρ} {names past : List Name} (h : Reached s names past) :
    Reached s.next.2 (names ++ returned s.next.1) past
  | reset {s : TokenStream ρ} {names past : List Name} (h : Reached s names past) :
    Reached s.reset.state [] (past ++ names)
  | moved {s : TokenStream ρ} {names past : List Name} (h : Reached s names past) (b : Buffer ρ) :
    Reached ⟨b, s.symbols⟩ names past

def issued (s : TokenStream ρ) : Nat → List Name
  | 0 => []
  | n + 1 => returned s.next.1 ++ s.next.2.issued n

theorem feed_eq_later {τ : Type} (s : TokenStream ρ) (step : τ → Token → Option ScanError × τ) (acc : τ) :
    ∃ n, (s.feed step acc).2.2 = s.later n := by
  fun_induction feed step acc s with
  | case1 acc s e s₁ next => exact ⟨1, by rw [later, next, later]⟩
  | case2 acc s t s₁ next e acc₁ stepped => exact ⟨1, by rw [later, next, later]⟩
  | case3 acc s t s₁ next acc₁ stepped more _ ih =>
    obtain ⟨n, calls⟩ := ih
    exact ⟨n + 1, by rw [calls, later, next]⟩
  | case4 acc s t s₁ next acc₁ stepped more => exact ⟨1, by rw [later, next, later]⟩

namespace Reached

theorem holds (h : s.Reached names past) : s.symbols.Holds names past := by
  induction h with
  | new b => exact SymbolTable.holds_seeded 0
  | @next s names past _ ih =>
    rcases s.next_symbols with ⟨symbols, found⟩ | ⟨text, -, symbols, found⟩
    · rw [symbols, found, List.append_nil]
      exact ih
    · rw [symbols, found]
      exact ih.intern text
  | reset _ ih => exact ih.clear
  | moved _ _ ih => exact ih

theorem later (h : s.Reached names past) (n : Nat) :
    (s.later n).Reached (names ++ s.issued n) past := by
  induction n generalizing s names with
  | zero =>
    rw [issued, List.append_nil]
    exact h
  | succ n ih =>
    have behind := ih h.next
    rw [List.append_assoc] at behind
    exact behind

theorem dump (h : s.Reached names past) (out : Sink) :
    ∃ names' past', (s.dump out).state.1.Reached names' past' := by
  obtain ⟨-, state, -⟩ := dump_eq s out
  obtain ⟨n, calls⟩ := s.feed_eq_later dumpStep (out, #[])
  rw [state, calls]
  cases (s.feed dumpStep (out, #[])).1 with
  | some e => exact ⟨_, _, h.later n⟩
  | none => exact ⟨_, _, (h.later n).reset⟩

theorem reopen (h : s.Reached names past) (path : String) (opened : Except SystemError ρ) :
    ∃ names' past', (s.reopen path opened).state.Reached names' past' := by
  unfold TokenStream.reopen Outcome.andThen
  dsimp only
  have moved := h.moved (s.buffer.reopen path opened).state
  cases (s.buffer.reopen path opened).result with
  | error e => exact ⟨_, _, moved⟩
  | ok => exact ⟨_, _, moved.reset⟩

/-- Names that are returned without a reset between them share their entries by their spellings. -/
theorem issued_iff (h : s.Reached names past) (n : Nat) {name name' : Name}
    (mem : name ∈ names ++ s.issued n) (mem' : name' ∈ names ++ s.issued n) :
    name.serial = name'.serial ↔ name.spelling = name'.spelling := by
  have holds := (h.later n).holds
  constructor
  · intro same
    rw [holds.distinct name mem name' mem' same]
  · intro same
    rw [holds.eq_of_spelling mem mem' same]

/-- No name shares its entry with one from before the last reset. -/
theorem issued_ne (h : s.Reached names past) (n : Nat) {name old : Name}
    (mem : name ∈ names ++ s.issued n) (gone : old ∈ past) : name.serial ≠ old.serial :=
  Nat.ne_of_gt ((h.later n).holds.older name mem old gone)

end Reached

end

end TokenStream

/-! ## A name before and behind a blank -/

namespace TokenStream

theorem identifier_of_unnumbered {result : Except ScanError Token} {spelling : String} {pos : Position}
    (h : result.map Token.unnumbered = .ok ⟨.identifier ⟨spelling, 0⟩, pos⟩) :
    ∃ name, result = .ok ⟨.identifier name, pos⟩ ∧ name.spelling = spelling := by
  obtain ⟨⟨kind, pos'⟩, found, same⟩ := ok_of_map h
  cases kind with
  | identifier name =>
    cases same
    exact ⟨name, found, rfl⟩
  | _ => cases same

def aBlankA : Array UInt8 := #[97, 32, 97]

theorem next_aBlankA {b : Buffer ByteReader}
    (start : (ofBuffer b).buffer.Splits aBlankA.toList [] [] ['a', ' ', 'a']) :
    (ofBuffer b).next.1.map Token.unnumbered = .ok ⟨.identifier ⟨"a", 0⟩, .behind []⟩ ∧
      (ofBuffer b).next.2.next.1.map Token.unnumbered =
        .ok ⟨.identifier ⟨"a", 0⟩, .behind ['a', ' ']⟩ := by
  have regular : (ofBuffer b).symbols.Regular := SymbolTable.regular_seeded 0
  have other (k : Keyword) : k.spelling ≠ String.ofList ['a'] := by cases k <;> decide
  have head : Head.ofText ['a', ' ', 'a'] = .word ['a'] := by rfl
  have head' : Head.ofText ['a'] = .word ['a'] := by rfl
  have first : (ofBuffer b).buffer.Splits aBlankA.toList [] [] ([] ++ ['a', ' ', 'a']) := start
  obtain ⟨result, s, rest, next, found, regular', cut, behind⟩ := next_of_gap first regular rfl
  rw [head] at found cut behind
  obtain rfl : [' ', 'a'] = rest := List.tail_eq_of_cons_eq cut
  have second : s.buffer.Splits aBlankA.toList ['a'] [] ([' '] ++ ['a']) := behind
  obtain ⟨result', s', rest', next', found', -⟩ := next_of_gap second regular' rfl
  rw [head'] at found'
  rw [next]
  dsimp only
  rw [next', found, found', Head.token_word other, Head.token_word other]
  exact ⟨rfl, rfl⟩

structure BetweenNames (s : TokenStream FaultyReader) (old : Name) : Prop where
  opened : ∃ b, Buffer.new (FaultyReader.ofBytes aBlankA FaultyReader.seekless none) "a" = .ok b ∧
    (ofBuffer b).next = (.ok ⟨.identifier old, .behind []⟩, s)
  reached : s.Reached [old] []
  stuck : Reader.toStart s.buffer.reader = (.error FaultyReader.seekFailure, s.buffer.reader)
  spelled : old.spelling = "a"
  next : s.next.1 = .ok ⟨.identifier old, .behind ['a', ' ']⟩

theorem exists_betweenNames : ∃ s old, BetweenNames s old := by
  obtain ⟨b₀, opened₀, splits⟩ := Buffer.new_splits (ByteReader.delivers aBlankA) "a"
  obtain ⟨first, second⟩ := next_aBlankA splits
  have related : FaultyReader.inMemory.Related (.ofBytes aBlankA)
      (.ofBytes aBlankA FaultyReader.seekless none) := ⟨rfl, rfl⟩
  obtain ⟨b, opened, agrees⟩ := Buffer.agrees_new related opened₀
  have regular : (ofBuffer b₀).symbols.Regular := SymbolTable.regular_seeded 0
  have start : (ofBuffer b₀).Agrees FaultyReader.inMemory (ofBuffer b) := ⟨agrees, regular, regular⟩
  obtain ⟨same, behind⟩ := start.next
  rw [first] at same
  obtain ⟨old, found, spelled⟩ := identifier_of_unnumbered same
  have reached : (ofBuffer b).next.2.Reached [old] [] := by
    have called := (Reached.new b).next
    rwa [found] at called
  obtain ⟨same', -⟩ := behind.next
  rw [second] at same'
  obtain ⟨again, found', spelled'⟩ := identifier_of_unnumbered same'
  obtain ⟨⟨r, ⟨-, faults⟩, buffer⟩, -, -⟩ := behind
  have shared : again = old := by
    have mem : again ∈ [old] ++ (ofBuffer b).next.2.issued 1 := by
      rw [issued, found']
      simp [returned, Token.name?]
    exact (reached.later 1).holds.eq_of_spelling mem List.mem_cons_self (spelled'.trans spelled.symm)
  refine ⟨(ofBuffer b).next.2, old, ⟨b, opened, Prod.ext found rfl⟩, reached, ?_, spelled, ?_⟩
  · have stuck : r.faults.seekFails = true := by rw [faults]; rfl
    rw [buffer]
    exact if_pos stuck
  · rw [found', shared]

/-! ## A reader that cannot go back -/

section
variable {ρ : Type} [Reader ρ] {s : TokenStream ρ} {names past : List Name}

/-- What a reset leaves behind if it has come no further than to forget the names, with the reader `r`. -/
structure ForgetsInPlace (s : TokenStream ρ) (r : ρ) (names past : List Name) : Prop where
  pos : s.reset.state.buffer.pos = s.buffer.pos
  startPos : s.reset.state.buffer.startPos = s.buffer.startPos
  size : s.reset.state.symbols.size = 2
  words : ∀ spelling, s.reset.state.symbols.contains spelling = true ↔
    spelling = "def" ∨ spelling = "extern"
  /-- The table is what it was only if it held no name. -/
  unchanged : (s.reset.state.symbols.size = s.symbols.size ∧
    ∀ spelling, s.reset.state.symbols.contains spelling = s.symbols.contains spelling) ↔ names = []
  tokens : Reader.Agree s.buffer.reader r → ∀ n,
    (s.reset.state.later n).next.1.map Token.unnumbered = (s.later n).next.1.map Token.unnumbered
  /-- Later names share their entries with each other, but not with those that were returned before. -/
  together : ∀ n, ∀ name ∈ s.reset.state.issued n, ∀ name' ∈ s.reset.state.issued n,
    name.serial = name'.serial ↔ name.spelling = name'.spelling
  apart : ∀ n, ∀ name ∈ s.reset.state.issued n, ∀ old ∈ past ++ names, name.serial ≠ old.serial
  /-- Without the call they would share them with both. -/
  otherwise : ∀ n, ∀ name ∈ s.issued n, ∀ old ∈ names ++ s.issued n,
    name.serial = old.serial ↔ name.spelling = old.spelling

theorem reset_of_stuck {cause : SystemError} {r : ρ}
    (stuck : Reader.toStart s.buffer.reader = (.error cause, r)) :
    s.reset.result = .error (.cannotRead cause) ∧
      s.reset.state = ⟨s.buffer.withReader r, s.symbols.clear⟩ := by
  unfold reset Buffer.rewind
  rw [stuck]
  exact ⟨rfl, rfl⟩

theorem Reached.size_eq_iff (h : s.Reached names past) : s.symbols.size = 2 ↔ names = [] := by
  rw [h.holds.size_eq]
  constructor
  · intro two
    have none : (names.map Name.spelling).dedup = [] := List.eq_nil_of_length_eq_zero (by omega)
    rw [List.dedup_eq_nil] at none
    exact List.map_eq_nil_iff.mp none
  · intro none
    subst none
    rfl

theorem Reached.unchanged_iff (h : s.Reached names past) :
    (s.reset.state.symbols.size = s.symbols.size ∧
      ∀ spelling, s.reset.state.symbols.contains spelling = s.symbols.contains spelling) ↔ names = [] := by
  have empty : s.reset.state.symbols.size = 2 := h.reset.size_eq_iff.mpr rfl
  constructor
  · rintro ⟨same, -⟩
    rw [empty] at same
    exact h.size_eq_iff.mp same.symm
  · intro none
    subst none
    refine ⟨by rw [empty, h.size_eq_iff.mpr rfl], fun spelling => ?_⟩
    rw [Bool.eq_iff_iff, h.reset.holds.contains_iff, h.holds.contains_iff]

theorem Reached.agrees_reset (h : s.Reached names past) {cause : SystemError} {r : ρ}
    (stuck : Reader.toStart s.buffer.reader = (.error cause, r))
    (reads : Reader.Agree s.buffer.reader r) : s.Agrees (Reader.agreement ρ ρ) s.reset.state := by
  refine ⟨?_, h.holds.toRegular, h.reset.holds.toRegular⟩
  rw [(reset_of_stuck stuck).2]
  exact ⟨r, reads, rfl⟩

/-- A reset whose reader cannot go back fails, and forgets the names all the same. The stream goes on where
it stood, but a name that was returned before does not come again. -/
theorem reset_forgets_in_place (h : s.Reached names past) {cause : SystemError} {r : ρ}
    (stuck : Reader.toStart s.buffer.reader = (.error cause, r)) :
    s.reset.result = .error (.cannotRead cause) ∧ s.ForgetsInPlace r names past := by
  obtain ⟨result, state⟩ := reset_of_stuck stuck
  have again := h.reset
  refine ⟨result, ?_⟩
  constructor
  case pos => rw [state]; rfl
  case startPos => rw [state]; rfl
  case size => exact again.size_eq_iff.mpr rfl
  case words =>
    intro spelling
    have here := again.holds.contains_iff spelling
    simpa only [List.map_nil, List.not_mem_nil, or_false] using here
  case unchanged => exact h.unchanged_iff
  case tokens =>
    intro reads n
    exact ((h.agrees_reset stuck reads).later n).next.1
  case together =>
    intro n name mem name' mem'
    exact again.issued_iff n mem mem'
  case apart =>
    intro n name mem old gone
    exact again.issued_ne n mem gone
  case otherwise =>
    intro n name mem old mem'
    exact h.issued_iff n (List.mem_append_right names mem) mem'

end

/-- Between two occurrences of a name the next one would share the entry of the first. -/
theorem reset_forgets_in_place_names :
    ∃ s old, BetweenNames s old ∧ s.Reached [old] [] ∧
      Reader.toStart s.buffer.reader = (.error FaultyReader.seekFailure, s.buffer.reader) ∧
      s.ForgetsInPlace s.buffer.reader [old] [] := by
  obtain ⟨s, old, h⟩ := exists_betweenNames
  exact ⟨s, old, h, h.reached, h.stuck, (reset_forgets_in_place h.reached h.stuck).2⟩

/-- The failed reset is not without a trace: the table has lost the name, and what is read again is another
name of the same spelling. -/
theorem reset_not_atomic :
    ∃ s old new, BetweenNames s old ∧
      s.reset.result = .error (.cannotRead FaultyReader.seekFailure) ∧
      s.reset.state.symbols.size ≠ s.symbols.size ∧
      s.reset.state.symbols.contains "a" ≠ s.symbols.contains "a" ∧
      s.reset.state.next.1 = .ok ⟨.identifier new, .behind ['a', ' ']⟩ ∧
      new.spelling = old.spelling ∧ new.serial ≠ old.serial := by
  obtain ⟨s, old, h⟩ := exists_betweenNames
  have again := h.reached.reset
  have agrees := h.reached.agrees_reset h.stuck fun _ => rfl
  have same := agrees.next.1
  rw [h.next] at same
  have unnumbered : s.reset.state.next.1.map Token.unnumbered =
      .ok ⟨.identifier ⟨old.spelling, 0⟩, .behind ['a', ' ']⟩ := same
  obtain ⟨new, found, spelled⟩ := identifier_of_unnumbered unnumbered
  refine ⟨s, old, new, h, (reset_of_stuck h.stuck).1, ?_, ?_, found, spelled, ?_⟩
  · intro size
    rw [again.size_eq_iff.mpr rfl] at size
    exact List.cons_ne_nil old [] (h.reached.size_eq_iff.mp size.symm)
  · have held : s.symbols.contains "a" = true := by
      rw [h.reached.holds.contains_iff]
      simp [h.spelled]
    have gone : ¬ s.reset.state.symbols.contains "a" = true := by
      rw [again.holds.contains_iff]
      decide
    rw [held]
    exact gone
  · have mem : new ∈ s.reset.state.issued 1 := by
      rw [issued, found]
      simp [returned, Token.name?]
    exact again.issued_ne 1 mem List.mem_cons_self

end TokenStream

end Kaleidoscope
