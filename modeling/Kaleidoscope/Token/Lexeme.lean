import Kaleidoscope.Literal.Value
import Kaleidoscope.Punctuator
import Kaleidoscope.Token.Gap

/-!
# Lexemes

A number, a word or a punctuator at a committed cursor. What is found is committed; if there is none
of the kind, the cursor is back at the start of the lexeme. An error leaves the cursor where it
arose.
-/

namespace Kaleidoscope

open Literal

def isWordCharacter (c : Char) : Bool := c.isAlphanum || c == '_'

namespace Buffer

variable {ρ : Type} [Reader ρ]

theorem extent_advance_lt {b b' : Buffer ρ} {c : Char} (h : b.advance = (.ok c, b'))
    (ended : ¬ b.AtEnd) : maxLexeme - b'.extent < maxLexeme - b.extent := by
  have := (advance_ok h ended).2.2.2.1
  have := b'.extent_le
  omega

/-! ## Numbers -/

def malformed (b : Buffer ρ) : ScanError :=
  .invalidNumber (String.ofList (b.lexeme ++ if b.AtEnd then [] else [b.peek])) b.startPos

omit [Reader ρ] in
theorem not_atEnd_of_take {b : Buffer ρ} {s next : Stage} (h : s.move b.peek = .take next) :
    ¬ b.AtEnd := by
  refine not_atEnd_of_peek_ne fun eq => ?_
  rw [eq] at h
  exact s.move_nul_ne_take next h

/-- Moves over the literal under the cursor, of which the part up to stage `s` has been passed. -/
def takeLiteral (b : Buffer ρ) (s : Stage) : Except ScanError (Option Form) × Buffer ρ :=
  match taken : s.move b.peek with
  | .take next =>
    match h : b.advance with
    | (.ok _, b') =>
      have _less := extent_advance_lt h (not_atEnd_of_take taken)
      takeLiteral b' next
    | (.error e, b') => (.error e, b')
  | .finish form => (.ok (some form), b)
  | .refuse => (.ok none, b)
  | .malformed => (.error b.malformed, b)
termination_by maxLexeme - b.extent

def number (b : Buffer ρ) : Except ScanError (Option Float) × Buffer ρ :=
  match b.takeLiteral .start with
  | (.ok (some form), b') =>
    match form.value? b'.lexeme with
    | some value => (.ok (some value), b'.mark)
    | none => (.error (.invalidNumber (String.ofList b'.lexeme) b'.startPos), b')
  | (.ok none, b') => (.ok none, b'.reset)
  | (.error e, b') => (.error e, b')

/-! ## Words -/

omit [Reader ρ] in
theorem not_atEnd_of_word {b : Buffer ρ} (h : isWordCharacter b.peek = true) : ¬ b.AtEnd := by
  refine not_atEnd_of_peek_ne fun eq => ?_
  rw [eq] at h
  exact absurd h (by decide)

def takeWord (b : Buffer ρ) : Except ScanError Unit × Buffer ρ :=
  if inside : isWordCharacter b.peek then
    match h : b.advance with
    | (.ok _, b') =>
      have _less := extent_advance_lt h (not_atEnd_of_word inside)
      takeWord b'
    | (.error e, b') => (.error e, b')
  else (.ok (), b)
termination_by maxLexeme - b.extent

def word (b : Buffer ρ) : Except ScanError (Option String) × Buffer ρ :=
  if isWordCharacter b.peek then
    match b.takeWord with
    | (.ok (), b') => (.ok (some (String.ofList b'.lexeme)), b'.mark)
    | (.error e, b') => (.error e, b')
  else (.ok none, b)

/-! ## Punctuators -/

def skip (b : Buffer ρ) : Nat → Except ScanError Unit × Buffer ρ
  | 0 => (.ok (), b)
  | n + 1 =>
    match b.advance with
    | (.ok _, b') => skip b' n
    | (.error e, b') => (.error e, b')

def oneOf (b : Buffer ρ) : List String → Except ScanError (Option String) × Buffer ρ
  | [] => (.ok none, b)
  | text :: candidates =>
    match b.startsWith text with
    | (.ok true, b') =>
      match b'.skip text.length with
      | (.ok (), b'') => (.ok (some text), b''.mark)
      | (.error e, b'') => (.error e, b'')
    | (.ok false, b') => oneOf b' candidates
    | (.error e, b') => (.error e, b')

def punctuator (b : Buffer ρ) : Except ScanError (Option String) × Buffer ρ :=
  match b.oneOf Punctuator.long with
  | (.ok none, b') =>
    match Punctuator.single? b'.peek with
    | some text =>
      match b'.advance with
      | (.ok _, b'') => (.ok (some text), b''.mark)
      | (.error e, b'') => (.error e, b'')
    | none => (.ok none, b')
  | other => other

/-! ## Progress

From a committed buffer, what is found takes from the supply, and finding nothing does not add to
it. -/

/-- `b'` is committed and has no more supply than `b`, and less if something was `found`. -/
def Settled (b b' : Buffer ρ) (found : Bool) : Prop :=
  b'.extent = 0 ∧ b'.supply ≤ b.supply ∧ (found → b'.supply < b.supply)

theorem takeLiteral_ok {b b' : Buffer ρ} {s : Stage} {form : Option Form}
    (h : b.takeLiteral s = (.ok form, b')) (loaded : b.Loaded) :
    b.Ahead b' ∧ b.extent ≤ b'.extent := by
  fun_induction takeLiteral b s with
  | case1 b s next taken c b₁ advanced less ih =>
    have ahead := advance_ahead advanced loaded
    have := ih h ahead.1.loaded
    exact ⟨ahead.1.trans this.1, by omega⟩
  | case2 => cases h
  | case3 =>
    cases h
    exact ⟨.refl loaded, Nat.le_refl _⟩
  | case4 =>
    cases h
    exact ⟨.refl loaded, Nat.le_refl _⟩
  | case5 => cases h

theorem takeLiteral_start {b b' : Buffer ρ} {form : Form}
    (h : b.takeLiteral .start = (.ok (some form), b')) (loaded : b.Loaded) :
    ¬ b.AtEnd ∧ b.extent < b'.extent := by
  rw [takeLiteral] at h
  split at h
  · rename_i next taken
    have ended := not_atEnd_of_take taken
    split at h
    · rename_i c b₁ advanced
      have extent := (advance_ok advanced ended).2.2.2.1
      have := takeLiteral_ok h (advance_ahead advanced loaded).1.loaded
      exact ⟨ended, by omega⟩
    · cases h
  · rename_i moved
    simp only [Stage.move] at moved
    repeat' split at moved
    all_goals cases moved
  · cases h
  · cases h

theorem settled_mark {b b' : Buffer ρ} (committed : b.extent = 0) (ended : ¬ b.AtEnd)
    (ahead : b.Ahead b') (moved : 0 < b'.extent) : b.Settled b'.mark true := by
  have := supply_mark_lt ahead (by rwa [atEnd_iff_of_extent_eq_zero committed] at ended) moved
  exact ⟨rfl, by omega, fun _ => this⟩

theorem number_settled {b b' : Buffer ρ} {value : Option Float}
    (h : b.number = (.ok value, b')) (committed : b.extent = 0) : b.Settled b' value.isSome := by
  have loaded := loaded_of_extent_eq_zero committed
  simp only [number] at h
  split at h
  · rename_i form b₁ taken
    split at h
    · cases h
      have ⟨ended, moved⟩ := takeLiteral_start taken loaded
      exact settled_mark committed ended (takeLiteral_ok taken loaded).1 (by omega)
    · cases h
  · rename_i b₁ taken
    cases h
    exact ⟨rfl, (takeLiteral_ok taken loaded).1.supply, nofun⟩
  · cases h

theorem takeWord_ok {b b' : Buffer ρ} (h : b.takeWord = (.ok (), b')) (loaded : b.Loaded) :
    b.Ahead b' ∧ b.extent ≤ b'.extent ∧
      (isWordCharacter b.peek = true → b.extent < b'.extent) := by
  fun_induction takeWord b with
  | case1 b inside c b₁ advanced less ih =>
    have ahead := advance_ahead advanced loaded
    have extent := (advance_ok advanced (not_atEnd_of_word inside)).2.2.2.1
    have := ih h ahead.1.loaded
    exact ⟨ahead.1.trans this.1, by omega, fun _ => by omega⟩
  | case2 => cases h
  | case3 b outside =>
    cases h
    exact ⟨.refl loaded, Nat.le_refl _, fun inside => absurd inside outside⟩

theorem word_settled {b b' : Buffer ρ} {text : Option String}
    (h : b.word = (.ok text, b')) (committed : b.extent = 0) : b.Settled b' text.isSome := by
  have loaded := loaded_of_extent_eq_zero committed
  simp only [word] at h
  split at h
  · rename_i inside
    split at h
    · rename_i b₁ taken
      cases h
      have := takeWord_ok taken loaded
      exact settled_mark committed (not_atEnd_of_word inside) this.1
        (by have := this.2.2 inside; omega)
    · cases h
  · cases h
    exact ⟨committed, Nat.le_refl _, nofun⟩

theorem skip_ok {b b' : Buffer ρ} {n : Nat} (h : b.skip n = (.ok (), b')) (loaded : b.Loaded) :
    b.Ahead b' ∧ b.extent ≤ b'.extent := by
  induction n generalizing b with
  | zero =>
    cases h
    exact ⟨.refl loaded, Nat.le_refl _⟩
  | succ n ih =>
    simp only [skip] at h
    split at h
    · rename_i c b₁ advanced
      have ahead := advance_ahead advanced loaded
      have := ih h ahead.1.loaded
      exact ⟨ahead.1.trans this.1, by omega⟩
    · cases h

theorem skip_succ_ok {b b' : Buffer ρ} {n : Nat} (h : b.skip (n + 1) = (.ok (), b'))
    (loaded : b.Loaded) (ended : ¬ b.AtEnd) : b.Ahead b' ∧ b.extent < b'.extent := by
  refine ⟨(skip_ok h loaded).1, ?_⟩
  simp only [skip] at h
  split at h
  · rename_i c b₁ advanced
    have extent := (advance_ok advanced ended).2.2.2.1
    have := skip_ok h (advance_ahead advanced loaded).1.loaded
    omega
  · cases h

/-- Texts that can be found without mistaking the end of the source for one of their characters. -/
def Findable (text : String) : Prop :=
  ∃ c rest, text.toList = c :: rest ∧ c ≠ endMark

theorem oneOf_settled {candidates : List String} (findable : ∀ text ∈ candidates, Findable text)
    {b b' : Buffer ρ} {text : Option String} (h : b.oneOf candidates = (.ok text, b'))
    (committed : b.extent = 0) : b.Settled b' text.isSome := by
  induction candidates generalizing b with
  | nil =>
    cases h
    exact ⟨committed, Nat.le_refl _, nofun⟩
  | cons candidate candidates ih =>
    simp only [oneOf] at h
    split at h
    · rename_i b₁ found
      obtain ⟨c, rest, eq, mark⟩ := findable candidate (by simp)
      obtain ⟨committed₁, same⟩ := startsWith_ok found
      obtain ⟨near, begin, le⟩ := same committed
      have ended := not_atEnd_of_startsWith found eq mark
      rw [atEnd_iff_of_extent_eq_zero committed] at ended
      split at h
      · rename_i b₂ skipped
        cases h
        rw [show candidate.length = rest.length + 1 by
          rw [← String.length_toList, eq, List.length_cons]] at skipped
        have open₁ : ¬ b₁.AtEnd := by
          rw [atEnd_iff_of_extent_eq_zero committed₁, near, begin]
          exact ended
        have := skip_succ_ok skipped (loaded_of_extent_eq_zero committed₁) open₁
        have := (settled_mark committed₁ open₁ this.1 (by omega)).2.2 rfl
        exact ⟨rfl, by omega, fun _ => by omega⟩
      · cases h
    · rename_i b₁ missing
      obtain ⟨committed₁, same⟩ := startsWith_ok missing
      have := same committed
      have := ih (fun text mem => findable text (by simp [mem])) h committed₁
      exact ⟨this.1, by have := this.2.1; omega, fun found => by have := this.2.2 found; omega⟩
    · cases h

theorem findable_long : ∀ text ∈ Punctuator.long, Findable text := by
  intro text mem
  simp only [Punctuator.long, List.mem_cons, List.not_mem_nil, or_false] at mem
  rcases mem with rfl | rfl | rfl | rfl | rfl | rfl | rfl | rfl | rfl | rfl | rfl | rfl | rfl | rfl |
    rfl | rfl | rfl | rfl | rfl | rfl | rfl
  all_goals exact ⟨_, _, rfl, by decide⟩

theorem punctuator_settled {b b' : Buffer ρ} {text : Option String}
    (h : b.punctuator = (.ok text, b')) (committed : b.extent = 0) :
    b.Settled b' text.isSome := by
  simp only [punctuator] at h
  split at h
  · rename_i b₁ missing
    have settled := oneOf_settled findable_long missing committed
    split at h
    · rename_i single punctuation
      have ended : ¬ b₁.AtEnd := by
        refine not_atEnd_of_peek_ne fun eq => ?_
        rw [eq, show Punctuator.single? endMark = none by decide] at punctuation
        cases punctuation
      split at h
      · rename_i c b₂ advanced
        cases h
        have extent := (advance_ok advanced ended).2.2.2.1
        have := (settled_mark settled.1 ended
          (advance_ahead advanced (loaded_of_extent_eq_zero settled.1)).1 (by omega)).2.2 rfl
        have := settled.2.1
        exact ⟨rfl, by omega, fun _ => by omega⟩
      · cases h
    · cases h
      exact settled
  · exact oneOf_settled findable_long h committed

end Buffer

end Kaleidoscope
