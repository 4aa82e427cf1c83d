import Kaleidoscope.Proofs.Token.Lookahead
import Kaleidoscope.Proofs.Token.Scan

/-!
# How a stream goes on after an error

An error leaves what had been taken between the start of the lexeme and the cursor. The next call looks
for blanks at the cursor, and commits what is pending with the first one. It looks for a comment at the
cursor as well, but skips it from the start of the lexeme on. Where neither is found, the pending
characters are taken back and read again.
-/

namespace Kaleidoscope

open Literal

/-! ## Where the next lexeme starts -/

/-- The text at which the next lexeme starts if `lexeme` is pending. -/
def resumption (lexeme : List Char) : List Char → List Char
  | [] => lexeme
  | c :: rest =>
    if isBlank c then afterGap false (c :: rest)
    else if c = '#' then afterGap true (lexeme ++ c :: rest)
    else lexeme ++ c :: rest

theorem afterGap_afterGap (comment : Bool) (cs : List Char) :
    afterGap false (afterGap comment cs) = afterGap comment cs := by
  induction cs generalizing comment with
  | nil => rfl
  | cons c cs ih =>
    rcases afterGap_step comment c with ⟨comment', -, passed⟩ | ended
    · rw [passed, ih]
    · rw [ended]
      cases comment with
      | false => exact ended cs
      | true => exact absurd (ended cs) (afterGap_ne_cons (c != '\n') c cs)

section
variable {c : Char} {lexeme after rest line : List Char}

theorem isBlank_headD_dropWhile (cs : List Char) :
    isBlank ((cs.dropWhile isBlank).headD endMark) = false := by
  have head := List.head?_dropWhile_not isBlank cs
  cases rest : cs.dropWhile isBlank with
  | nil => decide
  | cons c cs =>
    rw [rest] at head
    exact head

theorem resumption_blank (blank : isBlank c = true) :
    resumption lexeme (c :: rest) = afterGap false (c :: rest) :=
  if_pos blank

theorem resumption_comment : resumption lexeme ('#' :: rest) = afterGap true (lexeme ++ '#' :: rest) :=
  rfl

theorem resumption_other (blank : isBlank (after.headD endMark) = false)
    (mark : after.headD endMark ≠ '#') : resumption lexeme after = lexeme ++ after := by
  cases after with
  | nil => exact (List.append_nil lexeme).symm
  | cons c rest =>
    rw [List.headD_cons] at blank mark
    simp [resumption, blank, mark]

theorem resumption_nil (after : List Char) : resumption [] after = afterGap false after := by
  cases after with
  | nil => rfl
  | cons c rest =>
    by_cases blank : isBlank c = true
    · exact resumption_blank blank
    · by_cases mark : c = '#'
      · subst mark
        rfl
      · simp [resumption, afterGap, blank, mark]

def Gapless (lexeme after : List Char) : Prop :=
  lexeme = [] ∨ afterGap false (lexeme ++ after) = lexeme ++ after

theorem Gapless.resumption (h : Gapless lexeme after) :
    afterGap false (resumption lexeme after) = resumption lexeme after := by
  rcases h with rfl | gapless
  · rw [resumption_nil, afterGap_afterGap]
  · unfold Kaleidoscope.resumption
    split
    · rwa [List.append_nil] at gapless
    · split
      · exact afterGap_afterGap false _
      · split
        · exact afterGap_afterGap true _
        · exact gapless

end

theorem exists_line (cs : List Char) : ∃ line rest, cs = line ++ rest ∧ Line rest line := by
  induction cs with
  | nil => exact ⟨[], [], rfl, [], List.not_mem_nil, .inr ⟨rfl, rfl⟩⟩
  | cons c cs ih =>
    by_cases newline : c = '\n'
    · exact ⟨[c], cs, rfl, [], List.not_mem_nil, .inl (by rw [newline]; rfl)⟩
    · obtain ⟨line, rest, rfl, isLine⟩ := ih
      exact ⟨c :: line, rest, rfl, isLine.cons newline⟩

namespace Head

variable {cs text next : List Char}

theorem ofPunctuation_eq (cs : List Char) :
    ofPunctuation cs = .ended ∨ (∃ text, ofPunctuation cs = .punctuator text) ∨
      ∃ c, ofPunctuation cs = .unexpected c := by
  unfold ofPunctuation
  split
  · exact .inr (.inl ⟨_, rfl⟩)
  · split
    · exact .inl rfl
    · split
      · exact .inr (.inl ⟨_, rfl⟩)
      · exact .inr (.inr ⟨_, rfl⟩)

theorem length_of_ofWord (h : ofWord cs = .tooLong text) :
    text.length = maxLexeme ∧ maxLexeme < cs.length := by
  unfold ofWord at h
  split at h
  · rcases ofPunctuation_eq cs with eq | ⟨_, eq⟩ | ⟨_, eq⟩ <;> (rw [eq] at h; cases h)
  · split at h
    · rename_i long
      cases h
      exact ⟨List.length_take_of_le (Nat.le_of_lt long),
        Nat.lt_of_lt_of_le long (List.takeWhile_prefix _).length_le⟩
    · cases h

theorem length_of_tooLong (h : ofText cs = .tooLong text) :
    text.length = maxLexeme ∧ maxLexeme < cs.length := by
  unfold ofText at h
  split at h
  · rename_i long
    cases h
    have taken : (Stage.start.run cs).taken <+: cs := ⟨_, Stage.taken_append_rest .start cs⟩
    exact ⟨List.length_take_of_le (Nat.le_of_lt long), Nat.lt_of_lt_of_le long taken.length_le⟩
  · split at h
    · cases h
    · cases h
    · exact length_of_ofWord h

theorem ofWord_ne_malformed (cs text next : List Char) : ofWord cs ≠ .malformed text next := by
  unfold ofWord
  split
  · rcases ofPunctuation_eq cs with eq | ⟨_, eq⟩ | ⟨_, eq⟩ <;> simp [eq]
  · split <;> simp

theorem malformed_apart (h : ofText cs = .malformed text next) : ∀ c ∈ text, c ∉ separators := by
  unfold ofText at h
  split at h
  · cases h
  · split at h
    · cases h
    · cases h
      exact Stage.forall_taken .start cs
    · exact absurd h (ofWord_ne_malformed cs text next)

theorem committed_of_error {head : Head} {symbols names : SymbolTable} {pos : Position} {e : ScanError}
    (failed : head.answer symbols pos = (.error e, names)) : head.committed = [] ∧ names = symbols := by
  cases head <;> cases failed <;> exact ⟨rfl, rfl⟩

theorem pending_or_committed (head : Head) : head.pending = [] ∨ head.committed = [] := by
  cases head <;> simp [pending, committed]

end Head

namespace Buffer

section
variable {ρ : Type} [Reader ρ] {b b₁ b₂ : Buffer ρ} {source : List UInt8}
  {before lexeme after rest : List Char} {c : Char}

/-! ## Skipping a gap with characters pending -/

theorem skipBlanks_stays (other : isBlank b.peek = false) : b.skipBlanks = (.ok (), b) := by
  rw [skipBlanks, dif_neg (by simp [other])]

theorem skipBlanks_pending (h : b.Splits source before lexeme (c :: rest)) (blank : isBlank c = true)
    (room : lexeme.length < maxLexeme) :
    ∃ b', b.skipBlanks = (.ok (), b') ∧
      b'.Splits source (before ++ lexeme ++ (c :: rest).takeWhile isBlank) []
        ((c :: rest).dropWhile isBlank) := by
  obtain ⟨b₁, passed, moved⟩ := h.advance room
  obtain ⟨b', skipped, splits⟩ := skipBlanks_splits moved.mark
  have here : isBlank b.peek = true := by rwa [h.peek]
  refine ⟨b', ?_, ?_⟩
  · rw [skipBlanks, dif_pos here]
    split
    · rename_i advanced
      rw [passed] at advanced
      cases advanced
      exact skipped
    · rename_i advanced
      rw [passed] at advanced
      cases advanced
  · rw [List.takeWhile_cons_of_pos blank, List.dropWhile_cons_of_pos blank]
    simpa using splits

theorem skipBlanks_full (h : b.Splits source before lexeme (c :: rest)) (blank : isBlank c = true)
    (full : lexeme.length = maxLexeme) :
    b.skipBlanks = (.error (.lexemeTooLong (.behind before)), b) := by
  have here : isBlank b.peek = true := by rwa [h.peek]
  rw [skipBlanks, dif_pos here]
  split
  · rename_i advanced
    rw [h.advance_full full] at advanced
    cases advanced
  · rename_i advanced
    rw [h.advance_full full] at advanced
    cases advanced
    rfl

theorem skipGap_eq (b : Buffer ρ) :
    b.skipGap =
      match b.skipBlanks with
      | (.error e, b₁) => (.error e, b₁)
      | (.ok (), b₁) =>
        match b₁.startsWith "#" with
        | (.error e, b₂) => (.error e, b₂)
        | (.ok false, b₂) => (.ok (), b₂)
        | (.ok true, b₂) =>
          match b₂.skipLine with
          | (.error e, b₃) => (.error e, b₃)
          | (.ok (), b₃) => b₃.skipGap := by
  fun_cases skipGap b with
  | case1 e b₁ blanks => rw [blanks]
  | case2 b₁ blanks e b₂ comment => simp only [blanks, comment]
  | case3 b₁ blanks b₂ comment => simp only [blanks, comment]
  | case4 b₁ blanks b₂ comment e b₃ line => simp only [blanks, comment, line]
  | case5 b₁ blanks b₂ comment b₃ line => simp only [blanks, comment, line]

theorem skipGap_of_skipBlanks (skipped : b.skipBlanks = (.ok (), b₁))
    (other : isBlank b₁.peek = false) : b.skipGap = b₁.skipGap := by
  rw [skipGap_eq b, skipGap_eq b₁, skipped, skipBlanks_stays other]

theorem startsWith_full (h : b.Splits source before lexeme (c :: rest)) (full : lexeme.length = maxLexeme) :
    b.startsWith "#" = (.error (.lexemeTooLong (.behind before)), b) := by
  have stuck : b.probe "#".toList = (.error (.lexemeTooLong (.behind before)), b) := by
    rw [show "#".toList = ['#'] from rfl, probe, h.advance_full full]
  rw [startsWith, stuck]

theorem startsWith_atEnd (h : b.Splits source before lexeme []) :
    b.startsWith "#" = (.ok false, b.reset) := by
  have differs : b.probe "#".toList = (.ok false, b) := by
    rw [show "#".toList = ['#'] from rfl, probe, h.advance_nil]
    exact if_neg (by decide)
  rw [startsWith, differs]

/-- A full lexeme lets no gap be skipped. -/
theorem skipGap_full (h : b.Splits source before lexeme after) (full : lexeme.length = maxLexeme)
    (more : after ≠ []) : b.skipGap = (.error (.lexemeTooLong (.behind before)), b) := by
  obtain ⟨c, rest, rfl⟩ := List.exists_cons_of_ne_nil more
  rw [skipGap_eq]
  by_cases blank : isBlank c = true
  · rw [skipBlanks_full h blank full]
  · have other : isBlank b.peek = false := by rwa [h.peek, List.headD_cons, ← Bool.not_eq_true]
    simp only [skipBlanks_stays other, startsWith_full h full]

/-- From any other lexeme the next one is found. -/
theorem skipGap_pending (h : b.Splits source before lexeme after)
    (room : lexeme.length < maxLexeme ∨ after = []) :
    ∃ b' passed, b.skipGap = (.ok (), b') ∧ lexeme ++ after = passed ++ resumption lexeme after ∧
      b'.Splits source (before ++ passed) [] (resumption lexeme after) := by
  cases after with
  | nil =>
    have other : isBlank b.peek = false := by rw [h.peek]; decide
    refine ⟨b.reset, [], ?_, List.append_nil lexeme, ?_⟩
    · rw [skipGap_eq]
      simp only [skipBlanks_stays other, startsWith_atEnd h]
    · simpa [resumption] using h.reset
  | cons c rest =>
    replace room := room.resolve_right (List.cons_ne_nil c rest)
    by_cases blank : isBlank c = true
    · obtain ⟨b₁, skipped, splits⟩ := skipBlanks_pending h blank room
      obtain ⟨b', gap, found, split, -, splits'⟩ := skipGap_splits splits
      have other : isBlank b₁.peek = false := by rw [splits.peek, isBlank_headD_dropWhile]
      rw [afterGap_dropWhile] at split splits'
      -- the first blank takes the lexeme with it, and the gap behind it is skipped as ever
      rw [resumption_blank blank]
      refine ⟨b', lexeme ++ (c :: rest).takeWhile isBlank ++ gap, ?_, ?_, by simpa using splits'⟩
      · rw [skipGap_of_skipBlanks skipped other, found]
      · rw [List.append_assoc, List.append_assoc, ← split, List.takeWhile_append_dropWhile]
    · have other : isBlank b.peek = false := by rwa [h.peek, List.headD_cons, ← Bool.not_eq_true]
      have fits : lexeme.length + "#".toList.length ≤ maxLexeme := room
      obtain ⟨b₁, asked, splits⟩ := h.startsWith_pending fits (by decide)
      -- no blank has committed the lexeme, so the question is asked over it
      by_cases mark : c = '#'
      · subst mark
        have found : b.startsWith "#" = (.ok true, b₁) := asked
        obtain ⟨b₂, line, behind, passed, split, isLine, splits⟩ := skipLine_splits splits
        obtain ⟨b', gap, next, split', -, splits'⟩ := skipGap_splits splits
        rw [resumption_comment, split, isLine.afterGap]
        refine ⟨b', line ++ gap, ?_, ?_, by simpa using splits'⟩
        · rw [skipGap_eq]
          simp only [skipBlanks_stays other, found, passed, next]
        · rw [List.append_assoc, ← split']
      · have missing : b.startsWith "#" = (.ok false, b₁) := by
          rw [asked]
          simp [List.isPrefixOf, Ne.symm mark]
        have kept : resumption lexeme (c :: rest) = lexeme ++ c :: rest :=
          resumption_other ((Bool.not_eq_true _).mp blank) mark
        rw [kept]
        refine ⟨b₁, [], ?_, rfl, by simpa using splits⟩
        rw [skipGap_eq]
        simp only [skipBlanks_stays other, missing]

end

end Buffer

namespace TokenStream

/-! ## Calls from any place -/

section
variable {ρ : Type} [Reader ρ]

def later (s : TokenStream ρ) : Nat → TokenStream ρ
  | 0 => s
  | n + 1 => s.next.2.later n

structure StandsAt (s : TokenStream ρ) (symbols : SymbolTable) (source : List UInt8)
    (before lexeme after : List Char) : Prop where
  symbols : s.symbols = symbols
  splits : s.buffer.Splits source before lexeme after

variable {s : TokenStream ρ} {symbols : SymbolTable} {source : List UInt8}
  {before lexeme after : List Char}

theorem next_full (h : s.buffer.Splits source before lexeme after) (full : lexeme.length = maxLexeme)
    (more : after ≠ []) : s.next = (.error (.lexemeTooLong (.behind before)), s) := by
  unfold next
  rw [Buffer.skipGap_full h full more]

theorem next_pending (h : s.buffer.Splits source before lexeme after)
    (room : lexeme.length < maxLexeme ∨ after = []) :
    ∃ passed tail b rest, tail = resumption lexeme after ∧ lexeme ++ after = passed ++ tail ∧
      s.next =
        (((Head.ofText tail).answer s.symbols (.behind (before ++ passed))).1.map
            (⟨·, .behind (before ++ passed)⟩),
          ⟨b, ((Head.ofText tail).answer s.symbols (.behind (before ++ passed))).2⟩) ∧
      tail = (Head.ofText tail).committed ++ (Head.ofText tail).pending ++ rest ∧
      b.Splits source (before ++ passed ++ (Head.ofText tail).committed) (Head.ofText tail).pending
        rest := by
  obtain ⟨b₁, passed, skipped, split, splits⟩ := Buffer.skipGap_pending h room
  obtain ⟨b, rest, next, split', splits'⟩ := next_of_skipGap skipped splits
  exact ⟨passed, _, b, rest, rfl, split, next, split', splits'⟩

theorem room_of_not_full (h : s.buffer.Splits source before lexeme after)
    (not : ¬ (lexeme.length = maxLexeme ∧ after ≠ [])) : lexeme.length < maxLexeme ∨ after = [] := by
  by_cases ended : after = []
  · exact .inr ended
  · exact .inl (Nat.lt_of_le_of_ne h.length_le fun full => not ⟨full, ended⟩)

end

/-! ## Streams at one place -/

section
variable {ρ ρ' : Type} [Reader ρ] [Reader ρ'] {s : TokenStream ρ} {s' : TokenStream ρ'}

def Abreast (s : TokenStream ρ) (s' : TokenStream ρ') : Prop :=
  ∃ symbols source before lexeme after,
    s.StandsAt symbols source before lexeme after ∧ s'.StandsAt symbols source before lexeme after

/-- Where the next lexeme starts, streams come together. -/
theorem next_of_resumption {symbols : SymbolTable} {source : List UInt8}
    {before before' lexeme lexeme' after after' : List Char}
    (h : s.StandsAt symbols source before lexeme after)
    (h' : s'.StandsAt symbols source before' lexeme' after')
    (room : lexeme.length < maxLexeme ∨ after = []) (room' : lexeme'.length < maxLexeme ∨ after' = [])
    (same : resumption lexeme after = resumption lexeme' after') :
    s.next.1 = s'.next.1 ∧ Abreast s.next.2 s'.next.2 := by
  obtain ⟨passed, tail, b, rest, here, split, next, cut, splits⟩ := next_pending h.splits room
  obtain ⟨passed', tail', b', rest', here', split', next', cut', splits'⟩ := next_pending h'.splits room'
  obtain rfl : tail = tail' := here.trans (same.trans here'.symm)
  obtain rfl : rest = rest' := List.append_cancel_left (cut.symm.trans cut')
  have text : before ++ passed ++ tail = before' ++ passed' ++ tail := by
    rw [List.append_assoc, List.append_assoc, ← split, ← split', ← List.append_assoc,
      ← List.append_assoc, ← h.splits.text_eq, ← h'.splits.text_eq]
  have place := List.append_cancel_right text
  rw [h.symbols] at next
  rw [h'.symbols, ← place] at next'
  rw [← place] at splits'
  rw [next, next']
  exact ⟨rfl, _, source, _, _, rest, ⟨rfl, splits⟩, ⟨rfl, splits'⟩⟩

theorem Abreast.next (h : Abreast s s') : s.next.1 = s'.next.1 ∧ Abreast s.next.2 s'.next.2 := by
  have here := h
  obtain ⟨symbols, source, before, lexeme, after, stands, stands'⟩ := h
  by_cases full : lexeme.length = maxLexeme ∧ after ≠ []
  · rw [next_full stands.splits full.1 full.2, next_full stands'.splits full.1 full.2]
    exact ⟨rfl, here⟩
  · exact next_of_resumption stands stands' (room_of_not_full stands.splits full)
      (room_of_not_full stands'.splits full) rfl

theorem Abreast.later (h : Abreast s s') (n : Nat) : (s.later n).next.1 = (s'.later n).next.1 := by
  induction n generalizing s s' with
  | zero => exact h.next.1
  | succ n ih => exact ih h.next.2

end

/-! ## After an error -/

section
variable {ρ : Type} [Reader ρ]

/-- Every later call gives the error `e`, and leaves positions and names as they are. -/
def Repeats (s : TokenStream ρ) (e : ScanError) : Prop :=
  ∀ n, (s.later n).next.1 = .error e ∧ (s.later n).buffer.pos = s.buffer.pos ∧
    (s.later n).buffer.startPos = s.buffer.startPos ∧ (s.later n).symbols = s.symbols

/-- A stream can commit `passed`, and every later call gives what any stream gives that has done so and
knows the same names. -/
def GoesOnBehind (s : TokenStream ρ) (source : List UInt8) (passed : List Char) : Prop :=
  (∃ (b : Buffer ByteReader) (rest : List Char), b.Splits source passed [] rest) ∧
    ∀ {ρ' : Type} [Reader ρ'] {u : TokenStream ρ'} {rest : List Char}, u.symbols = s.symbols →
      u.buffer.Splits source passed [] rest → ∀ n, (s.later n).next.1 = (u.later n).next.1

/-- How a stream goes on behind the error `e`. With a malformed number `n` characters are pending. -/
def GoesOnAfter (s : TokenStream ρ) (source : List UInt8) : ScanError → Prop
  | .unexpectedCharacter c pos => s.Repeats (.unexpectedCharacter c pos)
  | .lexemeTooLong pos => s.Repeats (.lexemeTooLong pos)
  | .invalidNumber text pos => ∃ n ≤ maxLexeme, ∃ passed rest,
      s.buffer.pos.offset = pos.offset + n ∧ sourceText source = passed ++ rest ∧
      passed.length = s.buffer.pos.offset ∧
      (s.buffer.AtEnd ∨ n < maxLexeme ∧ isBlank s.buffer.peek = false ∧ s.buffer.peek ≠ '#' →
        s.Repeats (.invalidNumber text pos)) ∧
      (n < maxLexeme → isBlank s.buffer.peek = true → s.GoesOnBehind source passed) ∧
      (n < maxLexeme → s.buffer.peek = '#' → ∃ line rest', rest = line ++ rest' ∧ Line rest' line ∧
        s.GoesOnBehind source (passed ++ line)) ∧
      (n = maxLexeme → ¬ s.buffer.AtEnd → s.Repeats (.lexemeTooLong pos))
  | _ => False

variable {s : TokenStream ρ} {symbols : SymbolTable} {source : List UInt8}
  {before lexeme after rest : List Char} {e : ScanError}

theorem repeats_of_next (h : s.StandsAt symbols source before lexeme after)
    (step : ∀ u : TokenStream ρ, u.StandsAt symbols source before lexeme after →
      u.next.1 = .error e ∧ u.next.2.StandsAt symbols source before lexeme after) : s.Repeats e := by
  have stands (n : Nat) : (s.later n).StandsAt symbols source before lexeme after := by
    induction n generalizing s with
    | zero => exact h
    | succ n ih => exact ih (step s h).2
  intro n
  refine ⟨(step _ (stands n)).1, ?_, ?_, (stands n).symbols.trans h.symbols.symm⟩
  · rw [(stands n).splits.pos, h.splits.pos]
  · rw [(stands n).splits.startPos, h.splits.startPos]

theorem repeats_of_full (h : s.StandsAt symbols source before lexeme after)
    (full : lexeme.length = maxLexeme) (more : after ≠ []) :
    s.Repeats (.lexemeTooLong (.behind before)) := by
  apply repeats_of_next h
  intro u stands
  rw [next_full stands.splits full more]
  exact ⟨rfl, stands⟩

/-- An error that is found again where the lexeme started is repeated. -/
theorem repeats_of_head (h : s.StandsAt symbols source before lexeme after)
    (room : lexeme.length < maxLexeme ∨ after = []) (back : resumption lexeme after = lexeme ++ after)
    (failed : (Head.ofText (lexeme ++ after)).answer symbols (.behind before) = (.error e, symbols))
    (nothing : (Head.ofText (lexeme ++ after)).committed = [])
    (pending : (Head.ofText (lexeme ++ after)).pending = lexeme) : s.Repeats e := by
  apply repeats_of_next h
  intro u stands
  obtain ⟨passed, tail, b, rest, here, split, next, cut, splits⟩ := next_pending stands.splits room
  rw [back] at here
  subst here
  obtain rfl : passed = [] := List.append_left_eq_self.mp split.symm
  rw [stands.symbols, List.append_nil, failed] at next
  rw [nothing, pending, List.append_nil, List.append_nil] at splits
  rw [nothing, pending, List.nil_append] at cut
  obtain rfl : after = rest := List.append_cancel_left cut
  rw [next]
  exact ⟨rfl, rfl, splits⟩

theorem goesOnBehind (h : s.StandsAt symbols source before lexeme after)
    (room : lexeme.length < maxLexeme ∨ after = []) {passed : List Char}
    (text : sourceText source = passed ++ rest) (same : resumption lexeme after = afterGap false rest) :
    s.GoesOnBehind source passed := by
  obtain ⟨b, committed⟩ := Buffer.exists_splits text
  refine ⟨⟨b, rest, committed⟩, ?_⟩
  intro ρ' _ u rest' names splits n
  obtain rfl : rest' = rest := by
    have split := splits.text_eq
    rw [List.append_nil, text] at split
    exact List.append_cancel_left split.symm
  obtain ⟨here, abreast⟩ := next_of_resumption h ⟨names.trans h.symbols, splits⟩ room (.inl (by decide))
    (same.trans (resumption_nil rest').symm)
  cases n with
  | zero => exact here
  | succ n => exact abreast.later n

theorem goesOnAfter_malformed {text next : List Char} (h : s.StandsAt symbols source before text rest)
    (head : Head.ofText (text ++ rest) = .malformed text next) :
    s.GoesOnAfter source (.invalidNumber (String.ofList (text ++ next)) (.behind before)) := by
  have peek := h.splits.peek
  refine ⟨text.length, h.splits.length_le, before ++ text, rest, ?_, h.splits.text_eq, ?_, ?_, ?_, ?_, ?_⟩
  · rw [h.splits.pos]
    exact List.length_append
  · rw [h.splits.pos]
    rfl
  · intro settled
    have other : (text.length < maxLexeme ∨ rest = []) ∧ isBlank (rest.headD endMark) = false ∧
        rest.headD endMark ≠ '#' := by
      rw [h.splits.atEnd_iff, peek] at settled
      rcases settled with rfl | ⟨room, others⟩
      · exact ⟨.inr rfl, by decide, by decide⟩
      · exact ⟨.inl room, others⟩
    obtain ⟨room, blank, mark⟩ := other
    refine repeats_of_head h room (resumption_other blank mark) ?_ (congrArg Head.committed head)
      (congrArg Head.pending head)
    rw [head]
    rfl
  · intro room blank
    obtain ⟨rest', eq⟩ := h.splits.after_eq_cons (Buffer.not_atEnd_of_blank blank)
    apply goesOnBehind h (.inl room) h.splits.text_eq
    rw [eq, resumption_blank blank]
  · intro room mark
    have more : ¬ s.buffer.AtEnd := by
      apply Buffer.not_atEnd_of_peek_ne
      rw [mark]
      decide
    obtain ⟨rest', eq⟩ := h.splits.after_eq_cons more
    obtain ⟨line, behind, split, isLine⟩ := exists_line rest
    -- the comment mark is behind the text, so the line begins within it
    have inside : '\n' ∉ text := fun mem => Head.malformed_apart head '\n' mem (by decide)
    have text_eq : sourceText source = before ++ text ++ line ++ behind := by
      rw [h.splits.text_eq, split, List.append_assoc (before ++ text)]
    refine ⟨line, behind, split, isLine, goesOnBehind h (.inl room) text_eq ?_⟩
    rw [eq, mark, resumption_comment, ← mark, ← eq, afterGap_body inside, split, isLine.afterGap]
  · intro full more
    rw [h.splits.atEnd_iff] at more
    exact repeats_of_full h full more

/-- What an error leaves pending, and what is behind it, says how the stream goes on. -/
theorem goesOnAfter_head {head : Head} (h : s.StandsAt symbols source before head.pending rest)
    (gapless : afterGap false (head.pending ++ rest) = head.pending ++ rest)
    (here : Head.ofText (head.pending ++ rest) = head)
    (failed : head.answer symbols (.behind before) = (.error e, symbols)) : s.GoesOnAfter source e := by
  cases head with
  | tooLong text =>
    cases failed
    obtain ⟨full, long⟩ := Head.length_of_tooLong here
    refine repeats_of_full h full ?_
    rintro rfl
    rw [List.append_nil] at long
    exact absurd full (Nat.ne_of_gt long)
  | malformed text next =>
    cases failed
    exact goesOnAfter_malformed h here
  | unexpected c =>
    cases failed
    have room : (Head.unexpected c).pending.length < maxLexeme := (by decide : 0 < maxLexeme)
    refine repeats_of_head h (.inl room) ((resumption_nil rest).trans gapless) ?_
      (congrArg Head.committed here) (congrArg Head.pending here)
    rw [here]
    rfl
  | _ => cases failed

/-! ## Calls in a session -/

def Poised (s : TokenStream ρ) (source : List UInt8) : Prop :=
  ∃ before lexeme after, s.buffer.Splits source before lexeme after ∧ Gapless lexeme after

theorem Poised.next_cases (h : s.Poised source) :
    (∃ before lexeme after, s.buffer.Splits source before lexeme after ∧
      lexeme.length = maxLexeme ∧ after ≠ []) ∨
    ∃ before tail b rest, afterGap false tail = tail ∧
      s.next =
        (((Head.ofText tail).answer s.symbols (.behind before)).1.map (⟨·, .behind before⟩),
          ⟨b, ((Head.ofText tail).answer s.symbols (.behind before)).2⟩) ∧
      tail = (Head.ofText tail).committed ++ (Head.ofText tail).pending ++ rest ∧
      b.Splits source (before ++ (Head.ofText tail).committed) (Head.ofText tail).pending rest := by
  obtain ⟨before, lexeme, after, splits, gapless⟩ := h
  by_cases full : lexeme.length = maxLexeme ∧ after ≠ []
  · exact .inl ⟨before, lexeme, after, splits, full⟩
  · obtain ⟨passed, tail, b, rest, rfl, -, next, cut, splits'⟩ :=
      next_pending splits (room_of_not_full splits full)
    exact .inr ⟨before ++ passed, _, b, rest, gapless.resumption, next, cut, splits'⟩

theorem Poised.next (h : s.Poised source) : s.next.2.Poised source := by
  rcases h.next_cases with ⟨before, lexeme, after, splits, full, more⟩ |
    ⟨before, tail, b, rest, gapless, next, cut, splits⟩
  · rw [next_full splits full more]
    exact h
  · rw [next]
    refine ⟨_, _, rest, splits, ?_⟩
    rcases (Head.ofText tail).pending_or_committed with none | none
    · exact .inl none
    · rw [none, List.nil_append] at cut
      exact .inr (by rw [← cut, gapless])

theorem Poised.later (h : s.Poised source) (n : Nat) : (s.later n).Poised source := by
  induction n generalizing s with
  | zero => exact h
  | succ n ih => exact ih h.next

theorem Poised.goesOnAfter {s' : TokenStream ρ} (h : s.Poised source) (failed : s.next = (.error e, s')) :
    s'.GoesOnAfter source e := by
  rcases h.next_cases with ⟨before, lexeme, after, splits, full, more⟩ |
    ⟨before, tail, b, rest, gapless, next, cut, splits⟩
  · rw [next_full splits full more] at failed
    cases failed
    exact repeats_of_full ⟨rfl, splits⟩ full more
  · rw [failed] at next
    cases answered : (Head.ofText tail).answer s.symbols (.behind before) with
    | mk result names =>
      rw [answered] at next
      cases result with
      | ok kind => cases next
      | error e' =>
        cases next
        obtain ⟨nothing, rfl⟩ := Head.committed_of_error answered
        rw [nothing, List.append_nil] at splits
        rw [nothing, List.nil_append] at cut
        exact goesOnAfter_head (s := ⟨b, s.symbols⟩) ⟨rfl, splits⟩ (cut ▸ gapless) (cut ▸ rfl) (cut ▸ answered)

/-- Whatever a session has answered before, each error says how the stream goes on behind it. -/
theorem goesOnAfter_error (h : s.buffer.Splits source before [] after) (calls : Nat)
    {s' : TokenStream ρ} (failed : (s.later calls).next = (.error e, s')) : s'.GoesOnAfter source e := by
  have poised : s.Poised source := ⟨before, [], after, h, .inl rfl⟩
  exact (poised.later calls).goesOnAfter failed

end

/-- `1e` breaks off before a blank, and the next call goes on as if it had been committed. -/
theorem goesOnAfter_error_blank :
    ∃ (b : Buffer ByteReader) (s' : TokenStream ByteReader),
      Buffer.new (ByteReader.ofBytes #[49, 101, 32, 120]) "a" = .ok b ∧
      b.Splits [49, 101, 32, 120] [] [] ['1', 'e', ' ', 'x'] ∧
      ((ofBuffer b).later 0).next = (.error (.invalidNumber "1e " .start), s') ∧
      ∀ n, (s'.later n).next.1 = (TokenStream.later ⟨s'.buffer.mark, s'.symbols⟩ n).next.1 := by
  obtain ⟨b, opened, splits⟩ := Buffer.new_splits (ByteReader.delivers #[49, 101, 32, 120]) "a"
  have start : (ofBuffer b).buffer.Splits [49, 101, 32, 120] [] [] ['1', 'e', ' ', 'x'] := splits
  have head : Head.ofText ['1', 'e', ' ', 'x'] = .malformed ['1', 'e'] [' '] := by rfl
  obtain ⟨b', rest, next, cut, left⟩ := next_of_gapless start rfl
  rw [head] at next cut left
  have whole : ['1', 'e'] ++ [' ', 'x'] = ['1', 'e'] ++ rest := cut
  obtain rfl : [' ', 'x'] = rest := List.append_cancel_left whole
  have failed : ((ofBuffer b).later 0).next =
      (.error (.invalidNumber "1e " .start), ⟨b', (ofBuffer b).symbols⟩) := next
  have pending : b'.Splits [49, 101, 32, 120] [] ['1', 'e'] [' ', 'x'] := left
  obtain ⟨n, -, passed, rest, offset, text, length, -, dropped, -⟩ := goesOnAfter_error start 0 failed
  have pos : b'.pos = .behind ['1', 'e'] := pending.pos
  have blank : isBlank b'.peek = true := by
    rw [pending.peek]
    decide
  have short : n < maxLexeme := by
    change b'.pos.offset = 0 + n at offset
    rw [pos, Nat.zero_add] at offset
    rw [← offset]
    decide
  obtain rfl : passed = ['1', 'e'] := by
    change passed.length = b'.pos.offset at length
    rw [pos] at length
    exact List.append_inj_left (text.symm.trans pending.text_eq) length
  exact ⟨b, _, opened, splits, failed, (dropped short blank).2 rfl pending.mark⟩

end TokenStream

end Kaleidoscope
