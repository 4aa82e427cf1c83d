import Kaleidoscope.Decimal.Shortest
import Kaleidoscope.Proofs.Token.Lexeme

/-!
# Decimal literals

A text that has the parts of a decimal literal is taken as a whole where nothing behind it could go
on with it. What it reads as is a decimal.
-/

namespace Kaleidoscope.Literal

open Decimal

inductive IsPower : List Char → Prop
  | none : IsPower []
  | some {sign digits : List Char} (signed : sign = [] ∨ sign = ['+'] ∨ sign = ['-'])
    (numeric : Numeric digits) (more : digits ≠ []) : IsPower ('e' :: (sign ++ digits))

inductive IsTail : List Char → Prop
  | whole {power : List Char} (raised : IsPower power) : IsTail power
  | places {places power : List Char} (numeric : Numeric places) (raised : IsPower power) :
    IsTail ('.' :: (places ++ power))

/-- A decimal literal with a lower-case exponent mark, other than a lone zero. -/
inductive IsDecimal : List Char → Prop
  | zero {places power : List Char} (numeric : Numeric places) (raised : IsPower power) :
    IsDecimal ('0' :: '.' :: (places ++ power))
  | other {first : Char} {digits tail : List Char} (digit : first.isDigit = true)
    (lead : first ≠ '0') (numeric : Numeric digits) (behind : IsTail tail) :
    IsDecimal (first :: (digits ++ tail))

def Apart (after : List Char) : Prop := ∀ c ∈ after.head?, isWordCharacter c = false ∧ c ≠ '.'

variable {text power tail after digits : List Char} {s : Stage}

/-! ## Scanning -/

theorem Apart.head (h : Apart after) :
    (after.headD endMark).isAlphanum = false ∧ after.headD endMark ≠ '.' := by
  cases after with
  | nil => decide
  | cons c after =>
    obtain ⟨word, dot⟩ := h c rfl
    unfold isWordCharacter at word
    exact ⟨(Bool.or_eq_false_iff.mp word).1, dot⟩

theorem run_numeric (loops : ∀ c, c.isDigit = true → s.move c = .take s) (numeric : Numeric digits)
    (cs : List Char) :
    s.run (digits ++ cs) = ⟨digits ++ (s.run cs).taken, (s.run cs).rest, (s.run cs).move⟩ :=
  Stage.run_through (Stage.through_loop loops numeric) cs

/-- Where an exponent part may stand, a literal without one is complete. -/
structure Stage.Raises (s : Stage) : Prop where
  mark : s.move 'e' = .take .exponentMark
  stops : ∀ c, c.isAlphanum = false → c ≠ '.' → s.move c = .finish .decimal

theorem not_isDigit_of_not_isAlphanum {c : Char} (h : c.isAlphanum = false) : c.isDigit = false := by
  unfold Char.isAlphanum at h
  exact (Bool.or_eq_false_iff.mp h).2

theorem ne_of_isAlphanum {c d : Char} (outside : c.isAlphanum = false)
    (inside : d.isAlphanum = true) : c ≠ d := by
  rintro rfl
  simp [inside] at outside

theorem not_isExponentMark {c : Char} (h : c.isAlphanum = false) : isExponentMark c = false := by
  have lower : c ≠ 'e' := ne_of_isAlphanum h (by decide)
  have upper : c ≠ 'E' := ne_of_isAlphanum h (by decide)
  simp [isExponentMark, lower, upper]

theorem raises_integer : Stage.integer.Raises where
  mark := by decide
  stops c outside dot := by
    simp [Stage.move, not_isDigit_of_not_isAlphanum outside, dot, not_isExponentMark outside]

theorem raises_fraction : Stage.fraction.Raises where
  mark := by decide
  stops c outside _ := by
    simp [Stage.move, not_isDigit_of_not_isAlphanum outside, not_isExponentMark outside]

theorem run_exponent (apart : Apart after) (numeric : Numeric digits) :
    Stage.exponent.run (digits ++ after) = ⟨digits, after, .finish .decimal⟩ := by
  have loops (c : Char) (digit : c.isDigit = true) : Stage.exponent.move c = .take .exponent := by
    simp [Stage.move, digit]
  have stops (c : Char) (outside : c.isAlphanum = false) :
      Stage.exponent.move c = .finish .decimal := by
    simp [Stage.move, not_isDigit_of_not_isAlphanum outside]
  rw [run_numeric loops numeric, Stage.run_stop (stops _ apart.head.1) (by simp), List.append_nil]

theorem run_power (raises : s.Raises) (raised : IsPower power) (apart : Apart after) :
    s.run (power ++ after) = ⟨power, after, .finish .decimal⟩ := by
  cases raised with
  | none =>
    obtain ⟨outside, dot⟩ := apart.head
    exact Stage.run_stop (raises.stops _ outside dot) (by simp)
  | @some sign digits signed numeric more =>
    obtain ⟨c, digits, rfl⟩ := List.exists_cons_of_ne_nil more
    obtain ⟨digit, others⟩ := List.forall_mem_cons.mp numeric
    have unsigned := not_isSign_of_isDigit digit
    have first : Stage.exponentMark.move c = .take .exponent := by
      simp [Stage.move, digit, unsigned]
    have second : Stage.exponentSign.move c = .take .exponent := by
      simp [Stage.move, digit]
    rw [List.cons_append, Stage.run_take raises.mark, List.append_assoc]
    rcases signed with rfl | rfl | rfl
    · rw [List.nil_append, List.cons_append, Stage.run_take first, run_exponent apart others]
      rfl
    · have plus : Stage.exponentMark.move '+' = .take .exponentSign := by decide
      rw [List.singleton_append, Stage.run_take plus, List.cons_append, Stage.run_take second,
        run_exponent apart others]
      rfl
    · have minus : Stage.exponentMark.move '-' = .take .exponentSign := by decide
      rw [List.singleton_append, Stage.run_take minus, List.cons_append, Stage.run_take second,
        run_exponent apart others]
      rfl

theorem run_places (numeric : Numeric digits) (raised : IsPower power) (apart : Apart after) :
    Stage.fraction.run (digits ++ power ++ after) = ⟨digits ++ power, after, .finish .decimal⟩ := by
  have loops (c : Char) (digit : c.isDigit = true) : Stage.fraction.move c = .take .fraction := by
    simp [Stage.move, digit]
  rw [List.append_assoc, run_numeric loops numeric, run_power raises_fraction raised apart]

theorem run_tail (behind : IsTail tail) (apart : Apart after) :
    Stage.integer.run (tail ++ after) = ⟨tail, after, .finish .decimal⟩ := by
  cases behind with
  | whole raised => exact run_power raises_integer raised apart
  | places numeric raised =>
    have point : Stage.integer.move '.' = .take .fraction := by decide
    rw [List.cons_append, Stage.run_take point, run_places numeric raised apart]

theorem IsDecimal.run (h : IsDecimal text) (apart : Apart after) :
    Stage.start.run (text ++ after) = ⟨text, after, .finish .decimal⟩ := by
  cases h with
  | zero numeric raised =>
    have zero : Stage.start.move '0' = .take .leadingZero := by decide
    have point : Stage.leadingZero.move '.' = .take .fraction := by decide
    rw [List.cons_append, Stage.run_take zero, List.cons_append, Stage.run_take point,
      run_places numeric raised apart]
  | @other first digits tail digit lead numeric behind =>
    have taken : Stage.start.move first = .take .integer := by
      simp [Stage.move, lead, digit]
    have loops (c : Char) (digit : c.isDigit = true) : Stage.integer.move c = .take .integer := by
      simp [Stage.move, digit]
    rw [List.cons_append, Stage.run_take taken, List.append_assoc, run_numeric loops numeric,
      run_tail behind apart]

theorem not_isOctalDigit {c : Char} (h : c.isDigit = false) : isOctalDigit c = false := by
  rw [Bool.eq_false_iff] at h ⊢
  exact mt isDigit_of_isOctalDigit h

theorem run_zero (apart : Apart after) :
    Stage.start.run ('0' :: after) = ⟨['0'], after, .finish .zero⟩ := by
  have zero : Stage.start.move '0' = .take .leadingZero := by decide
  have stops (c : Char) (outside : c.isAlphanum = false) (dot : c ≠ '.') :
      Stage.leadingZero.move c = .finish .zero := by
    have others : c ≠ 'x' ∧ c ≠ 'X' ∧ c ≠ 'b' ∧ c ≠ 'B' :=
      ⟨ne_of_isAlphanum outside (by decide), ne_of_isAlphanum outside (by decide),
        ne_of_isAlphanum outside (by decide), ne_of_isAlphanum outside (by decide)⟩
    simp [Stage.move, others, dot, not_isOctalDigit (not_isDigit_of_not_isAlphanum outside)]
  obtain ⟨outside, dot⟩ := apart.head
  rw [Stage.run_take zero, Stage.run_stop (stops _ outside dot) (by simp)]

/-! ## Reading -/

def reading (text : List Char) : Digits :=
  let whole := text.takeWhile Char.isDigit
  let behind := text.dropWhile Char.isDigit
  let (places, power) := match behind with
    | '.' :: r => (r.takeWhile Char.isDigit, r.dropWhile Char.isDigit)
    | r => ([], r)
  ⟨integerValue 10 (whole ++ places), exponentValue power - places.length⟩

theorem decimalValue_eq (text : List Char) :
    decimalValue text = nearest (reading text).digits (reading text).exponent := rfl

theorem span_numeric (numeric : Numeric digits) (raised : IsPower power) :
    (digits ++ power).takeWhile Char.isDigit = digits ∧
      (digits ++ power).dropWhile Char.isDigit = power := by
  refine span_digits numeric ?_
  cases raised with
  | none => exact nofun
  | some =>
    rintro _ ⟨⟩
    decide

theorem reading_whole (numeric : Numeric digits) (raised : IsPower power) :
    reading (digits ++ power) = ⟨integerValue 10 digits, exponentValue power⟩ := by
  obtain ⟨whole, behind⟩ := span_numeric numeric raised
  unfold reading
  rw [whole, behind]
  cases raised with
  | none => simp
  | some => simp

theorem reading_places {places : List Char} (numeric : Numeric digits) (numeric' : Numeric places)
    (raised : IsPower power) :
    reading (digits ++ '.' :: (places ++ power)) =
      ⟨integerValue 10 (digits ++ places), exponentValue power - places.length⟩ := by
  obtain ⟨whole, behind⟩ := span_numeric numeric' raised
  have dot : ¬ '.'.isDigit = true := by decide
  unfold reading
  rw [List.takeWhile_append_of_pos numeric, List.dropWhile_append_of_pos numeric,
    List.takeWhile_cons_of_neg dot, List.dropWhile_cons_of_neg dot, List.append_nil]
  simp only [whole, behind]

end Kaleidoscope.Literal
