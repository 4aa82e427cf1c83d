import Kaleidoscope.Proofs.Literal.Grammar

/-!
# Conversions

A conversion checks its text. The text of a number always passes.
-/

namespace Kaleidoscope.Literal

variable {c : Char} {text digits : List Char} {radix : Nat}

/-! ## Digits of a radix -/

theorem digitValue_lt (c : Char) : digitValue c < 16 := by
  have letters : 'a'.toNat = 97 ∧ 'f'.toNat = 102 ∧ 'A'.toNat = 65 ∧ 'F'.toNat = 70 ∧
      '0'.toNat = 48 ∧ '9'.toNat = 57 := by decide
  unfold digitValue
  split
  · rename_i digit
    simp only [Char.isDigit, Bool.and_eq_true, decide_eq_true_eq] at digit
    have last : c.toNat ≤ '9'.toNat := digit.2
    omega
  split
  · rename_i lower
    have last : c.toNat ≤ 'f'.toNat := lower.2
    omega
  split
  · rename_i upper
    have last : c.toNat ≤ 'F'.toNat := upper.2
    omega
  · decide

theorem isDigitOf_hex (h : isHexDigit c = true) : isDigitOf 16 c = true := by
  simp [isDigitOf, h, digitValue_lt c]

theorem isDigitOf_binary (h : isBinaryDigit c = true) : isDigitOf 2 c = true := by
  have either : c = '0' ∨ c = '1' := by simpa [isBinaryDigit] using h
  rcases either with rfl | rfl <;> decide

theorem isDigitOf_octal (h : isOctalDigit c = true) : isDigitOf 8 c = true := by
  have digit := isDigit_of_isOctalDigit h
  have last : c.toNat ≤ '7'.toNat := by
    simp only [isOctalDigit, Bool.and_eq_true, decide_eq_true_eq] at h
    exact h.2
  have seven : '7'.toNat = 55 ∧ '0'.toNat = 48 := by decide
  have small : digitValue c < 8 := by
    rw [digitValue, if_pos digit]
    omega
  simp [isDigitOf, isHexDigit, digit, small]

def RadixDigits (radix : Nat) (digits : List Char) : Prop :=
  digits ≠ [] ∧ ∀ c ∈ digits, isDigitOf radix c = true

theorem integer64?_eq (h : RadixDigits radix digits) : integer64? radix digits =
    if integerValue radix digits < Nat.pow 2 64 then some (integerValue radix digits) else none := by
  obtain ⟨some, all⟩ := h
  have valid : digits.all (isDigitOf radix) = true := List.all_eq_true.mpr all
  unfold integer64?
  split
  · -- A plus sign is no digit.
    rename_i rest
    have plus := all '+' List.mem_cons_self
    rw [isDigitOf, show isHexDigit '+' = false by decide, Bool.false_and] at plus
    cases plus
  · simp only [ne_eq, some, not_false_eq_true, valid, true_and]

theorem radixValue?_eq (h : RadixDigits radix digits) :
    radixValue? radix digits = some (radixValue radix digits) := by
  have valid : digits.all (isDigitOf radix) = true := List.all_eq_true.mpr h.2
  unfold radixValue? radixValue
  rw [if_neg h.1, integer64?_eq h]
  by_cases fits : integerValue radix digits < Nat.pow 2 64
  · simp only [if_pos fits]
  · simp only [if_neg fits, if_pos valid]

/-! ## Decimal numbers -/

theorem span_digits {rest : List Char} (numeric : Numeric digits)
    (stops : ∀ c ∈ rest.head?, c.isDigit = false) :
    (digits ++ rest).takeWhile Char.isDigit = digits ∧
      (digits ++ rest).dropWhile Char.isDigit = rest := by
  rw [List.takeWhile_append_of_pos numeric, List.dropWhile_append_of_pos numeric]
  cases rest with
  | nil => exact ⟨List.append_nil _, rfl⟩
  | cons c rest =>
    have other : ¬ c.isDigit = true := Bool.eq_false_iff.mp (stops c rfl)
    rw [List.takeWhile_cons_of_neg other, List.dropWhile_cons_of_neg other, List.append_nil]
    exact ⟨rfl, rfl⟩

theorem not_isDigit_of_mark (raised : isExponentMark c = true) : c.isDigit = false ∧ c ≠ '.' := by
  have either : c = 'e' ∨ c = 'E' := by simpa [isExponentMark] using raised
  rcases either with rfl | rfl <;> decide

theorem IsExponent.isExponentText (h : IsExponent text) : isExponentText text = true := by
  cases h with
  | mk raised signed some numeric =>
    obtain ⟨c, digits, rfl⟩ := List.exists_cons_of_ne_nil some
    have valid : (c :: digits).all Char.isDigit = true := List.all_eq_true.mpr numeric
    have digit := numeric c List.mem_cons_self
    have minus : c ≠ '-' := by
      rintro rfl
      cases digit
    have plus : c ≠ '+' := by
      rintro rfl
      cases digit
    rcases signed with rfl | rfl | rfl
    · simp [Literal.isExponentText, raised, valid, minus, plus]
    · simp [Literal.isExponentText, raised, valid]
    · simp [Literal.isExponentText, raised, valid]

theorem head_of_raised (raised : text = [] ∨ IsExponent text) :
    isExponentText text = true ∧ ∀ c ∈ text.head?, c.isDigit = false ∧ c ≠ '.' := by
  rcases raised with rfl | power
  · exact ⟨rfl, nofun⟩
  · refine ⟨power.isExponentText, ?_⟩
    cases power with
    | mk raised signed some numeric =>
      rintro _ ⟨⟩
      exact not_isDigit_of_mark raised

theorem isDecimalText_whole {power : List Char} (some : digits ≠ []) (numeric : Numeric digits)
    (raised : power = [] ∨ IsExponent power) : isDecimalText (digits ++ power) = true := by
  obtain ⟨valid, head⟩ := head_of_raised raised
  obtain ⟨whole, behind⟩ := span_digits numeric fun c mem => (head c mem).1
  unfold isDecimalText
  rw [whole, behind]
  cases power with
  | nil => simp [some, valid]
  | cons c rest =>
    have point := (head c rfl).2
    simp [some, valid, point]

theorem isDecimalText_pointed {places power : List Char} (some : digits ≠ [] ∨ places ≠ [])
    (numeric : Numeric digits) (numeric' : Numeric places) (raised : power = [] ∨ IsExponent power) :
    isDecimalText (digits ++ '.' :: (places ++ power)) = true := by
  obtain ⟨valid, head⟩ := head_of_raised raised
  obtain ⟨fraction, exponent⟩ := span_digits numeric' fun c mem => (head c mem).1
  have point : ∀ c ∈ ('.' :: (places ++ power)).head?, c.isDigit = false := by
    rintro _ ⟨⟩
    decide
  obtain ⟨whole, behind⟩ := span_digits numeric point
  unfold isDecimalText
  rw [whole, behind]
  simp only [fraction, exponent, valid, Bool.and_true]
  rcases some with some | some <;> simp [some]

theorem IsInteger.numeric (h : IsInteger text) : text ≠ [] ∧ Numeric text := by
  cases h with
  | mk lead nonzero numeric => exact ⟨by simp, List.forall_mem_cons.mpr ⟨lead, numeric⟩⟩

theorem isDecimalText_of_mantissa {power : List Char} (h : IsMantissa text)
    (raised : power = [] ∨ IsExponent power) : isDecimalText (text ++ power) = true := by
  rcases h with integer | pointed
  · exact isDecimalText_whole integer.numeric.1 integer.numeric.2 raised
  · cases pointed with
    | behind integer numeric =>
      rw [List.append_assoc, List.cons_append]
      rcases integer with rfl | integer
      · exact isDecimalText_pointed (.inl (by simp)) (List.forall_mem_singleton.mpr (by decide))
          numeric raised
      · exact isDecimalText_pointed (.inl integer.numeric.1) integer.numeric.2 numeric raised
    | bare some numeric =>
      have none : Numeric [] := List.forall_mem_nil _
      exact isDecimalText_pointed (.inr some) none numeric raised

/-! ## Numbers -/

theorem IsNumeral.value? {form : Form} (h : IsNumeral form text) :
    form.value? text = some (form.value text) := by
  cases h with
  | hexadecimal mark some all =>
    exact radixValue?_eq ⟨some, fun c mem => isDigitOf_hex (all c mem)⟩
  | binary mark some all =>
    exact radixValue?_eq ⟨some, fun c mem => isDigitOf_binary (all c mem)⟩
  | octal some all =>
    exact radixValue?_eq ⟨List.cons_ne_nil _ _, List.forall_mem_cons.mpr
      ⟨by decide, fun c mem => isDigitOf_octal (all c mem)⟩⟩
  | zero => rfl
  | decimal h raised =>
    rw [Form.value?, decimalValue?, if_pos (isDecimalText_of_mantissa h raised)]
    rfl

end Kaleidoscope.Literal
