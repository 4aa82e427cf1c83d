import Kaleidoscope.Proofs.Literal.Decimal
import Kaleidoscope.Proofs.Literal.Magnitude

/-!
# What the text of a number says

The text of a finite number is a decimal literal that reads as the shortest decimal of the number. No
two numbers have one text.
-/

namespace Kaleidoscope.Literal

open Decimal Float.Model

variable {n : Nat} {d : Digits} {digits power : List Char}

/-! ## Digits -/

theorem numeric_toDigits (n : Nat) : Numeric (Nat.toDigits 10 n) :=
  fun _ mem => Nat.isDigit_of_mem_toDigits (by decide) (by decide) mem

theorem numeric_replicate (k : Nat) : Numeric (List.replicate k '0') := by
  intro c mem
  rw [List.eq_of_mem_replicate mem]
  decide

theorem Numeric.append {ds : List Char} (h : Numeric digits) (h' : Numeric ds) :
    Numeric (digits ++ ds) :=
  List.forall_mem_append.mpr ⟨h, h'⟩

theorem integerValue_numeric (numeric : Numeric digits) :
    integerValue 10 digits = Nat.ofDigitChars 10 digits 0 := by
  apply List.foldl_ext
  intro n c mem
  rw [digitValue, if_pos (numeric c mem), Nat.mul_comm]

theorem integerValue_toDigits (n : Nat) : integerValue 10 (Nat.toDigits 10 n) = n := by
  rw [integerValue_numeric (numeric_toDigits n), Nat.ofDigitChars_ten_toDigits]

theorem integerValue_append (cs ds : List Char) :
    integerValue 10 (cs ++ ds) = ds.foldl (fun n c => n * 10 + digitValue c) (integerValue 10 cs) :=
  List.foldl_append

theorem integerValue_append_zeros (cs : List Char) (k : Nat) :
    integerValue 10 (cs ++ List.replicate k '0') = integerValue 10 cs * 10 ^ k := by
  induction k with
  | zero => simp
  | succ k ih =>
    have zero : digitValue '0' = 0 := by decide
    rw [List.replicate_succ', ← List.append_assoc, integerValue_append, ih]
    simp only [List.foldl_cons, List.foldl_nil, zero]
    ring

theorem integerValue_zeros (k : Nat) (ds : List Char) :
    integerValue 10 (List.replicate k '0' ++ ds) = integerValue 10 ds := by
  have zeros := integerValue_append_zeros [] k
  have nil : integerValue 10 [] = 0 := rfl
  rw [List.nil_append, nil, Nat.zero_mul] at zeros
  rw [integerValue_append, zeros]
  rfl

structure HasDigits (n : Nat) (c : Char) (ds : List Char) : Prop where
  eq : Nat.toDigits 10 n = c :: ds
  lead : c ≠ '0'

theorem hasDigits_of_pos (n : Nat) (some : 0 < n) : ∃ c ds, HasDigits n c ds := by
  induction n using Nat.strongRecOn with
  | ind n ih =>
    by_cases small : n < 10
    · have lead : ∀ n < 10, 0 < n → n.digitChar ≠ '0' := by decide
      exact ⟨_, [], Nat.toDigits_of_lt_base small, lead n small some⟩
    · obtain ⟨c, ds, eq, lead⟩ := ih (n / 10) (by omega) (by omega)
      refine ⟨c, ds ++ [(n % 10).digitChar], ?_, lead⟩
      rw [Nat.toDigits_of_base_le (by decide) (by omega), eq]
      rfl

section
variable {c : Char} {ds : List Char}

theorem HasDigits.numeric (h : HasDigits n c ds) : Numeric (c :: ds) :=
  h.eq ▸ numeric_toDigits n

theorem HasDigits.value (h : HasDigits n c ds) : integerValue 10 (c :: ds) = n :=
  h.eq ▸ integerValue_toDigits n

theorem HasDigits.isDecimal {more tail : List Char} (h : HasDigits n c ds) (numeric : Numeric more)
    (behind : IsTail tail) : IsDecimal (c :: (more ++ tail)) :=
  .other (h.numeric c List.mem_cons_self) h.lead numeric behind

end

/-! ## The text of a decimal -/

def Says (text : List Char) (d : Digits) : Prop :=
  IsDecimal text ∧ (reading text).value = d.value

theorem says_of_reading {text : List Char} (literal : IsDecimal text) (h : reading text = d) :
    Says text d := ⟨literal, by rw [h]⟩

section
variable {c : Char} {ds : List Char} {k : Nat}

theorem HasDigits.says_whole (h : HasDigits d.digits c ds) (zeros : d.exponent = k) :
    Says (c :: ds ++ List.replicate k '0') d := by
  have numeric := h.numeric.append (numeric_replicate k)
  have read := reading_whole numeric .none
  rw [List.append_nil] at read
  refine ⟨?_, ?_⟩
  · rw [← List.append_nil (c :: ds ++ List.replicate k '0')]
    exact h.isDecimal (List.forall_mem_cons.mp numeric).2 (.whole .none)
  · rw [read, integerValue_append_zeros, h.value, Digits.value, Digits.value, zeros]
    simp [exponentValue]

theorem HasDigits.says_between (h : HasDigits d.digits c ds)
    (point : ((c :: ds).length : Int) + d.exponent = k + 1) (fraction : d.exponent < 0) :
    Says ((c :: ds).take (k + 1) ++ '.' :: (c :: ds).drop (k + 1)) d := by
  have before : Numeric ((c :: ds).take (k + 1)) :=
    fun _ mem => h.numeric _ (List.mem_of_mem_take mem)
  have behind : Numeric ((c :: ds).drop (k + 1)) :=
    fun _ mem => h.numeric _ (List.mem_of_mem_drop mem)
  have exponent : exponentValue [] - ((c :: ds).drop (k + 1)).length = d.exponent := by
    rw [List.length_drop, exponentValue]
    omega
  have read := reading_places before behind .none
  rw [List.append_nil, List.take_append_drop, h.value, exponent] at read
  rw [← List.append_nil ((c :: ds).drop (k + 1))] at read ⊢
  exact says_of_reading (h.isDecimal (List.forall_mem_cons.mp before).2 (.places behind .none)) read

theorem HasDigits.says_before (h : HasDigits d.digits c ds)
    (zeros : ((c :: ds).length : Int) + d.exponent = -k) :
    Says ('0' :: '.' :: (List.replicate k '0' ++ c :: ds)) d := by
  have zero : Numeric ['0'] := List.forall_mem_singleton.mpr (by decide)
  have behind := (numeric_replicate k).append h.numeric
  have exponent : exponentValue [] - (List.replicate k '0' ++ c :: ds).length = d.exponent := by
    rw [List.length_append, List.length_replicate, exponentValue]
    omega
  have digits : integerValue 10 (['0'] ++ (List.replicate k '0' ++ c :: ds)) = d.digits :=
    (integerValue_zeros (k + 1) (c :: ds)).trans h.value
  have read := reading_places zero behind .none
  rw [List.append_nil, digits, exponent] at read
  rw [← List.append_nil (List.replicate k '0' ++ c :: ds)] at read ⊢
  exact says_of_reading (.zero behind .none) read

end

theorem positional_says (some : 0 < d.digits) : Says (positional d).flatten d := by
  obtain ⟨c, ds, h⟩ := hasDigits_of_pos d.digits some
  unfold positional
  rw [h.eq]
  dsimp only
  split
  · rename_i whole
    have reads := h.says_whole (Int.toNat_of_nonneg whole).symm
    simpa using reads
  · rename_i fraction
    split
    · rename_i inside
      generalize point : (((c :: ds).length : Int) + d.exponent).toNat = k
      obtain ⟨k, rfl⟩ : ∃ before, k = before + 1 := ⟨k - 1, by omega⟩
      have reads := h.says_between (k := k) (by omega) (Int.lt_of_not_ge fraction)
      simpa using reads
    · rename_i outside
      generalize zeros : (-(((c :: ds).length : Int) + d.exponent)).toNat = k
      have reads := h.says_before (k := k) (by omega)
      simpa using reads

theorem scientific_power (place : Int) :
    let power := 'e' :: (if 0 ≤ place then '+' else '-') :: Nat.toDigits 10 place.natAbs
    IsPower power ∧ exponentValue power = place := by
  have numeric := numeric_toDigits place.natAbs
  have value := integerValue_toDigits place.natAbs
  split
  · refine ⟨.some (.inr (.inl rfl)) numeric Nat.toDigits_ne_nil, ?_⟩
    rw [exponentValue, value]
    omega
  · refine ⟨.some (.inr (.inr rfl)) numeric Nat.toDigits_ne_nil, ?_⟩
    rw [exponentValue, value]
    omega

theorem flatten_scientific (place : Int) (mantissa power : List Char) :
    (if 0 ≤ place then [mantissa, ['e', '+'], power] else [mantissa ++ 'e' :: '-' :: power]).flatten =
      mantissa ++ 'e' :: (if 0 ≤ place then '+' else '-') :: power := by
  split <;> simp

theorem scientific_says (some : 0 < d.digits) : Says (scientific d).flatten d := by
  obtain ⟨c, ds, h⟩ := hasDigits_of_pos d.digits some
  obtain ⟨raised, place⟩ := scientific_power (leadingPlace d)
  have length : leadingPlace d = (c :: ds).length + d.exponent - 1 := by rw [leadingPlace, h.eq]
  unfold scientific
  dsimp only
  rw [flatten_scientific, h.eq]
  generalize 'e' :: (if 0 ≤ leadingPlace d then '+' else '-') ::
    Nat.toDigits 10 (leadingPlace d).natAbs = power at raised place ⊢
  cases ds with
  | nil =>
    apply says_of_reading
    · exact h.isDecimal (List.forall_mem_nil _) (.whole raised)
    · have exponent : exponentValue power = d.exponent := by
        rw [place, length, List.length_singleton]
        omega
      have read := reading_whole h.numeric raised
      rw [h.value, exponent] at read
      exact read
  | cons c' ds =>
    obtain ⟨digit, others⟩ := List.forall_mem_cons.mp h.numeric
    have before : Numeric [c] := List.forall_mem_singleton.mpr digit
    have literal := h.isDecimal (List.forall_mem_nil _) (.places others raised)
    apply says_of_reading literal
    have exponent : exponentValue power - (c' :: ds).length = d.exponent := by
      rw [place, length, List.length_cons]
      omega
    have read := reading_places before others raised
    rw [List.singleton_append, List.singleton_append, h.value, exponent] at read
    exact read

theorem digitPieces_says (some : 0 < d.digits) : Says (digitPieces d).flatten d := by
  unfold digitPieces
  split
  · exact positional_says some
  · exact scientific_says some

/-! ## The length of the text -/

theorem length_positional (place : -5 ≤ leadingPlace d ∧ leadingPlace d < 16) :
    (positional d).flatten.length ≤ (Nat.toDigits 10 d.digits).length + 22 := by
  unfold leadingPlace at place
  unfold positional
  dsimp only
  split
  · simp
    omega
  · split
    · simp
      omega
    · simp
      omega

theorem length_scientific (short : (Nat.toDigits 10 d.digits).length ≤ 1500)
    (exponent : -400 ≤ d.exponent ∧ d.exponent ≤ 400) :
    (scientific d).flatten.length ≤ (Nat.toDigits 10 d.digits).length + 7 := by
  have power : (Nat.toDigits 10 (leadingPlace d).natAbs).length ≤ 4 := by
    apply (Nat.length_toDigits_le_iff (by decide) (by decide)).mpr
    unfold leadingPlace
    omega
  unfold scientific
  dsimp only
  rw [flatten_scientific]
  split
  · rename_i eq
    rw [eq]
    simp
    omega
  · simp
    omega

theorem length_digitPieces (digits : d.digits < 10 ^ 1500)
    (exponent : -400 ≤ d.exponent ∧ d.exponent ≤ 400) :
    (digitPieces d).flatten.length ≤ maxLexeme := by
  have short := (Nat.length_toDigits_le_iff (by decide) (by decide)).mpr digits
  have room : 1522 ≤ maxLexeme := by decide
  unfold digitPieces
  split
  · rename_i place
    have length := length_positional place
    omega
  · have length := length_scientific short exponent
    omega

/-! ## The text of a number -/

theorem IsDecimal.head {text : List Char} (h : IsDecimal text) :
    ∃ c cs, text = c :: cs ∧ c.isDigit = true := by
  cases h with
  | zero => exact ⟨_, _, rfl, by decide⟩
  | other digit => exact ⟨_, _, rfl, digit⟩

theorem not_isDecimal_zero : ¬ IsDecimal ['0'] := by
  generalize text : ['0'] = cs
  intro h
  cases h with
  | zero => cases text
  | other digit lead =>
    exact lead (List.cons.inj text).1.symm

theorem not_isDecimal_cons {c : Char} (outside : ¬ c.isDigit = true) (cs : List Char) :
    ¬ IsDecimal (c :: cs) := by
  intro h
  obtain ⟨c', cs', eq, digit⟩ := h.head
  cases eq
  exact outside digit

/-- What the text of the number with the bits `n` is, its sign apart. -/
inductive Spells : Nat → List Char → Prop
  | zero : Spells 0 ['0']
  | finite {n : Nat} {text : List Char} (some : 0 < n) (less : n < infiniteBits)
    (literal : IsDecimal text) (rounds : (fractionAt n).Rounds (reading text).value)
    (fits : text.length ≤ maxLexeme) : Spells n text
  | infinite : Spells infiniteBits ['i', 'n', 'f']
  | notANumber {n : Nat} (more : infiniteBits < n) : Spells n ['N', 'a', 'N']

theorem shortest_digits_pos (some : 0 < n) (less : n < infiniteBits) :
    0 < (fractionAt n).shortest.digits := by
  have legal := fractionAt_legal some less
  have above := (Fraction.shortest_rounds legal).le.1
  have pos := (fractionAt n).low_pos legal.some
  rw [Nat.pos_iff_ne_zero]
  intro none
  rw [Digits.value, none, Nat.cast_zero, zero_mul] at above
  exact absurd above (not_le_of_gt pos)

theorem spells_ofBits (less : n < 2 ^ 63) : Spells n (Magnitude.ofBits n).pieces.flatten := by
  rcases Nat.eq_zero_or_pos n with rfl | some
  · exact .zero
  · rcases Nat.lt_trichotomy n infiniteBits with finite | rfl | more
    · obtain ⟨literal, value⟩ := digitPieces_says (shortest_digits_pos some finite)
      have legal := fractionAt_legal some finite
      rw [ofBits_finite some finite]
      refine .finite some finite literal ?_ ?_
      · rw [Magnitude.pieces, value]
        exact Fraction.shortest_rounds legal
      · exact length_digitPieces (Fraction.shortest_digits_lt legal) (Fraction.shortest_exponent legal)
    · exact .infinite
    · rw [ofBits_notANumber more less]
      exact .notANumber more

/-- Only what is not a number shares its text. -/
theorem Spells.unique {m : Nat} {text : List Char} (h : Spells n text) (h' : Spells m text) :
    n = m ∨ (infiniteBits < n ∧ infiniteBits < m) := by
  have inf : ¬ IsDecimal ['i', 'n', 'f'] := not_isDecimal_cons (by decide) _
  have nan : ¬ IsDecimal ['N', 'a', 'N'] := not_isDecimal_cons (by decide) _
  cases h with
  | zero =>
    cases h' with
    | zero => exact .inl rfl
    | finite _ _ literal => exact absurd literal not_isDecimal_zero
  | finite _ _ literal rounds =>
    cases h' with
    | zero => exact absurd literal not_isDecimal_zero
    | finite _ _ _ rounds' => exact .inl (eq_of_rounds rounds rounds')
    | infinite => exact absurd literal inf
    | notANumber => exact absurd literal nan
  | infinite =>
    cases h' with
    | finite _ _ literal => exact absurd literal inf
    | infinite => exact .inl rfl
  | notANumber more =>
    cases h' with
    | finite _ _ literal => exact absurd literal nan
    | notANumber more' => exact .inr ⟨more, more'⟩

def magnitudeBits (v : Float) : Nat := v.toBits.toNat % 2 ^ 63

theorem toBits_of_notANumber {v : Float} (h : infiniteBits < magnitudeBits v) :
    v.toBits = 0x7FF8000000000000 := by
  have exponent : @UnpackedFloat.unpackExponent .binary64 v.toBits.toBitVec = -1#11 := by
    apply BitVec.eq_of_toNat_eq
    unfold infiniteBits magnitudeBits at h
    simp [UnpackedFloat.unpackExponent]
    omega
  have mantissa : @UnpackedFloat.unpackMantissa .binary64 v.toBits.toBitVec ≠ 0#52 := by
    intro none
    have zero := congrArg BitVec.toNat none
    unfold infiniteBits magnitudeBits at h
    simp [UnpackedFloat.unpackMantissa] at zero
    omega
  have packed := v.toModel.valid.eq_packedNaN exponent mantissa
  exact UInt64.toBitVec_inj.mp packed

theorem eq_of_toBits {v w : Float} (h : v.toBits = w.toBits) : v = w := by
  obtain ⟨⟨bits, valid⟩⟩ := v
  obtain ⟨⟨bits', valid'⟩⟩ := w
  obtain rfl : bits = bits' := h
  rfl

theorem Spells.head {text : List Char} (h : Spells n text) : ∃ c cs, text = c :: cs ∧ c ≠ '-' := by
  cases h with
  | zero => exact ⟨_, _, rfl, by decide⟩
  | finite _ _ literal =>
    obtain ⟨c, cs, eq, digit⟩ := literal.head
    refine ⟨c, cs, eq, ?_⟩
    rintro rfl
    cases digit
  | infinite => exact ⟨_, _, rfl, by decide⟩
  | notANumber => exact ⟨_, _, rfl, by decide⟩

/-- The text of a number is that of its magnitude, behind a sign if it is negative. -/
theorem spell_cases (v : Float) : ∃ text, Spells (magnitudeBits v) text ∧
    (((spell v).toList = text ∧ v.toBits.toNat < 2 ^ 63) ∨
      ((spell v).toList = '-' :: text ∧ 2 ^ 63 ≤ v.toBits.toNat)) := by
  have spells := spells_ofBits (Nat.mod_lt v.toBits.toNat (Nat.two_pow_pos 63))
  rw [ofBits_mod] at spells
  refine ⟨_, spells, ?_⟩
  unfold spell pieces
  dsimp only
  rw [List.flatten_filter_not_isEmpty, Nat.pow_eq]
  split
  · rename_i signed
    right
    simpa using signed.1
  · rename_i unsigned
    left
    refine ⟨String.toList_ofList, ?_⟩
    by_cases more : infiniteBits < magnitudeBits v
    · rw [toBits_of_notANumber more]
      decide
    · have number := ofBits_ne_notANumber (Nat.le_of_not_lt more)
      rw [magnitudeBits, ofBits_mod] at number
      exact Nat.lt_of_not_le fun signed => unsigned ⟨signed, number⟩

theorem spell_injective {v w : Float} (h : spell v = spell w) : v = w := by
  apply eq_of_toBits
  obtain ⟨text, spells, v_cases⟩ := spell_cases v
  obtain ⟨text', spells', w_cases⟩ := spell_cases w
  rw [h] at v_cases
  have same (eq : text = text') : magnitudeBits v = magnitudeBits w ∨ v.toBits = w.toBits := by
    rw [eq] at spells
    rcases spells.unique spells' with magnitude | ⟨more, more'⟩
    · exact .inl magnitude
    · exact .inr ((toBits_of_notANumber more).trans (toBits_of_notANumber more').symm)
  unfold magnitudeBits at same
  rcases v_cases with ⟨here, clear⟩ | ⟨here, signed⟩
  · rcases w_cases with ⟨there, clear'⟩ | ⟨there, signed'⟩
    · rcases same (here.symm.trans there) with magnitude | bits
      · exact UInt64.toNat_inj.mp (by omega)
      · exact bits
    · obtain ⟨c, cs, eq, unsigned⟩ := spells.head
      rw [← here, there] at eq
      exact absurd (List.cons.inj eq).1.symm unsigned
  · rcases w_cases with ⟨there, clear'⟩ | ⟨there, signed'⟩
    · obtain ⟨c, cs, eq, unsigned⟩ := spells'.head
      rw [← there, here] at eq
      exact absurd (List.cons.inj eq).1.symm unsigned
    · rcases same (List.cons.inj (here.symm.trans there)).2 with magnitude | bits
      · have less := v.toBits.toNat_lt
        have less' := w.toBits.toNat_lt
        exact UInt64.toNat_inj.mp (by omega)
      · exact bits

/-- The text of a finite number without a sign is a literal that rounds to it. -/
theorem spell_finite {v : Float} (finite : v.toBits.toNat < infiniteBits) :
    (v.toBits = 0 ∧ (spell v).toList = ['0']) ∨
      (v.toBits ≠ 0 ∧ IsDecimal (spell v).toList ∧ (spell v).toList.length ≤ maxLexeme ∧
        (fractionAt v.toBits.toNat).Rounds (reading (spell v).toList).value) := by
  have clear : v.toBits.toNat < 2 ^ 63 := by
    unfold infiniteBits at finite
    omega
  obtain ⟨text, spells, ⟨eq, -⟩ | ⟨-, signed⟩⟩ := spell_cases v
  · rw [magnitudeBits, Nat.mod_eq_of_lt clear] at spells
    rw [eq]
    generalize bits : v.toBits.toNat = n at spells finite
    cases spells with
    | zero => exact .inl ⟨UInt64.toNat_inj.mp bits, rfl⟩
    | finite some _ literal rounds fits =>
      refine .inr ⟨?_, literal, fits, rounds⟩
      intro zero
      rw [zero] at bits
      exact absurd bits (Nat.ne_of_lt some)
    | infinite => exact absurd finite (Nat.lt_irrefl _)
    | notANumber more => exact absurd finite (Nat.lt_asymm more)
  · exact absurd clear (Nat.not_lt_of_le signed)

/-! ## Its characters -/

def isInside (c : Char) : Bool := isWordCharacter c || c == '.' || c == '+' || c == '-'

theorem inside_of_word {c : Char} (h : isWordCharacter c = true) : isInside c = true := by
  simp [isInside, h]

theorem inside_of_isDigit {c : Char} (h : c.isDigit = true) : isInside c = true := by
  simp [isInside, isWordCharacter, Char.isAlphanum, h]

theorem Numeric.inside (h : Numeric digits) : ∀ c ∈ digits, isInside c = true :=
  fun c mem => inside_of_isDigit (h c mem)

theorem IsPower.inside (h : IsPower power) : ∀ c ∈ power, isInside c = true := by
  cases h with
  | none => exact List.forall_mem_nil _
  | some signed numeric =>
    refine List.forall_mem_cons.mpr ⟨by decide, List.forall_mem_append.mpr ⟨?_, numeric.inside⟩⟩
    rcases signed with rfl | rfl | rfl
    all_goals exact List.all_eq_true.mp (by decide)

theorem IsTail.inside {tail : List Char} (h : IsTail tail) : ∀ c ∈ tail, isInside c = true := by
  cases h with
  | whole raised => exact raised.inside
  | places numeric raised =>
    exact List.forall_mem_cons.mpr
      ⟨by decide, List.forall_mem_append.mpr ⟨numeric.inside, raised.inside⟩⟩

theorem IsDecimal.inside {text : List Char} (h : IsDecimal text) : ∀ c ∈ text, isInside c = true := by
  cases h with
  | zero numeric raised =>
    exact List.forall_mem_cons.mpr ⟨by decide, (IsTail.places numeric raised).inside⟩
  | other digit lead numeric behind =>
    exact List.forall_mem_cons.mpr
      ⟨inside_of_isDigit digit, List.forall_mem_append.mpr ⟨numeric.inside, behind.inside⟩⟩

theorem Spells.inside {text : List Char} (h : Spells n text) : ∀ c ∈ text, isInside c = true := by
  cases h with
  | finite _ _ literal => exact literal.inside
  | _ => exact List.all_eq_true.mp (by decide)

theorem spell_inside (v : Float) : ∀ c ∈ (spell v).toList, isInside c = true := by
  obtain ⟨text, spells, ⟨eq, -⟩ | ⟨eq, -⟩⟩ := spell_cases v
  · rw [eq]
    exact spells.inside
  · rw [eq]
    exact List.forall_mem_cons.mpr ⟨by decide, spells.inside⟩

theorem spell_ne_nil (v : Float) : (spell v).toList ≠ [] := by
  obtain ⟨text, spells, ⟨eq, -⟩ | ⟨eq, -⟩⟩ := spell_cases v
  · obtain ⟨c, cs, split, -⟩ := spells.head
    simp [eq, split]
  · simp [eq]

end Kaleidoscope.Literal
