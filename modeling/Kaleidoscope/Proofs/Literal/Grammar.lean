import Kaleidoscope.Proofs.Literal.Run

/-!
# The grammar of numbers

Which texts are numbers, and which break off where a digit has to follow. Each stage of scanning is known
by the texts that lead to it, so the longest number at the head of a text is what scanning takes from it.
-/

namespace Kaleidoscope.Literal

/-! ## Numbers -/

def Numeric (cs : List Char) : Prop := ∀ c ∈ cs, c.isDigit = true

inductive IsInteger : List Char → Prop
  | mk {c : Char} {digits : List Char} (lead : c.isDigit = true) (nonzero : c ≠ '0')
    (numeric : Numeric digits) : IsInteger (c :: digits)

/-- Digits with a point among them. Digits before it have no leading zero, and digits behind it need
not be there if some are before it. -/
inductive IsPointed : List Char → Prop
  | behind {whole places : List Char} (integer : whole = ['0'] ∨ IsInteger whole)
    (numeric : Numeric places) : IsPointed (whole ++ '.' :: places)
  | bare {places : List Char} (some : places ≠ []) (numeric : Numeric places) :
    IsPointed ('.' :: places)

def IsMantissa (cs : List Char) : Prop := IsInteger cs ∨ IsPointed cs

def IsSignPart (cs : List Char) : Prop := cs = [] ∨ cs = ['+'] ∨ cs = ['-']

inductive IsExponent : List Char → Prop
  | mk {mark : Char} {sign digits : List Char} (raised : isExponentMark mark = true)
    (signed : IsSignPart sign) (some : digits ≠ []) (numeric : Numeric digits) :
    IsExponent (mark :: (sign ++ digits))

inductive IsNumeral : Form → List Char → Prop
  | hexadecimal {x : Char} {digits : List Char} (mark : x = 'x' ∨ x = 'X') (some : digits ≠ [])
    (all : ∀ c ∈ digits, isHexDigit c = true) : IsNumeral .hexadecimal ('0' :: x :: digits)
  | binary {x : Char} {digits : List Char} (mark : x = 'b' ∨ x = 'B') (some : digits ≠ [])
    (all : ∀ c ∈ digits, isBinaryDigit c = true) : IsNumeral .binary ('0' :: x :: digits)
  | octal {digits : List Char} (some : digits ≠ []) (all : ∀ c ∈ digits, isOctalDigit c = true) :
    IsNumeral .octal ('0' :: digits)
  | zero : IsNumeral .zero ['0']
  | decimal {mantissa power : List Char} (h : IsMantissa mantissa)
    (raised : power = [] ∨ IsExponent power) : IsNumeral .decimal (mantissa ++ power)

/-- `cs` starts with `text`, behind which a digit would have to follow and does not. -/
inductive IsMalformed (cs : List Char) : List Char → Prop
  | hexadecimal {x : Char} {rest : List Char} (mark : x = 'x' ∨ x = 'X') (eq : cs = '0' :: x :: rest)
    (missing : ∀ c ∈ rest.head?, isHexDigit c = false) : IsMalformed cs ['0', x]
  | binary {x : Char} {rest : List Char} (mark : x = 'b' ∨ x = 'B') (eq : cs = '0' :: x :: rest)
    (missing : ∀ c ∈ rest.head?, isBinaryDigit c = false) : IsMalformed cs ['0', x]
  | exponent {mantissa sign rest : List Char} {mark : Char} (h : IsMantissa mantissa)
    (longest : ∀ text, IsMantissa text → text <+: cs → text.length ≤ mantissa.length)
    (raised : isExponentMark mark = true) (signed : IsSignPart sign)
    (eq : cs = mantissa ++ mark :: (sign ++ rest))
    (unsigned : sign = [] → ∀ c ∈ rest.head?, isSign c = false)
    (missing : ∀ c ∈ rest.head?, c.isDigit = false) : IsMalformed cs (mantissa ++ mark :: sign)

inductive BeginsNumber : List Char → Prop
  | digit {c : Char} {rest : List Char} (h : c.isDigit = true) : BeginsNumber (c :: rest)
  | point {c : Char} {rest : List Char} (h : c.isDigit = true) : BeginsNumber ('.' :: c :: rest)

/-! ### Characters -/

theorem not_isSign_of_isDigit {c : Char} (digit : c.isDigit = true) : isSign c = false := by
  unfold isSign
  by_cases plus : c = '+'
  · subst plus
    cases digit
  · by_cases minus : c = '-'
    · subst minus
      cases digit
    · simp [plus, minus]

theorem isSign_iff {c : Char} : isSign c = true ↔ c = '+' ∨ c = '-' := by
  simp [isSign]

theorem isDigit_of_isOctalDigit {c : Char} (h : isOctalDigit c = true) : c.isDigit = true := by
  unfold isOctalDigit at h
  rw [Bool.and_eq_true, decide_eq_true_iff, decide_eq_true_iff] at h
  simp only [Char.isDigit, Bool.and_eq_true, decide_eq_true_eq]
  have last : '7' ≤ '9' := by decide
  exact ⟨h.1, Char.le_trans h.2 last⟩

/-! ### One character more -/

section
variable {c : Char} {text digits : List Char}

theorem forall_mem_snoc {p : Char → Prop} (h : ∀ c ∈ text, p c) (here : p c) :
    ∀ d ∈ text ++ [c], p d :=
  List.forall_mem_append.mpr ⟨h, List.forall_mem_singleton.mpr here⟩

theorem IsInteger.snoc (h : IsInteger text) (digit : c.isDigit = true) : IsInteger (text ++ [c]) := by
  cases h with
  | mk lead nonzero numeric => exact .mk lead nonzero (forall_mem_snoc numeric digit)

theorem IsPointed.snoc (h : IsPointed text) (digit : c.isDigit = true) : IsPointed (text ++ [c]) := by
  cases h with
  | behind integer numeric =>
    rw [List.append_assoc]
    exact .behind integer (forall_mem_snoc numeric digit)
  | bare some numeric => exact .bare (by simp) (forall_mem_snoc numeric digit)

theorem IsInteger.point (h : text = ['0'] ∨ IsInteger text) : IsPointed (text ++ ['.']) :=
  .behind h (List.forall_mem_nil _)

theorem IsExponent.snoc (h : IsExponent text) (digit : c.isDigit = true) : IsExponent (text ++ [c]) := by
  cases h with
  | mk raised signed some numeric =>
    rw [List.cons_append, List.append_assoc]
    exact .mk raised signed (by simp) (forall_mem_snoc numeric digit)

end

/-! ## The texts that lead to a stage -/

namespace Stage

inductive Behind : Stage → List Char → Prop
  | start : Behind start []
  | leadingZero : Behind leadingZero ['0']
  | hexMark {x : Char} (mark : x = 'x' ∨ x = 'X') : Behind hexMark ['0', x]
  | hexDigits {text : List Char} (h : IsNumeral .hexadecimal text) : Behind hexDigits text
  | binaryMark {x : Char} (mark : x = 'b' ∨ x = 'B') : Behind binaryMark ['0', x]
  | binaryDigits {text : List Char} (h : IsNumeral .binary text) : Behind binaryDigits text
  | octalDigits {text : List Char} (h : IsNumeral .octal text) : Behind octalDigits text
  | integer {text : List Char} (h : IsInteger text) : Behind integer text
  | bareDot : Behind bareDot ['.']
  | fraction {text : List Char} (h : IsPointed text) : Behind fraction text
  | exponentMark {mantissa : List Char} {mark : Char} (h : IsMantissa mantissa)
    (raised : isExponentMark mark = true) : Behind exponentMark (mantissa ++ [mark])
  | exponentSign {mantissa : List Char} {mark sign : Char} (h : IsMantissa mantissa)
    (raised : isExponentMark mark = true) (signed : isSign sign = true) :
    Behind exponentSign (mantissa ++ [mark, sign])
  | exponent {mantissa power : List Char} (h : IsMantissa mantissa) (raised : IsExponent power) :
    Behind exponent (mantissa ++ power)

variable {s s' next : Stage} {c : Char} {cs text : List Char} {form : Form}

theorem Behind.take (h : s.Behind text) (moved : s.move c = .take next) : next.Behind (text ++ [c]) := by
  -- one case for each stage, in which every branch of the move is a stage or no character taken
  cases h with
  | start =>
    simp only [Stage.move] at moved
    split at moved
    · rename_i zero
      cases moved
      rw [zero]
      exact .leadingZero
    split at moved
    · rename_i zero digit
      cases moved
      exact .integer (.mk digit zero (List.forall_mem_nil _))
    split at moved
    · rename_i point
      cases moved
      rw [point]
      exact .bareDot
    · cases moved
  | leadingZero =>
    simp only [Stage.move] at moved
    split at moved
    · rename_i mark
      cases moved
      exact .hexMark mark
    split at moved
    · rename_i mark
      cases moved
      exact .binaryMark mark
    split at moved
    · rename_i digit
      cases moved
      exact .octalDigits (.octal (by simp) (List.forall_mem_singleton.mpr digit))
    split at moved
    · rename_i point
      cases moved
      rw [point]
      exact .fraction (IsInteger.point (.inl rfl))
    · cases moved
  | hexMark mark =>
    simp only [Stage.move] at moved
    split at moved
    · rename_i digit
      cases moved
      exact .hexDigits (.hexadecimal mark (by simp) (List.forall_mem_singleton.mpr digit))
    · cases moved
  | hexDigits h =>
    simp only [Stage.move] at moved
    split at moved
    · rename_i digit
      cases moved
      cases h with
      | hexadecimal mark some all =>
        exact .hexDigits (.hexadecimal mark (by simp) (forall_mem_snoc all digit))
    · cases moved
  | binaryMark mark =>
    simp only [Stage.move] at moved
    split at moved
    · rename_i digit
      cases moved
      exact .binaryDigits (.binary mark (by simp) (List.forall_mem_singleton.mpr digit))
    · cases moved
  | binaryDigits h =>
    simp only [Stage.move] at moved
    split at moved
    · rename_i digit
      cases moved
      cases h with
      | binary mark some all =>
        exact .binaryDigits (.binary mark (by simp) (forall_mem_snoc all digit))
    · cases moved
  | octalDigits h =>
    simp only [Stage.move] at moved
    split at moved
    · rename_i digit
      cases moved
      cases h with
      | octal some all => exact .octalDigits (.octal (by simp) (forall_mem_snoc all digit))
    · cases moved
  | integer h =>
    simp only [Stage.move] at moved
    split at moved
    · rename_i digit
      cases moved
      exact .integer (h.snoc digit)
    split at moved
    · rename_i point
      cases moved
      rw [point]
      exact .fraction (IsInteger.point (.inr h))
    split at moved
    · rename_i raised
      cases moved
      exact .exponentMark (.inl h) raised
    · cases moved
  | bareDot =>
    simp only [Stage.move] at moved
    split at moved
    · rename_i digit
      cases moved
      exact .fraction (.bare (by simp) (List.forall_mem_singleton.mpr digit))
    · cases moved
  | fraction h =>
    simp only [Stage.move] at moved
    split at moved
    · rename_i digit
      cases moved
      exact .fraction (h.snoc digit)
    split at moved
    · rename_i raised
      cases moved
      exact .exponentMark (.inr h) raised
    · cases moved
  | @exponentMark mantissa mark h raised =>
    rw [List.append_assoc]
    simp only [Stage.move] at moved
    split at moved
    · rename_i signed
      cases moved
      exact .exponentSign h raised signed
    split at moved
    · rename_i digit
      cases moved
      have power : IsExponent (mark :: ([] ++ [c])) :=
        .mk raised (.inl rfl) (by simp) (List.forall_mem_singleton.mpr digit)
      exact .exponent h power
    · cases moved
  | @exponentSign mantissa mark sign h raised signed =>
    rw [List.append_assoc]
    simp only [Stage.move] at moved
    split at moved
    · rename_i digit
      cases moved
      have part : IsSignPart [sign] := by
        rcases isSign_iff.mp signed with rfl | rfl
        · exact .inr (.inl rfl)
        · exact .inr (.inr rfl)
      exact .exponent h (.mk raised part (by simp) (List.forall_mem_singleton.mpr digit))
    · cases moved
  | exponent h power =>
    rw [List.append_assoc]
    simp only [Stage.move] at moved
    split at moved
    · rename_i digit
      cases moved
      exact .exponent h (power.snoc digit)
    · cases moved

theorem Behind.append (h : s.Behind text) (passed : s.through cs = some s') :
    s'.Behind (text ++ cs) := by
  induction cs generalizing s text with
  | nil =>
    cases passed
    rwa [List.append_nil]
  | cons c cs ih =>
    cases moved : s.move c with
    | take next =>
      rw [through_cons moved] at passed
      have later := ih (h.take moved) passed
      rwa [List.append_assoc] at later
    | _ => simp [through, moved] at passed

theorem behind_of_through (passed : start.through text = some s) : s.Behind text :=
  Behind.start.append passed

/-! ## The way of each text -/

theorem start_lead (lead : c.isDigit = true) (nonzero : c ≠ '0') : start.move c = .take integer := by
  simp [move, nonzero, lead]

theorem leadingZero_octal (digit : isOctalDigit c = true) :
    leadingZero.move c = .take octalDigits := by
  have hex : ¬ (c = 'x' ∨ c = 'X') := by
    rintro (rfl | rfl) <;> exact absurd digit (by decide)
  have binary : ¬ (c = 'b' ∨ c = 'B') := by
    rintro (rfl | rfl) <;> exact absurd digit (by decide)
  simp [move, hex, binary, digit]

theorem leadingZero_hex (mark : c = 'x' ∨ c = 'X') : leadingZero.move c = .take hexMark := by
  rcases mark with rfl | rfl <;> decide

theorem leadingZero_binary (mark : c = 'b' ∨ c = 'B') : leadingZero.move c = .take binaryMark := by
  rcases mark with rfl | rfl <;> decide

def Complete (s : Stage) : Prop := s = integer ∨ s = fraction

theorem Complete.mark (h : s.Complete) (raised : isExponentMark c = true) :
    s.move c = .take exponentMark := by
  have either : c = 'e' ∨ c = 'E' := by simpa [isExponentMark] using raised
  rcases h with rfl | rfl <;> rcases either with rfl | rfl <;> decide

theorem exponentMark_sign (signed : isSign c = true) : exponentMark.move c = .take exponentSign := by
  simp [move, signed]

theorem exponentMark_digit (digit : c.isDigit = true) : exponentMark.move c = .take exponent := by
  simp [move, not_isSign_of_isDigit digit, digit]

theorem exponentSign_digit (digit : c.isDigit = true) : exponentSign.move c = .take exponent := by
  simp [move, digit]

end Stage

open Stage

section
variable {s : Stage} {c : Char} {cs text : List Char} {form : Form}

theorem IsInteger.through (h : IsInteger text) : start.through text = some .integer := by
  cases h with
  | mk lead nonzero numeric =>
    have loops (c : Char) (digit : c.isDigit = true) : Stage.integer.move c = .take .integer := by
      simp [move, digit]
    rw [through_cons (start_lead lead nonzero), through_loop loops numeric]

theorem IsPointed.through (h : IsPointed text) : start.through text = some .fraction := by
  have loops (c : Char) (digit : c.isDigit = true) : Stage.fraction.move c = .take .fraction := by
    simp [move, digit]
  cases h with
  | behind integer numeric =>
    rcases integer with rfl | integer
    · have zero : start.through ['0'] = some .leadingZero := by decide
      have point : Stage.leadingZero.move '.' = .take .fraction := by decide
      rw [through_append zero, through_cons point, through_loop loops numeric]
    · have point : Stage.integer.move '.' = .take .fraction := by decide
      rw [through_append integer.through, through_cons point, through_loop loops numeric]
  | bare some numeric =>
    obtain ⟨c, digits, rfl⟩ := List.exists_cons_of_ne_nil some
    obtain ⟨digit, numeric⟩ := List.forall_mem_cons.mp numeric
    have point : start.move '.' = .take .bareDot := by decide
    have first : Stage.bareDot.move c = .take .fraction := by simp [move, digit]
    rw [through_cons point, through_cons first, through_loop loops numeric]

theorem IsMantissa.through (h : IsMantissa text) :
    ∃ s, s.Complete ∧ start.through text = some s := by
  rcases h with integer | pointed
  · exact ⟨.integer, .inl rfl, integer.through⟩
  · exact ⟨.fraction, .inr rfl, pointed.through⟩

theorem IsMantissa.through_mark (h : IsMantissa text) (raised : isExponentMark c = true)
    (cs : List Char) : start.through (text ++ c :: cs) = Stage.exponentMark.through cs := by
  obtain ⟨s, complete, passed⟩ := h.through
  rw [through_append passed, through_cons (complete.mark raised)]

theorem Stage.Behind.through (h : s.Behind text) : Stage.start.through text = some s := by
  have zero : Stage.start.move '0' = .take .leadingZero := by decide
  cases h with
  | start => rfl
  | leadingZero => decide
  | hexMark mark =>
    rw [through_cons zero, through_cons (leadingZero_hex mark)]
    rfl
  | hexDigits h =>
    cases h with
    | hexadecimal mark some all =>
      obtain ⟨c, digits, rfl⟩ := List.exists_cons_of_ne_nil some
      obtain ⟨digit, all⟩ := List.forall_mem_cons.mp all
      have first : Stage.hexMark.move c = .take .hexDigits := by simp [move, digit]
      -- the first digit leaves the mark, and the others stay among the digits
      have loops (c : Char) (digit : isHexDigit c = true) :
          Stage.hexDigits.move c = .take .hexDigits := by simp [move, digit]
      rw [through_cons zero, through_cons (leadingZero_hex mark), through_cons first,
        through_loop loops all]
  | binaryMark mark =>
    rw [through_cons zero, through_cons (leadingZero_binary mark)]
    rfl
  | binaryDigits h =>
    cases h with
    | binary mark some all =>
      obtain ⟨c, digits, rfl⟩ := List.exists_cons_of_ne_nil some
      obtain ⟨digit, all⟩ := List.forall_mem_cons.mp all
      have first : Stage.binaryMark.move c = .take .binaryDigits := by simp [move, digit]
      have loops (c : Char) (digit : isBinaryDigit c = true) :
          Stage.binaryDigits.move c = .take .binaryDigits := by simp [move, digit]
      rw [through_cons zero, through_cons (leadingZero_binary mark), through_cons first,
        through_loop loops all]
  | octalDigits h =>
    cases h with
    | octal some all =>
      obtain ⟨c, digits, rfl⟩ := List.exists_cons_of_ne_nil some
      obtain ⟨digit, all⟩ := List.forall_mem_cons.mp all
      have loops (c : Char) (digit : isOctalDigit c = true) :
          Stage.octalDigits.move c = .take .octalDigits := by simp [move, digit]
      rw [through_cons zero, through_cons (leadingZero_octal digit), through_loop loops all]
  | integer h => exact h.through
  | bareDot => decide
  | fraction h => exact h.through
  | exponentMark h raised => exact h.through_mark raised []
  | exponentSign h raised signed =>
    rw [h.through_mark raised, through_cons (exponentMark_sign signed)]
    rfl
  | exponent h power =>
    cases power with
    | mk raised signed some numeric =>
      have loops (c : Char) (digit : c.isDigit = true) : Stage.exponent.move c = .take .exponent := by
        simp [move, digit]
      obtain ⟨c, digits, rfl⟩ := List.exists_cons_of_ne_nil some
      obtain ⟨digit, numeric⟩ := List.forall_mem_cons.mp numeric
      rw [h.through_mark raised]
      rcases signed with rfl | rfl | rfl
      · rw [List.nil_append, through_cons (exponentMark_digit digit), through_loop loops numeric]
      all_goals
        rw [List.singleton_append, through_cons (exponentMark_sign (by decide)),
          through_cons (exponentSign_digit digit), through_loop loops numeric]

theorem IsNumeral.behind (h : IsNumeral form text) : ∃ s : Stage, s.Behind text := by
  cases h with
  | hexadecimal mark some all => exact ⟨_, .hexDigits (.hexadecimal mark some all)⟩
  | binary mark some all => exact ⟨_, .binaryDigits (.binary mark some all)⟩
  | octal some all => exact ⟨_, .octalDigits (.octal some all)⟩
  | zero => exact ⟨_, .leadingZero⟩
  | decimal h raised =>
    rcases raised with rfl | raised
    · rw [List.append_nil]
      rcases h with integer | pointed
      · exact ⟨_, .integer integer⟩
      · exact ⟨_, .fraction pointed⟩
    · exact ⟨_, .exponent h raised⟩

theorem Stage.Behind.isPrefix_taken (h : s.Behind text) (starts : text <+: cs) :
    text <+: (Stage.start.run cs).taken := by
  obtain ⟨rest, rfl⟩ := starts
  rw [run_through h.through]
  exact List.prefix_append _ _

/-! ## How a run ends -/

theorem behind_run (cs : List Char) : ∃ s : Stage, s.Behind (start.run cs).taken ∧
    s.move ((start.run cs).rest.headD endMark) = (start.run cs).move := by
  obtain ⟨s, passed, stopped⟩ := through_taken start cs
  exact ⟨s, behind_of_through passed, stopped⟩

theorem Stage.Behind.finish (h : s.Behind text) (finished : s.move c = .finish form) :
    IsNumeral form text := by
  cases h
  case hexDigits h =>
    simp only [move] at finished
    split at finished <;> cases finished
    exact h
  case binaryDigits h =>
    simp only [move] at finished
    split at finished <;> cases finished
    exact h
  case octalDigits h =>
    simp only [move] at finished
    split at finished <;> cases finished
    exact h
  case leadingZero =>
    simp only [move] at finished
    repeat' split at finished
    all_goals cases finished
    exact .zero
  case integer h =>
    simp only [move] at finished
    repeat' split at finished
    all_goals cases finished
    rw [← List.append_nil text]
    exact .decimal (.inl h) (.inl rfl)
  case fraction h =>
    simp only [move] at finished
    repeat' split at finished
    all_goals cases finished
    rw [← List.append_nil text]
    exact .decimal (.inr h) (.inl rfl)
  case exponent h raised =>
    simp only [move] at finished
    split at finished <;> cases finished
    exact .decimal h (.inr raised)
  -- no other stage finishes
  all_goals
    simp only [move] at finished
    repeat' split at finished
    all_goals cases finished

/-- What is taken when a run is finished is the longest number at the head of the text. -/
theorem run_finish (finished : (start.run cs).move = .finish form) :
    IsNumeral form (start.run cs).taken ∧ ∀ form' text, IsNumeral form' text → text <+: cs →
      text.length ≤ (start.run cs).taken.length := by
  obtain ⟨s, behind, stopped⟩ := behind_run cs
  refine ⟨behind.finish (stopped.trans finished), fun form' text h starts => ?_⟩
  obtain ⟨s', behind'⟩ := h.behind
  exact (behind'.isPrefix_taken starts).length_le

theorem head_of_headD {p : Char → Bool} (h : p (cs.headD endMark) = false) :
    ∀ c ∈ cs.head?, p c = false := by
  cases cs with
  | nil => exact nofun
  | cons c cs =>
    rintro _ ⟨⟩
    exact h

theorem headD_of_head {p : Char → Bool} (h : ∀ c ∈ cs.head?, p c = false)
    (ended : p endMark = false) : p (cs.headD endMark) = false := by
  cases cs with
  | nil => exact ended
  | cons c cs => exact h c rfl

theorem IsMantissa.mem (h : IsMantissa text) : ∀ c ∈ text, c.isDigit = true ∨ c = '.' := by
  have whole {digits : List Char} (h : IsInteger digits) : ∀ c ∈ digits, c.isDigit = true := by
    cases h with
    | mk lead nonzero numeric => exact List.forall_mem_cons.mpr ⟨lead, numeric⟩
  rcases h with integer | pointed
  · exact fun c mem => .inl (whole integer c mem)
  · cases pointed with
    | behind integer numeric =>
      refine List.forall_mem_append.mpr ⟨fun c mem => .inl ?_,
        List.forall_mem_cons.mpr ⟨.inr rfl, fun c mem => .inl (numeric c mem)⟩⟩
      rcases integer with rfl | integer
      · rw [List.mem_singleton.mp mem]
        decide
      · exact whole integer c mem
    | bare some numeric =>
      exact List.forall_mem_cons.mpr ⟨.inr rfl, fun c mem => .inl (numeric c mem)⟩

theorem IsMantissa.longest {more : List Char} (raised : isExponentMark c = true)
    (eq : cs = text ++ c :: more) {m : List Char} (h : IsMantissa m) (starts : m <+: cs) :
    m.length ≤ text.length := by
  apply Nat.le_of_not_lt
  intro longer
  have marked : text ++ [c] <+: cs := ⟨more, by rw [eq, List.append_assoc]; rfl⟩
  have mem : c ∈ m := (List.prefix_of_prefix_length_le marked starts
    (by rw [List.length_append]; exact longer)).subset (by simp)
  have either : c = 'e' ∨ c = 'E' := by simpa [isExponentMark] using raised
  rcases h.mem c mem with digit | point
  · rcases either with rfl | rfl <;> exact absurd digit (by decide)
  · rcases either with rfl | rfl <;> exact absurd point (by decide)

theorem Stage.Behind.malformed (h : s.Behind text) {rest : List Char} (eq : cs = text ++ rest)
    (refused : s.move (rest.headD endMark) = .malformed) : IsMalformed cs text := by
  cases h
  case hexMark mark =>
    simp only [move] at refused
    split at refused
    · cases refused
    rename_i missing
    exact .hexadecimal mark eq (head_of_headD (Bool.eq_false_iff.mpr missing))
  case binaryMark mark =>
    simp only [move] at refused
    split at refused
    · cases refused
    rename_i missing
    exact .binary mark eq (head_of_headD (Bool.eq_false_iff.mpr missing))
  case exponentMark mantissa mark h raised =>
    rw [List.append_assoc] at eq
    simp only [move] at refused
    split at refused
    · cases refused
    rename_i unsigned
    split at refused
    · cases refused
    rename_i missing
    have none : IsSignPart [] := .inl rfl
    exact .exponent h (fun _ => IsMantissa.longest raised eq) raised none eq
      (fun _ => head_of_headD (Bool.eq_false_iff.mpr unsigned))
      (head_of_headD (Bool.eq_false_iff.mpr missing))
  case exponentSign mantissa mark sign h raised signed =>
    rw [List.append_assoc] at eq
    simp only [move] at refused
    split at refused
    · cases refused
    rename_i missing
    have part : IsSignPart [sign] := by
      rcases isSign_iff.mp signed with rfl | rfl
      · exact .inr (.inl rfl)
      · exact .inr (.inr rfl)
    exact .exponent h (fun _ => IsMantissa.longest raised eq) raised part eq (by simp)
      (head_of_headD (Bool.eq_false_iff.mpr missing))
  all_goals
    simp only [move] at refused
    repeat' split at refused
    all_goals cases refused

theorem IsMalformed.stops (h : IsMalformed cs text) : ∃ (s : Stage) (rest : List Char),
    s.Behind text ∧ cs = text ++ rest ∧ s.move (rest.headD endMark) = .malformed := by
  cases h with
  | hexadecimal mark eq missing =>
    refine ⟨_, _, .hexMark mark, eq, ?_⟩
    simp only [move, headD_of_head missing (by decide)]
    rfl
  | binary mark eq missing =>
    refine ⟨_, _, .binaryMark mark, eq, ?_⟩
    simp only [move, headD_of_head missing (by decide)]
    rfl
  | @exponent mantissa sign rest mark h longest raised signed eq unsigned missing =>
    have digit := headD_of_head missing (by decide)
    rcases signed with rfl | rfl | rfl
    · refine ⟨_, rest, .exponentMark h raised, by rw [eq, List.append_assoc]; rfl, ?_⟩
      have apart := headD_of_head (unsigned rfl) (by decide)
      simp only [move, apart, digit]
      rfl
    all_goals
      refine ⟨_, rest, .exponentSign h raised (by decide), by rw [eq, List.append_assoc]; rfl, ?_⟩
      simp only [move, digit]
      rfl

theorem run_malformed_iff : (start.run cs).move = .malformed ∧ (start.run cs).taken = text ↔
    IsMalformed cs text := by
  constructor
  · rintro ⟨refused, rfl⟩
    obtain ⟨s, behind, stopped⟩ := behind_run cs
    exact behind.malformed (taken_append_rest start cs).symm (stopped.trans refused)
  · intro h
    obtain ⟨s, rest, behind, rfl, stopped⟩ := h.stops
    rw [run_through behind.through, run_stop stopped (by simp)]
    exact ⟨rfl, List.append_nil text⟩

theorem run_refuse_iff : (start.run cs).move = .refuse ↔ ¬ BeginsNumber cs := by
  constructor
  · intro refused begins
    obtain ⟨s, behind, stopped⟩ := behind_run cs
    have eq := taken_append_rest start cs
    rw [refused] at stopped
    generalize (start.run cs).taken = taken, (start.run cs).rest = rest at behind stopped eq
    cases behind
    case start =>
      subst eq
      cases begins with
      | digit digit =>
        simp only [move, List.headD_cons, digit] at stopped
        split at stopped <;> cases stopped
      | point digit => cases stopped
    case bareDot =>
      subst eq
      cases begins with
      | digit digit => cases digit
      | point digit =>
        simp only [move, List.headD_cons, digit] at stopped
        cases stopped
    -- a literal that has begun is malformed or finishes
    all_goals
      simp only [move] at stopped
      repeat' split at stopped
      all_goals cases stopped
  · intro none
    cases cs with
    | nil => rfl
    | cons c rest =>
      have digit : c.isDigit = false := Bool.eq_false_iff.mpr fun digit => none (.digit digit)
      have zero : c ≠ '0' := by
        rintro rfl
        cases digit
      by_cases point : c = '.'
      · subst point
        have moved : start.move '.' = .take .bareDot := by decide
        -- a point is passed before it turns out that no digit is behind it
        have bare : (rest.headD endMark).isDigit = false := by
          cases rest with
          | nil => decide
          | cons d rest => exact Bool.eq_false_iff.mpr fun digit => none (.point digit)
        have stopped : Stage.bareDot.move (rest.headD endMark) = .refuse := by
          rw [move, bare, if_neg Bool.false_ne_true]
        rw [run_take moved, run_stop stopped (by simp)]
      · have stopped : start.move ((c :: rest).headD endMark) = .refuse := by
          simp [move, zero, digit, point]
        rw [run_stop stopped (by simp)]

/-! ## Signs -/

/-- A sign stands only right behind an exponent mark. -/
def SignsRaised (text : List Char) : Prop :=
  ∀ before c after, text = before ++ c :: after → isSign c = true →
    ∃ mantissa mark, before = mantissa ++ [mark] ∧ isExponentMark mark = true

theorem exponentMark_of_sign {next : Stage} (signed : isSign c = true) (moved : s.move c = .take next) :
    s = .exponentMark := by
  revert moved
  rcases isSign_iff.mp signed with rfl | rfl <;> cases s <;> cases next <;> decide

theorem Stage.Behind.signsRaised (h : s.Behind text) : SignsRaised text := by
  rintro before c after rfl signed
  obtain ⟨s₁, passed, rest⟩ := through_of_append h.through
  cases moved : s₁.move c with
  | take next =>
    obtain rfl := exponentMark_of_sign signed moved
    cases behind_of_through passed with
    | exponentMark h raised => exact ⟨_, _, rfl, raised⟩
  | _ => simp [Stage.through, moved] at rest

end

end Kaleidoscope.Literal
