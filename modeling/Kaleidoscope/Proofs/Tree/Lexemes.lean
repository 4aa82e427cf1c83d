import Kaleidoscope.Proofs.Grammar.Leaves
import Kaleidoscope.Proofs.Literal.ReadBack
import Kaleidoscope.Proofs.Token.Reading
import Kaleidoscope.Proofs.Tree.Readable

/-!
# The lexemes of a printed tree

Without its percent signs, the text of a tree is a text that can be scanned. It falls into the
lexemes of the tree, and whatever tokens are made of those are an expression with this tree.
-/

namespace Kaleidoscope

open Literal

structure IsIdentifier (s : String) : Prop where
  lead : ∃ c ∈ s.toList.head?, c.isAlpha = true ∨ c = '_'
  inside : ∀ c ∈ s.toList, isWordCharacter c = true
  free : ∀ k : Keyword, k.spelling ≠ s
  short : s.length ≤ maxLexeme

theorem isIdentifier_iff {s : String} : IsIdentifier s ↔
    (s.toList.head?.any fun c => c.isAlpha || c == '_') = true ∧
      s.toList.all isWordCharacter = true ∧ Keyword.ofSpelling? s = none ∧ s.length ≤ maxLexeme := by
  have lead : (s.toList.head?.any fun c => c.isAlpha || c == '_') = true ↔
      ∃ c ∈ s.toList.head?, c.isAlpha = true ∨ c = '_' := by
    simp [Option.any_eq_true]
  have free : Keyword.ofSpelling? s = none ↔ ∀ k : Keyword, k.spelling ≠ s := by
    simp [Keyword.ofSpelling?, Keyword.mem_all]
  rw [lead, free, List.all_eq_true]
  constructor
  · exact fun h => ⟨h.lead, h.inside, h.free, h.short⟩
  · exact fun ⟨lead, inside, free, short⟩ => ⟨lead, inside, free, short⟩

instance (s : String) : Decidable (IsIdentifier s) := decidable_of_iff' _ isIdentifier_iff

example : IsIdentifier "_x1" ∧ ¬ IsIdentifier "def" := by decide

namespace Expr

/-- The source that an expression can be written with: its text without the percent signs. -/
def source (e : Expr) : List Char := e.toText.toList.filter (· ≠ '%')

/-- The names of an expression are identifiers, and its numbers finite and without a sign. -/
structure Writable (e : Expr) : Prop where
  names : ∀ name, Leaf.name name ∈ e.leaves → IsIdentifier name
  numbers : ∀ v, Leaf.number v ∈ e.leaves → v.toBits.toNat < infiniteBits

mutual

def heads : Expr → List Head
  | number v => [.number (if v.toBits = 0 then .zero else .decimal) (spell v).toList]
  | var name => [.word name.toList]
  | binary op left right =>
    .punctuator "(" :: (left.heads ++ .punctuator ")" :: .punctuator op.symbol ::
      .punctuator "(" :: (right.heads ++ [.punctuator ")"]))
  | call callee args =>
    .word callee.toList :: .punctuator "(" :: (headsOfArgs args ++ [.punctuator ")"])

def headsOfArgs : List Expr → List Head
  | [] => []
  | [arg] => arg.heads
  | arg :: args => arg.heads ++ .punctuator "," :: headsOfArgs args

end

end Expr

/-! ## The lexemes of the source -/

section
variable {c : Char} {cs rest : List Char} {s : String} {v : Float}

theorem IsIdentifier.isWord (h : IsIdentifier s) : IsWord s := by
  obtain ⟨c, mem, -⟩ := h.lead
  refine ⟨?_, h.inside⟩
  rintro rfl
  cases mem

theorem toNat_of_isAlpha (h : c.isAlpha = true) : 65 ≤ c.toNat ∧ c.toNat ≤ 122 := by
  have cases : c.isAlpha = (decide (65 ≤ c.val ∧ c.val ≤ 90) ||
      (decide (97 ≤ c.val) && decide (c.val ≤ 122))) := rfl
  have value : c.toNat = c.val.toNat := rfl
  rw [cases, Bool.or_eq_true, Bool.and_eq_true, decide_eq_true_eq, decide_eq_true_eq,
    decide_eq_true_eq] at h
  rcases h with ⟨low, high⟩ | ⟨low, high⟩
  all_goals
    have low := UInt32.le_iff_toNat_le.mp low
    have high := UInt32.le_iff_toNat_le.mp high
    simp only [UInt32.reduceToNat] at low high
    omega

theorem isDigit_of_lead (h : c.isAlpha = true ∨ c = '_') : c.isDigit = false := by
  rcases h with alpha | rfl
  · obtain ⟨low, -⟩ := toNat_of_isAlpha alpha
    rw [Bool.eq_false_iff, Ne, Char.isDigit_iff_toNat]
    have nine : '9'.toNat = 57 := rfl
    omega
  · rfl

theorem not_isBlank {p : Char → Bool} (outside : p ' ' = false ∧ p '\t' = false ∧ p '\n' = false ∧
    p '\r' = false ∧ p '\x0c' = false) (inside : p c = true) : isBlank c = false := by
  rw [Bool.eq_false_iff]
  intro blank
  simp only [isBlank, Bool.or_eq_true, beq_iff_eq] at blank
  rcases blank with (((rfl | rfl) | rfl) | rfl) | rfl <;> simp_all

theorem afterGap_word (inside : isWordCharacter c = true) (cs : List Char) :
    afterGap false (c :: cs) = c :: cs := by
  apply afterGap_cons
  · exact not_isBlank (by decide) inside
  · rintro rfl
    cases inside

theorem heads_word (h : IsIdentifier s) (apart : Apart rest) :
    Heads rest (s.toList ++ rest) [.word s.toList] := by
  obtain ⟨c, mem, lead⟩ := h.lead
  have word := h.isWord.2
  have short := h.short
  rw [← String.length_toList] at short
  cases eq : s.toList with
  | nil => simp [eq] at mem
  | cons d ds =>
    rw [eq] at mem word short
    cases mem
    have head := ofText_word word (isDigit_of_lead lead) short apart.stops
    have gapless := afterGap_word (word c List.mem_cons_self) (ds ++ rest)
    exact .single head (List.cons_ne_nil c ds) gapless rfl

def spellingForm (v : Float) : Form := if v.toBits = 0 then .zero else .decimal

theorem ofText_spell (finite : v.toBits.toNat < infiniteBits) (apart : Apart rest) :
    Head.ofText ((spell v).toList ++ rest) = .number (spellingForm v) (spell v).toList := by
  unfold spellingForm
  rcases spell_finite finite with ⟨zero, eq⟩ | ⟨some, literal, fits, -⟩
  · rw [eq, if_pos zero]
    exact ofText_zero apart
  · rw [if_neg some]
    exact ofText_decimal literal fits apart

theorem afterGap_spell (finite : v.toBits.toNat < infiniteBits) (rest : List Char) :
    afterGap false ((spell v).toList ++ rest) = (spell v).toList ++ rest := by
  rcases spell_finite finite with ⟨-, eq⟩ | ⟨-, literal, -, -⟩
  · rw [eq]
    exact afterGap_word (by decide) rest
  · obtain ⟨c, cs, eq, digit⟩ := literal.head
    have inside : isWordCharacter c = true := by simp [isWordCharacter, Char.isAlphanum, digit]
    rw [eq]
    exact afterGap_word inside (cs ++ rest)

theorem value_spell (finite : v.toBits.toNat < infiniteBits) :
    (spellingForm v).value (spell v).toList = v := by
  unfold spellingForm
  by_cases zero : v.toBits = 0
  · rw [if_pos zero]
    exact eq_of_toBits zero.symm
  · rw [if_neg zero]
    exact decimalValue_spell finite

theorem heads_number (finite : v.toBits.toNat < infiniteBits) (apart : Apart rest) :
    Heads rest ((spell v).toList ++ rest) (Expr.number v).heads :=
  .single (ofText_spell finite apart) (spell_ne_nil v) (afterGap_spell finite rest) rfl

theorem heads_punctuator (punctuation : Punctuator.isPunctuation c = true) (dot : c ≠ '.')
    (mark : c ≠ '#') (word : isWordCharacter c = false)
    (short : firstOf Punctuator.long (c :: cs) = none) :
    Heads cs (c :: cs) [.punctuator (String.singleton c)] := by
  have single : (String.singleton c).toList = [c] := String.toList_singleton c
  refine .single (ofText_punctuator punctuation dot word short) ?_ ?_ ?_
  · simp [Head.committed, single]
  · exact afterGap_cons (not_isBlank (by decide) punctuation) mark cs
  · simp [Head.committed, single]

theorem heads_mark (mark : c = '(' ∨ c = ')' ∨ c = ',') (cs : List Char) :
    Heads cs (c :: cs) [.punctuator (String.singleton c)] := by
  rcases mark with rfl | rfl | rfl
  all_goals
    apply heads_punctuator rfl (by decide) (by decide) rfl
    exact firstOf_long_of_head (by decide +kernel) cs

theorem Heads.blank {heads : List Head} (h : Heads rest cs heads) (some : heads ≠ []) :
    Heads rest (' ' :: cs) heads :=
  h.of_afterGap some rfl

theorem heads_operator (op : Operator) (cs : List Char) :
    Heads (' ' :: cs) (' ' :: (op.symbol.toList ++ ' ' :: cs)) [.punctuator op.symbol] := by
  have short (c : Char) := firstOf_long_of_blank c cs
  have here : Heads (' ' :: cs) (op.symbol.toList ++ ' ' :: cs) [.punctuator op.symbol] := by
    cases op
    all_goals exact heads_punctuator rfl (by decide) (by decide) rfl (short _)
  exact here.blank (List.cons_ne_nil _ _)

end

namespace Expr

variable {e left right : Expr} {op : Operator} {callee : String} {args : List Expr} {rest : List Char}

theorem source_number (v : Float) : (number v).source = (spell v).toList := by
  rw [source, toText_number]
  apply List.filter_eq_self.mpr
  intro c mem
  rw [decide_eq_true_iff]
  rintro rfl
  have inside := spell_inside v '%' mem
  cases inside

theorem filter_word {s : String} (h : IsWord s) : s.toList.filter (· ≠ '%') = s.toList := by
  apply List.filter_eq_self.mpr
  intro c mem
  rw [decide_eq_true_iff]
  rintro rfl
  have inside := h.2 '%' mem
  cases inside

theorem source_var {name : String} (h : IsWord name) : (var name).source = name.toList := by
  rw [← filter_word h]
  simp [source, toText_var]

theorem source_binary (op : Operator) (left right : Expr) : (binary op left right).source =
    '(' :: (left.source ++ ')' :: ' ' :: (op.symbol.toList ++
      ' ' :: '(' :: (right.source ++ [')']))) := by
  have symbol : op.symbol.toList.filter (· ≠ '%') = op.symbol.toList := by cases op <;> decide
  rw [← symbol]
  simp [source, toText_binary]

def sourceOfArgs (args : List Expr) : List Char :=
  (String.intercalate ", " (args.map toText)).toList.filter (· ≠ '%')

theorem source_call (h : IsWord callee) (args : List Expr) :
    (call callee args).source = callee.toList ++ '(' :: (sourceOfArgs args ++ [')']) := by
  rw [← filter_word h]
  simp [source, sourceOfArgs, toText_call]

theorem sourceOfArgs_cons (arg next : Expr) (more : List Expr) :
    sourceOfArgs (arg :: next :: more) =
      arg.source ++ ',' :: ' ' :: sourceOfArgs (next :: more) := by
  simp [source, sourceOfArgs]

/-! ### Parts of an expression -/

theorem Writable.part (h : e.Writable) {part : Expr} (inside : part.leaves ⊆ e.leaves) :
    part.Writable :=
  ⟨fun name mem => h.names name (inside mem), fun v mem => h.numbers v (inside mem)⟩

/-! ### Scanning -/

theorem apart_mark {c : Char} (mark : c = '(' ∨ c = ')' ∨ c = ',') (cs : List Char) :
    Apart (c :: cs) := by
  intro d mem
  cases mem
  rcases mark with rfl | rfl | rfl <;> decide

theorem heads_ne_nil (e : Expr) : e.heads ≠ [] := by
  cases e <;> simp [heads]

theorem headsOfArgs_cons_ne_nil (arg : Expr) (args : List Expr) : headsOfArgs (arg :: args) ≠ [] := by
  cases args <;> simp [headsOfArgs, heads_ne_nil]

theorem heads_args (rest : List Char)
    (each : ∀ arg ∈ args, ∀ behind, Apart behind → Heads behind (arg.source ++ behind) arg.heads) :
    Heads (')' :: rest) (sourceOfArgs args ++ ')' :: rest) (headsOfArgs args) := by
  induction args with
  | nil => exact .nil
  | cons arg args ih =>
    obtain ⟨here, later⟩ := List.forall_mem_cons.mp each
    cases args with
    | nil => exact here _ (apart_mark (.inr (.inl rfl)) rest)
    | cons next more =>
      have others := (ih later).blank (headsOfArgs_cons_ne_nil next more)
      have comma : ',' = '(' ∨ ',' = ')' ∨ ',' = ',' := .inr (.inr rfl)
      rw [sourceOfArgs_cons, List.append_assoc]
      exact (here _ (apart_mark comma _)).append ((heads_mark comma _).append others)

/-- The source of an expression falls into its lexemes. -/
theorem heads_source (writable : e.Writable) (apart : Apart rest) :
    Heads rest (e.source ++ rest) e.heads := by
  have opens : '(' = '(' ∨ '(' = ')' ∨ '(' = ',' := .inl rfl
  have closes : ')' = '(' ∨ ')' = ')' ∨ ')' = ',' := .inr (.inl rfl)
  -- on `e`, with any `rest` that stands apart: behind every part of `e` there is a mark
  induction e using Expr.induction generalizing rest with
  | number v =>
    rw [source_number]
    exact heads_number (writable.numbers v (by simp [leaves])) apart
  | var name =>
    have named := writable.names name (by simp [leaves])
    rw [source_var named.isWord]
    exact heads_word named apart
  | binary op left right first second =>
    have here := first (writable.part leaves_left) (apart_mark closes (' ' :: (op.symbol.toList ++
      ' ' :: '(' :: (right.source ++ ')' :: rest))))
    have there := second (writable.part leaves_right) (apart_mark closes rest)
    have operand := (heads_mark opens _).append (there.append (heads_mark closes rest))
    have behind := operand.blank (List.cons_ne_nil _ _)
    rw [source_binary]
    simp only [List.cons_append, List.append_assoc]
    exact (heads_mark opens _).append (here.append ((heads_mark closes _).append
      ((heads_operator op _).append behind)))
  | call callee args each =>
    have named := writable.names callee (by simp [leaves])
    have inner := heads_args rest fun arg mem _ => each arg mem (writable.part (leaves_arg mem))
    rw [source_call named.isWord]
    simp only [List.cons_append, List.append_assoc]
    exact (heads_word named (apart_mark opens _)).append ((heads_mark opens _).append
      (inner.append (heads_mark closes rest)))

/-! ## What the lexemes derive -/

open Grammar

def Derives (ts : List Token) (e : Expr) : Prop :=
  ∃ first links, IsChain ts first links ∧ conventional first links = e

variable {ts : List Token}

theorem Derives.of_primary (h : IsPrimary ts e) : Derives ts e := by
  refine ⟨e, [], ?_, conventional_nil e⟩
  rw [← List.append_nil ts]
  exact .mk h .nil

theorem Derives.group {u v : Token} (h : Derives ts e) (opens : u.isPunctuator "(" = true)
    (closes : v.isPunctuator ")" = true) : IsPrimary (u :: (ts ++ [v])) e := by
  obtain ⟨first, links, chain, rfl⟩ := h
  exact .group opens chain closes

theorem Derives.binary {t : Token} {us : List Token} (h : IsPrimary ts left)
    (sign : t.operator? = some op) (h' : IsPrimary us right) :
    Derives (ts ++ t :: us) (.binary op left right) := by
  have whole : Cut [⟨op, right⟩] [] ⟨op, right⟩ [] := ⟨rfl, by simp, by simp⟩
  refine ⟨left, [⟨op, right⟩], ?_, ?_⟩
  · rw [← List.append_nil us]
    exact .mk h (.cons sign h' .nil)
  · rw [whole.conventional_eq, conventional_nil, conventional_nil]

theorem forall₂_append {heads heads' : List Head} (h : List.Forall₂ Token.Is ts (heads ++ heads')) :
    ∃ us vs, ts = us ++ vs ∧ List.Forall₂ Token.Is us heads ∧ List.Forall₂ Token.Is vs heads' :=
  ⟨_, _, (List.take_append_drop heads.length ts).symm, List.forall₂_take_append ts heads heads' h,
    List.forall₂_drop_append ts heads heads' h⟩

theorem operator?_of_isPunctuator {t : Token} (h : t.isPunctuator op.symbol = true) :
    t.operator? = some op :=
  Token.operator?_eq_some.mpr (Token.isPunctuator_iff.mp h)

theorem name?_of_is {t : Token} {s : String} (h : t.Is (.word s.toList)) (named : IsIdentifier s) :
    ∃ name, t.name? = some name ∧ name.spelling = s := by
  rw [← String.ofList_toList (s := s)]
  apply h
  rw [String.ofList_toList]
  exact named.free

theorem number_of_is {t : Token} {v : Float} (finite : v.toBits.toNat < infiniteBits)
    (h : t.Is (.number (spellingForm v) (spell v).toList)) : t.kind = .number v := by
  have value := value_spell finite
  unfold Token.Is at h
  rw [h, value]

theorem isArguments_of_is {arg : Expr}
    (each : ∀ a ∈ arg :: args, ∀ us, List.Forall₂ Token.Is us a.heads → Derives us a)
    (tokens : List.Forall₂ Token.Is ts (headsOfArgs (arg :: args))) : IsArguments ts (arg :: args) := by
  induction args generalizing arg ts with
  | nil =>
    obtain ⟨first, links, chain, rfl⟩ := each arg List.mem_cons_self ts tokens
    exact .last chain
  | cons next more ih =>
    obtain ⟨here, later⟩ := List.forall_mem_cons.mp each
    obtain ⟨us, vs, rfl, front, behind⟩ := forall₂_append tokens
    cases behind with
    | cons comma others =>
      obtain ⟨first, links, chain, rfl⟩ := here us front
      exact .cons chain comma (ih later others)

theorem isPrimary_of_is {more : List Head}
    (each : ∀ us, List.Forall₂ Token.Is us e.heads → Derives us e)
    (tokens : List.Forall₂ Token.Is ts (.punctuator "(" :: (e.heads ++ .punctuator ")" :: more))) :
    ∃ us vs, ts = us ++ vs ∧ IsPrimary us e ∧ List.Forall₂ Token.Is vs more := by
  obtain ⟨u, behind, opens, inside, rfl⟩ := List.forall₂_cons_right_iff.mp tokens
  obtain ⟨us, others, rfl, front, last⟩ := forall₂_append inside
  obtain ⟨v, vs, closes, here, rfl⟩ := List.forall₂_cons_right_iff.mp last
  exact ⟨u :: (us ++ [v]), vs, by simp, (each us front).group opens closes, here⟩

/-- Tokens that are made of the lexemes of an expression are an expression with its tree. -/
theorem derives_of_is (writable : e.Writable) (tokens : List.Forall₂ Token.Is ts e.heads) :
    Derives ts e := by
  induction e using Expr.induction generalizing ts with
  | number v =>
    obtain ⟨t, none, here, last, rfl⟩ := List.forall₂_cons_right_iff.mp tokens
    cases last
    exact .of_primary (.number (number_of_is (writable.numbers v (by simp [leaves])) here))
  | var name =>
    obtain ⟨t, none, here, last, rfl⟩ := List.forall₂_cons_right_iff.mp tokens
    cases last
    obtain ⟨found, named, rfl⟩ := name?_of_is here (writable.names name (by simp [leaves]))
    exact .of_primary (.var named)
  | binary op left right first second =>
    obtain ⟨us, others, rfl, here, behind⟩ :=
      isPrimary_of_is (fun _ => first (writable.part leaves_left)) tokens
    obtain ⟨t, vs, sign, operand, rfl⟩ := List.forall₂_cons_right_iff.mp behind
    obtain ⟨us', none, rfl, there, last⟩ :=
      isPrimary_of_is (fun _ => second (writable.part leaves_right)) operand
    cases last
    rw [List.append_nil]
    exact .binary here (operator?_of_isPunctuator sign) there
  | call callee args each =>
    obtain ⟨t, behind, word, more, rfl⟩ := List.forall₂_cons_right_iff.mp tokens
    obtain ⟨u, inside, opens, inner, rfl⟩ := List.forall₂_cons_right_iff.mp more
    obtain ⟨us, others, rfl, front, ending⟩ := forall₂_append inner
    obtain ⟨v, none, closes, last, rfl⟩ := List.forall₂_cons_right_iff.mp ending
    cases last
    obtain ⟨found, named, rfl⟩ := name?_of_is word (writable.names callee (by simp [leaves]))
    cases args with
    | nil =>
      cases front
      exact .of_primary (.call named opens closes)
    | cons arg args =>
      have arguments :=
        isArguments_of_is (fun a mem _ => each a mem (writable.part (leaves_arg mem))) front
      exact .of_primary (.callWith named opens arguments closes)

end Expr

/-! ## The bytes of the source -/

def Ascii (cs : List Char) : Prop := ∀ c ∈ cs, c.toNat ≤ 127

section
variable {c : Char} {cs ds : List Char}

theorem Ascii.cons (h : c.toNat ≤ 127) (h' : Ascii cs) : Ascii (c :: cs) :=
  List.forall_mem_cons.mpr ⟨h, h'⟩

theorem Ascii.append (h : Ascii cs) (h' : Ascii ds) : Ascii (cs ++ ds) :=
  List.forall_mem_append.mpr ⟨h, h'⟩

theorem map_latin1_utf8EncodeChar (ascii : c.toNat ≤ 127) :
    (String.utf8EncodeChar c).map latin1 = [c] := by
  have single : String.utf8EncodeChar c = [UInt8.ofNat c.toNat] := if_pos ascii
  have byte : c.toNat % 256 = c.toNat := Nat.mod_eq_of_lt (by omega)
  simp [single, latin1, byte]

/-- Read byte by byte, a text of ASCII characters is itself. -/
theorem sourceText_utf8 (ascii : Ascii cs) :
    sourceText (String.ofList cs).toUTF8.data.toList = cs := by
  have bytes : (String.ofList cs).toUTF8.data.toList = cs.flatMap String.utf8EncodeChar := by
    simp [List.utf8Encode]
  rw [bytes, sourceText, List.map_flatMap]
  clear bytes
  induction cs with
  | nil => rfl
  | cons c cs ih =>
    obtain ⟨here, later⟩ := List.forall_mem_cons.mp ascii
    rw [List.flatMap_cons, map_latin1_utf8EncodeChar here, ih later]
    rfl

theorem ascii_of_inside (h : isInside c = true) : c.toNat ≤ 127 := by
  simp only [isInside, isWordCharacter, Char.isAlphanum, Bool.or_eq_true, beq_iff_eq] at h
  rcases h with ((((alpha | digit) | rfl) | rfl) | rfl) | rfl
  · obtain ⟨-, high⟩ := toNat_of_isAlpha alpha
    omega
  · obtain ⟨-, high⟩ := Char.isDigit_iff_toNat.mp digit
    exact high.trans (by decide)
  all_goals decide

theorem IsIdentifier.ascii {s : String} (h : IsIdentifier s) : Ascii s.toList :=
  fun c mem => ascii_of_inside (h.isWord.inside c mem)

theorem Operator.ascii (op : Operator) : Ascii op.symbol.toList := by
  cases op <;> simp [Ascii, symbol]

end

namespace Expr

variable {e : Expr} {args : List Expr}

theorem ascii_sourceOfArgs (each : ∀ arg ∈ args, Ascii arg.source) : Ascii (sourceOfArgs args) := by
  induction args with
  | nil => exact List.forall_mem_nil _
  | cons arg args ih =>
    obtain ⟨here, later⟩ := List.forall_mem_cons.mp each
    cases args with
    | nil => exact here
    | cons next more =>
      rw [sourceOfArgs_cons]
      exact Ascii.append here (.cons (by decide) (.cons (by decide) (ih later)))

theorem Writable.ascii (writable : e.Writable) : Ascii e.source := by
  have closing : Ascii [')'] := List.forall_mem_singleton.mpr (by decide)
  induction e using Expr.induction with
  | number v =>
    rw [source_number]
    exact fun c mem => ascii_of_inside (spell_inside v c mem)
  | var name =>
    have named := writable.names name (by simp [leaves])
    rw [source_var named.isWord]
    exact named.ascii
  | binary op left right first second =>
    have here := first (writable.part leaves_left)
    have there := second (writable.part leaves_right)
    rw [source_binary]
    exact .cons (by decide) (here.append (.cons (by decide) (.cons (by decide)
      (op.ascii.append (.cons (by decide) (.cons (by decide) (there.append closing)))))))
  | call callee args each =>
    have named := writable.names callee (by simp [leaves])
    have inner := ascii_sourceOfArgs fun arg mem => each arg mem (writable.part (leaves_arg mem))
    rw [source_call named.isWord]
    exact named.ascii.append (.cons (by decide) (inner.append closing))

end Expr

end Kaleidoscope
