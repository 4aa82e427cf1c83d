import Kaleidoscope.Proofs.Token.Reading

/-!
# How far a lexeme looks ahead

A lexeme ends at the first character that does not go on with it, and looks no further. It stays what
it is if that character stays, or if a blank, a comment or the end of the text comes in its place.
-/

namespace Kaleidoscope

open Literal

/-- The characters that go on with no lexeme. -/
def separators : List Char := [' ', '\t', '\n', '\r', '\x0c', '#', endMark]

theorem isBlank_eq_false {c : Char} {p : Char → Bool} (h : p c = true)
    (none : [' ', '\t', '\n', '\r', '\x0c'].all (fun c => !p c) = true) : isBlank c = false := by
  rw [← Bool.not_eq_true]
  intro blank
  have mem : c ∈ [' ', '\t', '\n', '\r', '\x0c'] := by
    simpa [isBlank, or_assoc] using blank
  have outside := List.all_eq_true.mp none c mem
  simp [h] at outside

/-- `rest'` can stand behind a lexeme in the place of `rest`. -/
def Follows (rest rest' : List Char) : Prop :=
  rest'.headD endMark = rest.headD endMark ∨ rest'.headD endMark ∈ separators

/-- What holds of the character behind a lexeme and of separators holds behind the lexeme again. -/
theorem Follows.head {rest rest' : List Char} (h : Follows rest rest') {P : Char → Prop}
    (here : P (rest.headD endMark)) (apart : ∀ c ∈ separators, P c) : P (rest'.headD endMark) := by
  rcases h with same | separates
  · rw [same]
    exact here
  · exact apart _ separates

theorem Follows.begins {rest rest' : List Char} {c : Char} (h : Follows rest rest')
    (starts : [c] <+: rest') (apart : c ∉ separators) : [c] <+: rest := by
  obtain ⟨others, rfl⟩ := starts
  rcases h with same | separates
  · cases rest with
    | nil =>
      have mark : c = endMark := same
      rw [mark] at apart
      exact absurd (by decide) apart
    | cons d rest =>
      obtain rfl : c = d := same
      exact ⟨rest, rfl⟩
  · exact absurd separates apart

section
variable {c : Char} {cs text rest rest' : List Char} {form : Form}

/-! ## Numbers -/

namespace Literal.Stage

theorem move_separator (s : Stage) (h : c ∈ separators) : s.move c = s.move endMark := by
  have all : separators.all (fun c => decide (s.move c = s.move endMark)) = true := by
    cases s <;> decide
  exact of_decide_eq_true (List.all_eq_true.mp all c h)

theorem not_mem_separators {s next : Stage} (h : s.move c = .take next) : c ∉ separators := by
  intro mem
  rw [s.move_separator mem] at h
  exact s.move_nul_ne_take next h

/-- What a literal can end with, the end of the text ends it with. -/
theorem move_endMark {s : Stage} (h : s.move c = .finish form) : s.move endMark = .finish form := by
  cases s
  all_goals
    simp only [move] at h
    repeat' split at h
    all_goals cases h
    try rfl

theorem move_follows {s : Stage} (follows : Follows rest rest')
    (h : s.move (rest.headD endMark) = .finish form) : s.move (rest'.headD endMark) = .finish form := by
  refine follows.head (P := fun c => s.move c = .finish form) h ?_
  intro c separates
  rw [s.move_separator separates]
  exact move_endMark h

theorem run_follows {s : Stage} (follows : Follows rest rest')
    (taken : (s.run (text ++ rest)).taken = text)
    (finished : (s.run (text ++ rest)).move = .finish form) :
    s.run (text ++ rest') = ⟨text, rest', .finish form⟩ := by
  induction text generalizing s with
  | nil =>
    rw [List.nil_append] at taken finished ⊢
    rw [move_of_run taken] at finished
    exact run_stop (move_follows follows finished) (by simp)
  | cons c text ih =>
    rw [List.cons_append] at taken finished ⊢
    cases moved : s.move c with
    | take next =>
      rw [run_take moved] at taken finished ⊢
      rw [ih (List.cons.inj taken).2 finished]
    | _ => simp [run, moved] at taken

theorem forall_taken (s : Stage) (cs : List Char) : ∀ c ∈ (s.run cs).taken, c ∉ separators := by
  induction cs generalizing s with
  | nil => simp [run]
  | cons c cs ih =>
    cases move : s.move c with
    | take next =>
      rw [run_take move]
      exact List.forall_mem_cons.mpr ⟨not_mem_separators move, ih next⟩
    | _ => simp [run, move]

def Open (s : Stage) : Prop := s = start ∨ s = bareDot

theorem open_of_refuse {s : Stage} (h : s.move c = .refuse) : s.Open := by
  cases s
  case start => exact .inl rfl
  case bareDot => exact .inr rfl
  all_goals
    simp only [move] at h
    repeat' split at h
    all_goals cases h

theorem not_open_of_take {s next : Stage} (h : s.move c = .take next) (started : ¬ s.Open) :
    ¬ next.Open := by
  rintro (rfl | rfl)
  all_goals
    cases s
    case start => exact started (.inl rfl)
    all_goals
      simp only [move] at h
      repeat' split at h
      all_goals cases h

theorem run_not_refuse {s : Stage} (started : ¬ s.Open) (cs : List Char) :
    (s.run cs).move ≠ .refuse := by
  induction cs generalizing s with
  | nil =>
    intro refused
    exact started (open_of_refuse (s := s) refused)
  | cons c cs ih =>
    cases moved : s.move c with
    | take next =>
      rw [run_take moved]
      exact ih (not_open_of_take moved started)
    | refuse => exact absurd (open_of_refuse moved) started
    | _ => simp [run, moved]

end Literal.Stage

/-! ## Punctuators -/

/-- A beginning of a long punctuator is one, unless it is a single character. -/
theorem long_beginning {begin : List Char} {long : String} (mem : long ∈ Punctuator.long)
    (begins : begin <+: long.toList) (two : 2 ≤ begin.length) :
    ∃ short ∈ Punctuator.long, short.toList = begin := by
  have cut : ∀ long ∈ Punctuator.long, long.toList.length ≤ 3 ∧
      String.ofList (long.toList.take 2) ∈ Punctuator.long := by decide +kernel
  obtain ⟨three, pair⟩ := cut long mem
  rw [List.prefix_iff_eq_take] at begins
  have le : begin.length ≤ long.toList.length := by
    rw [begins]
    exact List.length_take_le' ..
  by_cases whole : begin.length = long.toList.length
  · rw [whole, List.take_length] at begins
    exact ⟨long, mem, begins.symm⟩
  · have pair_length : begin.length = 2 := by omega
    rw [pair_length] at begins
    exact ⟨_, pair, by rw [String.toList_ofList, begins]⟩

/-- The long punctuator that is found is the longest that a text starts with. -/
theorem exists_firstOf {long : String} (mem : long ∈ Punctuator.long) (starts : long.toList <+: cs) :
    ∃ first, firstOf Punctuator.long cs = some first ∧ long.toList.length ≤ first.toList.length := by
  have ordered : Punctuator.long.Pairwise fun first later =>
      first.toList.isPrefixOf later.toList = false := by decide +kernel
  cases found : firstOf Punctuator.long cs with
  | none =>
    have missing := List.find?_eq_none.mp found long mem
    exact absurd (List.isPrefixOf_iff_prefix.mpr starts) missing
  | some first =>
    refine ⟨first, rfl, ?_⟩
    obtain ⟨here, earlier, later, split, others⟩ := List.find?_eq_some_iff_append.mp found
    have begins : first.toList <+: cs := List.isPrefixOf_iff_prefix.mp here
    by_contra longer
    have inside : first.toList <+: long.toList :=
      List.prefix_of_prefix_length_le begins starts (by omega)
    rw [split] at mem ordered
    rcases List.mem_append.mp mem with before | behind
    · have missing := others long before
      simp [List.isPrefixOf_iff_prefix.mpr starts] at missing
    · rcases List.mem_cons.mp behind with rfl | behind
      · exact longer (Nat.le_refl _)
      · have apart := (List.pairwise_cons.mp (List.pairwise_append.mp ordered).2.1).1 long behind
        rw [List.isPrefixOf_iff_prefix.mpr inside] at apart
        cases apart

theorem firstOf_congr {candidates : List String}
    (same : ∀ text ∈ candidates, text.toList.isPrefixOf cs = text.toList.isPrefixOf rest) :
    firstOf candidates cs = firstOf candidates rest := by
  induction candidates with
  | nil => rfl
  | cons text candidates ih =>
    have here := same text List.mem_cons_self
    have later := ih fun t mem => same t (List.mem_cons_of_mem _ mem)
    unfold firstOf at later ⊢
    rw [List.find?_cons, List.find?_cons, here, later]

theorem separators_of_long {long : String} (mem : long ∈ Punctuator.long) :
    ∀ c ∈ long.toList, c ∉ separators := by
  have all : ∀ long ∈ Punctuator.long, long.toList.all (fun c => !separators.contains c) = true := by
    decide +kernel
  intro c inside
  simpa using List.all_eq_true.mp (all long mem) c inside

namespace Head

/-- No long punctuator at the head of a text is longer than what is committed. -/
theorem prefix_of_committed {long : String} (mem : long ∈ Punctuator.long)
    (committed : (ofPunctuation (text ++ rest)).committed = text)
    (starts : long.toList <+: text ++ rest) : long.toList <+: text := by
  obtain ⟨first, found, le⟩ := exists_firstOf mem starts
  have head : ofPunctuation (text ++ rest) = .punctuator first := by simp only [ofPunctuation, found]
  have spelled : first.toList = text := by
    rw [head] at committed
    exact committed
  rw [spelled] at le
  exact List.prefix_of_prefix_length_le starts (List.prefix_append text rest) le

theorem prefix_of_follows {long : String} (mem : long ∈ Punctuator.long) (some : text ≠ [])
    (committed : (ofPunctuation (text ++ rest)).committed = text) (follows : Follows rest rest')
    (starts : long.toList <+: text ++ rest') : long.toList <+: text := by
  by_contra longer
  have short : text.length < long.toList.length := by
    by_contra le
    exact longer (List.prefix_of_prefix_length_le starts (List.prefix_append text rest') (by omega))
  obtain ⟨more, join⟩ :=
    List.prefix_of_prefix_length_le (List.prefix_append text rest') starts (Nat.le_of_lt short)
  cases more with
  | nil => simp [← join] at short
  | cons d more =>
    -- the punctuator goes on with `d`, which stands behind `text` in either case
    have apart := separators_of_long mem d (by simp [← join])
    have next : [d] <+: rest' := by
      rw [← join, List.prefix_append_right_inj] at starts
      exact (List.prefix_append [d] more).trans starts
    have begins : text ++ [d] <+: text ++ rest := by
      rw [List.prefix_append_right_inj]
      exact follows.begins next apart
    have two : 2 ≤ (text ++ [d]).length := by
      have := List.length_pos_iff.mpr some
      simp
      omega
    obtain ⟨short, there, spelled⟩ := long_beginning mem ⟨more, by simp [← join]⟩ two
    have inside := prefix_of_committed there committed (by rwa [spelled])
    rw [spelled] at inside
    have le := inside.length_le
    rw [List.length_append, List.length_singleton] at le
    exact absurd le (Nat.not_succ_le_self _)

theorem ofPunctuation_follows (some : text ≠ [])
    (committed : (ofPunctuation (text ++ rest)).committed = text) (follows : Follows rest rest') :
    ofPunctuation (text ++ rest') = ofPunctuation (text ++ rest) := by
  have fits : ∀ long ∈ Punctuator.long,
      long.toList.isPrefixOf (text ++ rest') = long.toList.isPrefixOf (text ++ rest) := by
    intro long mem
    rw [Bool.eq_iff_iff, List.isPrefixOf_iff_prefix, List.isPrefixOf_iff_prefix]
    constructor
    · intro starts
      exact (prefix_of_follows mem some committed follows starts).trans (List.prefix_append text rest)
    · intro starts
      exact (prefix_of_committed mem committed starts).trans (List.prefix_append text rest')
  have same : firstOf Punctuator.long (text ++ rest') = firstOf Punctuator.long (text ++ rest) :=
    firstOf_congr fits
  obtain ⟨c, cs, rfl⟩ := List.exists_cons_of_ne_nil some
  rw [List.cons_append, List.cons_append] at same ⊢
  simp only [ofPunctuation, same]

/-! ## Words -/

theorem takeWhile_eq_nil : cs.takeWhile isWordCharacter = [] ↔
    isWordCharacter (cs.headD endMark) = false := by
  cases cs with
  | nil => decide
  | cons c cs => simp [List.takeWhile_cons]

theorem word_follows (follows : Follows rest rest') (none : rest.takeWhile isWordCharacter = []) :
    rest'.takeWhile isWordCharacter = [] := by
  rw [takeWhile_eq_nil] at none ⊢
  refine follows.head (P := fun c => isWordCharacter c = false) none ?_
  have all : separators.all (fun c => !isWordCharacter c) = true := by decide
  intro c mem
  simpa using List.all_eq_true.mp all c mem

theorem ofWord_follows (some : text ≠ []) (committed : (ofWord (text ++ rest)).committed = text)
    (follows : Follows rest rest') : ofWord (text ++ rest') = ofWord (text ++ rest) := by
  by_cases empty : (text ++ rest).takeWhile isWordCharacter = []
  · have empty' : (text ++ rest').takeWhile isWordCharacter = [] := by
      obtain ⟨c, cs, rfl⟩ := List.exists_cons_of_ne_nil some
      rw [takeWhile_eq_nil] at empty ⊢
      exact empty
    unfold ofWord at committed ⊢
    rw [if_pos empty] at committed ⊢
    rw [if_pos empty']
    exact ofPunctuation_follows some committed follows
  · have word : (text ++ rest).takeWhile isWordCharacter = text := by
      unfold ofWord at committed
      rw [if_neg empty] at committed
      split at committed
      · exact absurd committed.symm some
      · exact committed
    have inside : ∀ c ∈ text, isWordCharacter c = true := by
      rw [← word]
      exact List.all_eq_true.mp List.all_takeWhile
    rw [List.takeWhile_append_of_pos inside, List.append_right_eq_self] at word
    unfold ofWord
    rw [List.takeWhile_append_of_pos inside, List.takeWhile_append_of_pos inside, word,
      word_follows follows word, List.append_nil, if_neg some, if_neg some]

/-! ## Lexemes -/

theorem ofText_dot (digit : (cs.headD endMark).isDigit = false) :
    ofText ('.' :: cs) = ofWord ('.' :: cs) := by
  have stops : Stage.bareDot.run cs = ⟨[], cs, .refuse⟩ := by
    apply Stage.run_stop _ (by simp)
    rw [Stage.move, digit, if_neg Bool.false_ne_true]
  have run : Stage.start.run ('.' :: cs) = ⟨['.'], cs, .refuse⟩ := by
    have moved : Stage.start.move '.' = .take .bareDot := by decide
    rw [Stage.run_take moved, stops]
  have fits : ¬ maxLexeme < ['.'].length := by decide
  unfold ofText
  rw [run, if_neg fits]

theorem run_digit_not_refuse (digit : c.isDigit = true) (cs : List Char) :
    (Stage.start.run (c :: cs)).move ≠ .refuse := by
  have moved : Stage.start.move c = .take .leadingZero ∨ Stage.start.move c = .take .integer := by
    simp only [Stage.move, digit]
    split <;> simp
  rcases moved with moved | moved
  all_goals
    rw [Stage.run_take moved]
    exact Stage.run_not_refuse (by simp [Stage.Open]) cs

theorem digit_of_dot (h : (Stage.start.run ('.' :: cs)).move = .refuse) :
    (cs.headD endMark).isDigit = false := by
  have moved : Stage.start.move '.' = .take .bareDot := by decide
  rw [Stage.run_take moved] at h
  cases cs with
  | nil => decide
  | cons d cs =>
    rw [List.headD_cons, ← Bool.not_eq_true]
    intro digit
    have moved : Stage.bareDot.move d = .take .fraction := by simp [Stage.move, digit]
    rw [Stage.run_take moved] at h
    exact Stage.run_not_refuse (by simp [Stage.Open]) cs h

/-- What is at the head of a text is a number, or what the head is if the text is read as a word. -/
theorem ofText_cases (cs : List Char) (some : (ofText cs).committed ≠ []) :
    (∃ form, (Stage.start.run cs).move = .finish form ∧ (Stage.start.run cs).taken.length ≤ maxLexeme ∧
      ofText cs = .number form (Stage.start.run cs).taken) ∨
    (Stage.start.run cs).move = .refuse ∧ ofText cs = ofWord cs := by
  unfold ofText at some ⊢
  by_cases long : maxLexeme < (Stage.start.run cs).taken.length
  · rw [if_pos long] at some
    exact absurd rfl some
  · rw [if_neg long] at some ⊢
    cases move : (Stage.start.run cs).move with
    | finish form => exact .inl ⟨form, rfl, Nat.le_of_not_lt long, rfl⟩
    | refuse => exact .inr ⟨rfl, rfl⟩
    | take next => exact absurd move (Stage.run_not_take _ _ _)
    | malformed =>
      rw [move] at some
      exact absurd rfl some

/-- A lexeme stays what it is if the character behind it stays or is replaced by a separator. -/
theorem ofText_follows (some : text ≠ []) (committed : (ofText (text ++ rest)).committed = text)
    (follows : Follows rest rest') : ofText (text ++ rest') = ofText (text ++ rest) := by
  rcases ofText_cases (text ++ rest) (by rwa [committed]) with
    ⟨form, finished, fits, head⟩ | ⟨refused, head⟩
  · have taken : (Stage.start.run (text ++ rest)).taken = text := by
      rw [head] at committed
      exact committed
    rw [taken] at fits
    rw [head, taken]
    unfold ofText
    rw [Stage.run_follows follows taken finished, if_neg (Nat.not_lt_of_le fits)]
  · rw [head] at committed ⊢
    rw [← ofWord_follows some committed follows]
    obtain ⟨c, cs, rfl⟩ := List.exists_cons_of_ne_nil some
    rw [List.cons_append] at refused ⊢
    by_cases digit : c.isDigit = true
    · exact absurd refused (run_digit_not_refuse digit (cs ++ rest))
    · rw [Bool.not_eq_true] at digit
      by_cases dot : c = '.'
      · subst dot
        apply ofText_dot
        have first : ((cs ++ rest).headD endMark).isDigit = false := digit_of_dot refused
        cases cs with
        | cons d cs => exact first
        | nil =>
          refine follows.head (P := fun c => c.isDigit = false) first ?_
          have all : separators.all (fun c => !c.isDigit) = true := by decide
          intro c mem
          simpa using List.all_eq_true.mp all c mem
      · exact ofText_other digit dot _

/-! ## What is committed -/

theorem ofPunctuation_cases (cs : List Char) (some : (ofPunctuation cs).committed ≠ []) :
    (∃ long ∈ Punctuator.long, (ofPunctuation cs).committed = long.toList ∧ long.toList <+: cs) ∨
      ∃ c rest, cs = c :: rest ∧ Punctuator.isPunctuation c = true ∧
        (ofPunctuation cs).committed = [c] := by
  cases found : firstOf Punctuator.long cs with
  | some text =>
    have head : ofPunctuation cs = .punctuator text := by simp only [ofPunctuation, found]
    have starts : text.toList.isPrefixOf cs = true :=
      List.find?_some (p := fun text : String => text.toList.isPrefixOf cs) found
    rw [head]
    exact .inl ⟨text, List.mem_of_find?_eq_some found, rfl, List.isPrefixOf_iff_prefix.mp starts⟩
  | none =>
    cases cs with
    | nil => simp [ofPunctuation, found, committed] at some
    | cons c cs =>
      by_cases punctuation : Punctuator.isPunctuation c = true
      · have head : ofPunctuation (c :: cs) = .punctuator (String.singleton c) := by
          simp [ofPunctuation, found, Punctuator.single?, punctuation]
        rw [head]
        exact .inr ⟨c, cs, rfl, punctuation, String.toList_singleton c⟩
      · have head : ofPunctuation (c :: cs) = .unexpected c := by
          simp [ofPunctuation, found, Punctuator.single?, punctuation]
        rw [head] at some
        exact absurd rfl some

theorem ofPunctuation_prefix (cs : List Char) : (ofPunctuation cs).committed <+: cs := by
  by_cases some : (ofPunctuation cs).committed = []
  · rw [some]
    exact List.nil_prefix
  · rcases ofPunctuation_cases cs some with ⟨long, -, eq, starts⟩ | ⟨c, rest, rfl, -, eq⟩
    · rwa [eq]
    · rw [eq]
      exact List.prefix_append [c] rest

theorem ofWord_prefix (cs : List Char) : (ofWord cs).committed <+: cs := by
  unfold ofWord
  split
  · exact ofPunctuation_prefix cs
  · split
    · exact List.nil_prefix
    · exact List.takeWhile_prefix _

theorem committed_prefix (cs : List Char) : (ofText cs).committed <+: cs := by
  by_cases some : (ofText cs).committed = []
  · rw [some]
    exact List.nil_prefix
  · rcases ofText_cases cs some with ⟨form, -, -, head⟩ | ⟨-, head⟩
    · rw [head]
      exact ⟨_, Stage.taken_append_rest .start cs⟩
    · rw [head]
      exact ofWord_prefix cs

theorem isBlank_of_apart (apart : c ∉ separators) : isBlank c = false :=
  isBlank_eq_false (p := fun c => decide (c ∉ separators)) (decide_eq_true apart) (by decide)

theorem isBlank_of_ofPunctuation (some : (ofPunctuation cs).committed ≠ []) :
    ∀ c ∈ (ofPunctuation cs).committed, isBlank c = false := by
  rcases ofPunctuation_cases cs some with ⟨long, mem, eq, -⟩ | ⟨c, rest, -, punctuation, eq⟩
  · rw [eq]
    intro c inside
    exact isBlank_of_apart (separators_of_long mem c inside)
  · rw [eq, List.forall_mem_singleton]
    exact isBlank_eq_false punctuation (by decide)

theorem isBlank_of_committed : ∀ c ∈ (ofText cs).committed, isBlank c = false := by
  by_cases some : (ofText cs).committed = []
  · simp [some]
  · rcases ofText_cases cs some with ⟨form, -, -, head⟩ | ⟨-, head⟩
    · rw [head]
      intro c mem
      exact isBlank_of_apart (Stage.forall_taken .start cs c mem)
    · rw [head] at some ⊢
      unfold ofWord at some ⊢
      by_cases empty : cs.takeWhile isWordCharacter = []
      · rw [if_pos empty] at some ⊢
        exact isBlank_of_ofPunctuation some
      · rw [if_neg empty]
        split
        · simp [committed]
        · intro c mem
          exact isBlank_eq_false (List.all_eq_true.mp List.all_takeWhile c mem) (by decide)

end Head

end

end Kaleidoscope
