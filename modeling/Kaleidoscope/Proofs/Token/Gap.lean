import Kaleidoscope.Proofs.Source.Split
import Kaleidoscope.Token.Gap

/-!
# What a gap is

A gap is a text of blanks and comments. A comment runs from its mark through the next newline, or to
the end of the source if no newline is left. Skipping a gap commits all of it and nothing else.
-/

namespace Kaleidoscope

inductive Gap (rest : List Char) : List Char → Prop
  | nil : Gap rest []
  | blank {c : Char} {cs : List Char} (blank : isBlank c = true) (more : Gap rest cs) :
    Gap rest (c :: cs)
  | comment {body cs : List Char} (inside : '\n' ∉ body) (more : Gap rest cs) :
    Gap rest ('#' :: body ++ '\n' :: cs)
  | last {body : List Char} (inside : '\n' ∉ body) (ended : rest = []) : Gap rest ('#' :: body)

theorem Gap.append {rest gap gap' : List Char} (h : Gap (gap' ++ rest) gap) (h' : Gap rest gap') :
    Gap rest (gap ++ gap') := by
  induction h with
  | nil => exact h'
  | blank blank _ ih => exact .blank blank ih
  | comment inside _ ih =>
    simp only [List.cons_append, List.append_assoc]
    exact .comment inside ih
  | last inside ended =>
    obtain ⟨rfl, rfl⟩ := List.append_eq_nil_iff.mp ended
    rw [List.append_nil]
    exact .last inside rfl

theorem Gap.of_blanks {rest blanks : List Char} (h : ∀ c ∈ blanks, isBlank c = true) :
    Gap rest blanks := by
  induction blanks with
  | nil => exact .nil
  | cons c cs ih =>
    exact .blank (h c List.mem_cons_self) (ih fun d mem => h d (List.mem_cons_of_mem c mem))

def Line (rest line : List Char) : Prop :=
  ∃ body, '\n' ∉ body ∧ (line = body ++ ['\n'] ∨ line = body ∧ rest = [])

theorem Line.cons {rest line : List Char} {c : Char} (h : Line rest line) (other : c ≠ '\n') :
    Line rest (c :: line) := by
  obtain ⟨body, inside, ends⟩ := h
  refine ⟨c :: body, by simp [inside, Ne.symm other], ?_⟩
  rcases ends with rfl | ⟨rfl, ended⟩
  · exact .inl rfl
  · exact .inr ⟨rfl, ended⟩

theorem Line.tail {rest line : List Char} {c : Char} (h : Line rest (c :: line)) (other : c ≠ '\n') :
    Line rest line := by
  obtain ⟨body, inside, ends⟩ := h
  cases body with
  | nil =>
    rcases ends with eq | ⟨eq, _⟩
    · exact absurd (List.cons.inj eq).1 other
    · cases eq
  | cons d body =>
    refine ⟨body, fun mem => inside (List.mem_cons_of_mem d mem), ?_⟩
    rcases ends with eq | ⟨eq, ended⟩
    · exact .inl (List.cons.inj eq).2
    · exact .inr ⟨(List.cons.inj eq).2, ended⟩

theorem Line.marked {cs line rest : List Char} (h : Line rest line) (join : cs = line ++ rest)
    (mark : ['#'].isPrefixOf cs = true) : ∃ tail, line = '#' :: tail := by
  obtain ⟨cs, rfl⟩ := List.isPrefixOf_iff_prefix.mp mark
  cases line with
  | cons c tail => exact ⟨tail, by rw [(List.cons.inj join).1]⟩
  | nil =>
    obtain ⟨body, _, eq | ⟨_, rfl⟩⟩ := h
    · simp at eq
    · cases join

theorem Line.gap {rest line : List Char} (h : Line rest line) : Gap rest ('#' :: line) := by
  obtain ⟨body, inside, rfl | ⟨rfl, ended⟩⟩ := h
  · exact .comment inside .nil
  · exact .last inside ended

/-- What is behind the gap at the head of a text, or behind the rest of a `comment` and the gap that
follows it. -/
def afterGap (comment : Bool) : List Char → List Char
  | [] => []
  | c :: cs =>
    if comment then afterGap (c != '\n') cs
    else if isBlank c then afterGap false cs
    else if c = '#' then afterGap true cs
    else c :: cs

theorem afterGap_dropWhile (cs : List Char) :
    afterGap false (cs.dropWhile isBlank) = afterGap false cs := by
  induction cs with
  | nil => rfl
  | cons c cs ih =>
    by_cases blank : isBlank c = true
    · rw [List.dropWhile_cons_of_pos blank, ih]
      simp [afterGap, blank]
    · rw [List.dropWhile_cons_of_neg blank]

/-- Behind the blanks, what is no comment is no gap either. -/
theorem afterGap_of_uncommented {cs : List Char}
    (h : ['#'].isPrefixOf (cs.dropWhile isBlank) = false) :
    afterGap false cs = cs.dropWhile isBlank := by
  have head := List.head?_dropWhile_not isBlank cs
  rw [← afterGap_dropWhile]
  cases rest : cs.dropWhile isBlank with
  | nil => rfl
  | cons c cs =>
    rw [rest] at h head
    have blank : isBlank c = false := head
    have mark : ¬ c = '#' := by
      rintro rfl
      simp [List.isPrefixOf] at h
    simp [afterGap, blank, mark]

theorem afterGap_of_commented {cs line : List Char} (h : cs.dropWhile isBlank = '#' :: line) :
    afterGap false cs = afterGap true line := by
  rw [← afterGap_dropWhile, h]
  simp [afterGap, isBlank]

theorem afterGap_body {body : List Char} (inside : '\n' ∉ body) (cs : List Char) :
    afterGap true (body ++ cs) = afterGap true cs := by
  induction body with
  | nil => rfl
  | cons c body ih =>
    obtain ⟨ne, inside⟩ := not_or.mp (mt List.mem_cons.mpr inside)
    simp only [List.cons_append, afterGap, if_true, bne_iff_ne.mpr (Ne.symm ne)]
    exact ih inside

theorem Line.afterGap {rest line : List Char} (h : Line rest line) :
    afterGap true (line ++ rest) = afterGap false rest := by
  obtain ⟨body, inside, rfl | ⟨rfl, rfl⟩⟩ := h
  · rw [List.append_assoc, afterGap_body inside]
    simp [Kaleidoscope.afterGap]
  · rw [afterGap_body inside]
    rfl

/-- A character is passed, and may begin or end a comment, or the gap has ended before it. -/
theorem afterGap_step (comment : Bool) (c : Char) :
    (∃ comment', (c = '\n' → comment' = false) ∧
      ∀ cs, afterGap comment (c :: cs) = afterGap comment' cs) ∨
    ∀ cs, afterGap comment (c :: cs) = c :: cs := by
  cases comment with
  | true => exact .inl ⟨c != '\n', by simp, fun _ => rfl⟩
  | false =>
    by_cases blank : isBlank c = true
    · exact .inl ⟨false, fun _ => rfl, by simp [afterGap, blank]⟩
    · by_cases mark : c = '#'
      · subst mark
        exact .inl ⟨true, by simp, by simp [afterGap, blank]⟩
      · exact .inr (by simp [afterGap, blank, mark])

theorem afterGap_suffix (comment : Bool) (cs : List Char) : afterGap comment cs <:+ cs := by
  induction cs generalizing comment with
  | nil => exact List.suffix_refl []
  | cons c cs ih =>
    rcases afterGap_step comment c with ⟨comment', -, passed⟩ | ended
    · rw [passed]
      exact (ih comment').trans (List.suffix_cons c cs)
    · exact ⟨[], ended cs⟩

theorem afterGap_ne_cons (comment : Bool) (c : Char) (cs : List Char) : afterGap comment cs ≠ c :: cs := by
  intro whole
  have le := (afterGap_suffix comment cs).length_le
  rw [whole] at le
  exact absurd le (Nat.not_succ_le_self _)

/-- What stands behind a gap does not matter for passing it. -/
theorem afterGap_append {comment : Bool} {gap tail : List Char} (some : tail ≠ [])
    (passes : afterGap comment (gap ++ tail) = tail) (rest : List Char) :
    afterGap comment (gap ++ rest) = afterGap false rest := by
  induction gap generalizing comment with
  | nil =>
    rw [List.nil_append] at passes ⊢
    obtain ⟨c, cs, rfl⟩ := List.exists_cons_of_ne_nil some
    cases comment with
    | false => rfl
    | true => exact absurd passes (afterGap_ne_cons (c != '\n') c cs)
  | cons c gap ih =>
    rw [List.cons_append] at passes ⊢
    rcases afterGap_step comment c with ⟨comment', -, passed⟩ | ended
    · rw [passed] at passes ⊢
      exact ih passes
    · rw [ended] at passes
      have longer := congrArg List.length passes
      simp only [List.length_cons, List.length_append] at longer
      omega

/-- Where no gap is, none is passed, whatever stands behind the first characters. -/
theorem afterGap_lexeme {lexeme rest : List Char} (some : lexeme ≠ [])
    (passes : afterGap false (lexeme ++ rest) = lexeme ++ rest) (rest' : List Char) :
    afterGap false (lexeme ++ rest') = lexeme ++ rest' := by
  obtain ⟨c, cs, rfl⟩ := List.exists_cons_of_ne_nil some
  rw [List.cons_append] at passes ⊢
  rcases afterGap_step false c with ⟨comment, -, passed⟩ | ended
  · rw [passed] at passes
    exact absurd passes (afterGap_ne_cons comment c _)
  · exact ended _

namespace Buffer

section
variable {ρ : Type} [Reader ρ] {b : Buffer ρ} {source : List UInt8} {before after : List Char}

theorem skipBlanks_splits (h : b.Splits source before [] after) :
    ∃ b', b.skipBlanks = (.ok (), b') ∧
      b'.Splits source (before ++ after.takeWhile isBlank) [] (after.dropWhile isBlank) := by
  fun_induction skipBlanks b generalizing before after with
  | case1 b blank c b₁ advanced _ ih =>
    obtain ⟨rest, rfl⟩ := h.after_eq_cons (not_atEnd_of_blank blank)
    obtain ⟨_, eq, moved⟩ := h.advance (by decide)
    rw [eq] at advanced; cases advanced
    obtain ⟨b', skipped, splits⟩ := ih moved.mark
    refine ⟨b', skipped, ?_⟩
    rw [List.takeWhile_cons_of_pos blank, List.dropWhile_cons_of_pos blank]
    simpa using splits
  | case2 b blank e b₁ advanced =>
    obtain ⟨rest, rfl⟩ := h.after_eq_cons (not_atEnd_of_blank blank)
    obtain ⟨_, eq, _⟩ := h.advance (by decide)
    rw [eq] at advanced; cases advanced
  | case3 b other =>
    refine ⟨b, rfl, ?_⟩
    rw [h.peek] at other
    cases after with
    | nil => simpa using h
    | cons c rest =>
      have outside : ¬ isBlank c = true := other
      rw [List.takeWhile_cons_of_neg outside, List.dropWhile_cons_of_neg outside, List.append_nil]
      exact h

theorem skipLine_splits (h : b.Splits source before [] after) :
    ∃ b' line rest, b.skipLine = (.ok (), b') ∧ after = line ++ rest ∧ Line rest line ∧
      b'.Splits source (before ++ line) [] rest := by
  fun_induction skipLine b generalizing before after with
  | case1 b ended =>
    have none := h.atEnd_iff.mp ended
    subst none
    exact ⟨b, [], [], rfl, rfl, ⟨[], List.not_mem_nil, .inr ⟨rfl, rfl⟩⟩, by simpa using h⟩
  | case2 b ended b₁ advanced =>
    obtain ⟨rest, rfl⟩ := h.after_eq_cons ended
    obtain ⟨_, eq, moved⟩ := h.advance (by decide)
    rw [eq] at advanced
    injection advanced with char same
    subst same
    have newline := Except.ok.inj char
    rw [newline] at moved ⊢
    exact ⟨_, ['\n'], rest, rfl, rfl, ⟨[], List.not_mem_nil, .inl rfl⟩, moved.mark⟩
  | case3 b ended c b₁ advanced _ other ih =>
    obtain ⟨rest, rfl⟩ := h.after_eq_cons ended
    obtain ⟨_, eq, moved⟩ := h.advance (by decide)
    rw [eq] at advanced; cases advanced
    obtain ⟨b', line, rest, skipped, rfl, isLine, splits⟩ := ih moved.mark
    refine ⟨b', b.peek :: line, rest, skipped, rfl, isLine.cons other, ?_⟩
    simpa using splits
  | case4 b ended e b₁ advanced =>
    obtain ⟨rest, rfl⟩ := h.after_eq_cons ended
    obtain ⟨_, eq, _⟩ := h.advance (by decide)
    rw [eq] at advanced; cases advanced

theorem comment_splits (h : b.Splits source before [] after) :
    ∃ b₁ b₂, b.skipBlanks = (.ok (), b₁) ∧
      b₁.startsWith "#" = (.ok (['#'].isPrefixOf (after.dropWhile isBlank)), b₂) ∧
      b₂.Splits source (before ++ after.takeWhile isBlank) [] (after.dropWhile isBlank) := by
  obtain ⟨b₁, skipped, splits⟩ := skipBlanks_splits h
  have fits : "#".toList.length ≤ maxLexeme := by decide
  obtain ⟨b₂, found, splits⟩ := splits.startsWith fits (by decide)
  exact ⟨b₁, b₂, skipped, found, splits⟩

theorem skipGap_splits (h : b.Splits source before [] after) :
    ∃ b' gap, b.skipGap = (.ok (), b') ∧ after = gap ++ afterGap false after ∧
      Gap (afterGap false after) gap ∧
      b'.Splits source (before ++ gap) [] (afterGap false after) := by
  have blanks : ∀ rest, Gap rest (after.takeWhile isBlank) := fun rest =>
    .of_blanks (List.all_eq_true.mp List.all_takeWhile)
  fun_induction skipGap b generalizing before after with
  -- neither blanks nor the question for a comment fail where nothing is pending
  | case1 b e b₁ skip =>
    obtain ⟨_, _, skipped, _, _⟩ := comment_splits h
    rw [skipped] at skip; cases skip
  | case2 b b₁ skip e b₂ comment =>
    obtain ⟨_, _, skipped, found, _⟩ := comment_splits h
    rw [skipped] at skip; cases skip
    rw [found] at comment; cases comment
  | case3 b b₁ skip b₂ comment =>
    obtain ⟨_, _, skipped, found, splits⟩ := comment_splits h
    rw [skipped] at skip; cases skip
    rw [found] at comment
    injection comment with none same
    subst same
    rw [afterGap_of_uncommented (Except.ok.inj none)]
    exact ⟨_, _, rfl, List.takeWhile_append_dropWhile.symm, blanks _, splits⟩
  | case4 b b₁ skip b₂ comment e b₃ line =>
    obtain ⟨_, _, skipped, found, splits⟩ := comment_splits h
    rw [skipped] at skip; cases skip
    rw [found] at comment
    injection comment with _ same
    subst same
    obtain ⟨_, _, _, eq, _⟩ := skipLine_splits splits
    rw [eq] at line; cases line
  -- behind the comment the gap goes on with what the next line starts with
  | case5 b b₁ skip b₂ comment b₃ skipped _ ih =>
    obtain ⟨_, _, eq, found, splits⟩ := comment_splits h
    rw [eq] at skip; cases skip
    rw [found] at comment
    injection comment with mark same
    subst same
    obtain ⟨_, line, rest, eq, join, isLine, splits⟩ := skipLine_splits splits
    rw [eq] at skipped
    injection skipped with _ same
    subst same
    obtain ⟨line, rfl⟩ := isLine.marked join (Except.ok.inj mark)
    have more := isLine.tail (by decide)
    have here : afterGap false after = afterGap false rest :=
      (afterGap_of_commented join).trans more.afterGap
    obtain ⟨b', gap, skip, after_eq, isGap, splits⟩ :=
      ih splits fun _ => .of_blanks (List.all_eq_true.mp List.all_takeWhile)
    rw [here]
    refine ⟨b', after.takeWhile isBlank ++ (('#' :: line) ++ gap), skip, ?_, ?_, ?_⟩
    · rw [List.append_assoc, List.append_assoc, ← after_eq, ← join,
        List.takeWhile_append_dropWhile]
    · apply Gap.append (blanks _)
      rw [after_eq] at more
      exact more.gap.append isGap
    · simpa using splits

end

end Buffer

end Kaleidoscope
