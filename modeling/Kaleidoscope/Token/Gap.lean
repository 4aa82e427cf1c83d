import Kaleidoscope.Source.Supply

/-!
# Gaps between tokens

Blanks and comments separate tokens. Each of their characters is committed as soon as it is passed,
so a gap may be longer than any lexeme.
-/

namespace Kaleidoscope

def isBlank (c : Char) : Bool :=
  c == ' ' || c == '\t' || c == '\n' || c == '\r' || c == '\x0c'

namespace Buffer

variable {ρ : Type} [Reader ρ]

omit [Reader ρ] in
theorem not_atEnd_of_blank {b : Buffer ρ} (h : isBlank b.peek = true) : ¬ b.AtEnd := by
  refine not_atEnd_of_peek_ne fun eq => ?_
  rw [eq] at h
  exact absurd h (by decide)

def skipBlanks (b : Buffer ρ) : Except ScanError Unit × Buffer ρ :=
  if blank : isBlank b.peek then
    match h : b.advance with
    | (.ok _, b') =>
      have _less : b'.mark.mark.supply < b.mark.supply := by
        rw [supply_mark_mark]
        exact supply_mark_advance_lt h (not_atEnd_of_blank blank)
      skipBlanks b'.mark
    | (.error e, b') => (.error e, b')
  else (.ok (), b)
termination_by b.mark.supply

def skipLine (b : Buffer ρ) : Except ScanError Unit × Buffer ρ :=
  -- a NUL is a character of the comment, and not the end of the source
  if ended : b.AtEnd then (.ok (), b)
  else
    match h : b.advance with
    | (.ok c, b') =>
      have _less : b'.mark.mark.supply < b.mark.supply := by
        rw [supply_mark_mark]
        exact supply_mark_advance_lt h ended
      if c = '\n' then (.ok (), b'.mark) else skipLine b'.mark
    | (.error e, b') => (.error e, b')
termination_by b.mark.supply

theorem skipBlanks_ok {b b' : Buffer ρ} (h : b.skipBlanks = (.ok (), b')) (committed : b.extent = 0) :
    b'.extent = 0 ∧ b'.supply ≤ b.supply := by
  fun_induction skipBlanks b with
  | case1 b blank c b₁ advanced less ih =>
    have := ih h rfl
    rw [supply_mark_mark, supply_mark_of_extent_eq_zero committed] at less
    exact ⟨this.1, by omega⟩
  | case2 => cases h
  | case3 =>
    cases h
    exact ⟨committed, Nat.le_refl _⟩

theorem skipLine_ok {b b' : Buffer ρ} (h : b.skipLine = (.ok (), b')) (committed : b.extent = 0) :
    b'.extent = 0 ∧ b'.supply ≤ b.supply ∧ (¬ b.AtEnd → b'.supply < b.supply) := by
  fun_induction skipLine b with
  | case1 b ended =>
    cases h
    exact ⟨committed, Nat.le_refl _, fun not => absurd ended not⟩
  | case2 b ended b₁ advanced =>
    cases h
    have less := supply_mark_advance_lt advanced ended
    rw [supply_mark_of_extent_eq_zero committed] at less
    exact ⟨rfl, by omega, fun _ => less⟩
  | case3 b ended c b₁ advanced _ _ ih =>
    have less := supply_mark_advance_lt advanced ended
    rw [supply_mark_of_extent_eq_zero committed] at less
    have := ih h rfl
    exact ⟨this.1, by omega, fun _ => by omega⟩
  | case4 => cases h

/-- What `skipGap` goes down on: a commit, then the supply. -/
def unsettled (b : Buffer ρ) : Nat := if b.extent = 0 then 0 else 1

theorem comment_progress {b b₁ b₂ b₃ : Buffer ρ} (blanks : b.skipBlanks = (.ok (), b₁))
    (comment : b₁.startsWith "#" = (.ok true, b₂)) (line : b₂.skipLine = (.ok (), b₃)) :
    b₃.extent = 0 ∧ (b.extent = 0 → b₃.supply < b.supply) := by
  obtain ⟨committed, same⟩ := startsWith_ok comment
  have gone := skipLine_ok line committed
  refine ⟨gone.1, fun start => ?_⟩
  have blank := skipBlanks_ok blanks start
  obtain ⟨near, begin, le⟩ := same blank.1
  have open₁ := not_atEnd_of_startsWith comment rfl (by decide)
  have open₂ : ¬ b₂.AtEnd := by
    rw [atEnd_iff_of_extent_eq_zero blank.1] at open₁
    rw [atEnd_iff_of_extent_eq_zero committed, near, begin]
    exact open₁
  have := gone.2.2 open₂
  omega

theorem skipGap_less {b b₁ b₂ b₃ : Buffer ρ} (blanks : b.skipBlanks = (.ok (), b₁))
    (comment : b₁.startsWith "#" = (.ok true, b₂)) (line : b₂.skipLine = (.ok (), b₃)) :
    Prod.Lex (· < ·) (· < ·) (b₃.unsettled, b₃.supply) (b.unsettled, b.supply) := by
  obtain ⟨settled, less⟩ := comment_progress blanks comment line
  by_cases start : b.extent = 0
  · simp only [unsettled, settled, start]
    exact Prod.Lex.right _ (less start)
  · simp only [unsettled, settled, start]
    exact Prod.Lex.left _ _ (by decide)

def skipGap (b : Buffer ρ) : Except ScanError Unit × Buffer ρ :=
  match blanks : b.skipBlanks with
  | (.error e, b₁) => (.error e, b₁)
  | (.ok (), b₁) =>
    match comment : b₁.startsWith "#" with
    | (.error e, b₂) => (.error e, b₂)
    | (.ok false, b₂) => (.ok (), b₂)
    | (.ok true, b₂) =>
      match line : b₂.skipLine with
      | (.error e, b₃) => (.error e, b₃)
      | (.ok (), b₃) =>
        have _less := skipGap_less blanks comment line
        skipGap b₃
termination_by (b.unsettled, b.supply)
decreasing_by assumption

theorem skipGap_ok {b b' : Buffer ρ} (h : b.skipGap = (.ok (), b')) :
    b'.extent = 0 ∧ (b.extent = 0 → b'.supply ≤ b.supply) := by
  fun_induction skipGap b with
  | case1 => cases h
  | case2 => cases h
  | case3 b b₁ blanks b₂ comment =>
    cases h
    obtain ⟨committed, same⟩ := startsWith_ok comment
    refine ⟨committed, fun start => ?_⟩
    have blank := skipBlanks_ok blanks start
    exact Nat.le_trans (same blank.1).2.2 blank.2
  | case4 => cases h
  | case5 b b₁ blanks b₂ comment b₃ line _ ih =>
    obtain ⟨settled, less⟩ := comment_progress blanks comment line
    have gap := ih h
    exact ⟨gap.1, fun start => by have := less start; have := gap.2 settled; omega⟩

end Buffer

end Kaleidoscope
