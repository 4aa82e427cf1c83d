import Kaleidoscope.Proofs.Token.Joining

/-!
# Texts with more layout

Blanks and comments that are put before or behind the lexemes of a text do not change its tokens. Only
the places of the tokens change.
-/

namespace Kaleidoscope

/-! ## Layout -/

theorem Gap.afterGap {rest gap : List Char} (h : Gap rest gap) :
    afterGap false (gap ++ rest) = afterGap false rest := by
  induction h with
  | nil => rfl
  | blank blank _ ih => simpa [Kaleidoscope.afterGap, blank] using ih
  | @comment body cs inside _ ih =>
    have line : Kaleidoscope.afterGap true ('\n' :: (cs ++ rest)) =
        Kaleidoscope.afterGap false (cs ++ rest) := rfl
    have behind := afterGap_body inside ('\n' :: (cs ++ rest))
    rw [List.append_assoc, List.cons_append, List.cons_append, afterGap_of_commented rfl, behind,
      line, ih]
  | @last body inside ended =>
    subst ended
    rw [List.cons_append, afterGap_of_commented rfl, afterGap_body inside]
    rfl

/-- Blanks and comments that are closed: a gap, whatever is behind it. -/
def Layout (cs : List Char) : Prop := ∀ rest, Gap rest cs

section
variable {gap cs : List Char} {comment : Bool}

theorem afterGap_commented (passes : afterGap false cs = []) : afterGap true cs = [] := by
  induction cs with
  | nil => rfl
  | cons c cs ih =>
    by_cases newline : c = '\n'
    · subst newline
      exact passes
    · have inside : afterGap true (c :: cs) = afterGap true cs := by
        rw [afterGap, if_pos rfl, bne_iff_ne.mpr newline]
      rw [inside]
      rcases afterGap_step false c with ⟨comment', -, passed⟩ | ended
      · rw [passed] at passes
        cases comment' with
        | false => exact ih passes
        | true => exact passes
      · rw [ended] at passes
        cases passes

/-- Behind the last gap of a text layout only makes the gap longer. -/
theorem afterGap_layout (passes : afterGap comment cs = []) (layout : Layout gap) :
    afterGap comment (cs ++ gap) = [] := by
  induction cs generalizing comment with
  | nil =>
    have alone := (layout []).afterGap
    rw [List.append_nil] at alone
    cases comment with
    | false => exact alone
    | true => exact afterGap_commented alone
  | cons c cs ih =>
    rcases afterGap_step comment c with ⟨comment', -, passed⟩ | ended
    · rw [passed] at passes
      rw [List.cons_append, passed]
      exact ih passes
    · rw [ended] at passes
      cases passes

theorem Layout.head (layout : Layout gap) (some : gap ≠ []) (rest : List Char) :
    (gap ++ rest).headD endMark ∈ separators := by
  cases layout rest with
  | nil => exact absurd rfl some
  | @blank c cs blank _ =>
    have mem : c ∈ [' ', '\t', '\n', '\r', '\x0c'] := by
      simpa [isBlank, or_assoc] using blank
    exact List.mem_append_left ['#', endMark] mem
  | comment => exact show '#' ∈ separators by decide
  | last => exact show '#' ∈ separators by decide

end

/-! ## Putting texts in -/

/-- The list `cs`, which starts at the index `i`, with `added j` before every index `j`. -/
def withAdded {α : Type} (added : Nat → List α) : Nat → List α → List α
  | i, [] => added i
  | i, c :: cs => added i ++ c :: withAdded added (i + 1) cs

section
variable {α β : Type} {added : Nat → List α}

theorem map_withAdded (f : α → β) (i : Nat) (cs : List α) :
    (withAdded added i cs).map f = withAdded (fun j => (added j).map f) i (cs.map f) := by
  induction cs generalizing i with
  | nil => rfl
  | cons c cs ih =>
    simp only [withAdded, List.map_append, List.map_cons, ih]

theorem withAdded_eq_cons (added : Nat → List α) (i : Nat) (cs : List α) :
    ∃ more, withAdded added i cs = added i ++ more ∧ more.head? = cs.head? := by
  cases cs with
  | nil => exact ⟨[], (List.append_nil _).symm, rfl⟩
  | cons c cs => exact ⟨_, rfl, rfl⟩

theorem withAdded_append {i : Nat} {cs : List α} (some : cs ≠ [])
    (quiet : ∀ j, i < j → j < i + cs.length → added j = []) (ds : List α) :
    withAdded added i (cs ++ ds) = added i ++ (cs ++ withAdded added (i + cs.length) ds) := by
  induction cs generalizing i with
  | nil => exact absurd rfl some
  | cons c cs ih =>
    have place : i + (c :: cs).length = i + 1 + cs.length := by
      rw [List.length_cons]
      omega
    rw [place] at quiet ⊢
    by_cases none : cs = []
    · subst none
      rfl
    · have pos := List.length_pos_iff.mpr none
      have first : added (i + 1) = [] := quiet (i + 1) (by omega) (by omega)
      have later := ih none fun j after inside => quiet j (by omega) inside
      rw [first, List.nil_append] at later
      rw [List.cons_append, withAdded, later, List.cons_append]

end

/-! ## Scans of texts with more layout -/

theorem Position.offset_passing (p : Position) (cs : List Char) :
    (p.passing cs).offset = p.offset + cs.length := by
  induction cs generalizing p with
  | nil => rfl
  | cons c cs ih =>
    rw [passing, List.foldl_cons, ← passing, ih, offset_after, List.length_cons]
    omega

theorem Head.token_elsewhere {head : Head} {pos : Position} {t : Token}
    (found : head.token pos = .ok t) (pos' : Position) : head.token pos' = .ok ⟨t.kind, pos'⟩ := by
  cases head <;> cases found <;> rfl

section
variable {p : Position} {cs gap lexeme rest : List Char} {r : Scanned} {t : Token}
  {added : Nat → List Char}

theorem Scan.offset_le (h : Scan p cs r) :
    ∀ tile ∈ r.tiles, p.offset ≤ tile.start ∧ p.offset ≤ tile.stop := by
  induction h with
  | ended => simp
  | failed => simp
  | token passes some committed found more ih =>
    rw [← committed] at some
    have start := congrArg Position.offset (Head.token_of_committed some found).2.2
    rw [Position.offset_passing] at start
    rw [Position.offset_passing, Position.offset_passing] at ih
    rw [Scanned.cons, List.forall_mem_cons]
    refine ⟨?_, fun tile mem => ?_⟩
    · simp only [Tile.start, start, Position.offset_passing]
      omega
    · have := ih tile mem
      omega

/-- Nothing is put in but at the ends of the text and of its tokens. -/
def Beside (added : Nat → List Char) (p : Position) (cs : List Char) (r : Scanned) : Prop :=
  ∀ i, p.offset < i → i < p.offset + cs.length →
    (∀ tile ∈ r.tiles, i ≠ tile.start ∧ i ≠ tile.stop) → added i = []

theorem Beside.of_cons (h : Beside added p (gap ++ (lexeme ++ rest))
      (r.cons ⟨t, ((p.passing gap).passing lexeme).offset⟩)) (pos : t.pos = p.passing gap)
    (some : lexeme ≠ []) (more : Scan ((p.passing gap).passing lexeme) rest r) :
    (∀ j, p.offset < j → j < p.offset + gap.length → added j = []) ∧
      (∀ j, p.offset + gap.length < j → j < p.offset + gap.length + lexeme.length → added j = []) ∧
      Beside added ((p.passing gap).passing lexeme) rest r := by
  have later := more.offset_le
  have lexeme_pos := List.length_pos_iff.mpr some
  simp only [Beside, Scanned.cons, List.forall_mem_cons, Tile.start, pos, Position.offset_passing,
    List.length_append] at h later ⊢
  -- The tiles behind the lexeme are far from both ends of its gap.
  refine ⟨fun j after inside => ?_, fun j after inside => ?_, fun j after inside apart => ?_⟩
  · exact h j after (by omega) ⟨by omega, fun tile mem => by have := later tile mem; omega⟩
  · exact h j (by omega) (by omega) ⟨by omega, fun tile mem => by have := later tile mem; omega⟩
  · exact h j (by omega) (by omega) ⟨by omega, apart⟩

/-- What is put in at the ends of a gap makes it longer. -/
theorem exists_longer_gap {i : Nat} (layout : ∀ i, Layout (added i))
    (quiet : ∀ j, i < j → j < i + gap.length → added j = []) (lexeme_some : lexeme ≠ [])
    (passes : afterGap false (gap ++ (lexeme ++ rest)) = lexeme ++ rest)
    (inside : ∀ j, i + gap.length < j → j < i + gap.length + lexeme.length → added j = []) :
    ∃ gap', withAdded added i (gap ++ (lexeme ++ rest)) =
        gap' ++ (lexeme ++ withAdded added (i + gap.length + lexeme.length) rest) ∧
      ∀ more, afterGap false (gap' ++ (lexeme ++ more)) = lexeme ++ more := by
  have behind := withAdded_append lexeme_some inside rest
  have pass := afterGap_append (List.append_ne_nil_of_left_ne_nil lexeme_some rest) passes
  have lexeme_passes (more : List Char) : afterGap false (lexeme ++ more) = lexeme ++ more :=
    afterGap_lexeme lexeme_some ((pass _).symm.trans passes) more
  by_cases none : gap = []
  · subst none
    refine ⟨added i, behind, fun more => ?_⟩
    rw [(layout i _).afterGap, lexeme_passes]
  · refine ⟨added i ++ (gap ++ added (i + gap.length)), ?_, fun more => ?_⟩
    · rw [withAdded_append none quiet, behind]
      simp only [List.append_assoc]
    · rw [List.append_assoc, List.append_assoc, (layout i _).afterGap, pass,
        (layout (i + gap.length) _).afterGap, lexeme_passes]

theorem follows_withAdded (layout : ∀ i, Layout (added i)) (i : Nat) (rest : List Char) :
    Follows rest (withAdded added i rest) := by
  obtain ⟨more, eq, head⟩ := withAdded_eq_cons added i rest
  by_cases none : added i = []
  · left
    rw [eq, none, List.nil_append, List.headD_eq_head?_getD, List.headD_eq_head?_getD, head]
  · right
    rw [eq]
    exact (layout i).head none more

/-- More layout beside its lexemes leaves a text its tokens. -/
theorem Scan.add_layout (h : Scan p cs r) (ends : r.last = .ok t) (layout : ∀ i, Layout (added i))
    (beside : Beside added p cs r) (q : Position) :
    ∃ r' t', Scan q (withAdded added p.offset cs) r' ∧ r'.last = .ok t' ∧
      r'.tokens.map Token.kind = r.tokens.map Token.kind := by
  induction h generalizing q with
  | @ended p gap passes =>
    by_cases none : gap = []
    · subst none
      have alone := afterGap_layout passes (layout p.offset)
      exact ⟨_, _, .ended alone, rfl, rfl⟩
    · have apart := withAdded_append none (fun j after inside => beside j after inside (by simp)) []
      have longer : afterGap false (withAdded added p.offset gap) = [] := by
        rw [List.append_nil] at apart
        rw [apart, (layout p.offset _).afterGap]
        exact afterGap_layout passes (layout _)
      exact ⟨_, _, .ended longer, rfl, rfl⟩
  | @token p gap lexeme rest t r passes some committed found more ih =>
    have pos := (Head.token_of_committed (by rwa [committed]) found).2.2
    obtain ⟨inGap, inLexeme, beside'⟩ := beside.of_cons pos some more
    rw [Position.offset_passing, Position.offset_passing] at ih
    -- What is put in before the lexeme goes to the gap there. What is put in behind it separates.
    obtain ⟨gap', eq, passes'⟩ := exists_longer_gap layout inGap some passes inLexeme
    obtain ⟨r', t', scan, ends', kinds⟩ := ih ends beside' ((q.passing gap').passing lexeme)
    have head := Head.ofText_follows some committed (follows_withAdded layout
      (p.offset + gap.length + lexeme.length) rest)
    rw [eq]
    refine ⟨_, t', .token (passes' _) some (by rw [head, committed])
      (by rw [head]; exact Head.token_elsewhere found _) scan, ends', ?_⟩
    simpa [Scanned.cons, Scanned.tokens] using kinds
  | failed => cases ends

end

end Kaleidoscope
