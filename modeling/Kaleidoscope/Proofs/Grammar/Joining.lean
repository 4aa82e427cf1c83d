import Kaleidoscope.Proofs.Grammar.Parallel
import Kaleidoscope.Proofs.Token.Scan

/-!
# Programs whose tokens stand elsewhere

Where the tokens of a program stand shows in its diagnostics alone. A semicolon between two programs
does for the first one what the end of the input does.
-/

namespace Kaleidoscope

/-! ## Tokens of one kind -/

namespace TokenKind

variable {kind kind' : TokenKind}

theorem unnumbered_cases (h : kind.unnumbered = kind'.unnumbered) :
    kind = kind' ∨ ∃ name name', kind = .identifier name ∧ kind' = .identifier name' ∧
      name.spelling = name'.spelling := by
  cases kind with
  | identifier name =>
    cases kind' with
    | identifier name' =>
      simp only [unnumbered, identifier.injEq, Name.mk.injEq, and_true] at h
      exact .inr ⟨name, name', rfl, rfl, h⟩
    | _ => cases h
  | _ =>
    cases kind' with
    | identifier name' => cases h
    | _ => exact .inl h

end TokenKind

namespace Token

variable {t t' : Token}

def SameKind (t t' : Token) : Prop := t.kind.unnumbered = t'.kind.unnumbered

theorem SameKind.spelling (h : t.SameKind t') : t.spelling = t'.spelling := by
  unfold Token.spelling
  rcases TokenKind.unnumbered_cases h with same | ⟨name, name', eq, eq', spelled⟩
  · rw [same]
  · rw [eq, eq']
    exact spelled

theorem SameKind.isPunctuator (h : t.SameKind t') (text : String) :
    t.isPunctuator text = t'.isPunctuator text := by
  unfold Token.isPunctuator
  rcases TokenKind.unnumbered_cases h with same | ⟨name, name', eq, eq', -⟩
  · rw [same]
  · rw [eq, eq']

theorem SameKind.isEnd (h : t.SameKind t') : t.isEnd = t'.isEnd := by
  unfold Token.isEnd
  rcases TokenKind.unnumbered_cases h with same | ⟨name, name', eq, eq', -⟩
  · rw [same]
  · rw [eq, eq']

theorem SameKind.resembles (h : t.SameKind t') : t.Resembles t' := by
  rcases TokenKind.unnumbered_cases h with same | ⟨name, name', eq, eq', spelled⟩
  · constructor <;> simp [Token.name?, Token.operator?, Token.isPunctuator, Token.isKeyword, same]
  · constructor <;>
      simp [Token.name?, Token.operator?, Token.isPunctuator, Token.isKeyword, eq, eq', spelled]

end Token

def SyntaxError.moved (move : Position → Position) : SyntaxError → SyntaxError
  | expectedToken expected found pos => .expectedToken expected found (move pos)
  | expectedExpression found pos => .expectedExpression found (move pos)
  | unknownOperator symbol pos => .unknownOperator symbol (move pos)

theorem SyntaxError.showing_of_sameKind {e : SyntaxError} {t t' : Token} (shows : e.Shows t)
    (same : t.SameKind t') {move : Position → Position} (pos : t'.pos = move t.pos) :
    e.showing t' = e.moved move := by
  have spelled := same.spelling
  obtain ⟨here, found⟩ := shows
  cases e <;> simp only [SyntaxError.pos, SyntaxError.found] at here found <;>
    simp only [showing, moved, expecting, noExpression, pos, here, found, spelled]

def SyntaxError.closedBy (t : Token) (e : SyntaxError) : SyntaxError :=
  if e.found = "end of input" then e.showing t else e

theorem SyntaxError.moved_id : SyntaxError.moved id = id := by
  funext e
  cases e <;> rfl

namespace Grammar

variable {ts us zs rest : List Token} {t u : Token} {e : SyntaxError}

/-! ## Moved tokens -/

def Program.moved (move : Position → Position) (p : Program) : Program :=
  { p with diagnostics := p.diagnostics.map (SyntaxError.moved move) }

structure Moves (f : Token → Token) (move : Position → Position) : Prop where
  kind : ∀ t : Token, t.SameKind (f t)
  pos : ∀ t : Token, (f t).pos = move t.pos

section
variable {f : Token → Token} {move : Position → Position}

theorem Moves.isEnd (h : Moves f move) (t : Token) : (f t).isEnd = t.isEnd := (h.kind t).isEnd.symm

theorem Moves.isPunctuator (h : Moves f move) (t : Token) (text : String) :
    (f t).isPunctuator text = t.isPunctuator text :=
  ((h.kind t).isPunctuator text).symm

theorem Moves.parallel (h : Moves f move) :
    Parallel fun ts ts' => ts' = ts.map f := by
  constructor
  rintro ts ts' rfl
  cases ts with
  | nil => exact .inl ⟨rfl, rfl⟩
  | cons t us => exact .inr ⟨t, us, f t, us.map f, rfl, rfl, (h.kind t).resembles, .inr rfl⟩

/-- Moved tokens are read to the same items, and to the same diagnostics, moved in the same way. -/
theorem program_map (h : Moves f move) (ts : List Token) :
    program (ts.map f) = (program ts).moved move := by
  fun_induction program ts with
  | case1 => rw [List.map_nil, program]; rfl
  | case2 t us ends =>
    rw [List.map_cons, program_of_isEnd (by rw [h.isEnd, ends])]
    rfl
  | case3 t us notEnd mark ih =>
    rw [List.map_cons, program_of_semicolon (by rw [h.isPunctuator, mark]), ih]
  | case4 t us notEnd notMark item behind shorter found ih =>
    rw [Bool.not_eq_true] at notEnd notMark
    obtain ⟨rest, given, rfl⟩ := (form_alongside h.parallel rfl).gives ⟨shorter, found⟩
    rw [List.map_cons] at given ⊢
    rw [program_of_gives (by rw [h.isEnd, notEnd])
      (by rw [h.isPunctuator, notMark]) given, ih]
    rfl
  -- an error leaves the token that it shows
  | case5 t us notEnd notMark e noLonger found =>
    obtain ⟨u, more, u', more', nil, -⟩ := (form_alongside h.parallel rfl).goesWrong ⟨noLonger, found⟩
    cases nil
  | case6 t us notEnd notMark e u more noLonger found ends =>
    rw [Bool.not_eq_true] at notEnd notMark
    obtain ⟨v, others, u', more', eq, shows, wrong, same⟩ :=
      (form_alongside h.parallel rfl).goesWrong ⟨noLonger, found⟩
    cases eq
    cases same
    rw [List.map_cons] at wrong ⊢
    rw [program_of_goesWrong (by rw [h.isEnd, notEnd])
      (by rw [h.isPunctuator, notMark]) wrong, h.isEnd, ends,
      SyntaxError.showing_of_sameKind shows (h.kind u) (h.pos u)]
    rfl
  | case7 t us notEnd notMark e u more noLonger found notEnd' ih =>
    rw [Bool.not_eq_true] at notEnd notMark notEnd'
    obtain ⟨v, others, u', more', eq, shows, wrong, same⟩ :=
      (form_alongside h.parallel rfl).goesWrong ⟨noLonger, found⟩
    cases eq
    cases same
    rw [List.map_cons] at wrong ⊢
    rw [program_of_goesWrong (by rw [h.isEnd, notEnd])
      (by rw [h.isPunctuator, notMark]) wrong, h.isEnd, notEnd',
      SyntaxError.showing_of_sameKind shows (h.kind u) (h.pos u), if_neg Bool.false_ne_true, ih]
    rfl
  | case8 t us notEnd notMark found =>
    rw [Bool.not_eq_true] at notEnd notMark
    have cut := (form_alongside h.parallel rfl).eq_cut found
    rw [List.map_cons] at cut ⊢
    rw [program_of_cut (by rw [h.isEnd, notEnd])
      (by rw [h.isPunctuator, notMark]) cut]
    rfl

end

/-! ## A semicolon for the end of the input -/

def Program.followedBy (t : Token) (p q : Program) : Program where
  items := p.items ++ q.items
  diagnostics := p.diagnostics.map (SyntaxError.closedBy t) ++ q.diagnostics
  complete := q.complete

/-- The first list ends with `stop`. The other one has `mark` there, and `us` behind it. -/
def EndsFor (stop mark : Token) (us ts ts' : List Token) : Prop :=
  ∃ zs, NoEnd zs ∧ (∀ t ∈ zs, t.spelling ≠ "end of input") ∧ ts = zs ++ [stop] ∧ ts' = zs ++ mark :: us

variable {stop mark : Token}

theorem endsFor_cons {more more' : List Token} (h : EndsFor stop mark us (t :: more) (u :: more')) :
    (t = stop ∧ more = [] ∧ u = mark ∧ more' = us) ∨
      (u = t ∧ t.isEnd = false ∧ t.spelling ≠ "end of input" ∧ EndsFor stop mark us more more') := by
  obtain ⟨zs, noEnd, spelled, split, split'⟩ := h
  cases zs with
  | nil =>
    cases split
    cases split'
    exact .inl ⟨rfl, rfl, rfl, rfl⟩
  | cons v zs =>
    cases split
    cases split'
    rw [List.forall_mem_cons] at spelled
    exact .inr ⟨rfl, noEnd _ List.mem_cons_self, spelled.1, zs,
      fun t mem => noEnd t (List.mem_cons_of_mem _ mem), spelled.2, rfl, rfl⟩

theorem EndsFor.of_cons {more ts' : List Token} (h : EndsFor stop mark us (t :: more) ts')
    (ends : stop.isEnd = true) (notEnd : ¬ t.isEnd = true) :
    ∃ more', ts' = t :: more' ∧ EndsFor stop mark us more more' := by
  cases ts' with
  | nil =>
    obtain ⟨zs, -, -, -, split'⟩ := h
    simp at split'
  | cons u more' =>
    rcases endsFor_cons h with ⟨rfl, -⟩ | ⟨rfl, -, -, later⟩
    · exact absurd ends notEnd
    · exact ⟨more', rfl, later⟩

theorem endsFor_parallel (ends : stop.isEnd = true) (semicolon : mark.isPunctuator ";" = true) :
    Parallel (EndsFor stop mark us) := by
  constructor
  intro ts ts' h
  cases ts with
  | nil =>
    obtain ⟨zs, -, -, split, -⟩ := h
    simp at split
  | cons t more =>
    cases ts' with
    | nil =>
      obtain ⟨zs, -, -, -, split'⟩ := h
      simp at split'
    | cons u more' =>
      refine .inr ⟨t, more, u, more', rfl, rfl, ?_⟩
      have idle := Token.idle_of_isEnd ends
      rcases endsFor_cons h with ⟨rfl, -, rfl, -⟩ | ⟨rfl, -, -, later⟩
      · exact ⟨idle.resembles (Token.idle_of_semicolon semicolon), .inl idle⟩
      · exact ⟨(show u.SameKind u from rfl).resembles, .inr later⟩

theorem closedBy_of_end (shows : e.Shows t) (ends : t.isEnd = true) :
    e.closedBy mark = e.showing mark := by
  have found : e.found = "end of input" := by
    rw [shows.2]
    unfold Token.spelling
    rw [Token.isEnd_iff.mp ends]
  unfold SyntaxError.closedBy
  rw [if_pos found]

theorem closedBy_of_other (shows : e.Shows t) (other : t.spelling ≠ "end of input") :
    e.closedBy mark = e := by
  have found : e.found ≠ "end of input" := by rwa [shows.2]
  unfold SyntaxError.closedBy
  rw [if_neg found]

/-- Behind a semicolon in the place of its end, a program leaves the next one as it is. -/
theorem program_followedBy (ends : stop.isEnd = true) (semicolon : mark.isPunctuator ";" = true)
    {ts' : List Token} (h : EndsFor stop mark us ts ts') :
    program ts' = (program ts).followedBy mark (program us) := by
  have parallel : Parallel (EndsFor stop mark us) := endsFor_parallel ends semicolon
  have open_ : mark.isEnd = false := Token.isEnd_of_isPunctuator semicolon
  fun_induction program ts generalizing ts' with
  -- a list that ends with `stop` is not empty
  | case1 =>
    obtain ⟨zs, -, -, split, -⟩ := h
    simp at split
  | case2 t more last =>
    obtain ⟨zs, noEnd, -, split, rfl⟩ := h
    cases zs with
    | nil => exact program_of_semicolon semicolon us
    | cons u zs =>
      cases split
      have inside := noEnd _ List.mem_cons_self
      rw [last] at inside
      cases inside
  | case3 t more notEnd separates ih =>
    obtain ⟨more', rfl, later⟩ := h.of_cons ends notEnd
    rw [program_of_semicolon separates]
    exact ih later
  | case4 t more notEnd notMark item behind shorter found ih =>
    obtain ⟨more', rfl, -⟩ := h.of_cons ends notEnd
    obtain ⟨rest, given, later⟩ := (form_alongside parallel h).gives ⟨shorter, found⟩
    rw [Bool.not_eq_true] at notEnd notMark
    rw [program_of_gives notEnd notMark given, ih later]
    rfl
  | case5 t more notEnd notMark e noLonger found =>
    obtain ⟨u, others, u', others', nil, -⟩ := (form_alongside parallel h).goesWrong ⟨noLonger, found⟩
    cases nil
  | case6 t more notEnd notMark e u others noLonger found last =>
    obtain ⟨more', rfl, -⟩ := h.of_cons ends notEnd
    obtain ⟨v, others, u', others', eq, shows, wrong, later⟩ :=
      (form_alongside parallel h).goesWrong ⟨noLonger, found⟩
    cases eq
    rw [Bool.not_eq_true] at notEnd notMark
    -- the error shows the end, so the semicolon takes its place and closes the error
    rcases endsFor_cons later with ⟨rfl, -, rfl, rfl⟩ | ⟨-, inside, -⟩
    · rw [program_of_goesWrong notEnd notMark wrong, open_, if_neg Bool.false_ne_true,
        ← closedBy_of_end shows ends]
      rfl
    · rw [last] at inside
      cases inside
  | case7 t more notEnd notMark e u others noLonger found notEnd' ih =>
    obtain ⟨more', rfl, -⟩ := h.of_cons ends notEnd
    obtain ⟨v, others, u', others', eq, shows, wrong, later⟩ :=
      (form_alongside parallel h).goesWrong ⟨noLonger, found⟩
    cases eq
    rw [Bool.not_eq_true] at notEnd notMark
    rcases endsFor_cons later with ⟨rfl, -⟩ | ⟨rfl, inside, spelled, behind⟩
    · exact absurd ends notEnd'
    · rw [SyntaxError.showing_of_shows shows] at wrong
      rw [program_of_goesWrong notEnd notMark wrong, inside, if_neg Bool.false_ne_true, ih behind]
      simp only [Program.followedBy, Program.withError, List.map_cons, List.cons_append,
        closedBy_of_other shows spelled]
  | case8 t more notEnd notMark found =>
    have missing := form_explained (t :: more)
    rw [found] at missing
    obtain ⟨zs, -, -, split, -⟩ := h
    have inside := missing stop (by simp [split])
    rw [ends] at inside
    cases inside

end Grammar

end Kaleidoscope
