import Kaleidoscope.Literal.Value
import Kaleidoscope.Source.Chunk

/-!
# Runs over literals

What a literal takes from a text, stage by stage.
-/

namespace Kaleidoscope.Literal

structure Run where
  taken : List Char
  rest : List Char
  move : Move

def Stage.run (s : Stage) : List Char → Run
  | [] => ⟨[], [], s.move endMark⟩
  | c :: cs =>
    match s.move c with
    | .take next => ⟨c :: (next.run cs).taken, (next.run cs).rest, (next.run cs).move⟩
    | last => ⟨[], c :: cs, last⟩

namespace Stage

theorem taken_append_rest (s : Stage) (cs : List Char) : (s.run cs).taken ++ (s.run cs).rest = cs := by
  induction cs generalizing s with
  | nil => rfl
  | cons c cs ih =>
    unfold run
    split
    · rename_i next _
      rw [List.cons_append, ih]
    · rfl

theorem run_take {s next : Stage} {c : Char} (h : s.move c = .take next) (cs : List Char) :
    s.run (c :: cs) = ⟨c :: (next.run cs).taken, (next.run cs).rest, (next.run cs).move⟩ := by
  simp only [run, h]

theorem run_stop {s : Stage} {cs : List Char} {last : Move} (h : s.move (cs.headD endMark) = last)
    (stop : ∀ next, last ≠ .take next) : s.run cs = ⟨[], cs, last⟩ := by
  cases cs with
  | nil => rw [← h]; rfl
  | cons c cs =>
    have here : s.move c = last := h
    unfold run
    split
    · rename_i next move
      exact absurd (here.symm.trans move) (stop next)
    · rw [here]

theorem start_finish {cs : List Char} {form : Form} (h : (start.run cs).move = .finish form) :
    (start.run cs).taken ≠ [] := by
  intro none
  cases move : start.move (cs.headD endMark) with
  | take next =>
    cases cs with
    | nil => exact move_nul_ne_take start next move
    | cons c cs =>
      rw [run_take (show start.move c = _ from move)] at none
      cases none
  | finish form =>
    simp only [Stage.move] at move
    repeat' split at move
    all_goals cases move
  | refuse => rw [run_stop move (by simp)] at h; cases h
  | malformed => rw [run_stop move (by simp)] at h; cases h

theorem move_of_run {s : Stage} {cs : List Char} (none : (s.run cs).taken = []) :
    (s.run cs).move = s.move (cs.headD endMark) := by
  cases cs with
  | nil => rfl
  | cons c cs =>
    cases move : s.move c with
    | take next =>
      rw [run_take move] at none
      cases none
    | _ => simp [run, move]

theorem run_not_take (s next : Stage) (cs : List Char) : (s.run cs).move ≠ .take next := by
  induction cs generalizing s with
  | nil => exact s.move_nul_ne_take next
  | cons c cs ih =>
    cases moved : s.move c with
    | take next =>
      rw [run_take moved]
      exact ih next
    | _ => simp [run, moved]

/-! ### Stages on the way -/

def through (s : Stage) : List Char → Option Stage
  | [] => some s
  | c :: cs =>
    match s.move c with
    | .take next => next.through cs
    | _ => none

variable {s s' next : Stage} {c : Char} {cs text : List Char}

theorem through_cons (h : s.move c = .take next) (cs : List Char) :
    s.through (c :: cs) = next.through cs := by
  simp only [through, h]

theorem through_append (h : s.through text = some s') (cs : List Char) :
    s.through (text ++ cs) = s'.through cs := by
  induction text generalizing s with
  | nil =>
    cases h
    rfl
  | cons c text ih =>
    cases moved : s.move c with
    | take next =>
      rw [through_cons moved] at h
      rw [List.cons_append, through_cons moved, ih h]
    | _ => simp [through, moved] at h

theorem through_of_append (h : s.through (text ++ cs) = some s') :
    ∃ s₁, s.through text = some s₁ ∧ s₁.through cs = some s' := by
  induction text generalizing s with
  | nil => exact ⟨s, rfl, h⟩
  | cons c text ih =>
    rw [List.cons_append] at h
    cases moved : s.move c with
    | take next =>
      rw [through_cons moved] at h ⊢
      exact ih h
    | _ => simp [through, moved] at h

theorem through_loop {p : Char → Bool} (loops : ∀ c, p c = true → s.move c = .take s)
    (all : ∀ c ∈ text, p c = true) : s.through text = some s := by
  induction text with
  | nil => rfl
  | cons c text ih =>
    obtain ⟨here, more⟩ := List.forall_mem_cons.mp all
    rw [through_cons (loops c here), ih more]

theorem run_through (h : s.through text = some s') (cs : List Char) :
    s.run (text ++ cs) = ⟨text ++ (s'.run cs).taken, (s'.run cs).rest, (s'.run cs).move⟩ := by
  induction text generalizing s with
  | nil =>
    cases h
    rfl
  | cons c text ih =>
    cases moved : s.move c with
    | take next =>
      rw [through_cons moved] at h
      rw [List.cons_append, run_take moved, ih h]
      rfl
    | _ => simp [through, moved] at h

theorem through_taken (s : Stage) (cs : List Char) : ∃ s', s.through (s.run cs).taken = some s' ∧
    s'.move ((s.run cs).rest.headD endMark) = (s.run cs).move := by
  induction cs generalizing s with
  | nil => exact ⟨s, rfl, rfl⟩
  | cons c cs ih =>
    cases moved : s.move c with
    | take next =>
      obtain ⟨s', passed, stopped⟩ := ih next
      rw [run_take moved]
      exact ⟨s', (through_cons moved _).trans passed, stopped⟩
    | _ => exact ⟨s, by simp [run, moved, through], by simp [run, moved]⟩

end Stage

end Kaleidoscope.Literal
