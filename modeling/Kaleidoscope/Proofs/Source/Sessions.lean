import Kaleidoscope.Proofs.Source.Probe
import Kaleidoscope.Proofs.Transcript

/-!
# Sessions beside each other

The same requests can be put to a buffer, to a buffer over another reader, and to a window that has the
source itself. Where a session opens a file, the window is given what is in it.
-/

namespace Kaleidoscope

/-! ## Requests -/

inductive Operation.Alike {α β : Type} (R : α → β → Prop) : Operation α → Operation β → Prop
  | move (m : Motion) : Alike R (.move m) (.move m)
  | startsWith (pattern : String) : Alike R (.startsWith pattern) (.startsWith pattern)
  | reopen (path : String) {a : α} {b : β} : R a b → Alike R (.reopen path (.ok a)) (.reopen path (.ok b))
  | missing (path : String) (cause : SystemError) :
    Alike R (.reopen path (.error cause)) (.reopen path (.error cause))

theorem Operation.alike_moves {α β : Type} (R : α → β → Prop) (motions : List Motion) :
    List.Forall₂ (Alike R) (motions.map .move) (motions.map .move) := by
  induction motions with
  | nil => exact .nil
  | cons m ms ih => exact .cons (.move m) ih

def Buffer.serve {ρ : Type} [Reader ρ] (b : Buffer ρ) : Operation ρ → Answer × Buffer ρ
  | .move m => b.ask (.move m)
  | .startsWith pattern => b.ask (.startsWith pattern)
  | .reopen path opened =>
    (.moved ((b.reopen path opened).result.map fun _ => none), (b.reopen path opened).state)

/-- A window opens a source, not a reader. -/
def Window.serve (w : Window) : Operation (List UInt8) → Answer × Window
  | .move m => w.ask (.move m)
  | .startsWith pattern => w.ask (.startsWith pattern)
  | .reopen _ (.ok source) => (.moved (.ok none), .ofSource source)
  | .reopen path (.error cause) => (.moved (.error (.cannotOpen path cause)), w)

namespace Buffer

section
variable {ρ : Type} [Reader ρ] {b b' : Buffer ρ} {w : Window} {source : List UInt8}
  {plan : List (Operation (List UInt8))} {ops : List (Operation ρ)}

/-! ## Readers that never fail -/

def Displays (b : Buffer ρ) (w : Window) : Prop := ∃ source, b.Shows source w

theorem Displays.view (h : b.Displays w) : b.view = w.view := by
  obtain ⟨source, shows⟩ := h
  exact shows.view

theorem Displays.serve {q : Operation (List UInt8)} {op : Operation ρ} (h : b.Displays w)
    (alike : q.Alike Reader.Delivers op) :
    (b.serve op).1 = (w.serve q).1 ∧ (b.serve op).2.Displays (w.serve q).2 := by
  obtain ⟨source, shows⟩ := h
  cases alike with
  | move m => exact ⟨(shows.ask _).1, source, (shows.ask _).2⟩
  | startsWith pattern => exact ⟨(shows.ask _).1, source, (shows.ask _).2⟩
  | missing path cause => exact ⟨rfl, source, shows⟩
  | @reopen path other r delivers =>
    obtain ⟨opened, anew⟩ := rewind_shows (b := { b with reader := r, name := path }) delivers
    have answer : (b.reopen path (.ok r)).result = .ok () := opened
    refine ⟨?_, other, anew⟩
    rw [Buffer.serve, answer]
    rfl

theorem Displays.transcript (h : b.Displays w)
    (alike : List.Forall₂ (Operation.Alike Reader.Delivers) plan ops) :
    transcript Buffer.serve Buffer.view b ops = Kaleidoscope.transcript Window.serve Window.view w plan ∧
      (serveAll Buffer.serve b ops).Displays (serveAll Window.serve w plan) :=
  transcript_eq (R := Displays) (S := fun op q => q.Alike Reader.Delivers op) (F := fun _ => False)
    Displays.view (fun shown asked _ => shown.serve asked) h alike.flip fun _ _ => id

/-! ## Readers that may fail -/

/-- `b` is what a buffer that shows `w` comes to without failures. -/
def Mirrors (b : Buffer ρ) (w : Window) : Prop := ∃ source g, b.Shadowed source g ∧ g.Shows source w

theorem Mirrors.view (h : b.Mirrors w) : b.view = w.view := by
  obtain ⟨source, g, shadowed, shows⟩ := h
  rw [← shadowed.view, shows.view]

theorem Mirrors.ask {q : Question} (h : b.Mirrors w) (reads : ¬ (b.ask q).1.Fails) :
    (b.ask q).1 = (w.ask q).1 ∧ (b.ask q).2.Mirrors (w.ask q).2 := by
  obtain ⟨source, g, shadowed, shows⟩ := h
  obtain ⟨answer, next⟩ := shadowed.ask q reads
  obtain ⟨answer', next'⟩ := shows.ask q
  exact ⟨answer.symm.trans answer', source, _, next, next'⟩

theorem Mirrors.serve {q : Operation (List UInt8)} {op : Operation ρ} (h : b.Mirrors w)
    (alike : q.Alike Reader.Tells op) (reads : ¬ (b.serve op).1.Fails) :
    (b.serve op).1 = (w.serve q).1 ∧ (b.serve op).2.Mirrors (w.serve q).2 := by
  cases alike with
  | move m => exact h.ask reads
  | startsWith pattern => exact h.ask reads
  | missing path cause => exact ⟨rfl, h⟩
  | @reopen path other r tells =>
    obtain ⟨g, shadowed⟩ := exists_shadow (b := { b with reader := r, name := path }) tells.within
    obtain ⟨i, delivers⟩ := shadowed.delivers
    obtain ⟨opened, anew⟩ := rewind_shows delivers
    obtain ⟨same, next⟩ := shadowed.rewind (mt failsToRead_map.mpr reads)
    have answer : (b.reopen path (.ok r)).result = .ok () := same.symm.trans opened
    refine ⟨?_, other, _, next, anew⟩
    rw [Buffer.serve, answer]
    rfl

theorem Mirrors.transcript (h : b.Mirrors w)
    (alike : List.Forall₂ (Operation.Alike Reader.Tells) plan ops)
    (unfailing : Unfailing (transcript Buffer.serve Buffer.view b ops)) :
    Kaleidoscope.transcript Buffer.serve Buffer.view b ops =
      Kaleidoscope.transcript Window.serve Window.view w plan :=
  (transcript_eq (R := Mirrors) (S := fun op q => q.Alike Reader.Tells op) (F := Answer.Fails)
    Mirrors.view (fun shown asked => shown.serve asked) h alike.flip unfailing).1

end

end Buffer

end Kaleidoscope
