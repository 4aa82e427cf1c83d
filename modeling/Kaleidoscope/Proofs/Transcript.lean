import Mathlib.Data.List.Forall2

/-!
# Transcripts of sessions

A session puts its requests to a state one after another. What can be seen of it are the answers, and the
view behind each of them.
-/

namespace Kaleidoscope

section
variable {σ σ' Q Q' A V : Type} {serve : σ → Q → A × σ} {serve' : σ' → Q' → A × σ'} {view : σ → V}
  {view' : σ' → V} {R : σ → σ' → Prop} {S : Q → Q' → Prop}

def transcript (serve : σ → Q → A × σ) (view : σ → V) (s : σ) : List Q → List (A × V)
  | [] => []
  | q :: qs => ((serve s q).1, view (serve s q).2) :: transcript serve view (serve s q).2 qs

def serveAll (serve : σ → Q → A × σ) (s : σ) (qs : List Q) : σ :=
  qs.foldl (fun s q => (serve s q).2) s

/-- Two systems that stay related while no answer fails have the same answers for as long. -/
theorem transcript_eq {F : A → Prop} (views : ∀ {s s'}, R s s' → view s = view' s')
    (keeps : ∀ {s s' q q'}, R s s' → S q q' → ¬ F (serve s q).1 →
      (serve s q).1 = (serve' s' q').1 ∧ R (serve s q).2 (serve' s' q').2)
    {s : σ} {s' : σ'} {qs : List Q} {qs' : List Q'} (related : R s s') (asked : List.Forall₂ S qs qs')
    (unfailing : ∀ answer ∈ transcript serve view s qs, ¬ F answer.1) :
    transcript serve view s qs = transcript serve' view' s' qs' ∧
      R (serveAll serve s qs) (serveAll serve' s' qs') := by
  induction asked generalizing s s' with
  | nil => exact ⟨rfl, related⟩
  | cons here _ ih =>
    obtain ⟨first, later⟩ := List.forall_mem_cons.mp unfailing
    obtain ⟨answer, next⟩ := keeps related here first
    obtain ⟨answers, after⟩ := ih next later
    unfold transcript
    exact ⟨by rw [answer, views next, answers], after⟩

end

end Kaleidoscope
