import Kaleidoscope.Proofs.Token.Scan

/-!
# Tokens one by one

What is left of a source is asked for token by token, up to its end or the first error.
-/

namespace Kaleidoscope

section
variable {ρ : Type} [Reader ρ]

/-- Asked for the next token again and again, a stream gives `tokens` and comes to the end of the input,
which is the last of them, or to an error. -/
inductive TokenStream.Yields : TokenStream ρ → List Token → Option ScanError → Prop
  | failed {s s' : TokenStream ρ} {e : ScanError} (next : s.next = (.error e, s')) :
    Yields s [] (some e)
  | ended {s s' : TokenStream ρ} {t : Token} (next : s.next = (.ok t, s')) (ends : t.isEnd = true) :
    Yields s [t] none
  | more {s s' : TokenStream ρ} {t : Token} {tokens : List Token} {failure : Option ScanError}
    (next : s.next = (.ok t, s')) (goes : t.isEnd = false) (rest : Yields s' tokens failure) :
    Yields s (t :: tokens) failure

namespace TokenStream

theorem all_failed {s s' : TokenStream ρ} {e : ScanError} (next : s.next = (.error e, s')) :
    s.all.1 = some e ∧ s.all.2.1.toList = [] := by
  rw [all_eq_tiles, tiles_eq, next]
  exact ⟨rfl, rfl⟩

theorem all_ended {s s' : TokenStream ρ} {t : Token} (next : s.next = (.ok t, s'))
    (ends : t.isEnd = true) : s.all.1 = none ∧ s.all.2.1.toList = [t] := by
  rw [all_eq_tiles, tiles_eq, next]
  simp [ends]

theorem all_more {s s' : TokenStream ρ} {t : Token} (next : s.next = (.ok t, s'))
    (goes : t.isEnd = false) : s.all.1 = s'.all.1 ∧ s.all.2.1.toList = t :: s'.all.2.1.toList := by
  rw [all_eq_tiles, all_eq_tiles, tiles_eq, next]
  simp only [goes, if_neg Bool.false_ne_true]
  generalize s'.tiles = all
  obtain ⟨tiles, result, s''⟩ := all
  cases result <;> exact ⟨rfl, rfl⟩

theorem Yields.all_eq {s : TokenStream ρ} {tokens : List Token} {failure : Option ScanError}
    (h : s.Yields tokens failure) : s.all.1 = failure ∧ s.all.2.1.toList = tokens := by
  induction h with
  | failed next => exact all_failed next
  | ended next ends => exact all_ended next ends
  | more next goes _ ih =>
    rw [(all_more next goes).1, (all_more next goes).2, ih.2]
    exact ⟨ih.1, rfl⟩

theorem yields_all (s : TokenStream ρ) : s.Yields s.all.2.1.toList s.all.1 := by
  fun_induction tiles s with
  | case1 s e s' next =>
    rw [(all_failed next).1, (all_failed next).2]
    exact .failed next
  | case2 s t s' next more _ ih =>
    rw [(all_more next more).1, (all_more next more).2]
    exact .more next more ih
  | case3 s t s' next ended =>
    rw [Bool.not_eq_false] at ended
    rw [(all_ended next ended).1, (all_ended next ended).2]
    exact .ended next ended

end TokenStream

end

end Kaleidoscope
