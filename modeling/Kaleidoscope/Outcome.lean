import Kaleidoscope.Record

/-!
# Outcomes of a session's operations

An operation of a session leaves a state behind whether it succeeds or not, and the records that it
logged.
-/

namespace Kaleidoscope

structure Outcome (ε σ α : Type) where
  result : Except ε α
  state : σ
  log : List Record

namespace Outcome

variable {ε ε' σ τ α β : Type}

def after (log : List Record) (o : Outcome ε σ α) : Outcome ε σ α :=
  { o with log := log ++ o.log }

def andThen (o : Outcome ε σ α) (next : α → σ → Outcome ε σ β) : Outcome ε σ β :=
  match o.result with
  | .ok a => (next a o.state).after o.log
  | .error e => ⟨.error e, o.state, o.log⟩

end Outcome

end Kaleidoscope
