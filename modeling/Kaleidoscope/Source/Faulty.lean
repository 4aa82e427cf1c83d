import Kaleidoscope.Source.Reader

/-!
# A reader with faults

A reader over bytes in memory that delivers short pieces, is interrupted and fails on demand. It
serves to drive a buffer into the states that a sound reader never leads to.
-/

namespace Kaleidoscope

structure Faults where
  longest : Option Nat
  /-- Every so many calls one is interrupted. Below two no call is, since a reader is not
  interrupted forever. -/
  interruptEvery : Nat
  /-- Reads from this offset on fail, and reads before it stop there. -/
  failAt : Option Nat
  seekFails : Bool

structure FaultyReader where
  source : ByteReader
  faults : Faults
  calls : Nat
  /-- How many reads may still fail, if that is limited. -/
  failures : Option Nat

namespace FaultyReader

def readFailure : SystemError := .other "injected read failure"

def seekFailure : SystemError := .other "injected seek failure"

def ofBytes (content : Array UInt8) (faults : Faults) (failures : Option Nat) : FaultyReader :=
  ⟨.ofBytes content, faults, 0, failures⟩

def Interrupts (faults : Faults) (call : Nat) : Prop :=
  1 < faults.interruptEvery ∧ call % faults.interruptEvery = 0

instance (faults : Faults) (call : Nat) : Decidable (Interrupts faults call) :=
  inferInstanceAs (Decidable (_ ∧ _))

def barrier? (r : FaultyReader) : Option Nat :=
  if r.failures = some 0 then none else r.faults.failAt

def AtBarrier (r : FaultyReader) : Prop :=
  ∃ stop ∈ r.barrier?, stop ≤ r.source.offset

instance (r : FaultyReader) : Decidable r.AtBarrier :=
  decidable_of_iff ((r.barrier?.any fun stop => decide (stop ≤ r.source.offset)) = true) (by
    cases h : r.barrier? <;> simp [AtBarrier, h])

def allowed (r : FaultyReader) (n : Nat) : Nat :=
  min (min n (r.faults.longest.getD n)) ((r.barrier?.map (· - r.source.offset)).getD n)

def read (r : FaultyReader) (n : Nat) : Delivery × FaultyReader :=
  let counted := { r with calls := r.calls + 1 }
  if Interrupts r.faults counted.calls then (.interrupted, counted)
  else if r.AtBarrier then
    (.failed readFailure, { counted with failures := r.failures.map (· - 1) })
  else
    let (piece, source) := r.source.read (r.allowed n)
    (.bytes piece, { counted with source := source })

theorem not_interrupts_succ {faults : Faults} {call : Nat} (h : Interrupts faults call) :
    ¬ Interrupts faults (call + 1) := by
  obtain ⟨many, zero⟩ := h
  rintro ⟨_, again⟩
  rw [Nat.add_mod, zero, Nat.zero_add, Nat.mod_mod, Nat.mod_eq_of_lt many] at again
  exact absurd again (by decide)

instance : Reader FaultyReader where
  read := read
  toStart r :=
    if r.faults.seekFails then (.error seekFailure, r)
    else (.ok (), { r with source := { r.source with offset := 0 } })
  remaining r := Reader.remaining r.source
  patience r := if Interrupts r.faults (r.calls + 1) then 1 else 0
  read_bytes {r r' n data} h := by
    simp only [read] at h
    repeat' split at h
    all_goals cases h
    have := Reader.read_bytes (r := r.source) (n := r.allowed n) rfl
    exact ⟨Nat.le_trans this.1 (by unfold allowed; omega), this.2⟩
  read_interrupted {r r' n} h := by
    simp only [read] at h
    split at h
    · rename_i now
      cases h
      exact ⟨Nat.le_refl _, by
        rw [if_pos now, if_neg (not_interrupts_succ now)]; exact Nat.zero_lt_one⟩
    · split at h <;> cases h
  read_failed {r r' n cause} h := by
    simp only [read] at h
    repeat' split at h
    all_goals cases h
    exact Nat.le_refl _

end FaultyReader

end Kaleidoscope
