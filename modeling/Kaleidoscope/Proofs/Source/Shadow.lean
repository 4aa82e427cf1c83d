import Kaleidoscope.Proofs.Source.Bounds
import Kaleidoscope.Proofs.Source.Failing

/-!
# Buffers over readers that may fail

A buffer over a reader that may fail is followed by one that has the same state but reads the source
from memory. As long as no read fails the two answer alike, whatever state they are in. So what holds of
buffers that never fail carries over, until a read fails.
-/

namespace Kaleidoscope

/-! ## Asking a buffer -/

inductive Question
  | move (m : Motion)
  | startsWith (pattern : String)

inductive Answer
  | moved (reply : Reply)
  | found (reply : Except ScanError Bool)

def Answer.Fails : Answer → Prop
  | moved reply => Buffer.FailsToRead reply
  | found reply => Buffer.FailsToRead reply

def interview {σ : Type} (ask : σ → Question → Answer × σ) (view : σ → View) (s : σ) :
    List Question → List (Answer × View)
  | [] => []
  | q :: qs => ((ask s q).1, view (ask s q).2) :: interview ask view (ask s q).2 qs

def Unfailing (session : List (Answer × View)) : Prop := ∀ answer ∈ session, ¬ answer.1.Fails

def Buffer.ask {ρ : Type} [Reader ρ] (b : Buffer ρ) : Question → Answer × Buffer ρ
  | .move m => (.moved (b.move m).1, (b.move m).2)
  | .startsWith pattern => (.found (b.startsWith pattern).1, (b.startsWith pattern).2)

namespace Window

def probe (w : Window) : List Char → Except ScanError Bool × Window
  | [] => (.ok true, w)
  | expected :: pattern =>
    match w.advance with
    | (.ok c, w') => if c = expected then probe w' pattern else (.ok false, w')
    | (.error e, w') => (.error e, w')

def startsWith (w : Window) (pattern : String) : Except ScanError Bool × Window :=
  match w.probe pattern.toList with
  | (.ok found, w') => (.ok found, w'.reset)
  | (.error e, w') => (.error e, w')

def ask (w : Window) : Question → Answer × Window
  | .move m => (.moved (w.move m).1, (w.move m).2)
  | .startsWith pattern => (.found (w.startsWith pattern).1, (w.startsWith pattern).2)

end Window

namespace Buffer

section
variable {ρ : Type} [Reader ρ] {b : Buffer ρ} {source : List UInt8} {w : Window}

namespace Shows

theorem probe (h : b.Shows source w) (pattern : List Char) :
    (b.probe pattern).1 = (w.probe pattern).1 ∧
      (b.probe pattern).2.Shows source (w.probe pattern).2 := by
  induction pattern generalizing b w with
  | nil => exact ⟨rfl, h⟩
  | cons expected pattern ih =>
    obtain ⟨reply, shows⟩ := h.advance
    unfold Buffer.probe Window.probe
    generalize b.advance = moved at reply shows ⊢
    generalize w.advance = moved' at reply shows ⊢
    obtain ⟨result, b'⟩ := moved
    obtain ⟨result', w'⟩ := moved'
    cases reply
    cases result with
    | error e => exact ⟨rfl, shows⟩
    | ok c =>
      dsimp only
      by_cases same : c = expected
      · rw [if_pos same, if_pos same]
        exact ih shows
      · rw [if_neg same, if_neg same]
        exact ⟨rfl, shows⟩

theorem startsWith (h : b.Shows source w) (pattern : String) :
    (b.startsWith pattern).1 = (w.startsWith pattern).1 ∧
      (b.startsWith pattern).2.Shows source (w.startsWith pattern).2 := by
  obtain ⟨reply, shows⟩ := h.probe pattern.toList
  unfold Buffer.startsWith Window.startsWith
  generalize b.probe pattern.toList = found at reply shows ⊢
  generalize w.probe pattern.toList = found' at reply shows ⊢
  obtain ⟨result, b'⟩ := found
  obtain ⟨result', w'⟩ := found'
  cases reply
  cases result with
  | error e => exact ⟨rfl, shows⟩
  | ok => exact ⟨rfl, shows.reset⟩

theorem ask (h : b.Shows source w) (q : Question) :
    (b.ask q).1 = (w.ask q).1 ∧ (b.ask q).2.Shows source (w.ask q).2 := by
  cases q with
  | move m => exact ⟨congrArg Answer.moved (h.move m).1, (h.move m).2⟩
  | startsWith pattern =>
    exact ⟨congrArg Answer.found (h.startsWith pattern).1, (h.startsWith pattern).2⟩

theorem interview (h : b.Shows source w) (questions : List Question) :
    interview Buffer.ask Buffer.view b questions =
      Kaleidoscope.interview Window.ask Window.view w questions := by
  induction questions generalizing b w with
  | nil => rfl
  | cons q qs ih =>
    obtain ⟨reply, next⟩ := h.ask q
    unfold Kaleidoscope.interview
    rw [reply, next.view, ih next]

end Shows

theorem rewind_shows {i : Nat} (reads : Reader.DeliversFrom source i b.reader) :
    b.rewind.1 = .ok () ∧ b.rewind.2.Shows source (.ofSource source) := by
  obtain ⟨r, eq, delivers⟩ := reads.toStart
  obtain ⟨b', loaded, holds, start, extent⟩ :=
    loadNear_holds (b := b.restarted r) rfl rfl rfl rfl rfl rfl delivers
  unfold Buffer.rewind
  rw [eq]
  dsimp only
  rw [loaded]
  refine ⟨rfl, rfl, 0, holds, ?_, ?_⟩
  · simp [Window.ofSource, start]
  · simp [Window.ofSource, cursor, start, extent]

end

/-! ## The cases of moving on -/

section
variable {ρ : Type} [Reader ρ] {b b' : Buffer ρ} {c : Chunk} {r : ρ}

theorem loadFar_of_follows (follows : b.far.Follows b.near) : b.loadFar = (.ok (), b) :=
  if_pos follows

theorem loadFar_ok (behind : ¬ b.far.Follows b.near)
    (loaded : b.far.load b.near.nextStamp b.reader = (.ok (), c, r)) :
    b.loadFar = (.ok (), { b with far := c, reader := r }) := by
  unfold loadFar
  rw [if_neg behind, loaded]

theorem loadFar_error {cause : SystemError} (behind : ¬ b.far.Follows b.near)
    (unloaded : b.far.load b.near.nextStamp b.reader = (.error cause, c, r)) :
    b.loadFar = (.error (.cannotRead cause), { b with far := c, reader := r }) := by
  unfold loadFar
  rw [if_neg behind, unloaded]

theorem loadNear_ok (loaded : b.near.load b.near.nextStamp b.reader = (.ok (), c, r)) :
    b.loadNear = (.ok (), { b with near := c, reader := r }) := by
  unfold loadNear
  rw [loaded]

theorem loadNear_error {cause : SystemError}
    (unloaded : b.near.load b.near.nextStamp b.reader = (.error cause, c, r)) :
    b.loadNear = (.error (.cannotRead cause), { b with near := c, reader := r }) := by
  unfold loadNear
  rw [unloaded]

theorem advance_full (more : ¬ b.AtEnd) (full : ¬ b.extent < maxLexeme) :
    b.advance = (.error (.lexemeTooLong b.startPos), b) := by
  unfold advance
  rw [if_neg more, dif_neg full]

theorem advance_inside (more : ¬ b.AtEnd) (room : b.extent < maxLexeme)
    (stays : b.cursor + 1 ≠ chunkSize) : b.advance = (.ok b.peek, b.step b.peek room) := by
  have stays' : (b.step b.peek room).cursor ≠ chunkSize := stays
  unfold advance
  simp only [if_neg more, dif_pos room, if_neg stays']

theorem advance_crossing {result : Except ScanError Unit} (more : ¬ b.AtEnd)
    (room : b.extent < maxLexeme) (crosses : b.cursor + 1 = chunkSize)
    (loaded : (b.step b.peek room).loadFar = (result, b')) :
    b.advance = (result.map fun _ => b.peek, b') := by
  have crosses' : (b.step b.peek room).cursor = chunkSize := crosses
  unfold advance
  simp only [if_neg more, dif_pos room, if_pos crosses', loaded]
  cases result <;> rfl

end

/-! ## Shadows -/

end Buffer

/-- A load that does not fail is the load from memory. One that fails before a byte has come leaves
the chunk and the reader where they were. -/
theorem Chunk.load_tells {ρ : Type} [Reader ρ] {source : List UInt8} {i : Nat} {r : ρ}
    (tells : Reader.TellsFrom source i r) (c : Chunk) (stamp : Fin 3) :
    (∃ c' r' j, c.load stamp r = (.ok (), c', r') ∧ Reader.TellsFrom source j r' ∧
      c.load stamp (⟨source.toArray, i⟩ : ByteReader) = (.ok (), c', ⟨source.toArray, j⟩)) ∨
    ∃ cause c' r' j, c.load stamp r = (.error cause, c', r') ∧ Reader.TellsFrom source j r' ∧
      ((Reader.fill r chunkSize #[]).data = #[] → c' = c ∧ j = i) := by
  obtain ⟨n, data, next, whole⟩ := Reader.fill_tells tells chunkSize #[]
  cases failure : (Reader.fill r chunkSize #[]).failure with
  | none =>
    have memory := ByteReader.fill_eq source.toArray i chunkSize #[]
    rw [← whole failure, ← data] at memory
    refine .inl ⟨_, _, _, by simp only [load, failure]; rfl, next, ?_⟩
    simp only [load, memory]
  | some cause =>
    refine .inr ⟨cause, _, _, _, by simp only [load, failure]; rfl, next, fun empty => ?_⟩
    rw [empty] at data
    have none : (source.drop i).take n = [] := by simpa using data.symm
    rw [empty, none]
    simp

namespace Buffer

section
variable {ρ : Type}

def inMemory (b : Buffer ρ) (source : List UInt8) (i : Nat) : Buffer ByteReader :=
  { b with reader := ⟨source.toArray, i⟩ }

variable [Reader ρ]

/-- `g` has the state of `b`, and its reader stands where the one of `b` does. -/
def Shadowed (b : Buffer ρ) (source : List UInt8) (g : Buffer ByteReader) : Prop :=
  ∃ i, Reader.TellsFrom source i b.reader ∧ g = b.inMemory source i

variable {b : Buffer ρ} {source : List UInt8} {g : Buffer ByteReader}

theorem exists_shadow (h : Reader.Within source b.reader) : ∃ g, b.Shadowed source g := by
  obtain ⟨i, tells⟩ := h
  exact ⟨_, i, tells, rfl⟩

namespace Shadowed

theorem delivers (h : b.Shadowed source g) : ∃ i, Reader.DeliversFrom source i g.reader := by
  obtain ⟨i, -, rfl⟩ := h
  refine ⟨i, fun r i => r = ⟨source.toArray, i⟩, ?_, rfl⟩
  exact ByteReader.faultless source.toArray

theorem view (h : b.Shadowed source g) : g.view = b.view := by
  obtain ⟨i, -, rfl⟩ := h
  rfl

theorem pos (h : b.Shadowed source g) : g.pos = b.pos := by
  obtain ⟨i, -, rfl⟩ := h
  rfl

theorem mark (h : b.Shadowed source g) : b.mark.Shadowed source g.mark := by
  obtain ⟨i, tells, rfl⟩ := h
  exact ⟨i, tells, rfl⟩

theorem reset (h : b.Shadowed source g) : b.reset.Shadowed source g.reset := by
  obtain ⟨i, tells, rfl⟩ := h
  exact ⟨i, tells, rfl⟩

theorem loadFar (h : b.Shadowed source g) (reads : ¬ FailsToRead b.loadFar.1) :
    g.loadFar.1 = b.loadFar.1 ∧ b.loadFar.2.Shadowed source g.loadFar.2 := by
  have shadowed := h
  obtain ⟨i, tells, rfl⟩ := h
  by_cases follows : b.far.Follows b.near
  · rw [loadFar_of_follows follows, loadFar_of_follows (b := b.inMemory source i) follows]
    exact ⟨rfl, shadowed⟩
  · rcases Chunk.load_tells tells b.far b.near.nextStamp with
      ⟨c, r, j, here, next, memory⟩ | ⟨cause, c, r, j, here, -⟩
    · rw [loadFar_ok follows here, loadFar_ok (b := b.inMemory source i) follows memory]
      exact ⟨rfl, j, next, rfl⟩
    · rw [loadFar_error follows here] at reads
      exact absurd ⟨cause, rfl⟩ reads

theorem loadNear (h : b.Shadowed source g) (reads : ¬ FailsToRead b.loadNear.1) :
    g.loadNear.1 = b.loadNear.1 ∧ b.loadNear.2.Shadowed source g.loadNear.2 := by
  obtain ⟨i, tells, rfl⟩ := h
  rcases Chunk.load_tells tells b.near b.near.nextStamp with
    ⟨c, r, j, here, next, memory⟩ | ⟨cause, c, r, j, here, -⟩
  · rw [loadNear_ok here, loadNear_ok (b := b.inMemory source i) memory]
    exact ⟨rfl, j, next, rfl⟩
  · rw [loadNear_error here] at reads
    exact absurd ⟨cause, rfl⟩ reads

theorem advance (h : b.Shadowed source g) (reads : ¬ FailsToRead b.advance.1) :
    g.advance.1 = b.advance.1 ∧ b.advance.2.Shadowed source g.advance.2 := by
  have shadowed := h
  obtain ⟨i, tells, rfl⟩ := h
  by_cases ended : b.AtEnd
  · rw [advance_atEnd ended, advance_atEnd (b := b.inMemory source i) ended]
    exact ⟨rfl, shadowed⟩
  by_cases room : b.extent < maxLexeme
  · by_cases crosses : b.cursor + 1 = chunkSize
    · have here := advance_crossing ended room crosses rfl
      have there := advance_crossing (b := b.inMemory source i) ended room
        crosses rfl
      rw [here] at reads ⊢
      obtain ⟨same, next⟩ := Shadowed.loadFar (b := b.step b.peek room) ⟨i, tells, rfl⟩
        (mt failsToRead_map.mpr reads)
      rw [there]
      exact ⟨congrArg (Except.map fun _ => b.peek) same, next⟩
    · -- a move inside a chunk does not ask the reader
      rw [advance_inside ended room crosses, advance_inside (b := b.inMemory source i) ended room crosses]
      exact ⟨rfl, i, tells, rfl⟩
  · rw [advance_full ended room, advance_full (b := b.inMemory source i) ended room]
    exact ⟨rfl, shadowed⟩

theorem probe (h : b.Shadowed source g) (pattern : List Char)
    (reads : ¬ FailsToRead (b.probe pattern).1) :
    (g.probe pattern).1 = (b.probe pattern).1 ∧
      (b.probe pattern).2.Shadowed source (g.probe pattern).2 := by
  induction pattern generalizing b g with
  | nil => exact ⟨rfl, h⟩
  | cons expected pattern ih =>
    have moved := h.advance
    unfold Buffer.probe at reads ⊢
    generalize b.advance = here at moved reads ⊢
    generalize g.advance = there at moved ⊢
    obtain ⟨result, b'⟩ := here
    obtain ⟨result', g'⟩ := there
    cases result with
    | error e =>
      obtain ⟨reply, next⟩ :=
        moved fun fails => reads ((failsToRead_map (f := fun _ : Char => false)).mpr fails)
      cases reply
      exact ⟨rfl, next⟩
    | ok c =>
      obtain ⟨reply, next⟩ := moved (not_failsToRead_ok c)
      cases reply
      dsimp only at reads ⊢
      by_cases same : c = expected
      · rw [if_pos same] at reads ⊢
        rw [if_pos same]
        exact ih next reads
      · rw [if_neg same, if_neg same]
        exact ⟨rfl, next⟩

theorem startsWith (h : b.Shadowed source g) (pattern : String)
    (reads : ¬ FailsToRead (b.startsWith pattern).1) :
    (g.startsWith pattern).1 = (b.startsWith pattern).1 ∧
      (b.startsWith pattern).2.Shadowed source (g.startsWith pattern).2 := by
  have probed := h.probe pattern.toList
  unfold Buffer.startsWith at reads ⊢
  generalize b.probe pattern.toList = here at probed reads ⊢
  generalize g.probe pattern.toList = there at probed ⊢
  obtain ⟨result, b'⟩ := here
  obtain ⟨result', g'⟩ := there
  cases result with
  | error e =>
    obtain ⟨reply, next⟩ := probed reads
    cases reply
    exact ⟨rfl, next⟩
  | ok found =>
    obtain ⟨reply, next⟩ := probed (not_failsToRead_ok found)
    cases reply
    exact ⟨rfl, next.reset⟩

theorem rewind (h : b.Shadowed source g) (reads : ¬ FailsToRead b.rewind.1) :
    g.rewind.1 = b.rewind.1 ∧ b.rewind.2.Shadowed source g.rewind.2 := by
  obtain ⟨i, tells, rfl⟩ := h
  unfold Buffer.rewind at reads ⊢
  cases sought : Reader.toStart b.reader with
  | mk result r =>
    rw [sought] at reads
    cases result with
    | error cause => exact absurd ⟨cause, rfl⟩ reads
    | ok =>
      exact Shadowed.loadNear (b := b.restarted r) ⟨0, tells.toStart sought, rfl⟩ reads

theorem move (h : b.Shadowed source g) (m : Motion) (reads : ¬ FailsToRead (b.move m).1) :
    (g.move m).1 = (b.move m).1 ∧ (b.move m).2.Shadowed source (g.move m).2 := by
  cases m with
  | advance =>
    obtain ⟨reply, next⟩ := h.advance (mt failsToRead_map.mpr reads)
    exact ⟨congrArg (Except.map some) reply, next⟩
  | mark => exact ⟨rfl, h.mark⟩
  | reset => exact ⟨rfl, h.reset⟩
  | rewind =>
    obtain ⟨reply, next⟩ := h.rewind (mt failsToRead_map.mpr reads)
    exact ⟨congrArg (Except.map fun _ => none) reply, next⟩

theorem ask (h : b.Shadowed source g) (q : Question) (reads : ¬ (b.ask q).1.Fails) :
    (g.ask q).1 = (b.ask q).1 ∧ (b.ask q).2.Shadowed source (g.ask q).2 := by
  cases q with
  | move m =>
    obtain ⟨reply, next⟩ := h.move m reads
    exact ⟨congrArg Answer.moved reply, next⟩
  | startsWith pattern =>
    obtain ⟨reply, next⟩ := h.startsWith pattern reads
    exact ⟨congrArg Answer.found reply, next⟩

theorem interview (h : b.Shadowed source g) {questions : List Question}
    (reads : Unfailing (interview Buffer.ask Buffer.view b questions)) :
    Kaleidoscope.interview Buffer.ask Buffer.view b questions =
      Kaleidoscope.interview Buffer.ask Buffer.view g questions := by
  induction questions generalizing b g with
  | nil => rfl
  | cons q qs ih =>
    unfold Kaleidoscope.interview at reads ⊢
    obtain ⟨here, later⟩ := List.forall_mem_cons.mp reads
    obtain ⟨reply, next⟩ := h.ask q here
    rw [reply, next.view, ih next later]

end Shadowed

end

end Buffer

end Kaleidoscope
