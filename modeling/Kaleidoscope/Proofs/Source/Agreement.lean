import Kaleidoscope.Proofs.Source.Shadow
import Kaleidoscope.Source.Faulty

/-!
# Readers that agree

A buffer does not tell readers apart that answer all reads alike.
-/

namespace Kaleidoscope

/-- Readers that are related answer alike and stay related. -/
structure Reader.Bisimulation (ρ ρ' : Type) [Reader ρ] [Reader ρ'] where
  Related : ρ → ρ' → Prop
  read : ∀ {r next : ρ} {r' : ρ'} {n : Nat} {answer : Delivery}, Related r r' →
    Reader.read r n = (answer, next) → ∃ next', Reader.read r' n = (answer, next') ∧ Related next next'

namespace Reader

section
variable {ρ ρ' : Type} [Reader ρ] [Reader ρ'] {r : ρ} {r' : ρ'}

def deliveries (r : ρ) : List Nat → List Delivery
  | [] => []
  | n :: sizes => (read r n).1 :: deliveries (read r n).2 sizes

def Agree (r : ρ) (r' : ρ') : Prop := ∀ sizes, deliveries r sizes = deliveries r' sizes

def agreement (ρ ρ' : Type) [Reader ρ] [Reader ρ'] : Bisimulation ρ ρ' where
  Related := Agree
  read {r next r' n answer} agree found := by
    have same : (Reader.read r n).1 = (Reader.read r' n).1 := List.head_eq_of_cons_eq (agree [n])
    rw [found] at same
    refine ⟨_, Prod.ext same.symm rfl, fun sizes => ?_⟩
    have later : deliveries (Reader.read r n).2 sizes = deliveries (Reader.read r' n).2 sizes :=
      List.tail_eq_of_cons_eq (agree (n :: sizes))
    rwa [found] at later

theorem fill_eq (r : ρ) (room : Nat) (data : Array UInt8) :
    fill r room data =
      if room = 0 then ⟨data, none, r⟩
      else
        match Reader.read r room with
        | (.bytes piece, r') =>
          if piece.size = 0 then ⟨data, none, r'⟩ else fill r' (room - piece.size) (data ++ piece)
        | (.interrupted, r') => fill r' room data
        | (.failed cause, r') => ⟨data, some cause, r'⟩ := by
  fun_cases fill r room data with
  | case1 none => simp [none]
  | case2 some piece r' found _ empty => simp [some, found, empty]
  | case3 some piece r' found _ more => simp [some, found, more]
  | case4 some r' found => simp [some, found]
  | case5 some cause r' found => simp [some, found]

theorem Bisimulation.fill (R : Bisimulation ρ ρ') (h : R.Related r r') (room : Nat) (data : Array UInt8) :
    (Reader.fill r room data).data = (Reader.fill r' room data).data ∧
      (Reader.fill r room data).failure = (Reader.fill r' room data).failure ∧
      R.Related (Reader.fill r room data).reader (Reader.fill r' room data).reader := by
  fun_induction Reader.fill r room data generalizing r' with
  | case1 r data =>
    rw [fill_eq r']
    exact ⟨rfl, rfl, h⟩
  | case2 r room data some piece r₁ found _ empty =>
    obtain ⟨r₁', there, next⟩ := R.read h found
    rw [fill_eq r', if_neg some, there]
    simp only [if_pos empty]
    exact ⟨trivial, trivial, next⟩
  | case3 r room data some piece r₁ found _ more ih =>
    obtain ⟨r₁', there, next⟩ := R.read h found
    rw [fill_eq r', if_neg some, there]
    simp only [if_neg more]
    exact ih next
  | case4 r room data some r₁ found _ ih =>
    obtain ⟨r₁', there, next⟩ := R.read h found
    rw [fill_eq r', if_neg some, there]
    exact ih next
  | case5 r room data some cause r₁ found =>
    obtain ⟨r₁', there, next⟩ := R.read h found
    rw [fill_eq r', if_neg some, there]
    exact ⟨rfl, rfl, next⟩

end

end Reader

theorem Chunk.load_agree {ρ ρ' : Type} [Reader ρ] [Reader ρ'] {r r₁ : ρ} {r' : ρ'} {c c₁ : Chunk}
    {stamp : Fin 3} {result : Except SystemError Unit} (R : Reader.Bisimulation ρ ρ') (h : R.Related r r')
    (loaded : c.load stamp r = (result, c₁, r₁)) :
    ∃ r₁', c.load stamp r' = (result, c₁, r₁') ∧ R.Related r₁ r₁' := by
  obtain ⟨data, failure, next⟩ := R.fill h chunkSize #[]
  unfold Chunk.load at loaded ⊢
  dsimp only at loaded ⊢
  rw [← data, ← failure]
  cases failed : (Reader.fill r chunkSize #[]).failure with
  | none =>
    rw [failed] at loaded
    cases loaded
    exact ⟨_, rfl, next⟩
  | some cause =>
    rw [failed] at loaded
    cases loaded
    exact ⟨_, rfl, next⟩

namespace Buffer

section
variable {ρ ρ' : Type}

def withReader (b : Buffer ρ) (r : ρ') : Buffer ρ' := { b with reader := r }

variable [Reader ρ] [Reader ρ']

def Agrees (b : Buffer ρ) (R : Reader.Bisimulation ρ ρ') (b' : Buffer ρ') : Prop :=
  ∃ r', R.Related b.reader r' ∧ b' = b.withReader r'

variable {R : Reader.Bisimulation ρ ρ'} {b next : Buffer ρ} {b' : Buffer ρ'}

theorem agrees_withReader {r' : ρ'} (h : R.Related b.reader r') : b.Agrees R (b.withReader r') :=
  ⟨r', h, rfl⟩

namespace Agrees

theorem peek (h : b.Agrees R b') : b'.peek = b.peek := by
  obtain ⟨r', -, rfl⟩ := h
  rfl

theorem atEnd_iff (h : b.Agrees R b') : b'.AtEnd ↔ b.AtEnd := by
  obtain ⟨r', -, rfl⟩ := h
  rfl

theorem lexeme (h : b.Agrees R b') : b'.lexeme = b.lexeme := by
  obtain ⟨r', -, rfl⟩ := h
  rfl

theorem startPos (h : b.Agrees R b') : b'.startPos = b.startPos := by
  obtain ⟨r', -, rfl⟩ := h
  rfl

theorem malformed (h : b.Agrees R b') : b'.malformed = b.malformed := by
  obtain ⟨r', -, rfl⟩ := h
  rfl

theorem mark (h : b.Agrees R b') : b.mark.Agrees R b'.mark := by
  obtain ⟨r', agree, rfl⟩ := h
  exact ⟨r', agree, rfl⟩

theorem reset (h : b.Agrees R b') : b.reset.Agrees R b'.reset := by
  obtain ⟨r', agree, rfl⟩ := h
  exact ⟨r', agree, rfl⟩

/-! ### Moving on -/

theorem loadFar (h : b.Agrees R b') {answer : Except ScanError Unit}
    (loaded : b.loadFar = (answer, next)) :
    ∃ next', b'.loadFar = (answer, next') ∧ next.Agrees R next' := by
  obtain ⟨r', agree, rfl⟩ := h
  by_cases follows : b.far.Follows b.near
  · rw [loadFar_of_follows follows] at loaded
    cases loaded
    exact ⟨_, loadFar_of_follows (b := b.withReader r') follows, agrees_withReader agree⟩
  · cases read : b.far.load b.near.nextStamp b.reader with
    | mk result rest =>
      obtain ⟨c, r⟩ := rest
      obtain ⟨r₁', there, agree₁⟩ := Chunk.load_agree R agree read
      cases result with
      | ok =>
        rw [loadFar_ok follows read] at loaded
        cases loaded
        exact ⟨_, loadFar_ok (b := b.withReader r') follows there, r₁', agree₁, rfl⟩
      | error cause =>
        rw [loadFar_error follows read] at loaded
        cases loaded
        exact ⟨_, loadFar_error (b := b.withReader r') follows there, r₁', agree₁, rfl⟩

theorem advance (h : b.Agrees R b') {answer : Except ScanError Char}
    (moved : b.advance = (answer, next)) :
    ∃ next', b'.advance = (answer, next') ∧ next.Agrees R next' := by
  obtain ⟨r', agree, rfl⟩ := h
  by_cases ended : b.AtEnd
  · rw [advance_atEnd ended] at moved
    cases moved
    exact ⟨_, advance_atEnd (b := b.withReader r') ended, agrees_withReader agree⟩
  by_cases room : b.extent < maxLexeme
  · by_cases crosses : b.cursor + 1 = chunkSize
    · cases loaded : (b.step b.peek room).loadFar with
      | mk result b₁ =>
        rw [advance_crossing ended room crosses loaded] at moved
        cases moved
        have stepped : (b.step b.peek room).Agrees R ((b.withReader r').step b.peek room) :=
          ⟨r', agree, rfl⟩
        obtain ⟨b₁', there, next⟩ := stepped.loadFar loaded
        exact ⟨b₁', advance_crossing (b := b.withReader r') ended room crosses there, next⟩
    · -- a move inside a chunk does not ask the reader
      rw [advance_inside ended room crosses] at moved
      cases moved
      exact ⟨_, advance_inside (b := b.withReader r') ended room crosses, r', agree, rfl⟩
  · rw [advance_full ended room] at moved
    cases moved
    exact ⟨_, advance_full (b := b.withReader r') ended room, agrees_withReader agree⟩

theorem probe {pattern : List Char} (h : b.Agrees R b') {answer : Except ScanError Bool}
    (found : b.probe pattern = (answer, next)) :
    ∃ next', b'.probe pattern = (answer, next') ∧ next.Agrees R next' := by
  induction pattern generalizing b b' with
  | nil =>
    cases found
    exact ⟨b', rfl, h⟩
  | cons expected pattern ih =>
    unfold Buffer.probe at found ⊢
    cases moved : b.advance with
    | mk result b₁ =>
      obtain ⟨b₁', there, agrees⟩ := h.advance moved
      rw [moved] at found
      rw [there]
      cases result with
      | error e =>
        cases found
        exact ⟨b₁', rfl, agrees⟩
      | ok c =>
        dsimp only at found ⊢
        by_cases same : c = expected
        · rw [if_pos same] at found ⊢
          exact ih agrees found
        · rw [if_neg same] at found ⊢
          cases found
          exact ⟨b₁', rfl, agrees⟩

theorem startsWith {pattern : String} (h : b.Agrees R b') {answer : Except ScanError Bool}
    (found : b.startsWith pattern = (answer, next)) :
    ∃ next', b'.startsWith pattern = (answer, next') ∧ next.Agrees R next' := by
  unfold Buffer.startsWith at found ⊢
  cases probed : b.probe pattern.toList with
  | mk result b₁ =>
    obtain ⟨b₁', there, agrees⟩ := h.probe probed
    rw [probed] at found
    rw [there]
    cases result with
    | error e =>
      cases found
      exact ⟨b₁', rfl, agrees⟩
    | ok yes =>
      cases found
      exact ⟨_, rfl, agrees.reset⟩

end Agrees

theorem agrees_new {r : ρ} {r' : ρ'} {name : String} (h : R.Related r r') (opened : Buffer.new r name = .ok b) :
    ∃ b', Buffer.new r' name = .ok b' ∧ b.Agrees R b' := by
  unfold Buffer.new loadNear at opened ⊢
  dsimp only at opened ⊢
  cases read : Chunk.blank.load Chunk.blank.nextStamp r with
  | mk result rest =>
    obtain ⟨c, r₁⟩ := rest
    obtain ⟨r₁', there, next⟩ := Chunk.load_agree R h read
    rw [read] at opened
    rw [there]
    cases result with
    | error cause => cases opened
    | ok =>
      cases opened
      exact ⟨_, rfl, r₁', next, rfl⟩

end

end Buffer

/-! ## A reader that cannot go back -/

namespace FaultyReader

/-- Everything can be read, but only once. -/
def seekless : Faults := ⟨none, 0, none, true⟩

theorem read_seekless {r : FaultyReader} (faults : r.faults = seekless) (n : Nat) :
    r.read n = (.bytes (r.source.read n).1,
      { r with calls := r.calls + 1, source := (r.source.read n).2 }) := by
  have steady : ¬ Interrupts r.faults (r.calls + 1) := by
    rw [faults]
    exact fun interrupts => absurd interrupts.1 (by decide)
  have none : r.barrier? = none := by
    unfold barrier?
    rw [faults]
    split <;> rfl
  have safe : ¬ r.AtBarrier := by
    rintro ⟨stop, mem, -⟩
    rw [none] at mem
    cases mem
  have whole : r.allowed n = n := by
    unfold allowed
    rw [none, faults]
    simp [seekless]
  unfold read
  simp only [if_neg steady, if_neg safe, whole]

def inMemory : Reader.Bisimulation ByteReader FaultyReader where
  Related r r' := r'.source = r ∧ r'.faults = seekless
  read {r next r' n answer} related found := by
    obtain ⟨rfl, faults⟩ := related
    cases found
    exact ⟨_, read_seekless faults n, rfl, faults⟩

end FaultyReader

end Kaleidoscope
