import Kaleidoscope.Proofs.Source.Blocks
import Kaleidoscope.Session

/-!
# Where the slices of a buffer lie

A session goes on after errors, so a chunk that could not be loaded can come to be read. It is full,
ends the source or holds nothing. Only in one that holds nothing does a cursor pass the length, and
only a lexeme that starts there and runs over the chunk has no text.
-/

namespace Kaleidoscope

/-! ## Sessions on a buffer -/

inductive Operation (ρ : Type)
  | move (m : Motion)
  | startsWith (pattern : String)
  | reopen (path : String) (opened : Except SystemError ρ)

namespace Buffer

variable {ρ : Type} [Reader ρ]

def perform (b : Buffer ρ) : Operation ρ → Except ScanError Unit × Buffer ρ
  | .move m => ((b.move m).1.map fun _ => (), (b.move m).2)
  | .startsWith pattern => ((b.startsWith pattern).1.map fun _ => (), (b.startsWith pattern).2)
  | .reopen path opened => ((b.reopen path opened).result, (b.reopen path opened).state)

def performAll (b : Buffer ρ) (ops : List (Operation ρ)) : Buffer ρ :=
  ops.foldl (fun b op => (b.perform op).2) b

def replies (b : Buffer ρ) : List (Operation ρ) → List (Except ScanError Unit)
  | [] => []
  | op :: ops => (b.perform op).1 :: replies (b.perform op).2 ops

end Buffer

/-! ## Chunks -/

namespace Chunk

/-- The chunk was never loaded, or dropped and not loaded since. -/
def Unloaded (c : Chunk) : Prop := c.length = 0 ∧ c.last = false

/-- A chunk that is not full is the last one or holds nothing. -/
structure Regular (c : Chunk) : Prop where
  length_le : c.length ≤ chunkSize
  short : c.length < chunkSize → c.last = true ∨ c.length = 0

def Reaches (c : Chunk) (i : Nat) : Prop := i ≤ c.length ∨ c.Unloaded

theorem reaches_zero (c : Chunk) : c.Reaches 0 := .inl (Nat.zero_le _)

theorem unloaded_drop (c : Chunk) : c.drop.Unloaded := ⟨rfl, rfl⟩

theorem regular_of_unloaded {c : Chunk} (h : c.Unloaded) : c.Regular where
  length_le := by rw [h.1]; exact Nat.zero_le _
  short _ := .inr h.1

theorem Regular.reaches_succ {c : Chunk} {i : Nat} (h : c.Regular) (here : c.Reaches i)
    (more : ¬ c.EndsAt i) (lt : i < chunkSize) : c.Reaches (i + 1) := by
  rcases here with le | unloaded
  · by_cases inside : i < c.length
    · exact .inl inside
    -- A chunk that is read up to its length and does not end there holds nothing.
    · have length : c.length = i := by omega
      have notLast : c.last ≠ true := fun last => more ⟨last, by omega⟩
      have empty := (h.short (by omega)).resolve_left notLast
      exact .inr ⟨empty, Bool.eq_false_iff.mpr notLast⟩
  · exact .inr unloaded

section
variable {ρ : Type} [Reader ρ] {c c' : Chunk} {stamp : Fin 3} {r r' : ρ}

theorem load_ok (h : c.load stamp r = (.ok (), c', r')) :
    c'.Regular ∧ ¬ c'.Unloaded ∧ c'.stamp = stamp := by
  have size := (Reader.fill_size r chunkSize #[]).1
  simp only [load] at h
  split at h
  · cases h
  · cases h
    simp only [Array.size_empty, Nat.zero_add] at size
    refine ⟨⟨size, fun short => .inl (by simpa using short)⟩, ?_, rfl⟩
    rintro ⟨empty, notLast⟩
    simp only [decide_eq_false_iff_not] at notLast empty
    rw [empty] at notLast
    exact notLast (by decide)

theorem load_error {cause : SystemError} (h : c.load stamp r = (.error cause, c', r')) :
    c'.length = c.length ∧ c'.last = c.last := by
  simp only [load] at h
  split at h
  · cases h
    exact ⟨rfl, rfl⟩
  · cases h

theorem Regular.load (h : c.Regular) (stamp : Fin 3) (r : ρ) :
    (c.load stamp r).2.1.Regular := by
  cases loaded : c.load stamp r with
  | mk result rest =>
    obtain ⟨c', r'⟩ := rest
    cases result with
    | ok => exact (load_ok loaded).1
    | error cause =>
      obtain ⟨length, last⟩ := load_error loaded
      exact ⟨length ▸ h.length_le, fun short => by
        rw [length] at short ⊢
        rw [last]
        exact h.short short⟩

end

end Chunk

/-! ## Buffers -/

namespace Buffer

variable {ρ : Type}

structure Bounded (b : Buffer ρ) : Prop where
  near : b.near.Regular
  far : b.far.Regular
  start : b.near.Reaches b.start
  index : b.chunk.Reaches b.index

namespace Bounded

variable {b : Buffer ρ}

theorem chunk (h : b.Bounded) : b.chunk.Regular := by
  unfold Buffer.chunk
  split
  · exact h.near
  · exact h.far

theorem otherChunk (h : b.Bounded) : b.otherChunk.Regular := by
  unfold Buffer.otherChunk
  split
  · exact h.far
  · exact h.near

theorem of_committed (near : b.near.Regular) (far : b.far.Regular) (start : b.near.Reaches b.start)
    (committed : b.extent = 0) : b.Bounded where
  near := near
  far := far
  start := start
  index := by
    have cursor : b.cursor = b.start := by rw [cursor, committed, Nat.add_zero]
    unfold Buffer.chunk Buffer.index
    rwa [cursor, if_pos b.start_lt, if_pos b.start_lt]

theorem mark (h : b.Bounded) : b.mark.Bounded :=
  of_committed h.chunk h.otherChunk h.index rfl

theorem reset (h : b.Bounded) : b.reset.Bounded :=
  of_committed h.near h.far h.start rfl

/-- The text of a lexeme is missing if the lexeme runs over a chunk that holds nothing and starts
behind the beginning of it, and only then. -/
theorem lexeme?_eq_none (h : b.Bounded) :
    b.lexeme? = none ↔ chunkSize ≤ b.cursor ∧ 0 < b.start ∧ b.near.Unloaded := by
  unfold Buffer.lexeme?
  by_cases stays : b.cursor < chunkSize
  · rw [if_pos stays]
    refine ⟨nofun, ?_⟩
    rintro ⟨beyond, -⟩
    omega
  · rw [if_neg stays]
    by_cases reached : b.start ≤ b.near.length
    · rw [if_pos reached]
      refine ⟨nofun, ?_⟩
      rintro ⟨-, some, empty, -⟩
      omega
    · rw [if_neg reached]
      refine ⟨fun _ => ⟨Nat.le_of_not_lt stays, by omega, h.start.resolve_left reached⟩, fun _ => rfl⟩

end Bounded

variable [Reader ρ] {b : Buffer ρ}

/-! ### Loading -/

theorem loadFar_eq (b : Buffer ρ) :
    b.loadFar.2.near = b.near ∧ b.loadFar.2.start = b.start ∧ b.loadFar.2.extent = b.extent := by
  unfold loadFar
  split
  · exact ⟨rfl, rfl, rfl⟩
  · split <;> exact ⟨rfl, rfl, rfl⟩

theorem regular_loadFar (h : b.far.Regular) : b.loadFar.2.far.Regular := by
  have loaded := h.load b.near.nextStamp b.reader
  unfold loadFar
  split
  · exact h
  · split <;> (rename_i eq; rw [eq] at loaded; exact loaded)

theorem bounded_loadNear (near : b.near.Regular) (far : b.far.Regular) (start : b.start = 0)
    (committed : b.extent = 0) : b.loadNear.2.Bounded := by
  have loaded := near.load b.near.nextStamp b.reader
  unfold loadNear
  split <;> (rename_i eq; rw [eq] at loaded)
  all_goals
    refine Bounded.of_committed loaded far ?_ committed
    simp only [start]
    exact Chunk.reaches_zero _

/-- Moving on stays where it is, passes a character of the cursor's chunk, or comes to the far
chunk. -/
theorem advance_cases (b : Buffer ρ) :
    b.advance.2 = b ∨
      (∃ room, ¬ b.AtEnd ∧ (b.step b.peek room).cursor ≠ chunkSize ∧
        b.advance = (.ok b.peek, b.step b.peek room)) ∨
      ∃ room, (b.step b.peek room).cursor = chunkSize ∧
        b.advance.1 = ((b.step b.peek room).loadFar.1.map fun _ => b.peek) ∧
        b.advance.2 = (b.step b.peek room).loadFar.2 := by
  unfold Buffer.advance
  by_cases ended : b.AtEnd
  · rw [if_pos ended]
    exact .inl rfl
  rw [if_neg ended]
  by_cases room : b.extent < maxLexeme
  · simp only [dif_pos room]
    by_cases crosses : (b.step b.peek room).cursor = chunkSize
    · rw [if_pos crosses]
      refine .inr (.inr ⟨room, crosses, ?_⟩)
      cases (b.step b.peek room).loadFar with
      | mk result b' => cases result <;> exact ⟨rfl, rfl⟩
    · rw [if_neg crosses]
      exact .inr (.inl ⟨room, ended, crosses, rfl⟩)
  · rw [dif_neg room]
    exact .inl rfl

/-! ### What every operation keeps -/

omit [Reader ρ] in
theorem Bounded.step (h : b.Bounded) (room : b.extent < maxLexeme) (more : ¬ b.AtEnd)
    (stays : (b.step b.peek room).cursor ≠ chunkSize) : (b.step b.peek room).Bounded := by
  have next := h.chunk.reaches_succ h.index more b.index_lt
  have cursor : (b.step b.peek room).cursor = b.cursor + 1 := rfl
  refine ⟨h.near, h.far, h.start, ?_⟩
  -- The cursor stays in its chunk.
  unfold Buffer.chunk Buffer.index at next ⊢
  rw [cursor] at stays ⊢
  by_cases inside : b.cursor < chunkSize
  · rw [if_pos inside, if_pos inside] at next
    rw [if_pos (by omega), if_pos (by omega)]
    exact next
  · rw [if_neg inside, if_neg inside, ← Nat.sub_add_comm (by omega)] at next
    rw [if_neg (by omega), if_neg (by omega)]
    exact next

/-- A cursor that comes to the far chunk stands at its beginning. -/
theorem Bounded.loadFar (near : b.near.Regular) (far : b.far.Regular)
    (start : b.near.Reaches b.start) (crosses : b.cursor = chunkSize) : b.loadFar.2.Bounded := by
  obtain ⟨near', start', extent'⟩ := loadFar_eq b
  have here : b.loadFar.2.cursor = chunkSize := by
    rw [cursor, start', extent']
    exact crosses
  refine ⟨near' ▸ near, regular_loadFar far, ?_, ?_⟩
  · rw [near', start']
    exact start
  · rw [Buffer.index, if_neg (by omega), here, Nat.sub_self]
    exact Chunk.reaches_zero _

theorem Bounded.advance (h : b.Bounded) : b.advance.2.Bounded := by
  rcases b.advance_cases with stuck | ⟨room, more, stays, moved⟩ | ⟨room, crosses, -, loaded⟩
  · rw [stuck]
    exact h
  · rw [moved]
    exact h.step room more stays
  · rw [loaded]
    exact .loadFar (b := b.step b.peek room) h.near h.far h.start crosses

theorem probe_keeps {P : Buffer ρ → Prop} (advance : ∀ {b : Buffer ρ}, P b → P b.advance.2) (h : P b)
    (pattern : List Char) : P (b.probe pattern).2 := by
  induction pattern generalizing b with
  | nil => exact h
  | cons expected pattern ih =>
    have moved := advance h
    unfold Buffer.probe
    generalize b.advance = advanced at moved ⊢
    obtain ⟨result, b'⟩ := advanced
    cases result with
    | error e => exact moved
    | ok c =>
      dsimp only
      split
      · exact ih moved
      · exact moved

theorem startsWith_keeps {P : Buffer ρ → Prop} (advance : ∀ {b : Buffer ρ}, P b → P b.advance.2)
    (reset : ∀ {b : Buffer ρ}, P b → P b.reset) (h : P b) (pattern : String) :
    P (b.startsWith pattern).2 := by
  have probed := probe_keeps advance h pattern.toList
  unfold Buffer.startsWith
  generalize b.probe pattern.toList = found at probed ⊢
  obtain ⟨result, b'⟩ := found
  cases result with
  | ok => exact reset probed
  | error => exact probed

theorem Bounded.startsWith (h : b.Bounded) (pattern : String) :
    (b.startsWith pattern).2.Bounded :=
  startsWith_keeps (P := Bounded) Bounded.advance Bounded.reset h pattern

theorem Bounded.rewind (h : b.Bounded) : b.rewind.2.Bounded := by
  unfold Buffer.rewind
  split
  · exact ⟨h.near, h.far, h.start, h.index⟩
  · rename_i reader _
    exact bounded_loadNear (b := b.restarted reader)
      (Chunk.regular_of_unloaded (Chunk.unloaded_drop _))
      (Chunk.regular_of_unloaded (Chunk.unloaded_drop _)) rfl rfl

theorem Bounded.perform (h : b.Bounded) (op : Operation ρ) : (b.perform op).2.Bounded := by
  cases op with
  | move m =>
    cases m with
    | advance => exact h.advance
    | mark => exact h.mark
    | reset => exact h.reset
    | rewind => exact h.rewind
  | startsWith pattern => exact h.startsWith pattern
  | reopen path opened =>
    cases opened with
    | ok reader => exact rewind (b := { b with reader := reader, name := path }) ⟨h.1, h.2, h.3, h.4⟩
    | error cause => exact h

theorem performAll_keeps {P : Buffer ρ → Prop}
    (perform : ∀ {b : Buffer ρ} (op : Operation ρ), P b → P (b.perform op).2) (h : P b)
    (ops : List (Operation ρ)) : P (b.performAll ops) := by
  induction ops generalizing b with
  | nil => exact h
  | cons op ops ih => exact ih (perform op h)

theorem Bounded.performAll (h : b.Bounded) (ops : List (Operation ρ)) :
    (b.performAll ops).Bounded :=
  performAll_keeps (P := Bounded) (fun op h => h.perform op) h ops

/-! ## Sessions without failures -/

def FailsToRead {α : Type} (result : Except ScanError α) : Prop :=
  ∃ cause, result = .error (.cannotRead cause)

omit [Reader ρ] in
theorem not_failsToRead_ok {α : Type} (a : α) : ¬ FailsToRead (.ok a) := nofun

omit [Reader ρ] in
theorem failsToRead_map {α β : Type} {f : α → β} {result : Except ScanError α} :
    FailsToRead (result.map f) ↔ FailsToRead result := by
  cases result with
  | ok => exact ⟨nofun, nofun⟩
  | error e => exact ⟨fun ⟨cause, h⟩ => ⟨cause, by cases h; rfl⟩, fun ⟨cause, h⟩ => ⟨cause, by cases h; rfl⟩⟩

/-- The near chunk is loaded. A far chunk that is not cannot be taken for the one that follows, and
the cursor has not come to it. -/
structure Ready (b : Buffer ρ) : Prop where
  near : ¬ b.near.Unloaded
  stamps : b.far.Unloaded → b.far.stamp = 0 ∧ b.near.stamp = 1
  inside : b.far.Unloaded → b.cursor < chunkSize

section
omit [Reader ρ]

theorem Ready.of_loaded (near : ¬ b.near.Unloaded) (far : ¬ b.far.Unloaded) : b.Ready :=
  ⟨near, fun empty => absurd empty far, fun empty => absurd empty far⟩

theorem Ready.reset (h : b.Ready) : b.reset.Ready where
  near := h.near
  stamps := h.stamps
  inside _ := b.start_lt

theorem Ready.mark (h : b.Ready) : b.mark.Ready := by
  by_cases stays : b.cursor < chunkSize
  · have near : b.mark.near = b.near := if_pos stays
    have far : b.mark.far = b.far := if_pos stays
    refine ⟨near ▸ h.near, ?_, fun _ => b.index_lt⟩
    rw [near, far]
    exact h.stamps
  · have near : b.mark.near = b.far := if_neg stays
    have far : b.mark.far = b.near := if_neg stays
    have loaded : ¬ b.far.Unloaded := mt h.inside stays
    exact .of_loaded (near ▸ loaded) (far ▸ h.near)

end

theorem Ready.loadFar (near : ¬ b.near.Unloaded)
    (stamps : b.far.Unloaded → b.far.stamp = 0 ∧ b.near.stamp = 1)
    (reads : ¬ FailsToRead b.loadFar.1) : b.loadFar.2.Ready := by
  unfold Buffer.loadFar at reads ⊢
  by_cases follows : b.far.Follows b.near
  · rw [if_pos follows]
    refine .of_loaded near fun empty => ?_
    -- The stamp behind the first one is not that of a chunk without a load.
    obtain ⟨unstamped, first⟩ := stamps empty
    rw [Chunk.Follows, Chunk.nextStamp, unstamped, first] at follows
    exact absurd follows (by decide)
  · rw [if_neg follows] at reads ⊢
    cases loaded : b.far.load b.near.nextStamp b.reader with
    | mk result rest =>
      rw [loaded] at reads
      cases result with
      | ok => exact .of_loaded near (Chunk.load_ok loaded).2.1
      | error cause => exact absurd ⟨cause, rfl⟩ reads

theorem Ready.advance (h : b.Ready) (reads : ¬ FailsToRead b.advance.1) :
    b.advance.2.Ready := by
  rcases b.advance_cases with stuck | ⟨room, -, stays, moved⟩ | ⟨room, -, result, loaded⟩
  · rw [stuck]
    exact h
  · rw [moved]
    refine ⟨h.near, h.stamps, fun empty => ?_⟩
    have inside := h.inside empty
    have cursor : (b.step b.peek room).cursor = b.cursor + 1 := rfl
    rw [cursor] at stays ⊢
    omega
  · rw [loaded]
    rw [result, failsToRead_map] at reads
    exact .loadFar (b := b.step b.peek room) h.near h.stamps reads

theorem Ready.probe (h : b.Ready) (pattern : List Char)
    (reads : ¬ FailsToRead (b.probe pattern).1) :
    (b.probe pattern).2.Ready := by
  induction pattern generalizing b with
  | nil => exact h
  | cons expected pattern ih =>
    have moved := h.advance
    unfold Buffer.probe at reads ⊢
    generalize b.advance = advanced at moved reads ⊢
    obtain ⟨result, b'⟩ := advanced
    cases result with
    | error e =>
      exact moved fun failed => reads ((failsToRead_map (f := fun _ : Char => false)).mpr failed)
    | ok c =>
      have ready := moved (not_failsToRead_ok c)
      dsimp only at reads ⊢
      by_cases same : c = expected
      · rw [if_pos same] at reads ⊢
        exact ih ready reads
      · rw [if_neg same]
        exact ready

theorem Ready.startsWith (h : b.Ready) (pattern : String)
    (reads : ¬ FailsToRead (b.startsWith pattern).1) :
    (b.startsWith pattern).2.Ready := by
  have probed := h.probe pattern.toList
  unfold Buffer.startsWith at reads ⊢
  generalize b.probe pattern.toList = found at probed reads ⊢
  obtain ⟨result, b'⟩ := found
  cases result with
  | ok => exact (probed (not_failsToRead_ok _)).reset
  | error e => exact probed reads

/-- A first chunk that is loaded has the stamp behind that of a chunk which is not. -/
theorem ready_loadNear (near : b.near.stamp = 0) (far : b.far.stamp = 0) (committed : b.extent = 0)
    (reads : ¬ FailsToRead b.loadNear.1) : b.loadNear.2.Ready := by
  unfold loadNear at reads ⊢
  cases loaded : b.near.load b.near.nextStamp b.reader with
  | mk result rest =>
    rw [loaded] at reads
    cases result with
    | error cause => exact absurd ⟨cause, rfl⟩ reads
    | ok =>
      obtain ⟨-, some, stamp⟩ := Chunk.load_ok loaded
      refine ⟨some, fun _ => ⟨far, ?_⟩, fun _ => ?_⟩
      · rw [stamp, Chunk.nextStamp, near]
        rfl
      · show b.start + b.extent < chunkSize
        rw [committed]
        exact b.start_lt

theorem ready_rewind (reads : ¬ FailsToRead b.rewind.1) :
    b.rewind.2.Ready := by
  unfold Buffer.rewind at reads ⊢
  cases sought : Reader.toStart b.reader with
  | mk result reader =>
    rw [sought] at reads
    cases result with
    | error cause => exact absurd ⟨cause, rfl⟩ reads
    | ok => exact ready_loadNear (b := b.restarted reader) rfl rfl rfl reads

theorem Ready.perform (h : b.Ready) (op : Operation ρ)
    (reads : ¬ FailsToRead (b.perform op).1) : (b.perform op).2.Ready := by
  cases op with
  | move m =>
    have moves := mt failsToRead_map.mpr reads
    cases m with
    | advance => exact h.advance (mt failsToRead_map.mpr moves)
    | mark => exact h.mark
    | reset => exact h.reset
    | rewind => exact ready_rewind (mt failsToRead_map.mpr moves)
  | startsWith pattern => exact h.startsWith pattern (mt failsToRead_map.mpr reads)
  | reopen path opened =>
    cases opened with
    | ok reader => exact ready_rewind (b := { b with reader := reader, name := path }) reads
    | error cause => exact h

theorem Ready.performAll (h : b.Ready) (ops : List (Operation ρ))
    (reads : ∀ reply ∈ b.replies ops, ¬ FailsToRead reply) :
    (b.performAll ops).Ready := by
  induction ops generalizing b with
  | nil => exact h
  | cons op ops ih =>
    have here := h.perform op (reads _ List.mem_cons_self)
    exact ih here fun reply mem => reads reply (List.mem_cons_of_mem _ mem)

/-! ## Past a chunk that holds nothing -/

def skips (n : Nat) : List (Operation ρ) :=
  (List.replicate n [.move .advance, .move .mark]).flatten

theorem advance_unloaded (empty : b.near.Unloaded) (committed : b.extent = 0) :
    ∃ room, b.advance.2 = if b.start + 1 = chunkSize then (b.step b.peek room).loadFar.2
      else b.step b.peek room := by
  have inside : b.cursor < chunkSize := by
    rw [cursor, committed]
    exact b.start_lt
  have more : ¬ b.AtEnd := by
    rintro ⟨last, -⟩
    rw [chunk, if_pos inside, empty.2] at last
    cases last
  have room : b.extent < maxLexeme := by
    rw [committed]
    decide
  have moved : (b.step b.peek room).cursor = b.start + 1 := by
    show b.start + (b.extent + 1) = _
    rw [committed]
  refine ⟨room, ?_⟩
  unfold advance
  simp only [if_neg more, dif_pos room, moved]
  split
  · cases (b.step b.peek room).loadFar with
    | mk result b' => cases result <;> rfl
  · rfl

theorem performAll_reopen {r r' : ρ} (sought : Reader.toStart r = (.ok (), r')) (b : Buffer ρ)
    (path : String) (ops : List (Operation ρ)) :
    b.performAll (.reopen path (.ok r) :: ops) =
      (({ b with reader := r, name := path } : Buffer ρ).restarted r').loadNear.2.performAll ops := by
  have reopened : (b.perform (.reopen path (.ok r))).2 =
      ({ b with reader := r, name := path } : Buffer ρ).rewind.2 := rfl
  rw [performAll, List.foldl_cons, reopened, rewind, sought]
  rfl

theorem performAll_advance (b : Buffer ρ) : b.performAll [.move .advance] = b.advance.2 := rfl

theorem performAll_append (b : Buffer ρ) (ops ops' : List (Operation ρ)) :
    b.performAll (ops ++ ops') = (b.performAll ops).performAll ops' :=
  List.foldl_append

theorem performAll_skips {n : Nat} (empty : b.near.Unloaded) (committed : b.extent = 0)
    (inside : b.start + n < chunkSize) :
    (b.performAll (skips n)).near.Unloaded ∧ (b.performAll (skips n)).start = b.start + n ∧
      (b.performAll (skips n)).extent = 0 := by
  induction n generalizing b with
  | zero => exact ⟨empty, rfl, committed⟩
  | succ n ih =>
    obtain ⟨room, moved⟩ := advance_unloaded empty committed
    rw [if_neg (by omega)] at moved
    have stays : (b.step b.peek room).cursor < chunkSize := by
      show b.start + (b.extent + 1) < chunkSize
      omega
    -- Each character is committed, so the lexeme never leaves the near chunk.
    have near : b.advance.2.mark.near = b.near := by
      rw [moved]
      exact if_pos stays
    have start : b.advance.2.mark.start = b.start + 1 := by
      rw [moved]
      refine (if_pos stays).trans ?_
      show b.start + (b.extent + 1) = _
      omega
    obtain ⟨empty', start', committed'⟩ :=
      ih (b := b.advance.2.mark) (near ▸ empty) rfl (by rw [start]; omega)
    refine ⟨empty', ?_, committed'⟩
    show (b.advance.2.mark.performAll (skips n)).start = _
    rw [start', start]
    omega

theorem unloaded_loadNear (empty : b.near.Unloaded) (fails : FailsToRead b.loadNear.1) :
    b.loadNear.2.near.Unloaded ∧ b.loadNear.2.start = b.start ∧
      b.loadNear.2.extent = b.extent := by
  unfold loadNear at fails ⊢
  cases loaded : b.near.load b.near.nextStamp b.reader with
  | mk result rest =>
    rw [loaded] at fails
    cases result with
    | ok => exact absurd fails (not_failsToRead_ok ())
    | error cause =>
      obtain ⟨length, last⟩ := Chunk.load_error loaded
      exact ⟨⟨length.trans empty.1, last.trans empty.2⟩, rfl, rfl⟩

theorem loadNear_fails {cause : SystemError}
    (unread : (Reader.fill b.reader chunkSize #[]).failure = some cause) :
    FailsToRead b.loadNear.1 := by
  refine ⟨cause, ?_⟩
  unfold loadNear Chunk.load
  simp only [unread]

/-- A session that goes on after it was taken to a source, and passes as many characters before its
lexeme starts as a chunk has besides the last one. -/
def pastFirstChunk (path : String) (r : ρ) : List (Operation ρ) :=
  .reopen path (.ok r) :: (skips (chunkSize - 1) ++ [.move .advance])

omit [Reader ρ] in
theorem step_eq (b : Buffer ρ) (c : Char) (room : b.extent < maxLexeme) :
    (b.step c room).near = b.near ∧ (b.step c room).start = b.start ∧
      (b.step c room).extent = b.extent + 1 :=
  ⟨rfl, rfl, rfl⟩

/-- If the source cannot be read, nothing ends there. -/
theorem performAll_pastFirstChunk {r r' : ρ} {cause : SystemError}
    (sought : Reader.toStart r = (.ok (), r'))
    (unread : (Reader.fill r' chunkSize #[]).failure = some cause) (b : Buffer ρ) (path : String) :
    (b.performAll (pastFirstChunk path r)).cursor = chunkSize ∧
      (b.performAll (pastFirstChunk path r)).start = chunkSize - 1 ∧
      (b.performAll (pastFirstChunk path r)).near.Unloaded := by
  rw [pastFirstChunk, performAll_reopen sought, performAll_append]
  obtain ⟨empty, start, committed⟩ := unloaded_loadNear
    (b := ({ b with reader := r, name := path } : Buffer ρ).restarted r') (Chunk.unloaded_drop _)
    (loadNear_fails unread)
  generalize (({ b with reader := r, name := path } : Buffer ρ).restarted r').loadNear.2 = b₁
    at empty start committed ⊢
  replace start : b₁.start = 0 := start
  obtain ⟨empty', start', committed'⟩ :=
    performAll_skips (n := chunkSize - 1) empty committed (by rw [start]; decide)
  generalize b₁.performAll (skips (chunkSize - 1)) = b₂ at empty' start' committed' ⊢
  rw [start, Nat.zero_add] at start'
  have whole : chunkSize - 1 + 1 = chunkSize := Nat.sub_add_cancel (by decide)
  obtain ⟨room, moved⟩ := advance_unloaded empty' committed'
  rw [start', if_pos whole] at moved
  obtain ⟨near, start'', extent⟩ := loadFar_eq (b₂.step b₂.peek room)
  rw [performAll_advance, moved, cursor, near, start'', extent]
  obtain ⟨near', start_step, extent_step⟩ := step_eq b₂ b₂.peek room
  rw [near', start_step, extent_step, start', committed', Nat.zero_add]
  exact ⟨whole, rfl, empty'⟩

/-! ## Slices -/

theorem new_bounded {r : ρ} {name : String} (opened : Buffer.new r name = .ok b) :
    b.Bounded ∧ b.Ready := by
  have regular := Chunk.regular_of_unloaded (⟨rfl, rfl⟩ : Chunk.blank.Unloaded)
  have bounded := bounded_loadNear (b := blank r name) regular regular rfl rfl
  have ready := ready_loadNear (b := blank r name) rfl rfl rfl
  rw [loadNear_of_new opened] at bounded ready
  exact ⟨bounded, ready (not_failsToRead_ok ())⟩

/-- Whatever fails in a session, the cursor stays in its chunk and does not come before the start of a
lexeme in the same chunk. A lexeme has a text unless it runs over a chunk that holds nothing and starts
behind the beginning of it; as long as nothing fails to be read that is never so. -/
theorem slices_in_bounds {r : ρ} {name : String} (opened : Buffer.new r name = .ok b)
    (ops : List (Operation ρ)) :
    let b' := b.performAll ops
    b'.index < chunkSize ∧ b'.chunk.length ≤ chunkSize ∧ b'.near.length ≤ chunkSize ∧
      (b'.cursor < chunkSize → b'.start ≤ b'.index) ∧
      (b'.lexeme? = none ↔ chunkSize ≤ b'.cursor ∧ 0 < b'.start ∧ b'.near.Unloaded) ∧
      ((∀ reply ∈ b.replies ops, ¬ FailsToRead reply) → ∃ text, b'.lexeme? = some text) := by
  intro b'
  obtain ⟨bounded, ready⟩ := new_bounded opened
  have bounded' : b'.Bounded := bounded.performAll ops
  refine ⟨b'.index_lt, bounded'.chunk.length_le, bounded'.near.length_le, ?_,
    bounded'.lexeme?_eq_none, ?_⟩
  · intro stays
    rw [show b'.index = b'.cursor from if_pos stays]
    exact Nat.le_add_right _ _
  · intro reads
    have ready' : b'.Ready := ready.performAll ops reads
    rw [← Option.ne_none_iff_exists', ne_eq, bounded'.lexeme?_eq_none]
    exact fun missing => ready'.near missing.2.2

/-- After a source that cannot be read the cursor stays in its chunk. After one that cannot be opened
there is a text as well. -/
theorem slices_in_bounds_after_failures :
    ∃ b, Buffer.new (FileHandle.file (.ofBytes #[120])) "a" = .ok b ∧
      (b.performAll (pastFirstChunk "d" .directory)).index < chunkSize ∧
      (∀ reply ∈ b.replies [.reopen "c" (.error .notFound), .move .reset], ¬ FailsToRead reply) ∧
      ∃ text, (b.performAll [.reopen "c" (.error .notFound), .move .reset]).lexeme? = some text := by
  obtain ⟨b, opened, -⟩ := new_holds (FileHandle.delivers #[120]) "a"
  have reads : ∀ reply ∈ b.replies [.reopen "c" (.error .notFound), .move .reset],
      ¬ FailsToRead reply := by
    refine List.forall_mem_cons.mpr ⟨?_, List.forall_mem_singleton.mpr (not_failsToRead_ok ())⟩
    rintro ⟨cause, failed⟩
    cases failed
  obtain ⟨inside, -⟩ := slices_in_bounds opened (pastFirstChunk "d" .directory)
  obtain ⟨-, -, -, -, -, text⟩ :=
    slices_in_bounds opened [.reopen "c" (.error .notFound), .move .reset]
  exact ⟨b, opened, inside, reads, text reads⟩

/-- A lexeme of one character can be without a text: a directory can be opened, but not read. -/
theorem lexeme_missing_past_directory :
    ∃ b, Buffer.new (FileHandle.file (.ofBytes #[120])) "a" = .ok b ∧
      (b.performAll (pastFirstChunk "d" .directory)).extent = 1 ∧
      (b.performAll (pastFirstChunk "d" .directory)).lexeme? = none := by
  obtain ⟨b, opened, -⟩ := new_holds (FileHandle.delivers #[120]) "a"
  have unread := FileHandle.fill_directory (by decide : chunkSize ≠ 0) #[]
  obtain ⟨cursor, start, empty⟩ := performAll_pastFirstChunk (r := .directory) rfl unread b "d"
  refine ⟨b, opened, ?_, ?_⟩
  · rw [Buffer.cursor, start] at cursor
    have whole : chunkSize - 1 + 1 = chunkSize := Nat.sub_add_cancel (by decide)
    exact Nat.add_left_cancel (cursor.trans whole.symm)
  · rw [((new_bounded opened).1.performAll _).lexeme?_eq_none, cursor, start]
    exact ⟨Nat.le_refl _, by decide, empty⟩

end Buffer

end Kaleidoscope
