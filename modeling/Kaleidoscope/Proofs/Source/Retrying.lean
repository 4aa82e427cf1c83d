import Kaleidoscope.Proofs.Source.Sessions
import Kaleidoscope.Proofs.Source.Agreement

/-!
# Loads that are tried again

The cursor that comes to a block of which nothing could be delivered is taken back to the start of its
lexeme. What was asked before and what is asked afterwards is answered as if the cursor had never come
there, however often that happened; and when it comes there again the block is loaded.
-/

namespace Kaleidoscope.Buffer

section
variable {ρ : Type} [Reader ρ] {b b' : Buffer ρ} {w : Window} {source : List UInt8}
  {plan : List (Operation (List UInt8))} {ops : List (Operation ρ)}

/-- A move that came to a block of which nothing could be delivered. -/
structure ComesToNothing (b : Buffer ρ) : Prop where
  failed : FailsToRead b.advance.1
  empty : (Reader.fill b.reader chunkSize #[]).data = #[]

/-- `b` comes to `b'` by the operations, and by moves that came to nothing, each of which was taken back.
Of these the reset alone counts among the operations. No other read fails. -/
inductive Retries : Buffer ρ → List (Operation ρ) → Buffer ρ → Prop
  | here (b : Buffer ρ) : Retries b [] b
  | serves {b b' : Buffer ρ} {op : Operation ρ} {ops : List (Operation ρ)} :
    ¬ (b.serve op).1.Fails → Retries (b.serve op).2 ops b' → Retries b (op :: ops) b'
  | undoes {b b' : Buffer ρ} {ops : List (Operation ρ)} :
    b.ComesToNothing → Retries b.advance.2.reset ops b' → Retries b (.move .reset :: ops) b'

theorem Mirrors.reset_of_comesToNothing (h : b.Mirrors w) (nothing : b.ComesToNothing) :
    b.advance.2.reset.Mirrors w.reset := by
  obtain ⟨source, g, shadowed, shows⟩ := h
  exact ⟨source, _, shadowed.reset_of_failed nothing.failed nothing.empty, shows.reset⟩

theorem Retries.mirrors (h : b.Retries ops b') (mirrors : b.Mirrors w)
    (alike : List.Forall₂ (Operation.Alike Reader.Tells) plan ops) :
    b'.Mirrors (serveAll Window.serve w plan) := by
  induction h generalizing w plan with
  | here b =>
    cases alike
    exact mirrors
  | serves reads _ ih =>
    cases alike with
    | cons here later =>
      have next := ih (mirrors.serve here reads).2 later
      exact next
  | undoes nothing _ ih =>
    cases alike with
    | cons here later =>
      cases here
      have next := ih (mirrors.reset_of_comesToNothing nothing) later
      exact next

/-! ## Coming there again -/

/-- Only over the end of a full chunk a move can fail to read, and what it comes to is not loaded. -/
theorem ComesToNothing.crosses (h : b.ComesToNothing) :
    ¬ b.AtEnd ∧ b.extent < maxLexeme ∧ b.cursor + 1 = chunkSize ∧ ¬ b.far.Follows b.near := by
  obtain ⟨failed, -⟩ := h
  by_cases ended : b.AtEnd
  · rw [advance_atEnd ended] at failed
    exact absurd failed (not_failsToRead_ok _)
  by_cases room : b.extent < maxLexeme
  · by_cases crosses : b.cursor + 1 = chunkSize
    · refine ⟨ended, room, crosses, fun follows => ?_⟩
      have here := loadFar_of_follows (b := b.step b.peek room) follows
      rw [advance_crossing ended room crosses here] at failed
      exact not_failsToRead_ok _ failed
    · rw [advance_inside ended room crosses] at failed
      exact absurd failed (not_failsToRead_ok _)
  · rw [advance_full ended room] at failed
    obtain ⟨cause, eq⟩ := failed
    cases eq

/-- Behind a move that was taken back only the reader is another one. -/
theorem ComesToNothing.reset_eq (h : b.ComesToNothing) (mirrors : b.Mirrors w) :
    b.advance.2.reset = b.reset.withReader b.advance.2.reset.reader := by
  obtain ⟨source, g, shadowed, -⟩ := mirrors
  obtain ⟨j, -, same⟩ := shadowed.reset_of_failed h.failed h.empty
  obtain ⟨i, -, rfl⟩ := shadowed
  have back : b.advance.2.reset.inMemory source j = (b.inMemory source i).reset := same.symm
  exact congrArg (fun g : Buffer ByteReader => g.withReader b.advance.2.reset.reader) back

theorem ComesToNothing.full (h : b.ComesToNothing) (mirrors : b.Mirrors w) :
    b.near.length = chunkSize := by
  obtain ⟨more, -, edge, -⟩ := h.crosses
  obtain ⟨source, g, ⟨i, -, rfl⟩, -, k, holds, -⟩ := mirrors
  have near : b.near.Holds source k := holds.near
  have length := near.length
  rw [AtEnd, chunk, index, if_pos (by omega), if_pos (by omega), near.endsAt_iff (by omega)] at more
  omega

theorem loadFar_of_behind (behind : ¬ b.far.Follows b.near) :
    (b.loadFar.2.far, b.loadFar.2.reader) = (b.far.load b.near.nextStamp b.reader).2 := by
  unfold loadFar
  rw [if_neg behind]
  split <;> (rename_i loaded; rw [loaded])

theorem advance_crossing_state (more : ¬ b.AtEnd) (room : b.extent < maxLexeme)
    (crosses : b.cursor + 1 = chunkSize) : b.advance.2 = (b.step b.peek room).loadFar.2 := by
  cases loaded : (b.step b.peek room).loadFar with
  | mk result b' => rw [advance_crossing more room crosses loaded]

/-- The cursor that goes on to the same block from the start of the lexeme has it loaded then. -/
theorem ComesToNothing.loads_again (h : b.ComesToNothing) (mirrors : b.Mirrors w) {n : Nat}
    (brink : b.start + n + 1 = chunkSize) :
    let back := b.advance.2.reset
    let edge := back.moveAll (List.replicate n .advance)
    (edge.advance.2.far, edge.advance.2.reader) = (b.far.load b.near.nextStamp back.reader).2 := by
  intro back edge
  obtain ⟨-, room, crosses, behind⟩ := h.crosses
  have eq : back = b.reset.withReader back.reader := h.reset_eq mirrors
  have near : back.near = b.near := by rw [eq]; rfl
  have far : back.far = b.far := by rw [eq]; rfl
  have start : back.start = b.start := by rw [eq]; rfl
  have full : back.near.length = chunkSize := near ▸ h.full mirrors
  have extent : back.extent = 0 := rfl
  have cursor : back.cursor = b.start := by rw [Buffer.cursor, start, extent, Nat.add_zero]
  have short : n < maxLexeme := by
    rw [Buffer.cursor] at crosses
    omega
  obtain ⟨along, -⟩ := advances_along (b := back) (n := n) full (by omega) (by omega)
  have edge_cursor : edge.cursor + 1 = chunkSize := by
    rw [Buffer.cursor, along.start, along.extent]
    omega
  have space : edge.extent < maxLexeme := by
    rw [along.extent]
    omega
  have more : ¬ edge.AtEnd := not_atEnd_of_full (by rw [along.near, full]) (by omega)
  have edge_near : edge.near = b.near := along.near.trans near
  have edge_far : edge.far = b.far := along.far.trans far
  rw [advance_crossing_state more space edge_cursor,
    loadFar_of_behind (b := edge.step edge.peek space) (by rw [step, edge_near, edge_far]; exact behind)]
  rw [step, edge_near, edge_far, along.reader]

/-! ## As if nothing had been tried -/

/-- A move that came to nothing is undone when it is taken back, after however many others. What is asked
then, as long as no read fails, is answered as on a window that was never moved there, and on a buffer
whose reader never fails. -/
theorem reset_undoes {r : ρ} {name : String} (tells : Reader.Tells source r)
    (opened : Buffer.new r name = .ok b) (retries : b.Retries ops b')
    (planned : List.Forall₂ (Operation.Alike Reader.Tells) plan ops) (nothing : b'.ComesToNothing) :
    let back := b'.advance.2.reset
    back = b'.reset.withReader back.reader ∧ back.pos = back.startPos ∧ back.startPos = b'.startPos ∧
      (∀ n, b'.start + n + 1 = chunkSize →
        let edge := back.moveAll (List.replicate n .advance)
        (edge.advance.2.far, edge.advance.2.reader) = (b'.far.load b'.near.nextStamp back.reader).2) ∧
      ∀ {ahead : List (Operation (List UInt8))} {later : List (Operation ρ)},
        List.Forall₂ (Operation.Alike Reader.Tells) ahead later →
        Unfailing (transcript serve view back later) →
          transcript serve view back later = transcript Window.serve Window.view
            (serveAll Window.serve (.ofSource source) (plan ++ [.move .reset])) ahead ∧
          ∀ {ρ' : Type} [Reader ρ'] {r' : ρ'} (name' : String) {ops' later' : List (Operation ρ')},
            Reader.Delivers source r' → List.Forall₂ (Operation.Alike Reader.Delivers) plan ops' →
            List.Forall₂ (Operation.Alike Reader.Delivers) ahead later' →
              ∃ fresh, Buffer.new r' name' = .ok fresh ∧
                transcript serve view back later =
                  transcript serve view (serveAll serve fresh (ops' ++ [.move .reset])) later' := by
  -- a buffer in memory goes along, and it shows what the window does
  obtain ⟨g, shadowed, shows⟩ := new_shadowed tells opened
  have mirrors : b'.Mirrors (serveAll Window.serve (.ofSource source) plan) :=
    retries.mirrors ⟨source, g, shadowed, shows⟩ planned
  have eq := nothing.reset_eq mirrors
  intro back
  have startPos : back.startPos = b'.startPos := by
    rw [show back = _ from eq]
    rfl
  refine ⟨eq, rfl, startPos, fun n brink => nothing.loads_again mirrors brink,
    fun {ahead later} alike unfailing => ?_⟩
  have answers := (mirrors.reset_of_comesToNothing nothing).transcript alike unfailing
  have reset : serveAll Window.serve (.ofSource source) (plan ++ [.move .reset]) =
      (serveAll Window.serve (.ofSource source) plan).reset := List.foldl_append
  rw [reset]
  -- a buffer whose reader never fails is compared with the same window
  refine ⟨answers, fun {ρ' _ r'} name' {ops' later'} delivers planned' alike' => ?_⟩
  obtain ⟨fresh, opened', shows'⟩ := new_shows delivers name'
  have before : (serveAll serve fresh ops').Displays (serveAll Window.serve (.ofSource source) plan) :=
    (Displays.transcript ⟨source, shows'⟩ planned').2
  obtain ⟨source', there⟩ := before
  have after := (Displays.transcript ⟨source', there.reset⟩ alike').1
  have reset' : serveAll serve fresh (ops' ++ [.move .reset]) = (serveAll serve fresh ops').reset :=
    List.foldl_append
  refine ⟨fresh, opened', ?_⟩
  rw [reset', after]
  exact answers

end

section
open FaultyReader
variable {ρ : Type} [Reader ρ]

/-- A session that recovers from each failed read, as a session with retries. -/
theorem Recovers.retries : ∀ (motions : List Motion) {b : Buffer ρ}, b.Recovers (motions ++ [.advance]) →
    ∃ ms : List Motion, b.Retries (ms.map .move) (b.moveAll motions)
  | [], b, _ => ⟨[], .here b⟩
  | m :: ms, b, ⟨here, later⟩ => by
    by_cases failed : FailsToRead (b.move m).1
    · obtain ⟨rfl, empty, back⟩ := here failed
      cases ms with
      | nil => cases back .advance rfl
      | cons next ms =>
        obtain rfl := back next rfl
        obtain ⟨rest, retries⟩ := Recovers.retries ms later.2
        exact ⟨.reset :: rest, .undoes ⟨failsToRead_map.mp failed, empty⟩ retries⟩
    · obtain ⟨rest, retries⟩ := Recovers.retries ms later
      exact ⟨m :: rest, .serves failed retries⟩

omit [Reader ρ] in
theorem Begun.reset {b : Buffer ρ} {near : Chunk} {r : ρ} {n : Nat} (h : b.Begun near r n) :
    b.reset.Begun near r 0 :=
  ⟨h.near, h.far, h.reader, h.start, rfl, h.startOffset, h.startOffset⟩

theorem Begun.advance_inside {b : Buffer ρ} {near : Chunk} {r : ρ} (h : b.Begun near r 0)
    (full : near.length = chunkSize) : ∃ c b', b.advance = (.ok c, b') := by
  have cursor : b.cursor = 2 := by rw [Buffer.cursor, h.start, h.extent]
  have more : ¬ b.AtEnd := not_atEnd_of_full (by rw [h.near, full]) (by rw [cursor]; decide)
  exact ⟨_, _, Buffer.advance_inside more (by rw [h.extent]; decide) (by rw [cursor]; decide)⟩

/-- The second block cannot be read twice, and the cursor comes to it twice. -/
theorem reset_undoes_second_failure :
    ∃ (n : Nat) (b b' : Buffer FaultyReader) (ms : List Motion),
      let back := b'.advance.2.reset
      let edge := back.moveAll (List.replicate n .advance)
      Reader.Tells blockThenB.toList (stumbling blockThenB 0 chunkSize 0 2) ∧
      Buffer.new (stumbling blockThenB 0 chunkSize 0 2) "a" = .ok b ∧ b.Retries (ms.map .move) b' ∧
      b'.ComesToNothing ∧ b'.start + n + 1 = chunkSize ∧
      (edge.advance.2.far, edge.advance.2.reader) = (b'.far.load b'.near.nextStamp back.reader).2 ∧
      Unfailing (transcript serve view back [.move .advance]) ∧
      transcript serve view back [.move .advance] = transcript Window.serve Window.view
        (serveAll Window.serve (.ofSource blockThenB.toList) (ms.map .move ++ [.move .reset]))
        [.move .advance] := by
  obtain ⟨n, block⟩ : ∃ n, n + 3 = chunkSize := ⟨4093, rfl⟩
  have tells := stumbling_tells blockThenB chunkSize 2
  obtain ⟨b, opened, first⟩ := new_stumbling chunkSize_le_blockThenB 1 "a"
  obtain ⟨crossed, recovers⟩ :=
    first.crosses block (fill_stumbling_at (Nat.le_refl chunkSize) (by decide) #[])
  -- the first failure is undone, and the cursor comes to the same block again
  obtain ⟨again, recovers'⟩ := crossed.reset.advances (n := n) first.length (by omega)
  have unread : Reader.fill (stumbling blockThenB chunkSize chunkSize (1 + 1) (0 + 1)) chunkSize #[] =
      ⟨#[], some readFailure, stumbling blockThenB chunkSize chunkSize (1 + 1 + 1) 0⟩ :=
    fill_stumbling_at (Nat.le_refl chunkSize) (by decide) #[]
  obtain ⟨failed, beyond'⟩ := again.advance_fails block first.length first.stamp unread
  have nothing : ((b.moveAll (beyond n)).reset.moveAll (List.replicate n .advance)).ComesToNothing := by
    refine ⟨⟨_, failed⟩, ?_⟩
    rw [again.reader, unread]
  obtain ⟨ms, retries⟩ := Recovers.retries (beyond n ++ .reset :: List.replicate n .advance) (b := b) (by
    rw [List.append_assoc]
    exact recovers _ (recovers' _ ⟨fun _ => ⟨rfl, nothing.empty, by simp⟩, trivial⟩))
  rw [moveAll_append, moveAll_cons] at retries
  obtain ⟨c, b₁, passed⟩ := beyond'.reset.advance_inside first.length
  have unfailing : Unfailing (transcript serve view
      ((b.moveAll (beyond n)).reset.moveAll (List.replicate n .advance)).advance.2.reset
      [.move .advance]) := by
    refine List.forall_mem_singleton.mpr ?_
    rw [serve, ask, move, passed]
    exact not_failsToRead_ok (some c)
  obtain ⟨-, -, -, loads, answers⟩ :=
    reset_undoes tells opened retries (Operation.alike_moves _ ms) nothing
  have brink : ((b.moveAll (beyond n)).reset.moveAll (List.replicate n .advance)).start + n + 1 =
      chunkSize := by
    rw [again.start]
    omega
  exact ⟨n, b, _, ms, tells, opened, retries, nothing, brink, loads n brink, unfailing,
    (answers (Operation.alike_moves _ [.advance]) unfailing).1⟩

end

end Kaleidoscope.Buffer
