import Kaleidoscope.Proofs.Source.Recovery

/-!
# Buffers that are taken back to the start

Whatever a session did to the chunks of a buffer, a rewind that gives no error leaves nothing of it to
be seen. A rewind whose reader cannot go back has touched nothing.
-/

namespace Kaleidoscope

section
variable {ρ : Type}

def lastOpened (r : ρ) : List (Operation ρ) → ρ
  | [] => r
  | .reopen _ (.ok r') :: ops => lastOpened r' ops
  | _ :: ops => lastOpened r ops

theorem lastOpened_imp {P : ρ → Prop} {r r' : ρ} (keep : P r → P r') {ops : List (Operation ρ)}
    (h : P (lastOpened r ops)) : P (lastOpened r' ops) := by
  induction ops with
  | nil => exact keep h
  | cons op ops ih =>
    cases op with
    | move m => exact ih h
    | startsWith pattern => exact ih h
    | reopen path opened =>
      cases opened with
      | ok r₁ => exact h
      | error cause => exact ih h

theorem lastOpened_moves (r : ρ) (motions : List Motion) : lastOpened r (motions.map .move) = r := by
  induction motions with
  | nil => rfl
  | cons m ms ih => exact ih

end

namespace Buffer

section
variable {ρ : Type} [Reader ρ] {b : Buffer ρ} {source : List UInt8}

theorem performAll_moves (b : Buffer ρ) (motions : List Motion) :
    b.performAll (motions.map .move) = b.moveAll motions :=
  List.foldl_map

/-! ## The reader stays in its source -/

def Inside (b : Buffer ρ) (source : List UInt8) : Prop := Reader.Within source b.reader

namespace Inside

theorem load (h : Reader.Within source b.reader) (c : Chunk) (stamp : Fin 3) :
    Reader.Within source (c.load stamp b.reader).2.2 := by
  have next := Reader.fill_within h chunkSize #[]
  simp only [Chunk.load]
  split <;> exact next

theorem loadNear (h : b.Inside source) : b.loadNear.2.Inside source := by
  have loaded := load h b.near b.near.nextStamp
  unfold Buffer.loadNear
  split <;> (rename_i eq; rw [eq] at loaded; exact loaded)

theorem loadFar (h : b.Inside source) : b.loadFar.2.Inside source := by
  have loaded := load h b.far b.near.nextStamp
  unfold Buffer.loadFar
  split
  · exact h
  · split <;> (rename_i eq; rw [eq] at loaded; exact loaded)

theorem advance (h : b.Inside source) : b.advance.2.Inside source := by
  rcases b.advance_cases with stuck | ⟨room, -, -, moved⟩ | ⟨room, -, -, loaded⟩
  · rw [stuck]
    exact h
  · rw [moved]
    exact h
  · rw [loaded]
    exact Inside.loadFar (b := b.step b.peek room) h

theorem rewind (h : b.Inside source) : b.rewind.2.Inside source := by
  obtain ⟨i, tells⟩ := h
  unfold Buffer.rewind
  cases sought : Reader.toStart b.reader with
  | mk result r =>
    cases result with
    | ok => exact Inside.loadNear (b := b.restarted r) (tells.toStart sought).within
    | error cause => exact (tells.stays sought).within

theorem move (h : b.Inside source) (m : Motion) : (b.move m).2.Inside source := by
  cases m with
  | advance => exact h.advance
  | mark => exact h
  | reset => exact h
  | rewind => exact h.rewind

theorem performAll {ops : List (Operation ρ)} (h : Reader.Within source (lastOpened b.reader ops)) :
    (b.performAll ops).Inside source := by
  induction ops generalizing b with
  | nil => exact h
  | cons op ops ih =>
    refine ih ?_
    cases op with
    | move m => exact lastOpened_imp (P := Reader.Within source) (fun h => Inside.move h m) h
    | startsWith pattern =>
      exact lastOpened_imp (P := Reader.Within source)
        (fun h => startsWith_keeps (P := (·.Inside source)) Inside.advance id h pattern) h
    | reopen path opened =>
      cases opened with
      | ok r => exact lastOpened_imp (P := Reader.Within source) (fun h => Inside.rewind h) h
      | error cause => exact h

end Inside

theorem new_inside {r : ρ} {name : String} (opened : Buffer.new r name = .ok b)
    (h : Reader.Within source r) : b.Inside source := by
  have next := Inside.loadNear (b := blank r name) h
  rwa [loadNear_of_new opened] at next

/-! ## Going back -/

/-- Whatever failed before, a rewind without an error leaves a buffer that answers like a new one on
the same source, until a read fails. If the reader cannot go back, the buffer answers as it did. -/
theorem rewind_heals {r : ρ} {name : String} (opened : Buffer.new r name = .ok b)
    (earlier : List (Operation ρ)) (tells : Reader.Tells source (lastOpened r earlier)) :
    (∀ b', (b.performAll earlier).rewind = (.ok (), b') →
      ∀ {σ : Type} [Reader σ] {s : σ} (name' : String), Reader.Delivers source s →
        ∃ fresh, Buffer.new s name' = .ok fresh ∧ b'.view = fresh.view ∧
          ∀ questions, Unfailing (interview ask view b' questions) →
            interview ask view b' questions = interview ask view fresh questions) ∧
    (∀ cause r', Reader.toStart (b.performAll earlier).reader = (.error cause, r') →
      ∃ b', (b.performAll earlier).rewind = (.error (.cannotRead cause), b') ∧
        b'.view = (b.performAll earlier).view ∧
        ∀ questions, Unfailing (interview ask view b' questions) →
          Unfailing (interview ask view (b.performAll earlier) questions) →
            interview ask view b' questions = interview ask view (b.performAll earlier) questions) := by
  have inside : (b.performAll earlier).Inside source :=
    Inside.performAll (lastOpened_imp (new_inside opened) tells.within)
  generalize b.performAll earlier = b₁ at inside
  -- the shadow reads from memory, so it shows the source from its start after any rewind
  refine ⟨fun b' rewound σ _ s name' delivers => ?_, fun cause r' sought => ?_⟩
  · obtain ⟨fresh, eq, shows⟩ := new_shows delivers name'
    obtain ⟨g, shadowed⟩ := exists_shadow inside
    obtain ⟨-, next⟩ := shadowed.rewind (by rw [rewound]; exact not_failsToRead_ok ())
    obtain ⟨i, reads⟩ := shadowed.delivers
    obtain ⟨-, anew⟩ := rewind_shows reads
    rw [rewound] at next
    refine ⟨fresh, eq, ?_, fun questions unfailing => ?_⟩
    · rw [← next.view, anew.view, shows.view]
    · rw [next.interview unfailing, anew.interview, shows.interview]
  · obtain ⟨i, here⟩ := inside
    have shadowed : b₁.Shadowed source (b₁.inMemory source i) := ⟨i, here, rfl⟩
    have stuck : b₁.rewind = (.error (.cannotRead cause), { b₁ with reader := r' }) := by
      unfold Buffer.rewind
      rw [sought]
    have back : Shadowed { b₁ with reader := r' } source (b₁.inMemory source i) :=
      ⟨i, here.stays sought, rfl⟩
    refine ⟨_, stuck, rfl, fun questions unfailing unfailing' => ?_⟩
    rw [back.interview unfailing, shadowed.interview unfailing']

end

section
open FaultyReader

/-- A buffer whose second block could not be read once, and one that reads the same bytes from memory. -/
theorem rewind_heals_after_failure :
    ∃ n b b', n + 3 = chunkSize ∧
      Reader.Tells blockThenB.toList (stumbling blockThenB 0 chunkSize 0 1) ∧
      Buffer.new (stumbling blockThenB 0 chunkSize 0 1) "a" = .ok b ∧
      (b.performAll ((beyond n).map .move)).rewind = (.ok (), b') ∧
      ∃ fresh, Buffer.new (ByteReader.ofBytes blockThenB) "b" = .ok fresh ∧ b'.view = fresh.view ∧
        ∀ questions, Unfailing (interview ask view b' questions) →
          interview ask view b' questions = interview ask view fresh questions := by
  obtain ⟨n, block⟩ : ∃ n, n + 3 = chunkSize := ⟨4093, rfl⟩
  have tells := stumbling_tells blockThenB chunkSize 1
  obtain ⟨b, opened, first⟩ := new_stumbling chunkSize_le_blockThenB 0 "a"
  obtain ⟨crossed, -⟩ := first.crosses block (fill_stumbling_at (Nat.le_refl chunkSize) (by decide) #[])
  have spent := stumbling_spent blockThenB chunkSize chunkSize (1 + 1)
  rw [← crossed.reader] at spent
  obtain ⟨healed, -⟩ := rewind_shows spent
  rw [← performAll_moves] at healed
  have rewound : (b.performAll ((beyond n).map .move)).rewind =
      (.ok (), (b.performAll ((beyond n).map .move)).rewind.2) := Prod.ext healed rfl
  obtain ⟨heals, -⟩ := rewind_heals opened ((beyond n).map .move) (by rw [lastOpened_moves]; exact tells)
  exact ⟨n, b, _, block, tells, opened, rewound,
    heals _ rewound "b" (ByteReader.delivers blockThenB)⟩

end

end Buffer

end Kaleidoscope
