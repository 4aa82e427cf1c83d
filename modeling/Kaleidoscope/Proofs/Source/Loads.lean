import Mathlib.Data.List.SplitBy
import Kaleidoscope.Proofs.Source.Agreement
import Kaleidoscope.Proofs.Source.Probe

/-!
# Which blocks a buffer reads

The stamps of the chunks go round, so that they tell a block only from its neighbours. That is enough, for
the far chunk is never two blocks away from the near one. As long as no read fails, each block up to the
furthest in which the cursor has been is therefore read once.
-/

namespace Kaleidoscope

/-! ## Readers with a record -/

/-- A reader beside a record of what it has delivered since it went back to the start: for each read how
many bytes were asked for, and those that came. -/
structure Recorded (ρ : Type) where
  reader : ρ
  record : List (Nat × List UInt8)

namespace Recorded

variable {ρ : Type} [Reader ρ]

def read (r : Recorded ρ) (n : Nat) : Delivery × Recorded ρ :=
  match Reader.read r.reader n with
  | (.bytes piece, next) => (.bytes piece, ⟨next, r.record ++ [(n, piece.toList)]⟩)
  | (.interrupted, next) => (.interrupted, ⟨next, r.record⟩)
  | (.failed cause, next) => (.failed cause, ⟨next, r.record⟩)

def toStart (r : Recorded ρ) : Except SystemError Unit × Recorded ρ :=
  match Reader.toStart r.reader with
  | (.ok (), next) => (.ok (), ⟨next, []⟩)
  | (.error cause, next) => (.error cause, ⟨next, r.record⟩)

variable {r r' : Recorded ρ} {n : Nat}

theorem read_bytes {piece : Array UInt8} (found : r.read n = (.bytes piece, r')) :
    Reader.read r.reader n = (.bytes piece, r'.reader) ∧ r'.record = r.record ++ [(n, piece.toList)] := by
  unfold read at found
  split at found
  · rename_i here
    cases found
    exact ⟨here, rfl⟩
  · cases found
  · cases found

theorem read_interrupted (found : r.read n = (.interrupted, r')) :
    Reader.read r.reader n = (.interrupted, r'.reader) ∧ r'.record = r.record := by
  unfold read at found
  split at found
  · cases found
  · rename_i here
    cases found
    exact ⟨here, rfl⟩
  · cases found

theorem read_failed {cause : SystemError} (found : r.read n = (.failed cause, r')) :
    Reader.read r.reader n = (.failed cause, r'.reader) ∧ r'.record = r.record := by
  unfold read at found
  split at found
  · cases found
  · cases found
  · rename_i here
    cases found
    exact ⟨here, rfl⟩

theorem toStart_ok (sought : r.toStart = (.ok (), r')) :
    Reader.toStart r.reader = (.ok (), r'.reader) ∧ r'.record = [] := by
  unfold toStart at sought
  split at sought
  · rename_i here
    cases sought
    exact ⟨here, rfl⟩
  · cases sought

theorem toStart_error {cause : SystemError} (sought : r.toStart = (.error cause, r')) :
    Reader.toStart r.reader = (.error cause, r'.reader) := by
  unfold toStart at sought
  split at sought
  · cases sought
  · rename_i here
    cases sought
    exact here

instance : Reader (Recorded ρ) where
  read := read
  toStart := toStart
  remaining r := Reader.remaining r.reader
  patience r := Reader.patience r.reader
  read_bytes h := Reader.read_bytes (read_bytes h).1
  read_interrupted h := Reader.read_interrupted (read_interrupted h).1
  read_failed h := Reader.read_failed (read_failed h).1

variable {source : List UInt8}

def alongside (ρ : Type) [Reader ρ] : Reader.Bisimulation ρ (Recorded ρ) where
  Related r r' := r'.reader = r
  read {r next r' n answer} related found := by
    subst related
    cases answer with
    | bytes piece => exact ⟨⟨next, r'.record ++ [(n, piece.toList)]⟩, by simp [Reader.read, read, found], rfl⟩
    | interrupted => exact ⟨⟨next, r'.record⟩, by simp [Reader.read, read, found], rfl⟩
    | failed cause => exact ⟨⟨next, r'.record⟩, by simp [Reader.read, read, found], rfl⟩

theorem truthful {At : ρ → Nat → Prop} (h : Truthful source At) :
    Truthful source fun (r : Recorded ρ) i => At r.reader i where
  bytes here pos found := h.bytes here pos (read_bytes found).1
  interrupted here pos found := h.interrupted here pos (read_interrupted found).1
  failed here pos found := h.failed here pos (read_failed found).1
  toStart here sought := h.toStart here (toStart_ok sought).1
  stays here sought := h.stays here (toStart_error sought)

theorem faultless {At : ρ → Nat → Prop} (h : Faultless source At) :
    Faultless source fun (r : Recorded ρ) i => At r.reader i where
  read {r i n} here pos := by
    have related : (alongside ρ).Related r.reader r := rfl
    rcases h.read here pos with ⟨next, found, there⟩ | ⟨piece, next, found, there, rest⟩
    · obtain ⟨next', found', rfl⟩ := (alongside ρ).read related found
      exact .inl ⟨next', found', there⟩
    · obtain ⟨next', found', rfl⟩ := (alongside ρ).read related found
      exact .inr ⟨piece, next', found', there, rest⟩
  toStart {r i} here := by
    obtain ⟨next, sought, there⟩ := h.toStart here
    exact ⟨⟨next, []⟩, by simp [Reader.toStart, toStart, sought], there⟩

theorem delivers (h : Reader.Delivers source r.reader) : Reader.Delivers source r := by
  obtain ⟨At, faultless, here⟩ := h
  exact ⟨_, Recorded.faultless faultless, here⟩

theorem tellsFrom {i : Nat} (h : Reader.TellsFrom source i r.reader) : Reader.TellsFrom source i r := by
  obtain ⟨At, truthful, here⟩ := h
  exact ⟨_, Recorded.truthful truthful, here⟩

/-! ### Loads -/

/-- The bytes of each load that is on a record. A read that asks for a whole chunk begins a load, and one
that asks for less goes on with it. -/
def loads (record : List (Nat × List UInt8)) : List (List UInt8) :=
  (record.splitBy fun _ next => next.1 != chunkSize).map fun reads => reads.flatMap Prod.snd

theorem loads_append {record rest : List (Nat × List UInt8)} {data : List UInt8}
    (others : ∀ read ∈ rest, read.1 ≠ chunkSize) :
    loads (record ++ (chunkSize, data) :: rest) = loads record ++ [data ++ rest.flatMap Prod.snd] := by
  have goesOn (first : Nat × List UInt8) :
      (first :: rest).IsChain fun _ next => (next.1 != chunkSize) = true := by
    induction rest generalizing first with
    | nil => exact .singleton first
    | cons second rest ih =>
      obtain ⟨here, later⟩ := List.forall_mem_cons.mp others
      exact .cons_cons (bne_iff_ne.mpr here) (ih later second)
  unfold loads
  rw [List.splitBy_append_cons, List.splitBy_of_isChain (List.cons_ne_nil _ _) (goesOn _)]
  · simp
  · simp

/-- A load that has begun goes on with reads that ask for less than a chunk. -/
theorem fill_goes_on (r : Recorded ρ) {room : Nat} (part : room < chunkSize) (data : Array UInt8) :
    ∃ rest, (Reader.fill r room data).reader.record = r.record ++ rest ∧
      (∀ read ∈ rest, read.1 ≠ chunkSize) ∧
      (Reader.fill r room data).data.toList = data.toList ++ rest.flatMap Prod.snd := by
  fun_induction Reader.fill r room data with
  | case1 => exact ⟨[], by simp⟩
  | case2 r room data some piece r' found _ empty =>
    obtain ⟨-, record⟩ := read_bytes found
    refine ⟨[(room, piece.toList)], record, ?_, ?_⟩
    · simpa using Nat.ne_of_lt part
    · simp [Array.eq_empty_of_size_eq_zero empty]
  | case3 r room data some piece r' found fits _ ih =>
    obtain ⟨-, record⟩ := read_bytes found
    obtain ⟨rest, later, others, filled⟩ := ih (by omega)
    refine ⟨(room, piece.toList) :: rest, ?_, ?_, ?_⟩
    · rw [later, record, List.append_assoc, List.singleton_append]
    · exact List.forall_mem_cons.mpr ⟨Nat.ne_of_lt part, others⟩
    · rw [filled, Array.toList_append, List.flatMap_cons, List.append_assoc]
  | case4 r room data some r' found _ ih =>
    obtain ⟨-, record⟩ := read_interrupted found
    rw [← record]
    exact ih part
  | case5 r room data some cause r' found =>
    obtain ⟨-, record⟩ := read_failed found
    exact ⟨[], by rw [record, List.append_nil], List.forall_mem_nil _, by simp⟩

/-- A fill that does not fail is one load, and what it gives is what the load has read. -/
theorem fill_begins {room : Nat} (whole : room = chunkSize) (data : Array UInt8)
    (unfailed : (Reader.fill r room data).failure = none) :
    ∃ read, loads (Reader.fill r room data).reader.record = loads r.record ++ [read] ∧
      (Reader.fill r room data).data.toList = data.toList ++ read := by
  fun_induction Reader.fill r room data with
  | case1 => exact absurd whole (by decide)
  | case2 r room data some piece r' found _ empty =>
    subst whole
    obtain ⟨-, record⟩ := read_bytes found
    have none : piece.toList = [] := by rw [Array.eq_empty_of_size_eq_zero empty]
    have alone : loads (r.record ++ [(chunkSize, [])]) = loads r.record ++ [[]] :=
      loads_append (List.forall_mem_nil _)
    refine ⟨[], ?_, (List.append_nil _).symm⟩
    dsimp only
    rw [record, none, alone]
  | case3 r room data some piece r' found fits more =>
    subst whole
    obtain ⟨-, record⟩ := read_bytes found
    have part : chunkSize - piece.size < chunkSize := by omega
    obtain ⟨rest, later, others, filled⟩ := fill_goes_on r' part (data ++ piece)
    refine ⟨piece.toList ++ rest.flatMap Prod.snd, ?_, ?_⟩
    · rw [later, record, List.append_assoc, List.singleton_append, loads_append others]
    · rw [filled, Array.toList_append, List.append_assoc]
  | case4 r room data some r' found _ ih =>
    obtain ⟨-, record⟩ := read_interrupted found
    rw [← record]
    exact ih whole unfailed
  | case5 => cases unfailed

end Recorded

/-! ## Blocks -/

def block (source : List UInt8) (k : Nat) : List UInt8 :=
  (source.drop (chunkSize * k)).take chunkSize

theorem Chunk.Holds.eq_block {c : Chunk} {source : List UInt8} {k : Nat} {data : List UInt8}
    (holds : c.Holds source k) (length : data.length = c.length)
    (bytes : ∀ i < data.length, data[i]? = some (c.byte i)) : data = block source k := by
  have most := holds.length
  apply List.ext_getElem?
  intro i
  unfold block
  rw [List.getElem?_take, List.getElem?_drop]
  by_cases inside : i < data.length
  · rw [bytes i inside, if_pos (by omega), holds.byte i (by omega)]
  · rw [List.getElem?_eq_none (Nat.le_of_not_lt inside)]
    split
    · rw [List.getElem?_eq_none (by omega)]
    · rfl

/-- A load that does not fail reads the block that the chunk holds then. -/
theorem Chunk.load_reads {ρ : Type} [Reader ρ] {c c' : Chunk} {stamp : Fin 3} {r r' : Recorded ρ}
    {source : List UInt8} {k : Nat} (loaded : c.load stamp r = (.ok (), c', r'))
    (holds : c'.Holds source k) :
    Recorded.loads r'.record = Recorded.loads r.record ++ [block source k] := by
  simp only [load] at loaded
  split at loaded
  · cases loaded
  · rename_i unfailed
    cases loaded
    obtain ⟨read, loads, filled⟩ := Recorded.fill_begins rfl #[] unfailed
    rw [List.nil_append] at filled
    rw [loads, ← filled, holds.eq_block (Array.length_toList ..)]
    intro i inside
    rw [Array.length_toList] at inside
    rw [byte, Array.getD_eq_getD_getElem?, Array.getElem?_append_left inside, Array.getElem?_toList,
      Array.getElem?_eq_getElem inside]
    rfl

namespace Buffer

section
variable {ρ : Type} [Reader ρ] {b b' : Buffer (Recorded ρ)} {source : List UInt8} {k top : Nat}

/-! ## Runs -/

/-- A buffer of `source` has come to `b` since it was opened or taken back to the start, no read has failed
in the meantime, and `top` is the furthest block in which the cursor has been. -/
inductive Travelled (source : List UInt8) : Buffer (Recorded ρ) → Nat → Prop
  | new {r : ρ} {name : String} {b : Buffer (Recorded ρ)} (tells : Reader.Tells source r)
    (opened : Buffer.new ⟨r, []⟩ name = .ok b) : Travelled source b 0
  /-- Whatever was done to the buffer before. -/
  | rewound {b b' : Buffer (Recorded ρ)} (within : Reader.Within source b.reader.reader)
    (back : b.rewind = (.ok (), b')) : Travelled source b' 0
  | advance {b : Buffer (Recorded ρ)} {top : Nat} (run : Travelled source b top)
    (reads : ¬ FailsToRead b.advance.1) :
    Travelled source b.advance.2 (max top (b.advance.2.pos.offset / chunkSize))
  | mark {b : Buffer (Recorded ρ)} {top : Nat} (run : Travelled source b top) :
    Travelled source b.mark top
  | reset {b : Buffer (Recorded ρ)} {top : Nat} (run : Travelled source b top) :
    Travelled source b.reset top

structure KeepsBlocks (b : Buffer (Recorded ρ)) (source : List UInt8) (k top : Nat) : Prop where
  /-- The stamp of a chunk that holds block `k` is `k + 1` modulo 3. -/
  near : b.near.Holds source k
  far : b.far.Holds source (k + 1) ∨ (∃ j, k = j + 1 ∧ b.far.Holds source j) ∨
    k = 0 ∧ b.far.Unloaded ∧ b.far.stamp = 0
  start : b.startPos.offset / chunkSize = k
  cursor : b.pos.offset / chunkSize = k ∨
    b.pos.offset / chunkSize = k + 1 ∧ b.far.Holds source (k + 1)
  /-- The far chunk is left as it is just if it holds what comes behind the near one. -/
  loadFar : b.loadFar = (.ok (), b) ↔ b.far.Holds source (k + 1)
  /-- Every block up to the furthest has been read once, and in order. -/
  loads : Recorded.loads b.reader.record = (List.range (top + 1)).map (block source)

/-! ### What a run keeps -/

/-- The chunks and positions of `b` are those of a buffer that reads from memory, and `top` is the furthest
block that is loaded. -/
structure Charted (b : Buffer (Recorded ρ)) (source : List UInt8) (k top : Nat) : Prop where
  shadow : ∃ g, b.Shadowed source g ∧ g.Holds source k
  fresh : k = 0 → ¬ b.far.Follows b.near → b.far.Unloaded
  furthest : top = if b.far.Follows b.near then k + 1 else k
  loads : Recorded.loads b.reader.record = (List.range (top + 1)).map (block source)

namespace Charted

theorem near (h : b.Charted source k top) : b.near.Holds source k := by
  obtain ⟨g, ⟨i, -, rfl⟩, holds⟩ := h.shadow
  exact holds.near

theorem follows_iff (h : b.Charted source k top) :
    b.far.Follows b.near ↔ b.far.Holds source (k + 1) := by
  obtain ⟨g, ⟨i, -, rfl⟩, holds⟩ := h.shadow
  exact ⟨fun follows => (holds.far.of_follows holds.near follows).1, fun next => next.follows holds.near⟩

theorem far (h : b.Charted source k top) :
    b.far.Holds source (k + 1) ∨ (∃ j, k = j + 1 ∧ b.far.Holds source j) ∨
      k = 0 ∧ b.far.Unloaded ∧ b.far.stamp = 0 := by
  by_cases follows : b.far.Follows b.near
  · exact .inl (h.follows_iff.mp follows)
  · have fresh := h.fresh
    obtain ⟨g, ⟨i, -, rfl⟩, holds⟩ := h.shadow
    have reach := holds.far
    cases reach with
    | ahead next => exact .inl next
    | @behind j before => exact .inr (.inl ⟨j, rfl, before⟩)
    | fresh unstamped => exact .inr (.inr ⟨rfl, fresh rfl follows, unstamped⟩)

theorem startPos (h : b.Charted source k top) : b.startPos.offset = chunkSize * k + b.start := by
  obtain ⟨g, ⟨i, -, rfl⟩, holds⟩ := h.shadow
  exact congrArg Position.offset holds.startPos

theorem pos (h : b.Charted source k top) : b.pos.offset = chunkSize * k + b.cursor := by
  obtain ⟨g, ⟨i, -, rfl⟩, holds⟩ := h.shadow
  exact congrArg Position.offset holds.pos

theorem crossed (h : b.Charted source k top) (beyond : ¬ b.cursor < chunkSize) :
    b.far.Holds source (k + 1) := by
  obtain ⟨g, ⟨i, -, rfl⟩, holds⟩ := h.shadow
  exact (holds.crossed beyond).1

theorem cursor (h : b.Charted source k top) :
    b.cursor < chunkSize ∧ b.pos.offset / chunkSize = k ∨
      b.pos.offset / chunkSize = k + 1 ∧ b.far.Holds source (k + 1) := by
  have pos := h.pos
  by_cases inside : b.cursor < chunkSize
  · refine .inl ⟨inside, ?_⟩
    unfold chunkSize at *
    omega
  · refine .inr ⟨?_, h.crossed inside⟩
    have bound := b.cursor_succ_lt
    unfold chunkSize at *
    omega

theorem block_le (h : b.Charted source k top) : b.pos.offset / chunkSize ≤ top := by
  have furthest := h.furthest
  rcases h.cursor with ⟨-, here⟩ | ⟨there, next⟩
  · split at furthest <;> omega
  · rw [if_pos (h.follows_iff.mpr next)] at furthest
    omega

theorem keepsBlocks (h : b.Charted source k top) : b.KeepsBlocks source k top where
  near := h.near
  far := h.far
  start := by
    have startPos := h.startPos
    have inside := b.start_lt
    unfold chunkSize at *
    omega
  cursor := h.cursor.imp_left And.right
  loadFar := by
    rw [← h.follows_iff]
    refine ⟨fun kept => ?_, loadFar_of_follows⟩
    obtain ⟨-, -, -, follows, -⟩ := loadFar_ahead kept
    exact follows
  loads := h.loads

theorem same (h : b.Charted source k top) (near : b'.near = b.near) (far : b'.far = b.far)
    (reader : b'.reader = b.reader) (shadow : ∃ g, b'.Shadowed source g ∧ g.Holds source k) :
    b'.Charted source k top := by
  refine ⟨shadow, ?_, ?_, ?_⟩
  · rw [near, far]
    exact h.fresh
  · rw [near, far]
    exact h.furthest
  · rw [reader]
    exact h.loads

theorem reset (h : b.Charted source k top) : b.reset.Charted source k top := by
  obtain ⟨g, shadowed, holds⟩ := h.shadow
  exact h.same rfl rfl rfl ⟨_, shadowed.reset, holds.reset⟩

theorem mark (h : b.Charted source k top) : ∃ j, b.mark.Charted source j top := by
  obtain ⟨g, shadowed, holds⟩ := h.shadow
  obtain ⟨j, marked, index⟩ := holds.mark
  have start := g.mark.start_lt
  have cursor : g.cursor = b.cursor := by
    obtain ⟨i, -, rfl⟩ := shadowed
    rfl
  have bound := b.cursor_succ_lt
  rw [cursor] at index
  by_cases inside : b.cursor < chunkSize
  · obtain rfl : j = k := by
      unfold chunkSize at *
      omega
    exact ⟨j, h.same (if_pos inside) (if_pos inside) rfl ⟨_, shadowed.mark, marked⟩⟩
  · obtain rfl : j = k + 1 := by
      unfold chunkSize at *
      omega
    -- what was near lies behind the new near chunk, and nothing follows that
    have follows := h.follows_iff.mpr (h.crossed inside)
    have near : b.mark.near = b.far := if_neg inside
    have far : b.mark.far = b.near := if_neg inside
    refine ⟨k + 1, ⟨_, shadowed.mark, marked⟩, nofun, ?_, h.loads⟩
    rw [near, far, if_neg (Chunk.not_follows_of_follows follows), h.furthest, if_pos follows]

end Charted

theorem Holds.advanced {ρ : Type} [Reader ρ] {b : Buffer ρ} (h : b.Holds source k) :
    b.advance.2.Holds source k := by
  by_cases ended : b.AtEnd
  · rw [advance_atEnd ended]
    exact h
  by_cases room : b.extent < maxLexeme
  · obtain ⟨b', eq, holds, -, -⟩ := h.advance ended room
    rw [eq]
    exact holds
  · rw [advance_full ended room]
    exact h

namespace Charted

/-- A cursor that comes to the next block finds it loaded or loads it. -/
theorem loadFar {c : Char} {room : b.extent < maxLexeme} (h : b.Charted source k top)
    (crosses : (b.step c room).cursor = chunkSize) (reads : ¬ FailsToRead (b.step c room).loadFar.1)
    (shadow : ∃ g, (b.step c room).loadFar.2.Shadowed source g ∧ g.Holds source k) :
    (b.step c room).loadFar.2.Charted source k (k + 1) := by
  have furthest := h.furthest
  by_cases follows : b.far.Follows b.near
  · rw [if_pos follows] at furthest
    rw [loadFar_of_follows (b := b.step c room) follows] at shadow ⊢
    rw [← furthest]
    exact h.same rfl rfl rfl shadow
  · rw [if_neg follows] at furthest
    cases loaded : b.far.load b.near.nextStamp b.reader with
    | mk result rest =>
      obtain ⟨far, r⟩ := rest
      cases result with
      | error cause =>
        rw [loadFar_error (b := b.step c room) follows loaded] at reads
        exact absurd ⟨cause, rfl⟩ reads
      | ok =>
        rw [loadFar_ok (b := b.step c room) follows loaded] at shadow ⊢
        have next : far.Holds source (k + 1) := by
          obtain ⟨g, ⟨i, -, rfl⟩, holds⟩ := shadow
          exact (holds.crossed (Nat.not_lt.mpr (Nat.le_of_eq crosses.symm))).1
        have after : far.Follows b.near := next.follows h.near
        refine ⟨shadow, fun _ other => absurd after other, (if_pos after).symm, ?_⟩
        show Recorded.loads r.record = _
        rw [Chunk.load_reads loaded next, h.loads, furthest, @List.range_succ (k + 1), List.map_append]
        rfl

theorem advance (h : b.Charted source k top) (reads : ¬ FailsToRead b.advance.1) :
    b.advance.2.Charted source k (max top (b.advance.2.pos.offset / chunkSize)) := by
  obtain ⟨g, shadowed, holds⟩ := h.shadow
  have shadow : ∃ g, b.advance.2.Shadowed source g ∧ g.Holds source k :=
    ⟨_, (shadowed.advance reads).2, holds.advanced⟩
  rcases b.advance_cases with stuck | ⟨room, -, -, moved⟩ | ⟨room, crosses, reply, loaded⟩
  · rw [stuck, Nat.max_eq_left h.block_le]
    exact h
  · have inside : b.advance.2.Charted source k top := by
      rw [moved] at shadow ⊢
      exact h.same rfl rfl rfl shadow
    rw [Nat.max_eq_left inside.block_le]
    exact inside
  · rw [reply, failsToRead_map] at reads
    rw [loaded] at shadow ⊢
    have crossed := h.loadFar crosses reads shadow
    obtain ⟨-, start, extent⟩ := loadFar_eq (b.step b.peek room)
    have there : (b.step b.peek room).loadFar.2.cursor = chunkSize := by
      rw [Buffer.cursor, start, extent]
      exact crosses
    have block : (b.step b.peek room).loadFar.2.pos.offset / chunkSize = k + 1 := by
      rcases crossed.cursor with ⟨inside, -⟩ | ⟨block, -⟩
      · omega
      · exact block
    have le : top ≤ k + 1 := by
      rw [h.furthest]
      split <;> omega
    rw [block, Nat.max_eq_right le]
    exact crossed

end Charted

theorem charted_loadNear (tells : Reader.Tells source b.reader) (unread : b.reader.record = [])
    (start : b.start = 0) (extent : b.extent = 0) (startPos : b.startPos = .start) (pos : b.pos = .start)
    (near : b.near.stamp = 0) (far : b.far.stamp = 0) (empty : b.far.Unloaded)
    (loaded : b.loadNear = (.ok (), b')) : b'.Charted source 0 0 := by
  have shadowed : b.Shadowed source (b.inMemory source 0) := ⟨0, tells, rfl⟩
  obtain ⟨-, next⟩ := shadowed.loadNear (by rw [loaded]; exact not_failsToRead_ok ())
  obtain ⟨g, there, holds, -, -⟩ := loadNear_holds (b := b.inMemory source 0) start extent startPos pos
    near far (ByteReader.delivers source.toArray)
  rw [loaded, there] at next
  cases read : b.near.load b.near.nextStamp b.reader with
  | mk result rest =>
    obtain ⟨c, r⟩ := rest
    cases result with
    | error cause =>
      rw [loadNear_error read] at loaded
      cases loaded
    | ok =>
      rw [loadNear_ok read] at loaded
      cases loaded
      have shadow : ∃ g, Shadowed { b with near := c, reader := r } source g ∧ g.Holds source 0 :=
        ⟨g, next, holds⟩
      have first : c.Holds source 0 := by
        obtain ⟨i, -, rfl⟩ := next
        exact holds.near
      have behind : ¬ b.far.Follows c := by
        rw [Chunk.Follows, Chunk.nextStamp, far, first.stamp]
        decide
      refine ⟨shadow, fun _ _ => empty, (if_neg behind).symm, ?_⟩
      show Recorded.loads r.record = _
      rw [Chunk.load_reads read first, unread]
      rfl

theorem Travelled.charted (run : Travelled source b top) : ∃ k, b.Charted source k top := by
  induction run with
  | @new r name b tells opened =>
    exact ⟨0, charted_loadNear (b := blank ⟨r, []⟩ name) (Recorded.tellsFrom tells) rfl rfl rfl rfl rfl
      rfl rfl ⟨rfl, rfl⟩ (loadNear_of_new opened)⟩
  | @rewound b b' within back =>
    obtain ⟨i, tells⟩ := within
    unfold Buffer.rewind at back
    cases sought : Reader.toStart b.reader with
    | mk result r =>
      rw [sought] at back
      cases result with
      | error cause => cases back
      | ok =>
        exact ⟨0, charted_loadNear (b := b.restarted r) ((Recorded.tellsFrom tells).toStart sought)
          (Recorded.toStart_ok sought).2 rfl rfl rfl rfl rfl rfl (Chunk.unloaded_drop _) back⟩
  | advance run reads ih =>
    obtain ⟨k, charted⟩ := ih
    exact ⟨k, charted.advance reads⟩
  | mark run ih =>
    obtain ⟨k, charted⟩ := ih
    exact charted.mark
  | reset run ih =>
    obtain ⟨k, charted⟩ := ih
    exact ⟨k, charted.reset⟩

/-! ### Asking for a pattern -/

theorem Travelled.probe (run : Travelled source b top) (pattern : List Char)
    (reads : ¬ FailsToRead (b.probe pattern).1) :
    ∃ top', top ≤ top' ∧ Travelled source (b.probe pattern).2 top' := by
  induction pattern generalizing b top with
  | nil => exact ⟨top, Nat.le_refl _, run⟩
  | cons expected pattern ih =>
    have moved := run.advance
    unfold Buffer.probe at reads ⊢
    generalize b.advance = advanced at moved reads ⊢
    obtain ⟨result, b'⟩ := advanced
    cases result with
    | error e =>
      refine ⟨_, Nat.le_max_left _ _, moved fun failed => reads ?_⟩
      exact (failsToRead_map (f := fun _ : Char => false)).mpr failed
    | ok c =>
      have onward := moved (not_failsToRead_ok c)
      dsimp only at reads ⊢
      by_cases same : c = expected
      · rw [if_pos same] at reads ⊢
        obtain ⟨top', le, probed⟩ := ih onward reads
        exact ⟨top', Nat.le_trans (Nat.le_max_left _ _) le, probed⟩
      · rw [if_neg same]
        exact ⟨_, Nat.le_max_left _ _, onward⟩

/-- A question about the source is a run of moves as well. -/
theorem Travelled.startsWith (run : Travelled source b top) (pattern : String)
    (reads : ¬ FailsToRead (b.startsWith pattern).1) :
    ∃ top', top ≤ top' ∧ Travelled source (b.startsWith pattern).2 top' := by
  have probed := run.probe pattern.toList
  unfold Buffer.startsWith at reads ⊢
  generalize b.probe pattern.toList = found at probed reads ⊢
  obtain ⟨result, b'⟩ := found
  cases result with
  | error e => exact probed reads
  | ok =>
    obtain ⟨top', le, there⟩ := probed (not_failsToRead_ok _)
    exact ⟨top', le, there.reset⟩

/-- In every state that a run without failed reads comes to, the far chunk holds a neighbour of the block in
which the lexeme starts, or nothing yet, and each block up to the furthest has been read once. -/
theorem keeps_blocks (run : Travelled source b top) : ∃ k, b.KeepsBlocks source k top := by
  obtain ⟨k, charted⟩ := run.charted
  exact ⟨k, charted.keepsBlocks⟩

/-! ## A run over the end of the first block -/

theorem Travelled.advance_splits {c : Char} {before lexeme after : List Char} (run : Travelled source b top)
    (splits : b.Splits source before lexeme (c :: after)) (room : lexeme.length < maxLexeme) :
    Travelled source b.advance.2 (max top ((before.length + lexeme.length + 1) / chunkSize)) ∧
      b.advance.2.Splits source before (lexeme ++ [c]) after := by
  obtain ⟨b₁, passed, moved⟩ := splits.advance room
  have onward := run.advance (by rw [passed]; exact not_failsToRead_ok c)
  rw [passed] at onward ⊢
  have offset : b₁.pos.offset = before.length + lexeme.length + 1 := by
    rw [moved.pos, Position.offset_behind]
    simp [Nat.add_assoc]
  rw [offset] at onward
  exact ⟨onward, moved⟩

theorem Travelled.commits {before line after : List Char}
    (run : Travelled source b (before.length / chunkSize))
    (splits : b.Splits source before [] (line ++ after)) :
    ∃ b' : Buffer (Recorded ρ), Travelled source b' ((before ++ line).length / chunkSize) ∧
      b'.Splits source (before ++ line) [] after := by
  induction line generalizing b before with
  | nil => exact ⟨b, by simpa using run, by simpa using splits⟩
  | cons c line ih =>
    obtain ⟨onward, moved⟩ := run.advance_splits splits (by decide)
    have marked := moved.mark
    rw [List.nil_append] at marked
    rw [List.length_nil, Nat.add_zero, Nat.max_eq_right (Nat.div_le_div_right (Nat.le_succ _))] at onward
    have further : Travelled source b.advance.2.mark ((before ++ [c]).length / chunkSize) := by
      simpa using onward.mark
    obtain ⟨b', there, committed⟩ := ih further marked
    exact ⟨b', by simpa using there, by simpa using committed⟩

end

theorem sourceText_blockThenB {n : Nat} (block : n + 1 = chunkSize) :
    sourceText blockThenB.toList = List.replicate n 'a' ++ ['a', 'b'] := by
  rw [blockThenB, ← block, Array.toList_append, Array.toList_replicate, sourceText, List.map_append,
    List.map_replicate, List.replicate_succ', List.append_assoc]
  rfl

/-- The source comes in pieces, and the cursor comes to the second block, goes back and comes to it again. -/
theorem keeps_blocks_second :
    ∃ b : Buffer (Recorded FaultyReader), Travelled blockThenB.toList b 1 ∧
      b.pos.offset = chunkSize ∧ b.reset.pos.offset < chunkSize ∧
      Travelled blockThenB.toList b.reset.advance.2 1 ∧
      ∃ k, b.reset.advance.2.KeepsBlocks blockThenB.toList k 1 := by
  obtain ⟨n, whole⟩ : ∃ n, n + 1 = chunkSize := ⟨4095, rfl⟩
  let r := FaultyReader.ofBytes blockThenB ⟨some 1000, 3, none, false⟩ none
  have tells : Reader.Tells blockThenB.toList r := FaultyReader.tells _ _ _ (by decide)
  have delivers : Reader.Delivers blockThenB.toList r :=
    FaultyReader.delivers _ _ _ rfl rfl (by decide)
  obtain ⟨b₀, opened, start⟩ := new_splits (r := ⟨r, []⟩) (Recorded.delivers delivers) "a"
  rw [sourceText_blockThenB whole] at start
  obtain ⟨b₁, brink, splits⟩ := (Travelled.new tells opened).commits start
  have length : ([] ++ List.replicate n 'a').length = n := by simp
  generalize [] ++ List.replicate n 'a' = before at brink splits length
  have first : n / chunkSize = 0 := Nat.div_eq_of_lt (by omega)
  have second : (n + 1) / chunkSize = 1 := by
    rw [whole]
    exact Nat.div_self (by decide)
  obtain ⟨crossed, beyond⟩ := brink.advance_splits splits (by decide)
  obtain ⟨again, -⟩ := crossed.reset.advance_splits beyond.reset (by decide)
  rw [length, List.length_nil, Nat.add_zero, first, second] at crossed again
  refine ⟨b₁.advance.2, crossed, ?_, ?_, again, keeps_blocks again⟩
  · rw [beyond.pos, Position.offset_behind, List.length_append, length]
    exact whole
  · rw [beyond.reset.pos, Position.offset_behind, List.append_nil, length]
    omega

end Buffer

end Kaleidoscope
