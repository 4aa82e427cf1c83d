import Kaleidoscope.ScanError
import Kaleidoscope.Source.Chunk

/-!
# The buffer between a source and its lexemes

The buffer holds two chunks of the source. The near chunk holds the start of the current lexeme; the
cursor stands in it, or in the far chunk once the lexeme has run over. What lies between the start
and the cursor can be committed with `mark` or taken back with `reset`. A lexeme is shorter than a
chunk, so the cursor never comes round to the start.

An operation that can fail returns the buffer in either case: a session goes on after errors.
-/

namespace Kaleidoscope

/-- The longest lexeme. One character more could run over the start of the lexeme. -/
def maxLexeme : Nat := chunkSize - 1

structure Buffer (ρ : Type) where
  name : String
  reader : ρ
  near : Chunk
  far : Chunk
  /-- The near chunk is the second of the two. -/
  swapped : Bool
  /-- Where in the near chunk the lexeme starts. -/
  start : Nat
  /-- How many characters the lexeme has so far. -/
  extent : Nat
  startPos : Position
  pos : Position
  start_lt : start < chunkSize
  extent_le : extent ≤ maxLexeme

namespace Buffer

variable {ρ : Type}

/-- The cursor, counted from the start of the near chunk on into the far one. -/
def cursor (b : Buffer ρ) : Nat := b.start + b.extent

def chunk (b : Buffer ρ) : Chunk :=
  if b.cursor < chunkSize then b.near else b.far

def otherChunk (b : Buffer ρ) : Chunk :=
  if b.cursor < chunkSize then b.far else b.near

def index (b : Buffer ρ) : Nat :=
  if b.cursor < chunkSize then b.cursor else b.cursor - chunkSize

def peek (b : Buffer ρ) : Char := b.chunk.peek b.index

def AtEnd (b : Buffer ρ) : Prop := b.chunk.EndsAt b.index

instance (b : Buffer ρ) : Decidable b.AtEnd :=
  inferInstanceAs (Decidable (b.chunk.EndsAt b.index))

def hasMore (b : Buffer ρ) : Bool := !decide b.AtEnd

theorem index_lt (b : Buffer ρ) : b.index < chunkSize := by
  have := b.start_lt
  have := b.extent_le
  unfold index cursor maxLexeme chunkSize at *
  split <;> omega

/-- Commits what the cursor has passed: the next lexeme starts at the cursor. -/
def mark (b : Buffer ρ) : Buffer ρ where
  name := b.name
  reader := b.reader
  near := b.chunk
  far := b.otherChunk
  swapped := if b.cursor < chunkSize then b.swapped else !b.swapped
  start := b.index
  extent := 0
  startPos := b.pos
  pos := b.pos
  start_lt := b.index_lt
  extent_le := Nat.zero_le _

/-- Takes back what the cursor has passed since the last commit. -/
def reset (b : Buffer ρ) : Buffer ρ :=
  { b with extent := 0, pos := b.startPos, extent_le := Nat.zero_le _ }

/-- The text of the current lexeme; none if the near chunk no longer reaches as far as the start of a
lexeme that runs over it. -/
def lexeme? (b : Buffer ρ) : Option (List Char) :=
  if b.cursor < chunkSize then some (b.near.slice b.start b.cursor)
  else if b.start ≤ b.near.length then
    some (b.near.slice b.start b.near.length ++ b.far.slice 0 (b.cursor - chunkSize))
  else none

def lexeme (b : Buffer ρ) : List Char := b.lexeme?.getD []

variable [Reader ρ]

def loadNear (b : Buffer ρ) : Except ScanError Unit × Buffer ρ :=
  match b.near.load b.near.nextStamp b.reader with
  | (.ok (), near, reader) => (.ok (), { b with near := near, reader := reader })
  | (.error cause, near, reader) =>
    (.error (.cannotRead cause), { b with near := near, reader := reader })

def loadFar (b : Buffer ρ) : Except ScanError Unit × Buffer ρ :=
  if b.far.Follows b.near then (.ok (), b)
  else
    match b.far.load b.near.nextStamp b.reader with
    | (.ok (), far, reader) => (.ok (), { b with far := far, reader := reader })
    | (.error cause, far, reader) =>
      (.error (.cannotRead cause), { b with far := far, reader := reader })

def new (reader : ρ) (name : String) : Except ScanError (Buffer ρ) :=
  let b : Buffer ρ :=
    { name := name, reader := reader, near := .blank, far := .blank, swapped := false
      start := 0, extent := 0, startPos := .start, pos := .start
      start_lt := by decide, extent_le := by decide }
  match b.loadNear with
  | (.ok (), b) => .ok b
  | (.error e, _) => .error e

def step (b : Buffer ρ) (c : Char) (room : b.extent < maxLexeme) : Buffer ρ :=
  { b with extent := b.extent + 1, pos := b.pos.after c, extent_le := room }

/-- Reads the character under the cursor and moves past it. At the end of the source nothing moves. -/
def advance (b : Buffer ρ) : Except ScanError Char × Buffer ρ :=
  if b.AtEnd then (.ok endMark, b)
  else if room : b.extent < maxLexeme then
    let c := b.peek
    let moved := b.step c room
    if moved.cursor = chunkSize then
      match moved.loadFar with
      | (.ok (), b') => (.ok c, b')
      -- the cursor has moved, though the chunk in which it stands could not be loaded
      | (.error e, b') => (.error e, b')
    else (.ok c, moved)
  else (.error (.lexemeTooLong b.startPos), b)

def probe (b : Buffer ρ) : List Char → Except ScanError Bool × Buffer ρ
  | [] => (.ok true, b)
  | expected :: pattern =>
    match b.advance with
    -- the character that differs has been passed
    | (.ok c, b') => if c = expected then probe b' pattern else (.ok false, b')
    | (.error e, b') => (.error e, b')

/-- Whether the source goes on with `pattern`. An answer takes the cursor back to the start of the
lexeme, so the question is meant for a cursor that stands there. -/
def startsWith (b : Buffer ρ) (pattern : String) : Except ScanError Bool × Buffer ρ :=
  match b.probe pattern.toList with
  | (.ok found, b') => (.ok found, b'.reset)
  -- an error leaves the cursor where it is
  | (.error e, b') => (.error e, b')

def restarted (b : Buffer ρ) (reader : ρ) : Buffer ρ :=
  { b with
    reader := reader
    near := (if b.swapped then b.far else b.near).drop
    far := (if b.swapped then b.near else b.far).drop
    swapped := false
    start := 0, extent := 0, startPos := .start, pos := .start
    start_lt := by decide, extent_le := by decide }

def rewind (b : Buffer ρ) : Except ScanError Unit × Buffer ρ :=
  match Reader.toStart b.reader with
  -- what has been read stays where the reader cannot go back
  | (.error cause, reader) => (.error (.cannotRead cause), { b with reader := reader })
  | (.ok (), reader) => (b.restarted reader).loadNear

def switchTo (b : Buffer ρ) (reader : ρ) (name : String) : Except ScanError Unit × Buffer ρ :=
  rewind { b with reader := reader, name := name }

end Buffer

end Kaleidoscope
