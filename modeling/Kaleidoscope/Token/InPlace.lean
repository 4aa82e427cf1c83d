import Kaleidoscope.File.Handle
import Kaleidoscope.File.Staging
import Kaleidoscope.Token.Stream

/-!
# Tokens written over their own source

The tokens of a file may be written to that file. From then on the stream finds in the file what has
come out of the staging area. What it finds there can be more than it has read, so only the size of
a file bounds the tokens.
-/

namespace Kaleidoscope.TokenStream

def maxFileSize : Nat := 9223372036854775807

def withContent (s : TokenStream FileHandle) (content : Array UInt8) : TokenStream FileHandle :=
  -- what the buffer has read stays
  { s with buffer := { s.buffer with reader := s.buffer.reader.withContent content } }

theorem size_lt_line (out : StagedFile) (t : Token) :
    out.size < (out.writeAll (linePieces t)).size := by
  rw [StagedFile.size_writeAll, linePieces, String.join_append, String.utf8ByteSize_append]
  have : (String.join ["\n"]).utf8ByteSize = 1 := by decide +kernel
  omega

/-- Appends to `tokens` those that are left. Each is written to `out`, the file that the stream
reads. -/
def inPlace (s : TokenStream FileHandle) (out : StagedFile) (tokens : Array Token) :
    Option ScanError × Array Token :=
  match (s.withContent out.stored).next with
  | (.error e, _) => (some e, tokens)
  | (.ok t, s') =>
    let out' := out.writeAll (linePieces t)
    have _grows : out.size < out'.size := size_lt_line out t
    if t.isEnd then (none, tokens.push t)
    else if _fits : out'.size ≤ maxFileSize then inPlace s' out' (tokens.push t)
    else (some (.cannotWrite .fileTooLarge), tokens)
termination_by maxFileSize - out.size
decreasing_by exact Nat.sub_lt_sub_left (Nat.lt_of_lt_of_le _grows _fits) _grows

def allInPlace (s : TokenStream FileHandle) : Option ScanError × Array Token :=
  -- the file has been emptied for its tokens
  s.inPlace .empty #[]

end Kaleidoscope.TokenStream
