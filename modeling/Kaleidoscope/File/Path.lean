import Kaleidoscope.SystemError

/-!
# Paths

A path is a text of names with slashes between them. Empty names and dots in it name nothing of
their own, except that a leading dot is the working directory.
-/

namespace Kaleidoscope

structure Path where
  pieces : List String
deriving DecidableEq, Repr

namespace Path

/-- The longest name, and the longest path, that the system takes. -/
def maxName : Nat := 255
def maxPath : Nat := 4095

def ofText (text : String) : Path := ⟨text.splitOn "/"⟩

def toText (p : Path) : String := String.intercalate "/" p.pieces

def refused? (text : String) : Option SystemError :=
  if text.toList.contains '\x00' then some .nulInName
  else if text.isEmpty then some .notFound
  else if maxPath < text.utf8ByteSize then some .nameTooLong
  else none

def isAbsolute (p : Path) : Bool :=
  match p.pieces with
  | "" :: _ :: _ => true
  | _ => false

def names (p : Path) : List String := p.pieces.filter (!·.isEmpty)

def wantsDirectory (p : Path) : Bool := p.pieces.getLast? == some ""

def trimmed : List String → List String
  | [] => []
  | piece :: rest =>
    match trimmed rest with
    | [] => if piece == "" then [] else [piece]
    | rest' => piece :: rest'

/-- The pieces that name something: all but empty ones and dots behind the first piece. -/
def significant : List String → List String
  | [] => []
  | first :: rest => first :: rest.map fun piece => if piece == "." then "" else piece

def parent? (p : Path) : Option Path :=
  match (trimmed (significant p.pieces)).length with
  | 0 => none
  | n + 1 => some ⟨p.pieces.take (trimmed ((significant p.pieces).take n)).length⟩

theorem length_trimmed_le (pieces : List String) : (trimmed pieces).length ≤ pieces.length := by
  induction pieces with
  | nil => exact Nat.le_refl _
  | cons piece rest ih =>
    unfold trimmed
    split
    · split <;> simp
    · rename_i rest' _
      simp only [List.length_cons]
      omega

theorem length_parent_lt {p up : Path} (h : p.parent? = some up) :
    up.pieces.length < p.pieces.length := by
  have whole := length_trimmed_le (significant p.pieces)
  have size : (significant p.pieces).length = p.pieces.length := by
    cases p.pieces <;> simp [significant]
  simp only [parent?] at h
  split at h
  · cases h
  · rename_i n eq
    cases h
    have part := length_trimmed_le ((significant p.pieces).take n)
    simp only [List.length_take] at part ⊢
    omega

end Path

end Kaleidoscope
