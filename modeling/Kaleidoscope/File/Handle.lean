import Kaleidoscope.File.Tree
import Kaleidoscope.Source.Reader

/-!
# Open files

A file is opened by its path and read from its start. A directory can be opened as well, but not
read.
-/

namespace Kaleidoscope

inductive FileHandle
  | directory
  | file (reader : ByteReader)

namespace FileHandle

def ofEntry : FileEntry → FileHandle
  | .directory => .directory
  | .file content => .file (.ofBytes content.data)

instance : Reader FileHandle where
  read
    | .directory, _ => (.failed .isADirectory, .directory)
    | .file r, n => ((.bytes (r.read n).1), .file (r.read n).2)
  toStart
    | .directory => (.ok (), .directory)
    | .file r => (.ok (), .file { r with offset := 0 })
  remaining
    | .directory => 0
    | .file r => Reader.remaining r
  patience _ := 0
  read_bytes {h _ n _} eq := by
    cases h with
    | directory => cases eq
    | file r =>
      cases eq
      exact Reader.read_bytes (r := r) (n := n) rfl
  read_interrupted {h _ _} eq := by cases h <;> cases eq
  read_failed {h _ _ _} eq := by
    cases h <;> cases eq
    exact Nat.le_refl _

def withContent (content : Array UInt8) : FileHandle → FileHandle
  | .directory => .directory
  | .file r => .file { r with content := content }

end FileHandle

def FileTree.openFile (t : FileTree) (path : String) : Except SystemError FileHandle :=
  (t.lookup path).map FileHandle.ofEntry

end Kaleidoscope
