import Kaleidoscope.File.Path

/-!
# File trees

Files and directories below a root. One directory is the working directory of whoever uses the tree.
-/

namespace Kaleidoscope

inductive FileEntry
  | directory
  | file (content : ByteArray)

/-- The entries below the root, each under the names that lead to it from there. -/
structure FileTree where
  home : List String
  entries : List (List String × FileEntry)

namespace FileTree

def bare (home : List String) : FileTree :=
  ⟨home, (List.range home.length).map fun i => (home.take (i + 1), .directory)⟩

def entry? (t : FileTree) (names : List String) : Option FileEntry :=
  if names.isEmpty then some .directory
  else (t.entries.find? (·.1 == names)).map (·.2)

def put (t : FileTree) (names : List String) (entry : FileEntry) : FileTree :=
  if t.entries.any (·.1 == names) then
    { t with entries := t.entries.map fun e => if e.1 == names then (names, entry) else e }
  else { t with entries := t.entries ++ [(names, entry)] }

def enter (t : FileTree) (place : List String) : Except SystemError Unit :=
  match t.entry? place with
  | none => .error .notFound
  | some (.file _) => .error .notADirectory
  | some .directory => .ok ()

def child (place : List String) (name : String) : Except SystemError (List String) :=
  if Path.maxName < name.utf8ByteSize then .error .nameTooLong else .ok (place ++ [name])

def follow (t : FileTree) (place : List String) (name : String) :
    Except SystemError (List String) := do
  t.enter place
  if name = "." then .ok place
  -- the root is above itself
  else if name = ".." then .ok place.dropLast
  else child place name

def walk (t : FileTree) (place : List String) (names : List String) :
    Except SystemError (List String) :=
  names.foldlM t.follow place

def origin (t : FileTree) (p : Path) : List String := if p.isAbsolute then [] else t.home

def find (t : FileTree) (text : String) : Except SystemError (List String × FileEntry) :=
  match Path.refused? text with
  | some e => .error e
  | none => do
    let path := Path.ofText text
    let place ← t.walk (t.origin path) path.names
    match t.entry? place, path.wantsDirectory with
    | none, _ => .error .notFound
    | some (.file _), true => .error .notADirectory
    | some entry, _ => .ok (place, entry)

def lookup (t : FileTree) (text : String) : Except SystemError FileEntry :=
  (t.find text).map (·.2)

def sameFile (t : FileTree) (a b : String) : Bool :=
  match t.find a, t.find b with
  | .ok (place, _), .ok (place', _) => place == place'
  | _, _ => false

def isDirectory (t : FileTree) (text : String) : Bool :=
  match t.lookup text with
  | .ok .directory => true
  | _ => false

inductive LastStep
  /-- The path ends at a directory that is there whatever its name. -/
  | standing
  | named (directory : List String) (name : String)

def lastStep (t : FileTree) (text : String) : Except SystemError LastStep :=
  match Path.refused? text with
  | some e => .error e
  | none => do
    let path := Path.ofText text
    match path.names.getLast? with
    | none => .ok .standing
    | some name =>
      let place ← t.walk (t.origin path) path.names.dropLast
      t.enter place
      .ok (if name = "." ∨ name = ".." then .standing else .named place name)

def makeDirectory (t : FileTree) (text : String) : Except SystemError FileTree := do
  match ← t.lastStep text with
  | .standing => .error .fileExists
  | .named place name =>
    let names ← child place name
    match t.entry? names with
    | none => .ok (t.put names .directory)
    | some _ => .error .fileExists

def makeDirectories (t : FileTree) (path : Path) : Except SystemError Unit × FileTree :=
  match t.makeDirectory path.toText with
  | .ok t' => (.ok (), t')
  | .error .notFound =>
    match h : path.parent? with
    | none => (.error .notFound, t)
    | some up =>
      if up.toText.isEmpty then (.error .notFound, t)
      else
        have _shorter := Path.length_parent_lt h
        -- what has been made above stays, whatever becomes of the directory itself
        match makeDirectories t up with
        | (.error e, t') => (.error e, t')
        | (.ok (), t') =>
          match t'.makeDirectory path.toText with
          | .ok t'' => (.ok (), t'')
          | .error e => (if t'.isDirectory path.toText then .ok () else .error e, t')
  | .error e => (if t.isDirectory path.toText then .ok () else .error e, t)
termination_by path.pieces.length

def fileTarget (t : FileTree) (text : String) : Except SystemError (List String) := do
  match ← t.lastStep text with
  | .standing => .error .isADirectory
  | .named place name =>
    -- a slash behind the name is refused before the name is looked at
    if (Path.ofText text).wantsDirectory then .error .isADirectory
    else
      let names ← child place name
      match t.entry? names with
      | some .directory => .error .isADirectory
      | _ => .ok names

def createFile (t : FileTree) (text : String) : Except SystemError FileTree := do
  let names ← t.fileTarget text
  .ok (t.put names (.file .empty))

def writeFile (t : FileTree) (text : String) (content : ByteArray) : FileTree :=
  match t.fileTarget text with
  | .ok names => t.put names (.file content)
  | .error _ => t

end FileTree

end Kaleidoscope
