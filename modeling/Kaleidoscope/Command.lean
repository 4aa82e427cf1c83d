import Kaleidoscope.Session
import Kaleidoscope.Token.InPlace
import Kaleidoscope.Tree.Printing

/-!
# The commands

`lex FILE [OUTPUT]` writes the tokens of a file, `parse FILE [OUTPUT]` its syntax trees. What they
need of the system is a class, so that the same commands run on the files of the system and on a
file tree.
-/

namespace Kaleidoscope

class Host (m : Type → Type) where
  openFile : String → m (Except SystemError FileHandle)
  makeDirectories : Path → m (Except SystemError Unit)
  createFile : String → m (Except SystemError Unit)
  /-- Whether two paths lead to one file. -/
  sameFile : String → String → m Bool
  writeFile : String → String → m Unit
  print : String → m Unit
  complain : String → m Unit

inductive Command
  | lex (file : String) (output : Option String)
  | parse (file : String) (output : Option String)
deriving DecidableEq, Repr

namespace Command

/-- The operands among arguments: all behind the first double dash, and before it those that do not
look like options, of which there are none. A lone dash is an operand. -/
def operands? : List String → Option (List String)
  | [] => some []
  | arg :: args =>
    if arg = "--" then some args
    else if arg.startsWith "-" && arg != "-" then none
    else (operands? args).map (arg :: ·)

def ofArgs? (args : List String) : Option Command :=
  match args with
  | [] => none
  | name :: rest =>
    match operands? rest with
    | some operands =>
      -- an empty operand is no path
      if operands.any (·.isEmpty) then none
      else
        match name, operands with
        | "lex", [file] => some (.lex file none)
        | "lex", [file, output] => some (.lex file (some output))
        | "parse", [file] => some (.parse file none)
        | "parse", [file, output] => some (.parse file (some output))
        | _, _ => none
    | none => none

end Command

/-- Why a command failed: a message and the causes behind it, the nearest first. -/
structure Failure where
  message : String
  causes : List String
deriving DecidableEq, Repr

namespace Failure

def causeLine (number : Option Nat) (cause : String) : String :=
  let lines := cause.splitOn "\n"
  -- a cause is numbered if there are several, and its further lines are indented as far as the first
  match number with
  | none => "    " ++ String.intercalate "\n    " lines
  | some n =>
    String.ofList (List.replicate (5 - (toString n).length) ' ') ++ toString n ++ ": " ++
      String.intercalate "\n       " lines

def causeLines : List String → List String
  | [] => []
  | [cause] => ["", "Caused by:", causeLine none cause]
  | causes => "" :: "Caused by:" :: causes.mapIdx fun i cause => causeLine (some i) cause

def toText (f : Failure) : String :=
  String.intercalate "\n" (("Error: " ++ f.message) :: causeLines f.causes) ++ "\n"

def ofScanError (e : ScanError) : Failure :=
  ⟨e.message, (e.cause?.map (·.message)).toList⟩

def ofParseError : ParseError → Failure
  | .wrong e => ⟨(ParseError.wrong e).message, []⟩
  | .lexical e =>
    let inner := ofScanError e
    ⟨(ParseError.lexical e).message, inner.message :: inner.causes⟩

def within (message : String) (f : Failure) : Failure :=
  ⟨message, f.message :: f.causes⟩

end Failure

namespace Command

variable {m : Type → Type} [Monad m] [Host m]

def createOutput : Option String → m (Except Failure Unit)
  | none => pure (.ok ())
  | some path => do
    let directory := ((Path.ofText path).parent?.map (·.toText)).getD ""
    let made ← if directory.isEmpty then pure (.ok ()) else Host.makeDirectories (.ofText directory)
    match made with
    | .error e =>
      pure (.error ⟨"failed to create directory '" ++ directory ++ "'", [e.message]⟩)
    | .ok () =>
      match ← Host.createFile path with
      | .error e => pure (.error ⟨"failed to create '" ++ path ++ "'", [e.message]⟩)
      | .ok () => pure (.ok ())

def write : Option String → String → m Unit
  | none, text => Host.print text
  | some path, text => Host.writeFile path text

def overwrites (file : String) : Option String → m Bool
  | none => pure false
  | some path => Host.sameFile file path

def lexFile (file : String) (output : Option String) : m (Except Failure Unit) := do
  match TokenStream.ofFile file (← Host.openFile file) with
  | .error e => pure (.error (.ofScanError e))
  | .ok stream =>
    match ← createOutput output with
    | .error f => pure (.error f)
    | .ok () =>
      let (failure, tokens) :=
        if ← overwrites file output then stream.allInPlace
        else
          let (failure, tokens, _) := stream.all
          (failure, tokens)
      write output (String.join (tokens.toList.map TokenStream.line))
      match failure with
      | some e => pure (.error ((Failure.ofScanError e).within ("failed to tokenize '" ++ file ++ "'")))
      | none => pure (.ok ())

def parseFile (file : String) (output : Option String) : m (Except Failure Unit) := do
  match Parser.ofFile file (← Host.openFile file) with
  | .error e => pure (.error (.ofParseError e))
  | .ok parser =>
    let failed := "failed to parse '" ++ file ++ "'"
    let parsed := parser.parse
    match parsed.result, parsed.state.diagnostics with
    | .error e, _ => pure (.error ((Failure.ofParseError e).within failed))
    | .ok items, [] =>
      match ← createOutput output with
      | .error f => pure (.error f)
      | .ok () =>
        write output (String.join (items.map Item.toText))
        pure (.ok ())
    | .ok _, diagnostics =>
      for e in diagnostics do
        Host.complain (file ++ ": " ++ e.message ++ "\n")
      pure (.error ⟨failed ++ ": " ++ toString diagnostics.length ++ " syntax error(s)", []⟩)

def run (c : Command) : m UInt32 := do
  let result ← match c with
    | lex file output => lexFile file output
    | parse file output => parseFile file output
  match result with
  | .ok () => pure 0
  | .error f =>
    Host.complain f.toText
    pure 1

end Command

/-! ## Running on a file tree -/

structure World where
  tree : FileTree
  printed : String
  complaints : String

namespace World

def ofTree (tree : FileTree) : World := ⟨tree, "", ""⟩

instance : Host (StateM World) where
  openFile path := do pure ((← get).tree.openFile path)
  makeDirectories path := do
    let (result, tree) := (← get).tree.makeDirectories path
    modify ({ · with tree := tree })
    pure result
  createFile path := do
    match (← get).tree.createFile path with
    | .ok tree =>
      modify ({ · with tree := tree })
      pure (.ok ())
    | .error e => pure (.error e)
  sameFile file path := do pure ((← get).tree.sameFile file path)
  writeFile path text :=
    modify fun w => { w with tree := w.tree.writeFile path text.toUTF8 }
  print text := modify fun w => { w with printed := w.printed ++ text }
  complain text := modify fun w => { w with complaints := w.complaints ++ text }

end World

end Kaleidoscope
