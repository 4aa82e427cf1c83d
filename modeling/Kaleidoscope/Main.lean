import Kaleidoscope.Command

/-!
# The command line
-/

namespace Kaleidoscope

def errorNumber (code : UInt32) : UInt32 :=
  -- some functions report it negated
  if code < 2147483648 then code else 0 - code

def SystemError.ofException (e : IO.Error) : SystemError :=
  match e with
  | .noFileOrDirectory .. => .notFound
  | .alreadyExists .. => .fileExists
  | .inappropriateType _ code _ => if errorNumber code = 21 then .isADirectory else .notADirectory
  | .invalidArgument _ code _ => if errorNumber code = 36 then .nameTooLong else .other (toString e)
  | e => .other (toString e)

def attempt {α : Type} (act : IO α) : IO (Except SystemError α) := do
  match ← act.toBaseIO with
  | .ok a => pure (.ok a)
  | .error e => pure (.error (.ofException e))

instance : Host IO where
  openFile path := do
    match ← attempt (IO.FS.readBinFile path) with
    | .ok content => pure (.ok (.ofEntry (.file content)))
    | .error .isADirectory => pure (.ok .directory)
    | .error e => pure (.error e)
  makeDirectories path := attempt (IO.FS.createDirAll path.toText)
  createFile path := attempt (IO.FS.writeBinFile path .empty)
  sameFile file path := do pure ((← IO.FS.realPath file) == (← IO.FS.realPath path))
  writeFile path text := IO.FS.writeFile path text
  print text := do
    let out ← IO.getStdout
    out.putStr text
    out.flush
  complain text := IO.eprint text

end Kaleidoscope

def main (args : List String) : IO UInt32 :=
  match Kaleidoscope.Command.ofArgs? args with
  | some command => command.run
  | none => do
    IO.eprintln "usage: kaleidoscope lex|parse FILE [OUTPUT]"
    pure 2
