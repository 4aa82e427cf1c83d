/-!
# Log records

What the library tells a log about its work. An operation that logs returns its records beside
its result, in the order in which they arose.
-/

namespace Kaleidoscope

inductive Level
  | debug
  | trace
  | warn
deriving DecidableEq, Repr

def Level.toText : Level → String
  | .debug => "DEBUG"
  | .trace => "TRACE"
  | .warn => "WARN"

structure Record where
  level : Level
  message : String
deriving DecidableEq, Repr

def Record.toText (r : Record) : String :=
  r.level.toText ++ " " ++ r.message

end Kaleidoscope
