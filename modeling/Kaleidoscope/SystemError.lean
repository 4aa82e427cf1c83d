/-!
# Errors of the system

Why a file, a reader or a writer could not do what it was asked to do.
-/

namespace Kaleidoscope

inductive SystemError
  | notFound
  | fileExists
  | notADirectory
  | isADirectory
  | fileTooLarge
  | nameTooLong
  /-- A file name with a NUL in it, which no system call can take. -/
  | nulInName
  /-- An error that a reader or writer reports in words of its own. -/
  | other (text : String)
deriving DecidableEq, Repr

def SystemError.message : SystemError → String
  | notFound => "No such file or directory (os error 2)"
  | fileExists => "File exists (os error 17)"
  | notADirectory => "Not a directory (os error 20)"
  | isADirectory => "Is a directory (os error 21)"
  | fileTooLarge => "File too large (os error 27)"
  | nameTooLong => "File name too long (os error 36)"
  | nulInName => "file name contained an unexpected NUL byte"
  | other text => text

end Kaleidoscope
