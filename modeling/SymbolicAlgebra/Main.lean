import SymbolicAlgebra.Scalar.Binary64
import SymbolicAlgebra.Session.Basic

/-!
# The program

The command line: files and the standard streams. Everything else is `Session.run`.
-/

namespace SymbolicAlgebra.Session

/-- The cause that the platform gives for not reading a file. A path that goes on below a file and a
directory are told apart by their numbers, 20 and 21, of which the platform may give the first as
a negative word. -/
def FileFault.ofError : IO.Error → FileFault
  | .noFileOrDirectory .. => missing
  | .permissionDenied .. => denied
  | .inappropriateType _ code _ => if code = 21 ∨ code = -21 then isDirectory else notDirectory
  | .invalidArgument (some _) _ _ => nameTooLong
  | failure => other (toString failure)

/-- The text that bytes stand for. -/
def decode (bytes : ByteArray) : Except FileFault String :=
  match String.fromUTF8? bytes with
  | some text => .ok text
  | none => .error .notText

/-- Reads a file, or tells why it cannot be read. -/
def readFile (path : String) : IO (Except FileFault String) := do
  match ← (IO.FS.readBinFile path).toBaseIO with
  | .ok bytes => return decode bytes
  | .error failure => return .error (.ofError failure)

/-- Reads the standard input to its end, or tells why it cannot be read. -/
def readInput : IO (Except FileFault String) := do
  match ← ((← IO.getStdin).readBinToEnd).toBaseIO with
  | .ok bytes => return decode bytes
  | .error failure => return .error (.ofError failure)

end SymbolicAlgebra.Session

open SymbolicAlgebra in
/-- Runs the program. -/
def main (arguments : List String) : IO UInt32 := do
  let outcome ← Session.run Float Session.readFile Session.readInput arguments
  IO.print outcome.output
  for line in outcome.errors do
    IO.eprintln line
  return if outcome.success then 0 else 1
