/-
The program on the files of the system.
-/
import StreamQuery.CommandLine.Run

namespace StreamQuery

/-- The number of an error of the system, which some calls give with the opposite sign. -/
def errorNumber (code : UInt32) : Nat :=
  if code.toNat < Nat.pow 2 31 then code.toNat else Nat.pow 2 32 - code.toNat

/-- The fault behind an error of the system. -/
def faultOf (e : IO.Error) : FileFault :=
  match e with
  | .noFileOrDirectory _ _ _ => .notFound
  | .inappropriateType _ code _ | .invalidArgument _ code _ =>
    match errorNumber code with
    | 20 => .notDirectory
    | 21 => .isDirectory
    | 36 => .nameTooLong
    | _ => .other e.toString
  | _ => .other e.toString

/-- Reads a file of the system. -/
def readFile : CommandLine.Reader IO := fun path => do
  if '\x00' ∈ path.toList then return .error .nulInPath
  tryCatch ((IO.FS.readBinFile path).map fun bytes => .ok bytes.data.toList) fun e =>
    return .error (faultOf e)

end StreamQuery

/-- Runs the program: the output goes to the standard output, and the text of a failure to the
standard error. -/
def main (arguments : List String) : IO UInt32 := do
  let ending ← StreamQuery.CommandLine.execute StreamQuery.readFile arguments
  IO.print ending.output
  if let some failure := ending.failure then IO.eprintln failure
  return ending.exitCode.toUInt32
