import HeaderHints.CommandLine

/-!
# The program

Runs the command line against the files of the system.
-/

namespace HeaderHints

/-- A reason of the system with its number, which may come with its sign turned. -/
def systemReason (code : UInt32) (details : String) : Text :=
  let number := if code < 0x80000000 then code else 0 - code
  details.capitalize.toList ++ " (os error ".toList ++ Decimal.write number.toNat ++ [')']

/-- Read a file as text. -/
def readFile (path : Text) : IO (Except CommandLine.ReadFailure Text) := do
  try
    let contents ← IO.FS.readBinFile (String.ofList path)
    match String.fromUTF8? contents with
    | some text => return .ok text.toList
    | none => return .error .notText
  catch
    | .noFileOrDirectory .. => return .error .missing
    | .permissionDenied .. => return .error .forbidden
    | .inappropriateType _ code details => return .error (.other (systemReason code details))
    | e => return .error (.other e.toString.toList)

end HeaderHints

/-- Print what the command line gives for the arguments. -/
def main (args : List String) : IO UInt32 := do
  let outcome ← HeaderHints.CommandLine.run HeaderHints.readFile (args.map String.toList)
  (← IO.getStdout).putStr (String.ofList outcome.out)
  (← IO.getStderr).putStr (String.ofList outcome.err)
  return outcome.code.toUInt32
