import AtomLogic.CommandLine

/-! The program itself: carries out the run that its arguments ask for. -/

namespace AtomLogic

def faultOf : IO.Error → FileFault
  | .noFileOrDirectory _ code details => .system details code.toNat
  | .inappropriateType _ code details => .system details code.toNat
  | .permissionDenied _ code details => .system details code.toNat
  | .invalidArgument _ code details => .system details code.toNat
  | .resourceExhausted _ code details => .system details code.toNat
  | .noSuchThing _ code details => .system details code.toNat
  | .alreadyExists _ code details => .system details code.toNat
  | .otherError code details => .system details code.toNat
  | .unsatisfiedConstraints code details => .system details code.toNat
  | .illegalOperation code details => .system details code.toNat
  | .unsupportedOperation code details => .system details code.toNat
  | error => .system (toString error) 0

def attempt {α : Type} (action : IO α) : IO (Except FileFault α) := do
  match ← action.toBaseIO with
  | .ok result => return .ok result
  | .error error => return .error (faultOf error)

def emit (output : Output) : IO Unit := do
  let stdout ← IO.getStdout
  let stderr ← IO.getStderr
  stdout.putStr output.out
  stdout.flush
  stderr.putStr output.err
  stderr.flush

/-- The next line of the input, or no bytes at its end. -/
partial def nextLine (input : IO.FS.Stream) (line : ByteArray) : IO ByteArray := do
  let found ← input.read 1
  if found.isEmpty then return line
  let line := line ++ found
  if found.toList = [10] then return line
  nextLine input line

partial def converse (input : IO.FS.Stream) (conversation : Conversation) : IO Bool := do
  let line ← nextLine input .empty
  if line.isEmpty then return false
  match conversation.hear line with
  | .next output conversation =>
    emit output
    converse input conversation
  | .last output failed =>
    emit output
    return failed

def perform : Run → IO Bool
  | .stop outcome => do
    emit outcome.output
    return outcome.failed
  | .readFile path next => do
    if path.toList.contains '\x00' then perform (next (.error .nulInName))
    else perform (next (← attempt (IO.FS.withFile path .read (·.readBinToEnd))))
  | .readInput next => do
    perform (next (← (← IO.getStdin).readBinToEnd))
  | .writeFile path text next => do
    perform (next (← attempt (IO.FS.writeFile path text)))
  | .converse conversation => do
    converse (← IO.getStdin) conversation

end AtomLogic

def main (arguments : List String) : IO UInt32 := do
  let failed ← AtomLogic.perform (.ofArguments arguments)
  return if failed then 1 else 0
