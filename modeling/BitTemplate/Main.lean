import BitTemplate.Command.Execute

/-!
The program: it takes its arguments, reads and writes files, and prints the end of the command.
-/

namespace BitTemplate.Command

/-- The reason in an error of the system, whose numbers may be negative ones in 32 bits. -/
def HostFault.ofError (error : IO.Error) : HostFault :=
  match error with
  | .noFileOrDirectory .. => .notFound
  | .permissionDenied _ code text | .resourceExhausted _ code text | .inappropriateType _ code text
  | .noSuchThing _ code text | .invalidArgument _ code text | .otherError code text =>
    .ofNumber code.toInt32.toInt.natAbs text
  | error => .other (toString error) 5

/-- The operations of the system. -/
def systemHost : Host IO where
  readInput := attempt do
    return (← (← IO.getStdin).readBinToEnd).toList
  readFile path := attempt do
    return (← IO.FS.readBinFile path).toList
  writeFile path bytes := attempt do
    IO.FS.writeBinFile path ⟨bytes.toArray⟩
where
  /-- An action with its failure as an answer. -/
  attempt {α : Type} (action : IO α) : IO (Except HostFault α) := do
    match ← action.toBaseIO with
    | .ok a => return .ok a
    | .error error => return .error (.ofError error)

end BitTemplate.Command

open BitTemplate.Command in
/-- Executes the request of the arguments. -/
def main (arguments : List String) : IO UInt32 := do
  let output ← IO.getStdout
  let errors ← IO.getStderr
  match Request.ofArguments? arguments with
  | none =>
    errors.putStrLn "error: the arguments form no request"
    return 2
  | some request =>
    let outcome ← request.execute systemHost ⟨← output.isTty, ← errors.isTty⟩
    output.putStr outcome.output
    output.flush
    errors.putStr outcome.errors
    return outcome.code.toUInt32
