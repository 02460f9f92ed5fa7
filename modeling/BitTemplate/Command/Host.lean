/-!
Hosts: where a command reads its inputs and writes its files. The operations are a record over a monad, so a command is
the same function on a real system and on files in memory.
-/

namespace BitTemplate.Command

/-- Why a file cannot be read or written. -/
inductive HostFault where
  | notFound
  | isDirectory
  | notDirectory
  | denied
  | nameTooLong
  /-- Any other reason, with its text and number. -/
  | other (text : String) (number : Nat)
deriving DecidableEq, Repr

namespace HostFault

/-- The number of a reason in the system's list. -/
def number : HostFault → Nat
  | .notFound => 2
  | .denied => 13
  | .notDirectory => 20
  | .isDirectory => 21
  | .nameTooLong => 36
  | .other _ number => number

/-- The reason with a number in the system's list; the text is for a number without a reason of its own. -/
def ofNumber (number : Nat) (text : String) : HostFault :=
  ([.notFound, .denied, .notDirectory, .isDirectory, .nameTooLong].find? (·.number = number)).getD (.other text number)

/-- The system's text for a reason. -/
def text : HostFault → String
  | .notFound => "No such file or directory"
  | .denied => "Permission denied"
  | .notDirectory => "Not a directory"
  | .isDirectory => "Is a directory"
  | .nameTooLong => "File name too long"
  | .other text _ => text

/-- The wording of a reason. -/
def message (fault : HostFault) : String :=
  fault.text ++ " (os error " ++ toString fault.number ++ ")"

end HostFault

/-- The operations of a host. -/
structure Host (m : Type → Type) where
  /-- All of the standard input. -/
  readInput : m (Except HostFault (List UInt8))
  /-- The bytes of the file at a path. -/
  readFile : (path : String) → m (Except HostFault (List UInt8))
  /-- Writes a file, in the place of one at the same path. -/
  writeFile : (path : String) → (bytes : List UInt8) → m (Except HostFault Unit)

end BitTemplate.Command
