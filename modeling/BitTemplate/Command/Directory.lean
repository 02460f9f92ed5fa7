import BitTemplate.Command.Host

/-!
A host in memory: a directory of files and the bytes of the standard input. A path is a list of names; a list that some
file's path extends is a directory.
-/

namespace BitTemplate.Command

/-- The files of a directory by their paths in it, and the standard input. -/
structure Directory where
  files : List (List String × List UInt8)
  input : List UInt8
deriving DecidableEq, Repr

/-- What stands at a path. -/
inductive Directory.Entry where
  | file (bytes : List UInt8)
  | directory
  /-- Nothing, in a directory that exists. -/
  | vacant
  | unreachable (fault : HostFault)
deriving DecidableEq, Repr

namespace Directory

/-- The names of a path; an empty name or a single dot stays where it is. -/
def names (path : String) : List String :=
  (path.splitOn "/").filter fun name => name ≠ "" ∧ name ≠ "."

/-- The longest name of a file, in bytes. -/
def maxNameBytes : Nat := 255

/-- Whether a path ends as the path of a directory does. -/
def namesDirectory (path : String) : Bool :=
  path.endsWith "/" || path.endsWith "/."

/-- Whether some names are a directory. -/
def isDirectory (d : Directory) (names : List String) : Bool :=
  names.isEmpty || d.files.any fun (path, _) => names.isPrefixOf path && names != path

/-- What stands at a path. -/
def entry (d : Directory) (path : String) : Entry :=
  let names := names path
  if path.startsWith "/" ∧ ¬names.isEmpty then .unreachable .notFound
  else if names.any (maxNameBytes < ·.utf8ByteSize) then .unreachable .nameTooLong
  else
    match d.files.lookup names with
    | some bytes => if namesDirectory path then .unreachable .notDirectory else .file bytes
    | none =>
      if d.isDirectory names then .directory
      else if d.files.any fun (path, _) => path.isPrefixOf names then .unreachable .notDirectory
      else if ¬d.isDirectory names.dropLast then .unreachable .notFound
      else if namesDirectory path then .unreachable .isDirectory
      else .vacant

/-- The bytes of the file at a path. -/
def read (d : Directory) (path : String) : Except HostFault (List UInt8) :=
  match d.entry path with
  | .file bytes => .ok bytes
  | .directory => .error .isDirectory
  | .vacant => .error .notFound
  | .unreachable .isDirectory => .error .notFound
  | .unreachable fault => .error fault

/-- The directory with some bytes as the file at a path. -/
def write (d : Directory) (path : String) (bytes : List UInt8) : Except HostFault Directory :=
  let names := names path
  let written := { d with files := (names, bytes) :: d.files.filter (·.1 != names) }
  match d.entry path with
  | .file _ => .ok written
  | .vacant => .ok written
  | .directory => .error .isDirectory
  | .unreachable fault => .error fault

/-- The operations on a directory. -/
def host : Host (StateM Directory) where
  readInput := do
    let d ← get
    set { d with input := [] }
    return .ok d.input
  readFile path := do return (← get).read path
  writeFile path bytes := do
    match (← get).write path bytes with
    | .ok d => set d; return .ok ()
    | .error fault => return .error fault

end Directory

end BitTemplate.Command
