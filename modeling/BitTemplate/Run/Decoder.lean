import BitTemplate.Run.Engine

/-!
Decoding. Every transform that a pattern asks for is applied to the storage before the bits under it are read. An
instruction that fails leaves behind the transforms it applied, and nothing else of its work.
-/

namespace BitTemplate

/-- A run that reads a byte string. -/
structure Decoder where
  engine : Engine
  /-- Whether bits that are left at the end are an error. -/
  checkEnd : Bool

namespace Decoder

/-- A decoder of a byte string, with labels that have values before the run. -/
def ofBytes (bytes : List UInt8) (limits : Limits) (checkEnd : Bool) (labels : List (String × Value)) : Decoder :=
  ⟨(Engine.start (.ofBytes bytes) limits).seed labels, checkEnd⟩

/-! ## Steps -/

/-- A step on the engine that keeps the engine also when it fails. -/
abbrev Step := EStateM Fault Engine

/-- A step that only looks. -/
def check {α : Type} (f : Engine → Except Fault α) : Step α := fun e =>
  match f e with
  | .ok a => .ok a e
  | .error fault => .error fault e

/-- A step that changes the engine or fails and leaves it. -/
def change (f : Engine → Except Fault Engine) : Step Unit := fun e =>
  match f e with
  | .ok e => .ok () e
  | .error fault => .error fault e

/-- Applies a transform to the storage and records it. -/
def transform (t : Transform) : Step Unit :=
  change fun e => do return { e with storage := ← e.storage.apply t }.record t

/-- Applies transforms, the first one first. -/
def transformAll : List Transform → Step Unit
  | [] => pure ()
  | t :: ts => do transform t; transformAll ts

/-- The next bits as they stand. -/
def take (width : Nat) : Step Bits := do
  let (bits, storage) ← check fun e => e.storage.read width
  modify fun e => { e with storage }
  return bits

/-- Applies the lasting changes to the next bits and reads them. -/
def readBits (encoding : Encoding) (width : Nat) : Step Bits := do
  check fun e => e.storage.require width
  let ts ← check fun e => e.flags.transforms e.cursor width encoding
  transformAll ts
  take width

/-- The value of some bits. -/
def interpret (encoding : Encoding) (bits : Bits) : Step Value :=
  check fun _ => (Field.decode encoding bits).mapError .field

/-- A field as a value. -/
def readField (encoding : Encoding) (width : Nat) : Step Value := do
  interpret encoding (← readBits encoding width)

/-- A field as the next value of the record. -/
def produceField (encoding : Encoding) (width : Nat) : Step Unit := do
  let start := (← get).cursor
  let value ← readField encoding width
  modify (·.produce value start)

/-- The bits up to a position, as they stand, as the next value of the record. -/
def produceGap (encoding : Encoding) (target : Nat) : Step Unit := do
  let start := (← get).cursor
  modify (·.emit (.seek start target))
  let gap ← take (target - start)
  let value ← interpret encoding gap
  modify (·.produce value start)

/-- Bits that all have to be one constant. -/
def readConstant (bit : Bool) (width : Nat) : Step Unit := do
  let bits ← readBits .uint width
  if bits.all (· == bit) then pure () else throw (.notConstant bit bits)

/-- Whether a value is a byte string with the given content. -/
def isBytes (bytes : List UInt8) : Value → Bool
  | .bytes content => content == bytes
  | _ => false

/-- A jump, with the bits it passes as a value: bytes if they start and end on byte boundaries. -/
def jump (origin : JumpOrigin) (bits : Nat) : Step Unit := do
  let e ← get
  let target ← check fun e => Engine.jumpTarget e.log origin bits e.cursor e.storage.length
  let whole := e.cursor % 8 = 0 ∧ (target - e.cursor) % 8 = 0
  produceGap (if whole then .bytes else .bin) target

/-- A marker, with the bits before it as a value. -/
def marker (last : Bool) (bytes : List UInt8) : Step Unit := do
  check fun e => e.requireAligned .markerScan
  let needle ← check fun e => Engine.disguise e.flags bytes
  let found ← check fun e =>
    match e.storage.find? needle e.cursor last with
    | some found => .ok found
    | none => .error (.markerNotFound bytes)
  produceGap .bytes found
  let value ← readField .bytes (8 * bytes.length)
  if isBytes bytes value then pure () else throw (.markerReadBack bytes value)

/-- Executes a directive. -/
def execute : Directive → Step Unit
  | .value encoding (.bits width) => produceField encoding width
  | .value encoding .rest => do produceField encoding (← get).storage.remaining
  | .next width => do
    check fun e => e.storage.require width
    discard <| take width
  | .constant bit width => readConstant bit width
  | .takeAll encoding => do
    check fun e => e.requireAligned .takeAll
    produceField encoding (← get).storage.remaining
  | .mod change width => do
    let ts ← check fun e => Transform.atCursor change e.cursor width
    transformAll ts
  | .modOff change offset width => do
    transformAll (Transform.atOffset change (← get).cursor offset width)
  | .jump origin bits => jump origin bits
  | .marker last bytes => marker last bytes
  | .control action => change (·.control action)

/-! ## Runs -/

/-- Executes one instruction of a program. -/
def step (index : Nat) (instruction : Instruction) : Step Unit := do
  modify (·.begin index instruction)
  check (·.checkSteps)
  modify fun e => e.emit (.instruction index instruction e.cursor)
  execute instruction.directive

/-- Executes instructions from an index on, up to the first that fails. -/
def runFrom (index : Nat) : List Instruction → Engine → Option RunError × Engine
  | [], e => (none, e.rest)
  | instruction :: rest, e =>
    match step index instruction e with
    | .ok () e => runFrom (index + 1) rest e
    | .error fault e => (some (e.error fault), e)

/-- Executes a program from the cursor on. -/
def run (d : Decoder) (program : Program) : Option RunError × Decoder :=
  let (failure, engine) := runFrom 0 program.instructions { d.engine with events := [] }
  (failure, { d with engine })

/-- The values of a complete run. -/
def finish (d : Decoder) : Except RunError (List Value) :=
  let e := d.engine.rest
  if d.checkEnd ∧ e.storage.remaining ≠ 0 then .error (e.error (.unreadBits e.storage.remaining))
  else e.finish.mapError e.error

/-- Executes a program and finishes. -/
def decode (d : Decoder) (program : Program) : Except RunError (List Value) :=
  match d.run program with
  | (some error, _) => .error error
  | (none, d) => d.finish

end Decoder

end BitTemplate
