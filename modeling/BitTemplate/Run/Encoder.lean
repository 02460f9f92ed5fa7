import BitTemplate.Run.Engine

/-!
Encoding. The encoder writes the bits as a decoder would see them after every transform and only records the
transforms; finishing undoes them newest first. What depends on the final length, where jumps land and where markers are
found, is kept as pending checks and verified on a replay of the log. A field that runs to the end of the data has to be
the last thing written, and its value is widened up to the byte boundary at which a decoder stops.
-/

namespace BitTemplate

/-- What a pending check asks. -/
inductive Check where
  | jump (origin : JumpOrigin) (bits : Nat)
  | marker (needle : Bits) (bytes : List UInt8) (last : Bool)

/-- A check that needs the final length. -/
structure Pending where
  /-- The number of transforms applied before the check. -/
  logged : Nat
  /-- The cursor before the gap. -/
  position : Nat
  gap : Nat
  check : Check
  context : Context

namespace Pending

/-- Checks a jump or a marker on the data that a decoder sees at its point, with the transforms applied before it. -/
def verify (pending : Pending) (view : Storage) (log : Log) : Except Fault Unit :=
  let expected := pending.position + pending.gap
  match pending.check with
  | .jump origin bits => do
    let target ← Engine.jumpTarget log origin bits pending.position view.length
    if target = expected then return () else .error (.jumpMismatch pending.gap expected target)
  | .marker needle bytes last =>
    let found := view.find? needle pending.position last
    if found = some expected then return () else .error (.markerElsewhere bytes found expected)

end Pending

/-- A run that writes a byte string. -/
structure Encoder where
  engine : Engine
  /-- The scalars that are left. -/
  input : List Value
  /-- The shape of the whole input. -/
  shape : String
  /-- The checks in the order of their instructions. -/
  pending : List Pending
  /-- The length after the first field that runs to the end of the data. -/
  restEnd : Option (Nat × Context)

namespace Encoder

/-- An encoder of values, with labels that have values before the run. -/
def ofValues (values : List Value) (limits : Limits) (labels : List (String × Value)) : Encoder :=
  let (input, shape) := Shape.flatten values
  ⟨(Engine.start (.ofBits []) limits).seed labels, input, shape, [], none⟩

/-! ## Steps -/

/-- A step on the encoder that keeps it also when it fails. -/
abbrev Step := EStateM Fault Encoder

/-- A step that only looks at the engine. -/
def check {α : Type} (f : Engine → Except Fault α) : Step α := fun s =>
  match f s.engine with
  | .ok a => .ok a s
  | .error fault => .error fault s

/-- A step that changes the engine. -/
def onEngine (f : Engine → Engine) : Step Unit :=
  modify fun s => { s with engine := f s.engine }

/-- The engine as it is. -/
def engineNow : Step Engine := do
  return (← get).engine

/-- The next value of the input. -/
def nextInput : Step Value := fun s =>
  match s.input with
  | value :: rest => .ok value { s with input := rest }
  | [] => .error .noInput s

/-- Records transforms, the first one first. -/
def recordAll (ts : List Transform) : Step Unit :=
  onEngine fun e => ts.foldl Engine.record e

/-- Writes bits at the cursor as they stand. -/
def put (bits : Bits) : Step Unit :=
  onEngine fun e => { e with storage := e.storage.write bits }

/-- Writes bits at the cursor and records the lasting changes of them. -/
def writeBits (encoding : Encoding) (bits : Bits) : Step Unit := do
  let ts ← check fun e => e.flags.transforms e.cursor bits.length encoding
  put bits
  recordAll ts

/-- Writes the bits of a value, which becomes the next value of the record. -/
def writeField (encoding : Encoding) (value : Value) (bits : Bits) : Step Unit := do
  let start := (← engineNow).cursor
  writeBits encoding bits
  onEngine (·.produce value start)

/-- Writes a constant. -/
def writeConstant (bit : Bool) (width : Nat) : Step Unit := do
  check (·.reserve width)
  writeBits .uint (List.replicate width bit)

/-- The bits of a value in a field of the given width, or of the width that the value takes by itself. -/
def toField (encoding : Encoding) (value : Value) (width : Option Nat) : Except Fault Bits :=
  (Field.encode encoding value width).mapError .field

/-! ## Fields up to the end -/

/-- The digits after the leading zeros. -/
def significant (digits : String) : List Char :=
  digits.toList.dropWhile (· == '0')

/-- Whether digits agree up to leading zeros and letter case. -/
def sameDigits (a b : String) : Bool :=
  (significant a).map Char.toLower == (significant b).map Char.toLower

/-- Whether what a widened field reads as is still the value. -/
def absorbsPadding (value back : Value) : Bool :=
  match value, back with
  | .hex a, .hex b => sameDigits a b
  | .text a, .hex b => sameDigits a b
  | _, _ => back.same value

/-- The bits of a value that runs to the end of the data from a position on, widened up to the next byte boundary if
the widened field still reads as the value. -/
def restBits (position : Nat) (encoding : Encoding) (value : Value) : Except Fault Bits := do
  let bits ← toField encoding value none
  let stop := position + bits.length
  let padding := Bits.padding stop
  if padding = 0 then return bits
  else
    let failure := Fault.unpaddable value stop padding
    match Field.encode encoding value (some (bits.length + padding)) with
    | .error _ => .error failure
    | .ok widened =>
      match Field.decode encoding widened with
      | .error _ => .error failure
      | .ok back => if absorbsPadding value back then return widened else .error failure

/-- Remembers the length after the first field that runs to the end of the data. -/
def markRest : Step Unit :=
  modify fun s =>
    match s.restEnd with
    | some _ => s
    | none => { s with restEnd := some (s.engine.cursor, s.engine.context) }

/-! ## Gaps -/

/-- The encoding of a gap: binary digits as they are where the gap need not be bytes, and else bytes. -/
def gapEncoding (bytesOnly : Bool) (value : Value) : Encoding :=
  match value with
  | .bin _ => if bytesOnly then .bytes else .bin
  | _ => .bytes

/-- Writes the next value of the input as it stands and gives the width of its bits. -/
def writeGap (bytesOnly : Bool) : Step Nat := do
  let value ← nextInput
  let bits ← check fun _ => toField (gapEncoding bytesOnly value) value none
  let start := (← engineNow).cursor
  onEngine (·.emit (.seek start (start + bits.length)))
  put bits
  onEngine (·.produce value start)
  return bits.length

/-- Keeps a check for the end. -/
def postpone (pending : Pending) : Step Unit :=
  modify fun s => { s with pending := s.pending ++ [pending] }

/-- A marker after the next value of the input. -/
def marker (last : Bool) (bytes : List UInt8) : Step Unit := do
  check fun e => e.requireAligned .markerScan
  let position := (← engineNow).cursor
  let needle ← check fun e => Engine.disguise e.flags bytes
  let gap ← writeGap true
  let e ← engineNow
  postpone ⟨e.log.length, position, gap, .marker needle bytes last, e.context⟩
  writeBits .bytes (Bits.ofBytes bytes)

/-- A jump over the next value of the input. -/
def jump (origin : JumpOrigin) (bits : Nat) : Step Unit := do
  let e ← engineNow
  let gap ← writeGap false
  postpone ⟨e.log.length, e.cursor, gap, .jump origin bits, e.context⟩

/-! ## Directives -/

/-- Executes a directive. -/
def execute : Directive → Step Unit
  | .value encoding (.bits width) => do
    let value ← nextInput
    check (·.reserve width)
    let bits ← check fun _ => toField encoding value (some width)
    writeField encoding value bits
  | .value encoding .rest => do
    let value ← nextInput
    let bits ← check fun e => restBits e.cursor encoding value
    writeField encoding value bits
    markRest
  | .next width => do
    check (·.reserve width)
    put (List.replicate width false)
  | .constant bit width => writeConstant bit width
  | .takeAll encoding => do
    check fun e => e.requireAligned .takeAll
    let value ← nextInput
    let bits ← check fun _ => toField encoding value none
    writeField encoding value bits
    markRest
  | .mod change width => do
    let ts ← check fun e => Transform.atCursor change e.cursor width
    recordAll ts
  | .modOff change offset width => do
    recordAll (Transform.atOffset change (← engineNow).cursor offset width)
  | .jump origin bits => jump origin bits
  | .marker last bytes => marker last bytes
  | .control action => do
    let e ← check (·.control action)
    onEngine fun _ => e

/-! ## Runs -/

/-- Executes one instruction of a program. -/
def step (index : Nat) (instruction : Instruction) : Step Unit := do
  onEngine (·.begin index instruction)
  check (·.checkSteps)
  onEngine fun e => e.emit (.instruction index instruction e.cursor)
  execute instruction.directive

/-- Executes instructions from an index on, up to the first that fails. -/
def runFrom (index : Nat) : List Instruction → Encoder → Option RunError × Encoder
  | [], s => (none, { s with engine := s.engine.rest })
  | instruction :: rest, s =>
    match step index instruction s with
    | .ok () s => runFrom (index + 1) rest s
    | .error fault s => (some (s.engine.error fault), s)

/-- Executes a program, taking the input from where the last run stopped. -/
def run (s : Encoder) (program : Program) : Option RunError × Encoder :=
  runFrom 0 program.instructions { s with engine := { s.engine with events := [] } }

/-! ## Finishing -/

/-- Replays transforms on the data of the wire, the first one first, and checks what is pending at each point. The log
holds what is applied to the view already. -/
def verifyAll (log : Log) (view : Storage) : (ahead : List LogEntry) → List Pending → Except RunError Unit
  | _, [] => return ()
  | ahead, pending :: rest => do
    let fresh := ahead.take (pending.logged - log.length)
    let view ← (view.applyAll (fresh.map (·.transform))).mapError (⟨·, pending.context⟩)
    let log := fresh.reverse ++ log
    (pending.verify view log).mapError (⟨·, pending.context⟩)
    verifyAll log view (ahead.drop fresh.length) rest

/-- Fails if the input was nested and its shape is not the one that the program produced. -/
def checkShape (s : Encoder) : Except Fault Unit :=
  if s.shape.toList.contains '[' ∧ s.engine.shape ≠ s.shape then .error (.shapeMismatch s.shape s.engine.shape)
  else return ()

/-- Fails if something was written after a field that runs to the end of the data. -/
def checkRest (s : Encoder) : Except RunError Unit :=
  match s.restEnd with
  | some (stop, context) =>
    if s.engine.storage.length = stop then return ()
    else .error ⟨.writtenAfterRest (s.engine.storage.length - stop), context⟩
  | none => return ()

/-- The bytes of a complete run. -/
def finish (s : Encoder) : Except RunError (List UInt8) := do
  let s := { s with engine := s.engine.rest }
  let e := s.engine
  if s.input.length ≠ 0 then .error (e.error (.unusedInput s.input.length))
  discard <| e.finish.mapError e.error
  s.checkShape.mapError e.error
  s.checkRest
  let view := e.storage.padToByte
  let wire ← (view.applyAll (e.log.map (·.transform))).mapError e.error
  verifyAll [] wire e.log.reverse s.pending
  return wire.toBytes

/-- Executes a program and finishes. -/
def encode (s : Encoder) (program : Program) : Except RunError (List UInt8) :=
  match s.run program with
  | (some error, _) => .error error
  | (none, s) => s.finish

end Encoder

end BitTemplate
