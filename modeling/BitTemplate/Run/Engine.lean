import BitTemplate.Field.Codec
import BitTemplate.Storage
import BitTemplate.Transform.Log
import BitTemplate.Transform.Window

/-!
The state that decoder and encoder share: storage, the log of transforms, flags, labels and the record of values that
grows with its shape. The engine also keeps what a trace shows. Operations on the record either succeed or leave the
engine as it was.
-/

namespace BitTemplate

/-! ## Parts -/

/-- The limits of a run: the instructions it executes and the bits that an encoder writes. -/
structure Limits where
  maxSteps : Nat
  maxBits : Nat
deriving DecidableEq, Repr

/-- A million instructions and 128 MiB. -/
def Limits.standard : Limits := ⟨1000000, 1 <<< 30⟩

/-- A definition or a binding of a label. -/
structure LabelEntry where
  /-- The position on the wire. -/
  position : Nat
  path : List Nat
  /-- None for a bare definition. -/
  value : Option Value

/-- Labels in the order of their first entry, each with its entries, newest first. -/
abbrev Labels := List (String × List LabelEntry)

namespace Labels

/-- The entries of a label, oldest first. -/
def entries (labels : Labels) (name : String) : List LabelEntry :=
  ((labels.lookup name).getD []).reverse

/-- The newest entry of a label. -/
def newest? (labels : Labels) (name : String) : Option LabelEntry :=
  (labels.lookup name).bind List.head?

/-- The labels with one more entry. -/
def add (name : String) (entry : LabelEntry) : Labels → Labels
  | [] => [(name, [entry])]
  | (other, entries) :: rest =>
    if other = name then (other, entry :: entries) :: rest else (other, entries) :: add name entry rest

/-- The value of the newest entry of a label. -/
def value? (labels : Labels) (name : String) : Option Value :=
  (labels.newest? name).bind LabelEntry.value

end Labels

/-- What a trace shows. -/
inductive Event where
  | instruction (step : Nat) (instruction : Instruction) (cursor : Nat)
  | value (value : Value) (start stop : Nat)
  | transform (transform : Transform)
  | label (name : String) (value : Option Value)
  | seek (source target : Nat)

/-- A value and where it came from. -/
structure Produced where
  value : Value
  /-- The position on the wire. -/
  position : Nat
  path : List Nat

/-- The state of a run. -/
structure Engine where
  storage : Storage
  log : Log
  flags : Flags
  labels : Labels
  records : Shape.Records
  walk : Shape.Walk
  /-- The shape of everything produced so far. -/
  shape : String
  last : Option Produced
  limits : Limits
  /-- The number of instructions started so far. -/
  steps : Nat
  /-- The instruction that is executed: its index and its token. -/
  current : Option (Nat × String)
  /-- What the trace of the last run shows, newest first. -/
  events : List Event

namespace Engine

/-- The state before a run over the given storage. -/
def start (storage : Storage) (limits : Limits) : Engine where
  storage
  log := []
  flags := .none
  labels := []
  records := .empty
  walk := .start
  shape := ""
  last := none
  limits
  steps := 0
  current := none
  events := []

/-! ## Views -/

/-- The cursor in the view. -/
def cursor (e : Engine) : Nat :=
  e.storage.cursor

/-- The position on the wire of a position in the view. -/
def onWire (e : Engine) (position : Nat) : Nat :=
  e.log.toWire e.storage.length position

/-- The cursor on the wire. -/
def streamPosition (e : Engine) : Nat :=
  e.onWire e.cursor

/-- The place for errors. -/
def context (e : Engine) : Context :=
  ⟨e.current, e.walk.flat, e.walk.path⟩

/-- A fault at this place. -/
def error (e : Engine) (fault : Fault) : RunError :=
  ⟨fault, e.context⟩

/-! ## Instructions -/

/-- The engine with one more thing to show. -/
def emit (e : Engine) (event : Event) : Engine :=
  { e with events := event :: e.events }

/-- The engine at an instruction, which counts even if it is one too many. -/
def begin (e : Engine) (step : Nat) (instruction : Instruction) : Engine :=
  { e with current := some (step, instruction.token), steps := e.steps + 1 }

/-- Fails past the limit of instructions. -/
def checkSteps (e : Engine) : Except Fault Unit :=
  if e.limits.maxSteps < e.steps then .error (.stepLimit e.limits.maxSteps) else .ok ()

/-- The engine between instructions. -/
def rest (e : Engine) : Engine :=
  { e with current := none }

/-- Fails if `width` more bits pass the limit of bits. -/
def reserve (e : Engine) (width : Nat) : Except Fault Unit :=
  if e.limits.maxBits < e.storage.length + width then .error (.sizeLimit e.limits.maxBits) else .ok ()

/-- Fails unless the cursor stands on a byte boundary. -/
def requireAligned (e : Engine) (step : AlignedStep) : Except Fault Unit :=
  if e.cursor % 8 = 0 then .ok () else .error (.unaligned step e.cursor)

/-! ## Transforms -/

/-- The engine with a transform in its log. -/
def record (e : Engine) (t : Transform) : Engine :=
  emit { e with log := ⟨e.walk.flat, t⟩ :: e.log } (.transform t)

/-! ## Values -/

/-- The engine with a value that starts at a position and ends at the cursor. -/
def produce (e : Engine) (value : Value) (start : Nat) : Engine :=
  let after := { e with
    last := some ⟨value, e.onWire start, e.walk.path⟩
    records := e.records.push value
    walk := e.walk.scalar
    shape := e.shape.push '.' }
  after.emit (.value value start e.cursor)

/-- The engine inside a new record. -/
def openRecord (e : Engine) : Engine :=
  { e with
    records := e.records.enter
    walk := e.walk.enter
    shape := e.shape.push '[' }

/-- The engine after the innermost record, which becomes the last value. -/
def closeRecord (e : Engine) : Except Fault Engine :=
  match e.records.leave?, e.walk.leave? with
  | some (value, records), some walk =>
    .ok { e with
      last := some ⟨value, e.streamPosition, e.walk.enclosing⟩
      records := records.push value
      walk
      shape := e.shape.push ']' }
  | _, _ => .error .closeWithoutOpen

/-- The root record at the end of a run. -/
def finish (e : Engine) : Except Fault (List Value) :=
  match e.records.root? with
  | some values => .ok values
  | none => .error (.leftOpen e.records.outer.length)

/-! ## Labels -/

/-- The engine with one more entry of a label. -/
def define (e : Engine) (name : String) (entry : LabelEntry) : Engine :=
  { e with labels := e.labels.add name entry }

/-- The engine with labels that have values before the run. -/
def seed (e : Engine) (labels : List (String × Value)) : Engine :=
  labels.foldl (fun e (name, value) => e.define name ⟨0, [], some value⟩) e

/-- Shows the value that a label has now. -/
def showLabel (e : Engine) (name : String) : Engine :=
  e.emit (.label name (e.labels.value? name))

/-- The engine with a label bound to the last value. -/
def setLabel (e : Engine) (name : String) : Except Fault Engine :=
  match e.last with
  | some last => .ok ((e.define name ⟨last.position, last.path, some last.value⟩).showLabel name)
  | none => .error (.nothingToBind name)

/-- The engine with a label defined at the cursor. -/
def defLabel (e : Engine) (name : String) (value : Option Literal) : Engine :=
  (e.define name ⟨e.streamPosition, e.walk.path, value.map Literal.toValue⟩).showLabel name

/-- Compares the last value with the newest value of a label. -/
def matchLabel (e : Engine) (name : String) : Except Fault Unit :=
  match e.labels.newest? name with
  | none => .error (.undefinedLabel name)
  | some entry =>
    match entry.value, e.last with
    | none, _ => .error (.labelWithoutValue name)
    | some _, none => .error (.nothingToMatch name)
    | some expected, some last =>
      if last.value.same expected then .ok () else .error (.labelMismatch last.value name expected)

/-- Compares the last value with a constant. -/
def assertLast (e : Engine) (expected : Literal) : Except Fault Unit :=
  match e.last with
  | none => .error (.assertionWithoutValue expected)
  | some last => if expected.matches last.value then .ok () else .error (.assertionMismatch expected last.value)

/-- The engine after an action on the record. -/
def control (e : Engine) : Control → Except Fault Engine
  | .setFlag flag setting => .ok { e with flags := e.flags.apply flag setting }
  | .setLabel name => e.setLabel name
  | .defLabel name value => .ok (e.defLabel name value)
  | .matchLabel name => do e.matchLabel name; return e
  | .nestOpen => .ok e.openRecord
  | .nestClose => e.closeRecord
  | .assertion expected => do e.assertLast expected; return e

/-! ## Jumps and markers -/

/-- The position in the view on which a jump lands, with the transforms applied before it. -/
def jumpTarget (log : Log) (origin : JumpOrigin) (bits position length : Nat) : Except Fault Nat :=
  let base : Int := match origin with
    | .start => 0
    | .stop => length
    | .forward => log.toWire length position
    | .backward => log.toWire length position
  let wanted : Int := match origin with
    | .start => base + bits
    | .forward => base + bits
    | .stop => base - bits
    | .backward => base - bits
  if wanted < 0 then .error (.jumpBeforeStart wanted.natAbs)
  else if length < wanted then .error (.jumpPastEnd wanted length)
  else
    let target := log.ofWire length wanted.toNat
    if target < position then .error (.jumpBeforeCursor target position) else .ok target

/-- The bits of some bytes before the transforms that the flags ask for a byte field. -/
def disguise (flags : Flags) (bytes : List UInt8) : Except Fault Bits := do
  let plain := Storage.ofBytes bytes
  let ts ← flags.transforms 0 plain.length .bytes
  return (← plain.applyAll ts.reverse).bits

end Engine

end BitTemplate
