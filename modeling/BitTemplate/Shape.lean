import BitTemplate.Text.Quoted
import BitTemplate.Value

/-!
Shapes of nested values. A list of values is the list of its scalars together with a shape, a text in which a dot stands
for a scalar and a pair of brackets for a record. `flatten` takes the two apart and `deflatten` puts them together.
A walk along a shape keeps the path of the next item and the number of scalars before it, which is how paths turn into
flat positions and back.
-/

namespace BitTemplate.Shape

/-! ## Errors -/

/-- Why a shape cannot be walked. -/
inductive Error where
  | invalidMark (c : Char) (offset : Nat)
  | unbalanced
  | countMismatch (expected actual : Nat)
  | pathNotFound (path : List Nat)
  | indexOutOfRange (index count : Nat)
deriving DecidableEq

/-- A path, as messages show it. -/
def showPath (path : List Nat) : String :=
  Text.bracketed (path.map toString)

/-- The wording of an error. -/
def Error.message : Error → String
  | .invalidMark c offset =>
    "invalid character " ++ Text.quotedChar c ++ " at offset " ++ toString offset ++ " in structural template"
  | .unbalanced => "structural template has unbalanced brackets"
  | .countMismatch expected actual =>
    "structural template holds " ++ toString expected ++ " values, got " ++ toString actual
  | .pathNotFound path => "path " ++ showPath path ++ " does not address a scalar in the template"
  | .indexOutOfRange index count =>
    "flat index " ++ toString index ++ " is out of range (" ++ toString count ++ " values)"

/-! ## Taking apart -/

mutual

/-- The scalars of a value from left to right. -/
def scalars : Value → List Value
  | .list items => scalarsOf items
  | value => [value]

/-- The scalars of a list of values from left to right. -/
def scalarsOf : List Value → List Value
  | [] => []
  | value :: rest => scalars value ++ scalarsOf rest

end

mutual

/-- The marks of a value. -/
def marks : Value → List Char
  | .list items => '[' :: (marksOf items ++ [']'])
  | _ => ['.']

/-- The marks of a list of values. -/
def marksOf : List Value → List Char
  | [] => []
  | value :: rest => marks value ++ marksOf rest

end

/-- The scalars and the shape of a list of values. -/
def flatten (values : List Value) : List Value × String :=
  (scalarsOf values, String.ofList (marksOf values))

/-! ## Putting together -/

/-- The number of scalars in a shape from an offset on; every other mark has to be a bracket. -/
def countFrom (offset : Nat) : List Char → Except Error Nat
  | [] => .ok 0
  | c :: rest =>
    if c = '.' then do return (← countFrom (offset + 1) rest) + 1
    else if c = '[' ∨ c = ']' then countFrom (offset + 1) rest
    else .error (.invalidMark c offset)

/-- The number of scalars in a shape. -/
def scalarCount (shape : String) : Except Error Nat :=
  countFrom 0 shape.toList

/-- The records that are open: the items of the innermost one and of those around it, each newest first. -/
structure Records where
  inner : List Value
  outer : List (List Value)

namespace Records

/-- The empty root. -/
def empty : Records := ⟨[], []⟩

/-- The records after a value in the innermost one. -/
def push (records : Records) (value : Value) : Records :=
  { records with inner := value :: records.inner }

/-- The records with an empty one inside. -/
def enter (records : Records) : Records :=
  ⟨[], records.inner :: records.outer⟩

/-- The innermost record as a value and the records around it, unless it is the root. -/
def leave? (records : Records) : Option (Value × Records) :=
  match records.outer with
  | [] => none
  | items :: outer => some (.list records.inner.reverse, ⟨items, outer⟩)

/-- The root, if no record is open inside it. -/
def root? (records : Records) : Option (List Value) :=
  if records.outer.isEmpty then some records.inner.reverse else none

end Records

/-- Fills the marks of a shape with scalars, in order. -/
def fill (records : Records) (offset : Nat) : List Char → List Value → Except Error (List Value)
  | [], _ =>
    match records.root? with
    | some values => .ok values
    | none => .error .unbalanced
  | c :: rest, flat =>
    if c = '.' then
      match flat with
      | value :: flat => fill (records.push value) (offset + 1) rest flat
      | [] => .error (.countMismatch 1 0)
    else if c = '[' then fill records.enter (offset + 1) rest flat
    else if c = ']' then
      match records.leave? with
      | some (value, records) => fill (records.push value) (offset + 1) rest flat
      | none => .error .unbalanced
    else .error (.invalidMark c offset)

/-- The nested values that a shape makes of its scalars. -/
def deflatten (shape : String) (flat : List Value) : Except Error (List Value) := do
  let expected ← scalarCount shape
  if expected ≠ flat.length then .error (.countMismatch expected flat.length)
  else fill .empty 0 shape.toList flat

/-! ## Walking -/

/-- A place in a shape: the index of the next item in each open record and the number of scalars before it. -/
structure Walk where
  /-- The index in the innermost record. -/
  inner : Nat
  /-- The indices in the records around it, innermost first. -/
  outer : List Nat
  flat : Nat
deriving DecidableEq

namespace Walk

/-- The start of a shape. -/
def start : Walk := ⟨0, [], 0⟩

/-- The path of the next item, outermost index first. -/
def path (walk : Walk) : List Nat :=
  (walk.inner :: walk.outer).reverse

/-- The place after a scalar. -/
def scalar (walk : Walk) : Walk :=
  { walk with inner := walk.inner + 1, flat := walk.flat + 1 }

/-- The place inside a record that starts here. -/
def enter (walk : Walk) : Walk :=
  { walk with inner := 0, outer := walk.inner :: walk.outer }

/-- The path of the innermost record. -/
def enclosing (walk : Walk) : List Nat :=
  walk.outer.reverse

/-- The place after the innermost record, unless that is the root. -/
def leave? (walk : Walk) : Option Walk :=
  match walk.outer with
  | [] => none
  | index :: outer => some { walk with inner := index + 1, outer }

end Walk

/-- The flat position of the scalar at a path, from a place in a shape on. -/
def indexFrom (path : List Nat) (walk : Walk) (offset : Nat) : List Char → Except Error Nat
  | [] => .error (.pathNotFound path)
  | c :: rest =>
    if c = '.' then
      if walk.path = path then .ok walk.flat else indexFrom path walk.scalar (offset + 1) rest
    else if c = '[' then
      if walk.path = path then .error (.pathNotFound path) else indexFrom path walk.enter (offset + 1) rest
    else if c = ']' then
      match walk.leave? with
      | some walk => indexFrom path walk (offset + 1) rest
      | none => .error .unbalanced
    else .error (.invalidMark c offset)

/-- The flat position of the scalar at a path. -/
def flatIndex (shape : String) (path : List Nat) : Except Error Nat :=
  if path.isEmpty then .error (.pathNotFound path) else indexFrom path .start 0 shape.toList

/-- The path of the scalar at a flat position, from a place in a shape on. -/
def pathFrom (index : Nat) (walk : Walk) (offset : Nat) : List Char → Except Error (List Nat)
  | [] => .error (.indexOutOfRange index walk.flat)
  | c :: rest =>
    if c = '.' then
      if walk.flat = index then .ok walk.path else pathFrom index walk.scalar (offset + 1) rest
    else if c = '[' then pathFrom index walk.enter (offset + 1) rest
    else if c = ']' then
      match walk.leave? with
      | some walk => pathFrom index walk (offset + 1) rest
      | none => .error .unbalanced
    else .error (.invalidMark c offset)

/-- The path of the scalar at a flat position. -/
def pathOf (shape : String) (index : Nat) : Except Error (List Nat) :=
  pathFrom index .start 0 shape.toList

end BitTemplate.Shape
