import BitTemplate.Proofs.Steps

/-!
The record of a run as scalars and marks. Whatever brackets are open, the scalars of the record are those produced so
far, in order, and the shape that the engine keeps beside it has the marks of the record. So the values at the end of a
run flatten to what the run produced.
-/

namespace BitTemplate

namespace Shape

/-! ## Scalars and marks of lists -/

theorem scalarsOf_append (front back : List Value) : scalarsOf (front ++ back) = scalarsOf front ++ scalarsOf back := by
  induction front with
  | nil => rfl
  | cons value rest ih => simp [scalarsOf, ih]

theorem marksOf_append (front back : List Value) : marksOf (front ++ back) = marksOf front ++ marksOf back := by
  induction front with
  | nil => rfl
  | cons value rest ih => simp [marksOf, ih]

theorem scalars_of_not_isList {v : Value} (h : v.isList = false) : scalars v = [v] := by
  cases v with
  | list items => cases h
  | _ => rfl

theorem marks_of_not_isList {v : Value} (h : v.isList = false) : marks v = ['.'] := by
  cases v with
  | list items => cases h
  | _ => rfl

mutual

theorem isList_of_mem_scalars {v : Value} : ∀ u : Value, v ∈ scalars u → v.isList = false
  | .list items, h => isList_of_mem_scalarsOf items (by simpa only [scalars] using h)
  | .uint _, h => by rw [List.mem_singleton.mp h]; rfl
  | .sint _, h => by rw [List.mem_singleton.mp h]; rfl
  | .float _, h => by rw [List.mem_singleton.mp h]; rfl
  | .hex _, h => by rw [List.mem_singleton.mp h]; rfl
  | .bin _, h => by rw [List.mem_singleton.mp h]; rfl
  | .bytes _, h => by rw [List.mem_singleton.mp h]; rfl
  | .text _, h => by rw [List.mem_singleton.mp h]; rfl

/-- Flattened values are no records. -/
theorem isList_of_mem_scalarsOf {v : Value} : ∀ values : List Value, v ∈ scalarsOf values → v.isList = false
  | [], h => by cases h
  | u :: rest, h => by
    rw [scalarsOf, List.mem_append] at h
    rcases h with first | later
    · exact isList_of_mem_scalars u first
    · exact isList_of_mem_scalarsOf rest later

end

/-! ## Open records -/

namespace Records

/-- The scalars of all open records in order. -/
def scalars (records : Records) : List Value :=
  records.outer.reverse.flatMap (fun items => scalarsOf items.reverse) ++ scalarsOf records.inner.reverse

/-- The marks of all open records in order, with the bracket that opens each of them. -/
def marks (records : Records) : List Char :=
  records.outer.reverse.flatMap (fun items => marksOf items.reverse ++ ['[']) ++ marksOf records.inner.reverse

theorem scalars_push (records : Records) (v : Value) :
    (records.push v).scalars = records.scalars ++ Shape.scalars v := by
  simp [scalars, push, scalarsOf_append, scalarsOf]

theorem marks_push (records : Records) (v : Value) : (records.push v).marks = records.marks ++ Shape.marks v := by
  simp [marks, push, marksOf_append, marksOf]

@[simp] theorem scalars_enter (records : Records) : records.enter.scalars = records.scalars := by
  simp [scalars, enter, scalarsOf]

@[simp] theorem marks_enter (records : Records) : records.enter.marks = records.marks ++ ['['] := by
  simp [marks, enter, marksOf]

/-- Closing a record moves its scalars into the one around it. -/
theorem scalars_leave {records after : Records} {v : Value} (h : records.leave? = some (v, after)) :
    (after.push v).scalars = records.scalars := by
  obtain ⟨inner, outer⟩ := records
  cases outer with
  | nil => cases h
  | cons items outer =>
    cases h
    rw [scalars_push]
    simp [scalars, Shape.scalars]

theorem marks_leave {records after : Records} {v : Value} (h : records.leave? = some (v, after)) :
    (after.push v).marks = records.marks ++ [']'] := by
  obtain ⟨inner, outer⟩ := records
  cases outer with
  | nil => cases h
  | cons items outer =>
    cases h
    rw [marks_push]
    simp [marks, Shape.marks]

theorem root?_isSome {records : Records} : (∃ values, records.root? = some values) ↔ records.outer = [] := by
  simp [root?]

/-- The values of a closed root flatten to its scalars and its marks. -/
theorem flatten_of_root? {records : Records} {values : List Value} (h : records.root? = some values) :
    flatten values = (records.scalars, String.ofList records.marks) := by
  obtain ⟨inner, outer⟩ := records
  cases outer with
  | cons items outer => cases h
  | nil =>
    cases h
    rfl

end Records

theorem Walk.flat_of_leave? {walk outside : Walk} (h : walk.leave? = some outside) : outside.flat = walk.flat := by
  simp only [Walk.leave?] at h
  split at h
  · cases h
  · cases h
    rfl

end Shape

/-! ## Engines -/

namespace Engine

/-- The scalars produced so far. -/
def scalars (e : Engine) : List Value :=
  e.records.scalars

/-- The shape is that of the record. -/
def Shaped (e : Engine) : Prop :=
  e.shape.toList = e.records.marks

theorem scalars_produce {v : Value} (h : v.isList = false) (e : Engine) (start : Nat) :
    (e.produce v start).scalars = e.scalars ++ [v] := by
  simp [scalars, produce, emit, Shape.Records.scalars_push, Shape.scalars_of_not_isList h]

theorem Shaped.produce {e : Engine} (shaped : e.Shaped) {v : Value} (h : v.isList = false) (start : Nat) :
    (e.produce v start).Shaped := by
  simp only [Shaped] at shaped
  simp [Shaped, Engine.produce, emit, Shape.Records.marks_push, Shape.marks_of_not_isList h, shaped]

theorem scalars_seed (e : Engine) (labels : List (String × Value)) : (e.seed labels).scalars = e.scalars := by
  induction labels generalizing e with
  | nil => rfl
  | cons label rest ih => exact ih _

theorem Shaped.seed {e : Engine} (shaped : e.Shaped) (labels : List (String × Value)) : (e.seed labels).Shaped := by
  induction labels generalizing e with
  | nil => exact shaped
  | cons label rest ih => exact ih shaped

/-- A later state with the same data, log and scalars, and a shape that still goes with the record. -/
structure SameData (e e' : Engine) : Prop where
  storage : e'.storage = e.storage
  log : e'.log = e.log
  limits : e'.limits = e.limits
  scalars : e'.scalars = e.scalars
  shaped : e.Shaped → e'.Shaped
  flat : e'.walk.flat = e.walk.flat

theorem SameData.closeRecord {e e' : Engine} (closed : e.closeRecord = .ok e') : SameData e e' := by
  simp only [Engine.closeRecord] at closed
  split at closed
  · rename_i left walked
    cases closed
    refine ⟨rfl, rfl, rfl, Shape.Records.scalars_leave left, fun shaped => ?_, Shape.Walk.flat_of_leave? walked⟩
    simp only [Shaped] at shaped
    simp [Shaped, shaped, Shape.Records.marks_leave left]
  · cases closed

/-- Actions on the record touch neither the data nor the log, and add no scalar. -/
theorem control_kept {e e' : Engine} {action : Control} (h : e.control action = .ok e') : SameData e e' := by
  cases action with
  | setFlag flag setting =>
    cases h
    exact ⟨rfl, rfl, rfl, rfl, id, rfl⟩
  | setLabel name =>
    simp only [control, setLabel] at h
    split at h
    · cases h
      exact ⟨rfl, rfl, rfl, rfl, id, rfl⟩
    · cases h
  | defLabel name value =>
    cases h
    exact ⟨rfl, rfl, rfl, rfl, id, rfl⟩
  | matchLabel name =>
    simp only [control, except_bind_ok, except_pure_ok] at h
    obtain ⟨_, _, rfl⟩ := h
    exact ⟨rfl, rfl, rfl, rfl, id, rfl⟩
  | nestOpen =>
    cases h
    refine ⟨rfl, rfl, rfl, by simp [scalars, openRecord], fun shaped => ?_, rfl⟩
    simp only [Shaped] at shaped
    simp [Shaped, openRecord, shaped]
  | nestClose => exact SameData.closeRecord h
  | assertion expected =>
    simp only [control, except_bind_ok, except_pure_ok] at h
    obtain ⟨_, _, rfl⟩ := h
    exact ⟨rfl, rfl, rfl, rfl, id, rfl⟩

end Engine

end BitTemplate
