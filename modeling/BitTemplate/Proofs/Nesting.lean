import BitTemplate.Pattern.Compile
import BitTemplate.Proofs.Outline

/-!
Nested and flat input. An encoder takes the scalars of its input one by one and looks at their nesting only at the end, so
a run on nested values is a run on their scalars. The brackets of the program decide which records these form. Input that
was nested already has to have just these records.
-/

namespace BitTemplate

namespace Shape

/-- Scalars are their own scalars. -/
theorem scalarsOf_of_flat {values : List Value} (flat : ∀ v ∈ values, v.isList = false) : scalarsOf values = values := by
  induction values with
  | nil => rfl
  | cons v rest ih =>
    rw [scalarsOf, scalars_of_not_isList (flat v List.mem_cons_self), ih fun u hu => flat u (List.mem_cons_of_mem v hu)]
    rfl

/-- Scalars by themselves make no brackets. -/
theorem not_mem_marksOf_of_flat {values : List Value} (flat : ∀ v ∈ values, v.isList = false) : '[' ∉ marksOf values := by
  induction values with
  | nil => exact List.not_mem_nil
  | cons v rest ih =>
    rw [marksOf, marks_of_not_isList (flat v List.mem_cons_self)]
    have others := ih fun u hu => flat u (List.mem_cons_of_mem v hu)
    simpa using others

end Shape

namespace Encoder

variable {s s' : Encoder} {u : Unit}

/-! ## The shape of the input -/

/-- An encoder with another idea of the shape of its input. -/
def reshape (shape : String) (s : Encoder) : Encoder :=
  { s with shape }

section

variable (shape : String)

theorem reshape_marked : s.marked.reshape shape = (s.reshape shape).marked := by
  obtain ⟨engine, input, own, pending, restEnd⟩ := s
  cases restEnd <;> rfl

theorem reshape_writeBits {encoding : Encoding} {bits : Bits} (done : writeBits encoding bits s = .ok u s') :
    writeBits encoding bits (s.reshape shape) = .ok u (s'.reshape shape) := by
  obtain ⟨ts, asked, rfl⟩ := writeBits_ok.mp done
  exact writeBits_ok.mpr ⟨ts, asked, rfl⟩

theorem reshape_writeField {encoding : Encoding} {v : Value} {bits : Bits}
    (done : writeField encoding v bits s = .ok u s') :
    writeField encoding v bits (s.reshape shape) = .ok u (s'.reshape shape) := by
  obtain ⟨s₁, written, rfl⟩ := writeField_ok.mp done
  exact writeField_ok.mpr ⟨_, reshape_writeBits shape written, rfl⟩

theorem reshape_writeGap {bytesOnly : Bool} {width : Nat} (done : writeGap bytesOnly s = .ok width s') :
    writeGap bytesOnly (s.reshape shape) = .ok width (s'.reshape shape) := by
  obtain ⟨v, rest, bits, input, encoded, width, rfl⟩ := writeGap_ok.mp done
  exact writeGap_ok.mpr ⟨v, rest, bits, input, encoded, width, rfl⟩

/-- No instruction looks at the shape of the input. -/
theorem reshape_execute {directive : Directive} (done : execute directive s = .ok u s') :
    execute directive (s.reshape shape) = .ok u (s'.reshape shape) := by
  cases directive with
  | value encoding width =>
    cases width with
    | bits width =>
      obtain ⟨v, rest, bits, input, room, encoded, written⟩ := execute_value_ok.mp done
      exact execute_value_ok.mpr ⟨v, rest, bits, input, room, encoded, reshape_writeField shape written⟩
    | rest =>
      obtain ⟨v, rest, bits, s₁, input, widened, written, rfl⟩ := execute_rest_ok.mp done
      exact execute_rest_ok.mpr
        ⟨v, rest, bits, _, input, widened, reshape_writeField shape written, (reshape_marked shape).symm⟩
  | next width =>
    obtain ⟨room, rfl⟩ := execute_next_ok.mp done
    exact execute_next_ok.mpr ⟨room, rfl⟩
  | constant bit width =>
    obtain ⟨room, written⟩ := writeConstant_ok.mp done
    exact writeConstant_ok.mpr ⟨room, reshape_writeBits shape written⟩
  | mod change width =>
    obtain ⟨ts, asked, rfl⟩ := execute_mod_ok.mp done
    exact execute_mod_ok.mpr ⟨ts, asked, rfl⟩
  | modOff change offset width =>
    obtain rfl := execute_modOff_ok.mp done
    exact execute_modOff_ok.mpr rfl
  | takeAll encoding =>
    obtain ⟨v, rest, bits, s₁, aligned, input, encoded, written, rfl⟩ := execute_takeAll_ok.mp done
    exact execute_takeAll_ok.mpr
      ⟨v, rest, bits, _, aligned, input, encoded, reshape_writeField shape written, (reshape_marked shape).symm⟩
  | jump origin bits =>
    obtain ⟨gap, s₁, written, rfl⟩ := jump_ok.mp done
    exact jump_ok.mpr ⟨gap, _, reshape_writeGap shape written, rfl⟩
  | marker last bytes =>
    obtain ⟨needle, gap, s₁, aligned, disguised, written, closed⟩ := marker_ok.mp done
    exact marker_ok.mpr
      ⟨needle, gap, _, aligned, disguised, reshape_writeGap shape written, reshape_writeBits shape closed⟩
  | control action =>
    obtain ⟨e, acted, rfl⟩ := execute_control_ok.mp done
    exact execute_control_ok.mpr ⟨e, acted, rfl⟩

theorem reshape_runFrom {instructions : List Instruction} {index : Nat} (done : runFrom index instructions s = (none, s')) :
    runFrom index instructions (s.reshape shape) = (none, s'.reshape shape) := by
  induction instructions generalizing index s with
  | nil =>
    cases done
    rfl
  | cons instruction rest ih =>
    obtain ⟨s₁, first, others⟩ := runFrom_cons_ok.mp done
    obtain ⟨allowed, executed⟩ := step_ok.mp first
    exact runFrom_cons_ok.mpr ⟨_, step_ok.mpr ⟨allowed, reshape_execute shape executed⟩, ih others⟩

end

/-! ## Whole runs -/

variable {values scalars : List Value} {limits : Limits} {labels : List (String × Value)} {program : Program}
  {bytes : List UInt8}

/-- An encoder of nested values is one of their scalars that knows their shape. -/
theorem ofValues_eq_reshape (values : List Value) :
    ofValues values limits labels
      = (ofValues (Shape.scalarsOf values) limits labels).reshape (Shape.flatten values).2 := by
  have same : Shape.scalarsOf (Shape.scalarsOf values) = Shape.scalarsOf values :=
    Shape.scalarsOf_of_flat fun _ member => Shape.isList_of_mem_scalarsOf values member
  simp only [ofValues, Shape.flatten, reshape, same]

/-- A run on nested values is a run on their scalars. -/
theorem runFrom_scalars {instructions : List Instruction} :
    runFrom 0 instructions (ofValues values limits labels) = (none, s) ↔
      ∃ s₁, runFrom 0 instructions (ofValues (Shape.scalarsOf values) limits labels) = (none, s₁)
        ∧ s = s₁.reshape (Shape.flatten values).2 := by
  constructor
  · intro run
    have back : (ofValues values limits labels).reshape (ofValues (Shape.scalarsOf values) limits labels).shape
        = ofValues (Shape.scalarsOf values) limits labels := by
      rw [ofValues_eq_reshape values]
      rfl
    have kept : s.shape = (Shape.flatten values).2 := (Extends.runFrom atEnd_ofValues run).shape
    refine ⟨_, back ▸ reshape_runFrom _ run, ?_⟩
    rw [reshape, reshape, ← kept]
  · rintro ⟨s₁, run, rfl⟩
    rw [ofValues_eq_reshape]
    exact reshape_runFrom _ run

theorem checkShape_ok : s.checkShape = .ok u ↔ ('[' ∈ s.shape.toList → s.engine.shape = s.shape) := by
  simp only [checkShape, List.contains_iff_mem]
  by_cases mismatch : '[' ∈ s.shape.toList ∧ s.engine.shape ≠ s.shape
  · rw [if_pos mismatch]
    simpa using mismatch
  · rw [if_neg mismatch]
    simpa [pure, Except.pure] using mismatch

/-- What the run on the scalars of some values has to end with, so that these values are encoded. -/
theorem encode_ok_iff_scalars :
    (ofValues values limits labels).encode program = .ok bytes ↔
      ∃ s, runFrom 0 program.instructions (ofValues (Shape.scalarsOf values) limits labels) = (none, s)
        ∧ s.input = [] ∧ s.engine.records.outer = []
        ∧ ('[' ∈ (Shape.flatten values).2.toList → s.engine.shape = (Shape.flatten values).2)
        ∧ ∃ wire, s.Sealed wire ∧ Bits.toBytes wire = bytes := by
  rw [encode_ofValues_ok]
  constructor
  · rintro ⟨_, run, used, closed, shape, wire, ⟨replay, checked, rest⟩, rfl⟩
    obtain ⟨s, flat, rfl⟩ := runFrom_scalars.mp run
    exact ⟨s, flat, used, closed, checkShape_ok.mp shape, wire, ⟨replay, checked, rest⟩, rfl⟩
  · rintro ⟨s, flat, used, closed, shape, wire, ⟨replay, checked, rest⟩, rfl⟩
    exact ⟨_, runFrom_scalars.mpr ⟨s, flat, rfl⟩, used, closed, checkShape_ok.mpr shape, wire,
      ⟨replay, checked, rest⟩, rfl⟩

/-- For scalars there is nothing to check about their shape. -/
theorem encode_scalars_ok (flat : ∀ v ∈ scalars, v.isList = false) :
    (ofValues scalars limits labels).encode program = .ok bytes ↔
      ∃ s, runFrom 0 program.instructions (ofValues scalars limits labels) = (none, s) ∧ s.input = []
        ∧ s.engine.records.outer = [] ∧ ∃ wire, s.Sealed wire ∧ Bits.toBytes wire = bytes := by
  have unnested : '[' ∉ (Shape.flatten scalars).2.toList := by
    rw [Shape.flatten, String.toList_ofList]
    exact Shape.not_mem_marksOf_of_flat flat
  simp only [encode_ok_iff_scalars, Shape.scalarsOf_of_flat flat, unnested, false_implies, true_and]

/-- The record that a run leaves flattens to its input and to its shape. -/
theorem flatten_root (run : runFrom 0 program.instructions (ofValues scalars limits labels) = (none, s))
    (flat : ∀ v ∈ scalars, v.isList = false) (used : s.input = []) (closed : s.engine.records.outer = []) :
    ∃ values, Shape.flatten values = (scalars, s.engine.shape) := by
  obtain ⟨values, root⟩ := Shape.Records.root?_isSome.mpr closed
  have member : s ∈ (ofValues scalars limits labels).moments [program] := by
    have last := Runner.mem_moments_of_run (runner.mem_moments [] (runner.run program (ofValues scalars limits labels)))
    have same : runner.run program (ofValues scalars limits labels) = s := by
      show ((ofValues scalars limits labels).run program).2 = s
      rw [run_ofValues, run]
    rwa [same] at last
  have shaped : s.engine.shape.toList = s.engine.records.marks :=
    (structured_moments scalars limits labels [program] s member).marks
  have produced : s.engine.records.scalars = scalars := by
    have all := scalars_of_run run used
    rwa [Shape.scalarsOf_of_flat flat] at all
  refine ⟨values, ?_⟩
  rw [Shape.Records.flatten_of_root? root, ← shaped, String.ofList_toList, produced]

/-- A run whose input is used up and whose records are closed is rejected if the input was nested in another way. -/
theorem finish_mismatch (used : s.input = []) (closed : s.engine.records.outer = []) (nested : '[' ∈ s.shape.toList)
    (other : s.engine.shape ≠ s.shape) :
    s.finish = .error (s.engine.rest.error (.shapeMismatch s.shape s.engine.shape)) := by
  obtain ⟨root, found⟩ := Shape.Records.root?_isSome.mpr closed
  have empty : s.input.length = 0 := List.length_eq_zero_iff.mpr used
  have rooted : s.engine.rest.finish = .ok root := Engine.finish_ok.mpr found
  have refused : { s with engine := s.engine.rest }.checkShape = .error (.shapeMismatch s.shape s.engine.shape) := by
    rw [checkShape, if_pos ⟨List.contains_iff_mem.mpr nested, other⟩]
    rfl
  simp only [finish, empty, ne_eq, not_true_eq_false, if_false, rooted, refused]
  rfl

end Encoder

/-- Nested and flat input are interchangeable. Values that are encoded may be given as their scalars; scalars that are
encoded may be given as the records that the program has formed of them; and nested values whose scalars are encoded are
encoded themselves, to the same bytes, if they have the shape that the program forms, and rejected if not. -/
theorem nesting_interchangeable (program : Program) (limits : Limits) (labels : List (String × Value)) :
    (∀ values bytes, (Encoder.ofValues values limits labels).encode program = .ok bytes →
      (Encoder.ofValues (Shape.flatten values).1 limits labels).encode program = .ok bytes)
    ∧ (∀ scalars bytes, (∀ v ∈ scalars, v.isList = false) →
      (Encoder.ofValues scalars limits labels).encode program = .ok bytes →
        let shape := ((Encoder.ofValues scalars limits labels).run program).2.engine.shape
        ∃ values, Shape.deflatten shape scalars = .ok values
          ∧ (Encoder.ofValues values limits labels).encode program = .ok bytes)
    ∧ ∀ values bytes, '[' ∈ (Shape.flatten values).2.toList →
      (Encoder.ofValues (Shape.flatten values).1 limits labels).encode program = .ok bytes →
        let shape := ((Encoder.ofValues (Shape.flatten values).1 limits labels).run program).2.engine.shape
        ((Shape.flatten values).2 = shape → (Encoder.ofValues values limits labels).encode program = .ok bytes)
        ∧ ((Shape.flatten values).2 ≠ shape → ∃ error,
          (Encoder.ofValues values limits labels).encode program = .error error ∧ error.fault.family = .structural) := by
  have flat (values : List Value) : ∀ v ∈ Shape.scalarsOf values, v.isList = false :=
    fun _ member => Shape.isList_of_mem_scalarsOf values member
  refine ⟨?_, ?_, ?_⟩
  · intro values bytes encoded
    obtain ⟨s, run, used, closed, _, sealed⟩ := Encoder.encode_ok_iff_scalars.mp encoded
    exact (Encoder.encode_scalars_ok (flat values)).mpr ⟨s, run, used, closed, sealed⟩
  · intro scalars bytes single encoded
    obtain ⟨s, run, used, closed, sealed⟩ := (Encoder.encode_scalars_ok single).mp encoded
    obtain ⟨values, same⟩ := Encoder.flatten_root run single used closed
    have again := Shape.deflatten_flatten values
    rw [same] at again
    rw [Encoder.run_ofValues, run]
    refine ⟨values, again, Encoder.encode_ok_iff_scalars.mpr ⟨s, ?_, used, closed, fun _ => ?_, sealed⟩⟩
    · rwa [show Shape.scalarsOf values = scalars from congrArg Prod.fst same]
    · rw [same]
  · intro values bytes nested encoded
    obtain ⟨s, run, used, closed, sealed⟩ := (Encoder.encode_scalars_ok (flat values)).mp encoded
    have left : ((Encoder.ofValues (Shape.flatten values).1 limits labels).run program).2 = s := by
      rw [Encoder.run_ofValues]
      exact congrArg Prod.snd run
    rw [left]
    constructor
    · intro same
      exact Encoder.encode_ok_iff_scalars.mpr ⟨s, run, used, closed, fun _ => same.symm, sealed⟩
    · intro other
      refine ⟨s.engine.rest.error (.shapeMismatch (Shape.flatten values).2 s.engine.shape), ?_, rfl⟩
      rw [Encoder.encode, Encoder.run_ofValues, Encoder.runFrom_scalars.mpr ⟨s, run, rfl⟩]
      exact Encoder.finish_mismatch used closed nested (Ne.symm other)

/-- A record with an empty one in it, a comparison of the whole record, and bytes up to the end of the data. -/
def nestedRecord : Program where
  instructions := [
    ⟨"[", ⟨0, 1⟩, .control .nestOpen⟩, ⟨"u8", ⟨1, 3⟩, .value .uint (.bits 8)⟩, ⟨"[", ⟨3, 4⟩, .control .nestOpen⟩,
    ⟨"]", ⟨4, 5⟩, .control .nestClose⟩, ⟨"]", ⟨5, 6⟩, .control .nestClose⟩,
    ⟨"?#\"pair\"", ⟨7, 15⟩, .control (.matchLabel "pair")⟩, ⟨"B$", ⟨16, 18⟩, .takeAll .bytes⟩]

theorem nesting_interchangeable_nestedRecord :
    let labels : List (String × Value) := [("pair", .list [.uint 1, .list []])]
    let nested : List Value := [.list [.uint 1, .list []], .bytes [2]]
    let other : List Value := [.list [.uint 1, .bytes [2]]]
    let flat : List Value := [.uint 1, .bytes [2]]
    Pattern.compile "[u8[]] ?#\"pair\" B$" = .ok nestedRecord
      ∧ (Encoder.ofValues nested ⟨20, 48⟩ labels).encode nestedRecord = .ok [1, 2]
      ∧ (Encoder.ofValues flat ⟨20, 48⟩ labels).encode nestedRecord = .ok [1, 2]
      ∧ ((Encoder.ofValues flat ⟨20, 48⟩ labels).run nestedRecord).2.engine.shape = "[.[]]."
      ∧ (∃ values, Shape.deflatten "[.[]]." flat = .ok values
        ∧ (Encoder.ofValues values ⟨20, 48⟩ labels).encode nestedRecord = .ok [1, 2])
      ∧ ∃ error, (Encoder.ofValues other ⟨20, 48⟩ labels).encode nestedRecord = .error error
        ∧ error.fault.family = .structural := by
  intro labels nested other flat
  have compiled : Pattern.compile "[u8[]] ?#\"pair\" B$" = .ok nestedRecord := by cbv
  have encoded : (Encoder.ofValues nested ⟨20, 48⟩ labels).encode nestedRecord = .ok [1, 2] := by cbv
  have shape : ((Encoder.ofValues flat ⟨20, 48⟩ labels).run nestedRecord).2.engine.shape = "[.[]]." := by decide +kernel
  obtain ⟨flattened, rebuilt, judged⟩ := nesting_interchangeable nestedRecord ⟨20, 48⟩ labels
  have plain : (Encoder.ofValues flat ⟨20, 48⟩ labels).encode nestedRecord = .ok [1, 2] := flattened nested _ encoded
  have deflated := rebuilt flat _ (by decide) plain
  have rejected := (judged other [1, 2] (by decide +kernel) plain).2 (by decide +kernel)
  rw [shape] at deflated
  exact ⟨compiled, encoded, plain, shape, deflated, rejected⟩

end BitTemplate
