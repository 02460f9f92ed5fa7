import BitTemplate.Proofs.Forms
import BitTemplate.Proofs.Lockstep

/-!
Two encoders of values in two forms. The first one is given another form of each scalar that the second one is given. An
instruction that writes the form in the bits of the scalar leaves nothing to tell the two apart but the values that they
hold: storage, log and all that is put off are the same. So the first encoder finishes with the bytes of the second one,
unless it stops at a comparison. Whether windows start where position and offset say makes no difference, for the windows
are the same in both.
-/

namespace BitTemplate

/-- Whether an instruction writes a form of a value in all bits in which it writes the value. -/
structure Directive.Carries (R : Value → Value → Prop) (directive : Directive) (form v : Value) : Prop where
  related : Value.Alike R form v
  writes : ∀ position {encoding bits},
    directive.Writes position v encoding bits → directive.Writes position form encoding bits

namespace Encoder

/-! ## The values that instructions take -/

/-- Whether a property holds of an instruction and the value that it takes, if it takes one. -/
def Takes (property : Directive → Value → Prop) (directive : Directive) (s : Encoder) : Prop :=
  directive.takesValue = true → ∀ v rest, s.input = v :: rest → property directive v

variable {directive : Directive} {s s' : Encoder} {u : Unit}

theorem input_writeField {encoding : Encoding} {v : Value} {bits : Bits}
    (done : writeField encoding v bits s = .ok u s') : s'.input = s.input := by
  obtain ⟨s₁, written, rfl⟩ := writeField_ok.mp done
  obtain ⟨ts, _, rfl⟩ := writeBits_ok.mp written
  rfl

theorem input_writeGap {bytesOnly : Bool} {width : Nat} (done : writeGap bytesOnly s = .ok width s') :
    ∃ v, s.input = v :: s'.input := by
  obtain ⟨v, rest, bits, input, _, _, rfl⟩ := writeGap_ok.mp done
  exact ⟨v, input⟩

/-- An instruction that takes a value takes the next one. -/
theorem input_of_takesValue (takes : directive.takesValue = true) (done : execute directive s = .ok u s') :
    ∃ v, s.input = v :: s'.input := by
  cases directive with
  | value encoding width =>
    cases width with
    | bits width =>
      obtain ⟨v, rest, bits, input, _, _, written⟩ := execute_value_ok.mp done
      exact ⟨v, by rw [input, input_writeField written]⟩
    | rest =>
      obtain ⟨v, rest, bits, s₁, input, _, written, rfl⟩ := execute_rest_ok.mp done
      exact ⟨v, by rw [input, input_marked, input_writeField written]⟩
  | takeAll encoding =>
    obtain ⟨v, rest, bits, s₁, _, input, _, written, rfl⟩ := execute_takeAll_ok.mp done
    exact ⟨v, by rw [input, input_marked, input_writeField written]⟩
  | jump origin count =>
    obtain ⟨width, s₁, written, rfl⟩ := jump_ok.mp done
    obtain ⟨v, input⟩ := input_writeGap written
    exact ⟨v, input⟩
  | marker last bytes =>
    obtain ⟨needle, width, s₁, _, _, written, closed⟩ := marker_ok.mp done
    obtain ⟨ts, _, rfl⟩ := writeBits_ok.mp closed
    obtain ⟨v, input⟩ := input_writeGap written
    exact ⟨v, input⟩
  | _ => cases takes

theorem input_of_not_takesValue (takes : directive.takesValue = false) (done : execute directive s = .ok u s') :
    s'.input = s.input := by
  cases directive with
  | next width =>
    obtain ⟨_, rfl⟩ := execute_next_ok.mp done
    rfl
  | constant bit width =>
    obtain ⟨ts, _, rfl⟩ := writeBits_ok.mp (writeConstant_ok.mp done).2
    rfl
  | mod change width =>
    obtain ⟨ts, _, rfl⟩ := execute_mod_ok.mp done
    rfl
  | modOff change offset width =>
    obtain rfl := execute_modOff_ok.mp done
    rfl
  | control action =>
    obtain ⟨e, _, rfl⟩ := execute_control_ok.mp done
    rfl
  | _ => cases takes

/-- The values that a run uses up are those that its instructions take, one after the other. -/
theorem forall₂_iff_along {property : Directive → Value → Prop} {instructions : List Instruction} {index : Nat}
    (done : runFrom index instructions s = (none, s')) (used : s'.input = []) :
    List.Forall₂ property ((instructions.map (·.directive)).filter Directive.takesValue) s.input ↔
      Along (Takes property) index instructions s := by
  induction instructions generalizing index s with
  | nil =>
    cases done
    rw [show s.input = [] from used]
    exact ⟨fun _ => trivial, fun _ => .nil⟩
  | cons instruction rest ih =>
    obtain ⟨s₁, first, later⟩ := runFrom_cons_ok.mp done
    obtain ⟨_, executed⟩ := step_ok.mp first
    have same := ih later
    -- the step has one outcome, so what holds along the rest after every outcome holds after this one
    have onwards : (∀ s₂, step index instruction s = .ok () s₂ → Along (Takes property) (index + 1) rest s₂)
        ↔ Along (Takes property) (index + 1) rest s₁ := by
      refine ⟨fun all => all s₁ first, fun along s₂ again => ?_⟩
      cases first.symm.trans again
      exact along
    cases takes : instruction.directive.takesValue with
    | true =>
      obtain ⟨v, input⟩ := input_of_takesValue takes executed
      have input : s.input = v :: s₁.input := input
      rw [List.map_cons, List.filter_cons_of_pos takes, input, List.forall₂_cons, same, Along, onwards]
      refine and_congr_left fun _ => ⟨fun holds _ w others again => ?_, fun all => all takes v s₁.input input⟩
      cases input.symm.trans again
      exact holds
    | false =>
      have input := input_of_not_takesValue takes executed
      rw [List.map_cons, List.filter_cons_of_neg (by rw [takes]; decide), ← input, same, Along, onwards]
      refine (and_iff_right fun takes' => ?_).symm
      rw [takes] at takes'
      cases takes'

/-! ## Twins -/

/-- Two encoders that have done the same things, the first of them with what is given for the values of the second. -/
structure Twin (R : Value → Value → Prop) (given : Value → Value) (t s : Encoder) : Prop where
  agree : Engine.Agree (Value.Alike R) t.engine s.engine
  storage : t.engine.storage = s.engine.storage
  limits : t.engine.limits = s.engine.limits
  input : t.input = s.input.map given
  shape : t.shape = s.shape
  pending : t.pending = s.pending
  restEnd : t.restEnd = s.restEnd

namespace Twin

variable {R : Value → Value → Prop} {given : Value → Value} {t final : Encoder} {v : Value} {bits : Bits}

theorem cursor (h : Twin R given t s) : t.engine.cursor = s.engine.cursor :=
  congrArg Storage.cursor h.storage

theorem context (h : Twin R given t s) : t.engine.context = s.engine.context := by
  rw [Engine.context, Engine.context, h.agree.current, h.agree.walk]

/-! ### Building blocks -/

theorem writeBits (h : Twin R given t s) {encoding : Encoding} (done : Encoder.writeBits encoding bits s = .ok u s') :
    ∃ t', Encoder.writeBits encoding bits t = .ok () t' ∧ Twin R given t' s' := by
  obtain ⟨ts, asked, rfl⟩ := writeBits_ok.mp done
  refine ⟨_, writeBits_ok.mpr ⟨ts, ?_, rfl⟩, ?_⟩
  · rwa [h.cursor, h.agree.flags]
  · exact { h with
      agree := (h.agree.recordAll ts).withStorage (by rw [h.storage])
      storage := congrArg (·.write bits) h.storage
      limits := by simp only [Engine.foldl_record, h.limits] }

theorem writeField (h : Twin R given t s) (related : Value.Alike R (given v) v)
    {encoding : Encoding} (done : Encoder.writeField encoding v bits s = .ok u s') :
    ∃ t', Encoder.writeField encoding (given v) bits t = .ok () t' ∧ Twin R given t' s' := by
  obtain ⟨s₁, written, rfl⟩ := writeField_ok.mp done
  obtain ⟨t₁, written', next⟩ := h.writeBits written
  refine ⟨_, writeField_ok.mpr ⟨t₁, written', rfl⟩, { next with agree := ?_ }⟩
  rw [h.cursor]
  exact next.agree.produce related _

theorem writeGap (h : Twin R given t s) (related : Value.Alike R (given v) v)
    {rest : List Value} (input : s.input = v :: rest) {bytesOnly : Bool}
    (encoded : Field.encode (gapEncoding bytesOnly (given v)) (given v) none = .ok bits) :
    ∃ t', Encoder.writeGap bytesOnly t = .ok bits.length t'
      ∧ Twin R given t' { s with input := rest, engine := afterGap s.engine v bits } := by
  have input' : t.input = given v :: rest.map given := by rw [h.input, input, List.map_cons]
  refine ⟨_, writeGap_ok.mpr ⟨given v, rest.map given, bits, input', encoded, rfl, rfl⟩, { h with
    agree := ?_
    storage := congrArg (·.write bits) h.storage
    input := rfl }⟩
  simp only [afterGap, h.cursor]
  exact ((h.agree.emit (.same _)).withStorage (by rw [h.storage])).produce related _

theorem marked (h : Twin R given t s) : Twin R given t.marked s.marked := by
  simp only [Encoder.marked, h.restEnd]
  cases s.restEnd with
  | some p => exact h
  | none => exact { h with restEnd := by rw [h.cursor, h.context] }

theorem recordAll (h : Twin R given t s) (ts : List Transform) :
    Twin R given { t with engine := ts.foldl Engine.record t.engine }
      { s with engine := ts.foldl Engine.record s.engine } :=
  { h with
    agree := h.agree.recordAll ts
    storage := by simp only [Engine.foldl_record, h.storage]
    limits := by simp only [Engine.foldl_record, h.limits] }

theorem postpone (h : Twin R given t s) (pending : Pending) :
    Twin R given { t with pending := t.pending ++ [pending] } { s with pending := s.pending ++ [pending] } :=
  { h with pending := congrArg (· ++ [pending]) h.pending }

theorem take (h : Twin R given t s) {rest : List Value} (input : s.input = v :: rest) :
    t.input = given v :: rest.map given ∧ Twin R given { t with input := rest.map given } { s with input := rest } :=
  ⟨by rw [h.input, input, List.map_cons], { h with input := rfl }⟩

theorem arrive (h : Twin R given t s) (index : Nat) (instruction : Instruction) :
    Twin R given { t with engine := t.engine.arrive index instruction }
      { s with engine := s.engine.arrive index instruction } :=
  { h with
    agree := by
      refine (h.agree.begin index instruction).emit ?_
      rw [h.cursor]
      exact .same _ }

/-! ### Instructions -/

theorem jump (h : Twin R given t s) {rest : List Value} (input : s.input = v :: rest) {origin : JumpOrigin}
    {count : Nat} (carries : (Directive.jump origin count).Carries R (given v) v)
    (done : Encoder.jump origin count s = .ok u s') :
    ∃ t', Encoder.jump origin count t = .ok () t' ∧ Twin R given t' s' := by
  obtain ⟨width, s₁, written, rfl⟩ := jump_ok.mp done
  obtain ⟨w, others, bits, next, encoded, rfl, rfl⟩ := writeGap_ok.mp written
  cases input.symm.trans next
  have writes : (Directive.jump origin count).Writes s.engine.cursor v _ bits := ⟨rfl, encoded⟩
  obtain ⟨t₁, written', beside⟩ := h.writeGap carries.related input (carries.writes _ writes).2
  refine ⟨_, jump_ok.mpr ⟨bits.length, t₁, written', rfl⟩, ?_⟩
  rw [h.agree.log, h.cursor, h.context]
  exact beside.postpone _

theorem marker (h : Twin R given t s) {rest : List Value} (input : s.input = v :: rest) {last : Bool}
    {bytes : List UInt8} (carries : (Directive.marker last bytes).Carries R (given v) v)
    (done : Encoder.marker last bytes s = .ok u s') :
    ∃ t', Encoder.marker last bytes t = .ok () t' ∧ Twin R given t' s' := by
  obtain ⟨needle, width, s₁, even, disguised, written, closed⟩ := marker_ok.mp done
  obtain ⟨w, others, bits, next, encoded, rfl, rfl⟩ := writeGap_ok.mp written
  cases input.symm.trans next
  rw [gapEncoding_true] at encoded
  have writes : (Directive.marker last bytes).Writes s.engine.cursor v .bytes bits := ⟨rfl, encoded⟩
  have encoded' := (carries.writes _ writes).2
  rw [← gapEncoding_true (given v)] at encoded'
  obtain ⟨t₁, written', beside⟩ := h.writeGap carries.related input encoded'
  obtain ⟨t', closed', after⟩ := (beside.postpone _).writeBits closed
  refine ⟨t', marker_ok.mpr ⟨needle, bits.length, t₁, ?_, ?_, written', ?_⟩, after⟩
  · rwa [h.cursor]
  · rwa [h.agree.flags]
  · rwa [beside.agree.log, h.cursor, beside.context]

theorem control (h : Twin R given t s) {action : Control} (passes : t.engine.Passes action)
    (done : Encoder.execute (.control action) s = .ok u s') :
    ∃ t', Encoder.execute (.control action) t = .ok () t' ∧ Twin R given t' s' := by
  obtain ⟨e, acted, rfl⟩ := execute_control_ok.mp done
  obtain ⟨d, acted', storage, agree⟩ := h.agree.control (Value.congruence_alike _) passes acted
  have same := Engine.control_kept acted
  have same' := Engine.control_kept acted'
  exact ⟨_, execute_control_ok.mpr ⟨d, acted', rfl⟩, { h with
    agree := agree
    storage := by rw [storage, same.storage, h.storage]
    limits := by rw [same'.limits, same.limits, h.limits] }⟩

/-- What is given for the values of an encoder takes the steps that these take, where the forms are written alike and no
comparison stands against it. -/
theorem execute (h : Twin R given t s)
    (carries : s.Takes (fun directive v => directive.Carries R (given v) v) directive)
    (passes : ∀ action, directive = .control action → t.engine.Passes action)
    (done : Encoder.execute directive s = .ok u s') :
    ∃ t', Encoder.execute directive t = .ok () t' ∧ Twin R given t' s' := by
  have cursor := h.cursor
  cases directive with
  | value encoding width =>
    cases width with
    | bits width =>
      obtain ⟨v, rest, bits, input, room, encoded, written⟩ := execute_value_ok.mp done
      have carried := carries rfl v rest input
      obtain ⟨input', here⟩ := h.take input
      obtain ⟨t', written', next⟩ := here.writeField carried.related written
      obtain ⟨_, encoded'⟩ := carried.writes s.engine.cursor ⟨rfl, encoded⟩
      refine ⟨t', execute_value_ok.mpr ⟨_, _, bits, input', ?_, encoded', written'⟩, next⟩
      rwa [h.storage, h.limits]
    | rest =>
      obtain ⟨v, rest, bits, s₁, input, widened, written, rfl⟩ := execute_rest_ok.mp done
      have carried := carries rfl v rest input
      obtain ⟨input', here⟩ := h.take input
      obtain ⟨t₁, written', next⟩ := here.writeField carried.related written
      obtain ⟨_, widened'⟩ := carried.writes s.engine.cursor ⟨rfl, widened⟩
      exact ⟨_, execute_rest_ok.mpr ⟨_, _, bits, t₁, input', by rwa [cursor], written', rfl⟩, next.marked⟩
  | takeAll encoding =>
    obtain ⟨v, rest, bits, s₁, even, input, encoded, written, rfl⟩ := execute_takeAll_ok.mp done
    have carried := carries rfl v rest input
    obtain ⟨input', here⟩ := h.take input
    obtain ⟨t₁, written', next⟩ := here.writeField carried.related written
    obtain ⟨_, encoded'⟩ := carried.writes s.engine.cursor ⟨rfl, encoded⟩
    exact ⟨_, execute_takeAll_ok.mpr ⟨_, _, bits, t₁, by rwa [cursor], input', encoded', written', rfl⟩, next.marked⟩
  | jump origin count =>
    obtain ⟨v, input⟩ := input_of_takesValue rfl done
    have carried := carries rfl v _ input
    exact h.jump input carried done
  | marker last bytes =>
    obtain ⟨v, input⟩ := input_of_takesValue rfl done
    have carried := carries rfl v _ input
    exact h.marker input carried done
  | next width =>
    obtain ⟨room, rfl⟩ := execute_next_ok.mp done
    refine ⟨_, execute_next_ok.mpr ⟨by rwa [h.storage, h.limits], rfl⟩, { h with
      agree := h.agree.withStorage (by rw [h.storage])
      storage := congrArg (·.write (List.replicate width false)) h.storage }⟩
  | constant bit width =>
    obtain ⟨room, written⟩ := writeConstant_ok.mp done
    obtain ⟨t', written', next⟩ := h.writeBits written
    exact ⟨t', writeConstant_ok.mpr ⟨by rwa [h.storage, h.limits], written'⟩, next⟩
  | mod change width =>
    obtain ⟨ts, asked, rfl⟩ := execute_mod_ok.mp done
    exact ⟨_, execute_mod_ok.mpr ⟨ts, by rwa [cursor], rfl⟩, h.recordAll ts⟩
  | modOff change offset width =>
    obtain rfl := execute_modOff_ok.mp done
    refine ⟨_, execute_modOff_ok.mpr rfl, ?_⟩
    rw [cursor]
    exact h.recordAll _
  | control action => exact h.control (passes action rfl) done

/-! ### Runs -/

/-- Whether a run has stopped at a comparison of the values of a twin with what is given for them. -/
abbrev Parts (R : Value → Value → Prop) (index : Nat) (instructions : List Instruction) (error : RunError)
    (t s : Encoder) : Prop :=
  t.engine.StopsBeside (Engine.Differ (Value.Alike R)) index instructions error s

/-- One step of the first encoder, or the mismatch on which it stops. -/
theorem step (h : Twin R given t s) {index : Nat} {instruction : Instruction}
    (carries : Takes (fun directive v => directive.Carries R (given v) v) instruction.directive
      { s with engine := s.engine.arrive index instruction })
    (done : Encoder.step index instruction s = .ok u s') :
    (∃ t', Encoder.step index instruction t = .ok () t' ∧ Twin R given t' s')
    ∨ ∃ error t', (∀ rest, Encoder.runFrom index (instruction :: rest) t = (some error, t'))
      ∧ ∀ rest, Parts R index (instruction :: rest) error t' s := by
  obtain ⟨allowed, executed⟩ := step_ok.mp done
  have allowed := (h.agree.begin index instruction).checkSteps.trans allowed
  have here := h.arrive index instruction
  by_cases passes : ∀ action, instruction.directive = .control action → (t.engine.arrive index instruction).Passes action
  · obtain ⟨t', executed', next⟩ := here.execute carries passes executed
    exact .inl ⟨t', step_ok.mpr ⟨allowed, executed'⟩, next⟩
  · obtain ⟨action, fault, control, refused, parts⟩ := here.agree.exists_mismatch executed passes
    refine .inr ⟨(t.engine.arrive index instruction).error fault, { t with engine := t.engine.arrive index instruction },
      fun rest => ?_, parts⟩
    rw [Encoder.runFrom, step_error allowed (by rw [control]; exact execute_control_error refused)]

/-- The first encoder gets to the end, unless it stops at a comparison. -/
theorem run (h : Twin R given t s) {instructions : List Instruction} {index : Nat}
    (carries : Along (Takes fun directive v => directive.Carries R (given v) v) index instructions s)
    (done : Encoder.runFrom index instructions s = (none, final)) :
    (∃ t', Encoder.runFrom index instructions t = (none, t') ∧ Twin R given t' final)
    ∨ ∃ error t', Encoder.runFrom index instructions t = (some error, t') ∧ Parts R index instructions error t' s := by
  induction instructions generalizing index t s with
  | nil =>
    cases done
    exact .inl ⟨_, rfl, { h with agree := h.agree.rest }⟩
  | cons instruction rest ih =>
    obtain ⟨s₁, first, later⟩ := runFrom_cons_ok.mp done
    rcases h.step carries.1 first with ⟨t₁, taken, next⟩ | ⟨error, t', stopped, parts⟩
    · rcases ih next (carries.2 s₁ first) later with ⟨t', run, last⟩ | ⟨error, t', run, parts⟩
      · exact .inl ⟨t', runFrom_cons_ok.mpr ⟨t₁, taken, run⟩, last⟩
      · refine .inr ⟨error, t', ?_, parts.later first⟩
        rw [Encoder.runFrom, taken]
        exact run
    · exact .inr ⟨error, t', stopped rest, parts rest⟩

/-- A wire that seals one of two twins seals the other one. -/
theorem sealed (h : Twin R given t s) {wire : Bits} (sealed : s.Sealed wire) : t.Sealed wire where
  replay := by rw [h.agree.log, h.storage, sealed.replay]
  checked := by
    rw [h.pending, h.agree.log]
    exact sealed.checked
  rest := by
    rw [h.restEnd, h.storage]
    exact sealed.rest

theorem checkShape (h : Twin R given t s) (shape : s.checkShape = .ok ()) : t.checkShape = .ok () := by
  rwa [Encoder.checkShape, h.agree.shape, h.shape]

end Twin

/-! ## Whole runs -/

section

variable {R : Value → Value → Prop} {given : Value → Value} {program : Program} {values forms : List Value}
  {bytes : List UInt8} {limits : Limits} {labels : List (String × Value)}

/-- Encoders of the same values in two forms start as twins. -/
theorem Twin.start (same : Shape.flatten forms = ((Shape.flatten values).1.map given, (Shape.flatten values).2)) :
    Twin R given (ofValues forms limits labels) (ofValues values limits labels) := by
  have fresh : Engine.Agree (Value.Alike R) (Engine.start (.ofBits []) limits)
      (Engine.start (.ofBits []) limits) :=
    ⟨rfl, rfl, rfl, .nil, ⟨.nil, .nil⟩, rfl, rfl, .none, rfl, rfl, rfl, .nil⟩
  exact ⟨fresh.seed (Value.congruence_alike _) labels, rfl, rfl, congrArg Prod.fst same, congrArg Prod.snd same, rfl, rfl⟩

/-- If all that instructions take is carried by what is given for it, then the given values are encoded as the same bytes,
unless a comparison tells the two forms apart. -/
theorem encode_of_carries (same : Shape.flatten forms = ((Shape.flatten values).1.map given, (Shape.flatten values).2))
    (carries : Along (Takes fun directive v => directive.Carries R (given v) v) 0 program.instructions
      (ofValues values limits labels))
    (encoded : (ofValues values limits labels).encode program = .ok bytes) :
    (ofValues forms limits labels).encode program = .ok bytes
    ∨ ∃ error t, (ofValues forms limits labels).run program = (some error, t)
      ∧ (ofValues forms limits labels).encode program = .error error
      ∧ Twin.Parts R 0 program.instructions error t (ofValues values limits labels) := by
  obtain ⟨s, done, used, closed, shape, wire, sealed, rfl⟩ := encode_ofValues_ok.mp encoded
  rcases (Twin.start same).run carries done with
    ⟨t, run, twin⟩ | ⟨error, t, run, parts⟩
  · have used : t.input = [] := by rw [twin.input, used, List.map_nil]
    have closed : t.engine.records.outer = [] := by
      have around := twin.agree.records.outer
      rwa [closed, List.forall₂_nil_right_iff] at around
    exact .inl (encode_ofValues_ok.mpr ⟨t, run, used, closed, twin.checkShape shape, wire, twin.sealed sealed, rfl⟩)
  · have stopped : (ofValues forms limits labels).run program = (some error, t) := by rw [run_ofValues, run]
    exact .inr ⟨error, t, stopped, by rw [encode, stopped], parts⟩

end

end Encoder

end BitTemplate
