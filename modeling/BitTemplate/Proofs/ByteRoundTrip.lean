import Mathlib
import BitTemplate.Proofs.RestWidth
import BitTemplate.Proofs.Writing

/-!
Bytes survive decoding and encoding. The encoder follows the decoder through the whole program, and at the end undoing
the log gives back the wire, because the decoder's data is what the log replays the wire to. For this, no window may
start before the cursor, so the sums of positions and offsets are to be words. The rest of the condition on single
instructions follows from the directives of the program alone if no bits are skipped and if only binary digits and bytes
run to the end of the data.
-/

namespace BitTemplate

/-- A run over bytes and a run over values start side by side. -/
theorem Lockstep.start {R : Value → Value → Prop} (congruence : Value.Congruence R) (bytes : List UInt8)
    (values : List Value) (maxSteps readBits maxBits : Nat) (check : Bool) (labels : List (String × Value)) :
    Lockstep R (Bits.ofBytes bytes) (Decoder.ofBytes bytes ⟨maxSteps, readBits⟩ check labels).engine
      (Encoder.ofValues values ⟨maxSteps, maxBits⟩ labels).engine where
  agree := by
    have fresh : Engine.Agree R (Engine.start (.ofBytes bytes) ⟨maxSteps, readBits⟩)
        (Engine.start (.ofBits []) ⟨maxSteps, maxBits⟩) :=
      ⟨rfl, rfl, rfl, .nil, ⟨.nil, .nil⟩, rfl, rfl, .none, rfl, rfl, rfl, .nil⟩
    exact fresh.seed congruence labels
  replay := by
    simp only [Decoder.ofBytes]
    rw [Engine.seed_eq]
    rfl
  written := by
    simp only [Decoder.ofBytes, Encoder.ofValues]
    rw [Engine.seed_eq, Engine.seed_eq (Engine.start (.ofBytes bytes) _)]
    rfl

/-- So do a run over the bytes that an encoder returned and a run over any values. -/
theorem Lockstep.start_of_sealed {R : Value → Value → Prop} (congruence : Value.Congruence R) {wire : Bits}
    {final : Encoder} (sealed : final.Sealed wire) (values : List Value) (maxSteps readBits maxBits : Nat) (check : Bool)
    (labels : List (String × Value)) :
    Lockstep R wire (Decoder.ofBytes (Bits.toBytes wire) ⟨maxSteps, readBits⟩ check labels).engine
      (Encoder.ofValues values ⟨maxSteps, maxBits⟩ labels).engine := by
  have start := Lockstep.start congruence (Bits.toBytes wire) values maxSteps readBits maxBits check labels
  rwa [Bits.ofBytes_toBytes sealed.length_mod] at start

section

variable {program : Program} {bytes : List UInt8} {values : List Value} {maxSteps readBits maxBits : Nat} {check : Bool}
  {labels : List (String × Value)}

/-- A decoder starts with nothing produced. -/
theorem Decoder.scalars_ofBytes {limits : Limits} :
    (ofBytes bytes limits check labels).engine.scalars = []
      ∧ (ofBytes bytes limits check labels).engine.Shaped := by
  have fresh : (Engine.start (.ofBytes bytes) limits).Shaped := rfl
  exact ⟨Engine.scalars_seed _ _, fresh.seed labels⟩

/-- The values of a run flatten to what its engine has produced, in the shape that the engine has kept. -/
theorem Decoder.flatten_root {limits : Limits} {d : Engine}
    (done : runFrom 0 program.instructions (ofBytes bytes limits check labels).engine = (none, d))
    (root : d.records.root? = some values) : Shape.flatten values = (d.scalars, d.shape) := by
  have shaped := (Advances.runFrom done).shaped scalars_ofBytes.2
  rw [Shape.Records.flatten_of_root? root, ← shaped, String.ofList_toList]
  rfl

/-- All that a decoder has produced is the input of an encoder of its values. -/
theorem Decoder.scalars_eq_input {limits limits' : Limits} {d : Engine}
    (done : runFrom 0 program.instructions (ofBytes bytes limits check labels).engine = (none, d))
    (root : d.records.root? = some values) :
    d.scalars = (ofBytes bytes limits check labels).engine.scalars
      ++ (Encoder.ofValues values limits' labels).input := by
  rw [scalars_ofBytes.1, List.nil_append]
  exact (congrArg Prod.fst (flatten_root done root)).symm

/-- An encoder of all that a run has produced has what it needs. -/
theorem Encoder.supplies_ofValues {limits limits' : Limits} {d : Engine}
    (same : (Shape.flatten values).1 = d.scalars) :
    Supplies (Decoder.ofBytes bytes limits check labels).engine d (ofValues values limits' labels) [] := by
  rw [Supplies, Decoder.scalars_ofBytes.1, List.append_nil]
  exact same.symm

/-- Values of the shape that a run has left pass the check of the shape. -/
theorem Encoder.checkShape_of_run {limits : Limits} {s : Encoder}
    (run : runFrom 0 program.instructions (ofValues values limits labels) = (none, s))
    (same : (Shape.flatten values).2 = s.engine.shape) : s.checkShape = .ok () := by
  apply checkShape_of_eq
  rw [← same, (Extends.runFrom atEnd_ofValues run).shape]
  rfl

/-- A run that can be written instruction by instruction is written as the bytes it has read. -/
theorem Encoder.encode_of_run {d : Engine}
    (done : Decoder.runFrom 0 program.instructions (Decoder.ofBytes bytes ⟨maxSteps, readBits⟩ check labels).engine
      = (none, d))
    (root : d.records.root? = some values) (tail : Bits.padToByte (d.storage.bits.take d.storage.cursor) = d.storage.bits)
    (along : Decoder.Along (Decoder.Restorable maxBits) 0 program.instructions
      (Decoder.ofBytes bytes ⟨maxSteps, readBits⟩ check labels).engine) :
    (ofValues values ⟨maxSteps, maxBits⟩ labels).encode program = .ok bytes := by
  have same := Decoder.flatten_root done root
  have closed := Shape.Records.root?_isSome.mp ⟨_, root⟩
  have start := Lockstep.start Value.congruence_eq bytes values maxSteps readBits maxBits check labels
  have nothing : (ofValues values ⟨maxSteps, maxBits⟩ labels).Supported (Bits.ofBytes bytes) :=
    ⟨(fun p hp => by cases hp), (fun p hp => by cases hp)⟩
  have limit : (ofValues values ⟨maxSteps, maxBits⟩ labels).engine.limits.maxBits = maxBits :=
    congrArg Limits.maxBits limits_ofValues
  obtain ⟨s, run, used, beside, supported⟩ :=
    start.follow_run nothing limit along done (supplies_ofValues (congrArg Prod.fst same))
  have extended := Extends.runFrom atEnd_ofValues run
  have shape := checkShape_of_run run ((congrArg Prod.snd same).trans beside.agree.shape)
  have sealed : s.Sealed (Bits.ofBytes bytes) := by
    refine ⟨?_, supported.checked, fun p hp => ?_⟩
    · -- both logs replay the wire to the decoder's data, of which the encoder has written all but the padding
      rw [← beside.agree.log, beside.written, tail, beside.replay]
    · have whole := supported.rest p hp
      have within := beside.length_written
      have bound := d.storage.cursor_le
      have length := beside.length
      rcases extended.restNew p hp with old | new
      · cases old
      · omega
  exact encode_ofValues_ok.mpr ⟨s, run, used, beside.outer_eq_nil.mp closed, shape, _, sealed, Bits.toBytes_ofBytes bytes⟩

/-! ## Lossless directives -/

/-- Directives whose values come back as the bits they were read from: no field of a width or an encoding in which they
need not. -/
def Directive.Faithful : Directive → Prop
  | .value encoding (.bits _) => encoding ≠ .float
  | .value encoding .rest => encoding = .bin ∨ encoding.needsBytes = true
  | _ => True

/-- Directives that keep every bit they pass: none that skips bits, and no field of a width or an encoding in which a
value need not come back as the bits it was read from. -/
def Directive.Lossless : Directive → Prop
  | .value encoding (.bits _) => encoding ≠ .float
  | .value encoding .rest => encoding = .bin ∨ encoding.needsBytes = true
  | .next _ => False
  | _ => True

/-- Lossless instructions of compiled programs can be written as they were read, in data of whole bytes. -/
theorem Directive.Lossless.rewritable {directive : Directive} (lossless : directive.Lossless)
    (formed : directive.WellFormed) {d d' : Engine} (whole : d.storage.bits.length % 8 = 0)
    (room : d.storage.bits.length ≤ maxBits) (done : Decoder.execute directive d = .ok () d') :
    Decoder.Rewritable maxBits directive d := by
  have within := (Decoder.Advances.execute done).length
  cases directive with
  | value encoding width =>
    cases width with
    | bits width =>
      have moved := Decoder.cursor_produceField done
      have bound := d'.storage.cursor_le
      refine ⟨lossless, ?_⟩
      simp only [Engine.cursor] at moved ⊢
      omega
    | rest =>
      intro bits v e' read decoded
      have length := Decoder.length_readBits read
      have bound := d.storage.cursor_le
      refine Encoder.restBits_of_own (Field.encode_decode_none (lossless.imp_right Field.needsBytes_iff.mp) decoded) ?_
      rw [length, Storage.remaining, Storage.length, Engine.cursor]
      omega
  | next width => exact lossless.elim
  | constant bit width =>
    obtain ⟨bits, read, _⟩ := Decoder.readConstant_ok.mp done
    obtain ⟨_, _, _, _, enough, _⟩ := Decoder.readBits_ok.mp read
    exact Nat.le_trans enough room
  | takeAll encoding => exact formed
  | _ => trivial

/-- Faithful instructions of compiled programs can be written, in data of whole bytes. -/
theorem Directive.Faithful.writable {directive : Directive} (faithful : directive.Faithful)
    (formed : directive.WellFormed) {d d' : Engine} (whole : d.storage.bits.length % 8 = 0)
    (room : d.storage.bits.length ≤ maxBits) (done : Decoder.execute directive d = .ok () d') :
    Decoder.Writable maxBits directive d := by
  have writable (lossless : directive.Lossless) : Decoder.Writable maxBits directive d :=
    (lossless.rewritable formed whole room done).writable
  cases directive with
  | value encoding width => cases width <;> exact writable faithful
  | next width =>
    obtain ⟨_, enough, _⟩ := Decoder.execute_next_ok.mp done
    refine ⟨fun _ reserved => ?_, fun _ _ _ reads => reads.2.elim⟩
    cases reserved
    exact Nat.le_trans enough room
  | _ => exact writable faithful

/-- A run of instructions that give back the bits they read can be written from its own values. -/
theorem Decoder.along_writable {instructions : List Instruction} {d : Engine}
    (formed : ∀ i ∈ instructions, i.directive.WellFormed) (faithful : ∀ i ∈ instructions, i.directive.Faithful)
    (room : 8 * bytes.length ≤ maxBits)
    (done : runFrom 0 instructions (ofBytes bytes ⟨maxSteps, readBits⟩ check labels).engine = (none, d)) :
    Along (Writable maxBits) 0 instructions (ofBytes bytes ⟨maxSteps, readBits⟩ check labels).engine := by
  refine Along.of_run (fun i hi e e' length executed => ?_) length_ofBytes done
  exact (faithful i hi).writable (formed i hi) (by omega) (by omega) executed

end

end BitTemplate
