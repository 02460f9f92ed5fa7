import Mathlib.Algebra.GroupWithZero.Nat
import BitTemplate.Proofs.ByteRoundTrip
import BitTemplate.Proofs.RestWidth

/-!
Plain records: fields of fixed widths and then one field of numbers or hexadecimal digits up to the end of the data.
Neither transforms nor checks get in the way of such a record, so all that can change when its values are encoded again
is the width of the last field, which follows from its value.
-/

namespace BitTemplate

theorem Flags.transforms_none (start width : Nat) (encoding : Encoding) :
    Flags.none.transforms start width encoding = .ok [] := rfl

namespace Encoder

/-- An encoder without lasting changes, without transforms to undo and without checks that were put off. -/
structure Plain (s : Encoder) : Prop where
  flags : s.engine.flags = .none
  log : s.engine.log = []
  pending : s.pending = []
  restEnd : s.restEnd = none

variable {s s' : Encoder} {encoding : Encoding} {width : Nat} {v : Value} {bits : Bits} {u : Unit}

theorem plain_ofValues {values : List Value} {limits : Limits} {labels : List (String × Value)} :
    (ofValues values limits labels).Plain := by
  refine ⟨?_, ?_, rfl, rfl⟩ <;>
  · simp only [ofValues]
    rw [Engine.seed_eq]
    rfl

namespace Plain

theorem writeBits (plain : s.Plain) :
    Encoder.writeBits encoding bits s
      = .ok () { s with engine := { s.engine with storage := s.engine.storage.write bits } } := by
  refine writeBits_ok.mpr ⟨[], ?_, rfl⟩
  rw [plain.flags, Flags.transforms_none]

theorem value (plain : s.Plain) (done : execute (.value encoding (.bits width)) s = .ok u s') : s'.Plain := by
  obtain ⟨v, rest, bits, _, _, _, field⟩ := execute_value_ok.mp done
  obtain ⟨s₁, written, rfl⟩ := writeField_ok.mp field
  have untouched : ({ s with input := rest } : Encoder).Plain := ⟨plain.flags, plain.log, plain.pending, plain.restEnd⟩
  rw [untouched.writeBits] at written
  cases written
  exact ⟨plain.flags, plain.log, plain.pending, plain.restEnd⟩

/-- Fields of fixed widths leave an encoder plain. -/
theorem runFrom {instructions : List Instruction} {index : Nat} (plain : s.Plain)
    (fixed : ∀ i ∈ instructions, ∃ encoding width, i.directive = .value encoding (.bits width))
    (done : Encoder.runFrom index instructions s = (none, s')) : s'.Plain := by
  induction instructions generalizing index s with
  | nil =>
    cases done
    exact ⟨plain.flags, plain.log, plain.pending, plain.restEnd⟩
  | cons instruction rest ih =>
    obtain ⟨s₁, first, later⟩ := runFrom_cons_ok.mp done
    obtain ⟨_, executed⟩ := step_ok.mp first
    obtain ⟨encoding, width, field⟩ := fixed instruction (by simp)
    rw [field] at executed
    have arrived : ({ s with engine := s.engine.arrive index instruction } : Encoder).Plain :=
      ⟨plain.flags, plain.log, plain.pending, plain.restEnd⟩
    exact ih (arrived.value executed) (fun i hi => fixed i (by simp [hi])) later

end Plain

/-- The encoder after the last field of a record. -/
def afterLast (s : Encoder) (v : Value) (bits : Bits) : Encoder :=
  marked { s with
    input := []
    engine := { s.engine with storage := s.engine.storage.write bits }.produce v s.engine.cursor }

theorem Plain.execute_rest (plain : s.Plain) (input : s.input = [v])
    (found : restBits s.engine.cursor encoding v = .ok bits) :
    execute (.value encoding .rest) s = .ok () (s.afterLast v bits) := by
  have untouched : ({ s with input := [] } : Encoder).Plain := ⟨plain.flags, plain.log, plain.pending, plain.restEnd⟩
  exact execute_rest_ok.mpr ⟨v, [], bits, _, input, found, writeField_ok.mpr ⟨_, untouched.writeBits, rfl⟩, rfl⟩

theorem engine_afterLast (s : Encoder) (v : Value) (bits : Bits) :
    (s.afterLast v bits).engine =
      { s.engine with storage := s.engine.storage.write bits }.produce v s.engine.cursor :=
  engine_marked _

theorem bits_afterLast (atEnd : s.AtEnd) (v : Value) (bits : Bits) :
    (s.afterLast v bits).engine.storage.bits = s.engine.storage.bits ++ bits := by
  rw [engine_afterLast]
  exact Storage.write_at_end atEnd bits

/-- What a plain encoder has written is the data of the wire. -/
theorem Plain.sealed (plain : s.Plain) (atEnd : s.AtEnd) (whole : (s.engine.cursor + bits.length) % 8 = 0) :
    (s.afterLast v bits).Sealed (s.engine.storage.bits ++ bits) := by
  have log : (s.afterLast v bits).engine.log = [] := by
    rw [engine_afterLast]
    exact plain.log
  have marked : (s.afterLast v bits).pending = s.pending
      ∧ ∃ context, (s.afterLast v bits).restEnd = some (s.engine.cursor + bits.length, context) := by
    simp only [afterLast, Encoder.marked, plain.restEnd]
    exact ⟨trivial, _, rfl⟩
  have length : (s.engine.storage.bits ++ bits).length = s.engine.cursor + bits.length := by
    rw [List.length_append, Engine.cursor, show s.engine.storage.cursor = s.engine.storage.bits.length from atEnd]
  refine ⟨?_, ?_, ?_⟩
  · rw [log, Log.replay?_nil, bits_afterLast atEnd, Bits.padToByte_eq_self (by rw [length]; exact whole)]
  · intro p hp
    rw [marked.1, plain.pending] at hp
    cases hp
  · intro p hp
    obtain ⟨context, ended⟩ := marked.2
    rw [ended] at hp
    cases hp
    rw [bits_afterLast atEnd, length]

end Encoder

/-! ## The last field -/

theorem fixed_of_layout {instructions : List Instruction} {fields : List (Encoding × Nat)}
    (layout : instructions.map (·.directive) = fields.map fun f => .value f.1 (.bits f.2))
    (exact : ∀ f ∈ fields, f.1 ≠ .float) :
    ∀ i ∈ instructions, ∃ encoding width, i.directive = .value encoding (.bits width) ∧ encoding ≠ .float := by
  intro i hi
  have member : i.directive ∈ instructions.map (·.directive) := List.mem_map_of_mem hi
  rw [layout] at member
  obtain ⟨f, hf, same⟩ := List.mem_map.mp member
  exact ⟨f.1, f.2, same.symm, exact f hf⟩

/-- Fields of fixed widths move the cursor over their widths. -/
theorem Decoder.cursor_fields {instructions : List Instruction} {fields : List (Encoding × Nat)} {index : Nat}
    {d d' : Engine} (layout : instructions.map (·.directive) = fields.map fun f => .value f.1 (.bits f.2))
    (done : runFrom index instructions d = (none, d')) : d'.cursor = d.cursor + (fields.map Prod.snd).sum := by
  induction fields generalizing instructions index d with
  | nil =>
    obtain rfl := List.map_eq_nil_iff.mp layout
    cases done
    rfl
  | cons field fields ih =>
    obtain ⟨instruction, rest, rfl, first, others⟩ := List.map_eq_cons_iff.mp layout
    obtain ⟨d₁, taken, later⟩ := runFrom_cons_ok.mp done
    obtain ⟨_, executed⟩ := step_ok.mp taken
    rw [first] at executed
    have moved : d₁.cursor = (d.arrive index instruction).cursor + field.2 := cursor_produceField executed
    have moved : d₁.cursor = d.cursor + field.2 := moved
    rw [ih others later, moved, List.map_cons, List.sum_cons, Nat.add_assoc]

namespace Lockstep

variable {wire : Bits} {d d' : Engine} {s : Encoder} {u : Unit}

/-- A plain encoder follows a decoder through fields of fixed widths. -/
theorem follow_fields (h : Lockstep Eq wire d s.engine) (plain : s.Plain) (even : wire.length % 8 = 0)
    (room : wire.length ≤ s.engine.limits.maxBits) {instructions : List Instruction} {index : Nat} {rest : List Value}
    (fixed : ∀ i ∈ instructions, ∃ encoding width, i.directive = .value encoding (.bits width) ∧ encoding ≠ .float)
    (formed : ∀ i ∈ instructions, i.directive.WellFormed)
    (done : Decoder.runFrom index instructions d = (none, d')) (input : Supplies d d' s rest) :
    ∃ s', Encoder.runFrom index instructions s = (none, s') ∧ Lockstep Eq wire d' s'.engine ∧ s'.Plain
      ∧ s'.input = rest := by
  have supported : s.Supported wire := by
    refine ⟨fun p hp => ?_, fun p hp => ?_⟩
    · rw [plain.pending] at hp
      cases hp
    · rw [plain.restEnd] at hp
      cases hp
  have along : Decoder.Along (Decoder.Restorable s.engine.limits.maxBits) index instructions d := by
    refine Decoder.Along.of_run (fun i hi e e' long executed => ?_) h.length done
    obtain ⟨encoding, width, field, exact⟩ := fixed i hi
    have lossless : i.directive.Lossless := by
      rw [field]
      exact exact
    have rewritable : Decoder.Rewritable s.engine.limits.maxBits i.directive e :=
      lossless.rewritable (formed i hi) (by omega) (by omega) executed
    refine ⟨rewritable.writable, rewritable.skipsZeros, ?_⟩
    rw [field]
    trivial
  obtain ⟨s', run, left, next, _⟩ := h.follow_run supported rfl along done input
  refine ⟨s', run, next, plain.runFrom (fun i hi => ?_) run, left⟩
  obtain ⟨encoding, width, field, _⟩ := fixed i hi
  exact ⟨encoding, width, field⟩

/-- The value of the last field can be written, and it is written as it was read exactly if its own width reaches the
last byte. -/
theorem write_last (h : Lockstep Eq wire d s.engine) (plain : s.Plain) (even : wire.length % 8 = 0) {encoding : Encoding}
    (elastic : Field.Elastic encoding) (done : Decoder.produceField encoding d.storage.remaining d = .ok u d')
    (input : d'.scalars = d.scalars ++ s.input) :
    ∃ v width bits, d'.records = d.records.push v ∧ d'.shape = d.shape.push '.' ∧ s.input = [v]
      ∧ Field.naturalWidth encoding v = .ok width ∧ Encoder.restBits s.engine.cursor encoding v = .ok bits
      ∧ (s.engine.storage.bits ++ bits = wire ↔ width ≤ d.storage.remaining ∧ d.storage.remaining < width + 8) := by
  have length := h.length
  have bound := d.storage.cursor_le
  have cursor := h.cursor
  have view : d.storage.bits = wire := by
    have replay := h.replay
    rw [h.agree.log, plain.log, Log.replay?_nil] at replay
    exact (Option.some.inj replay).symm
  obtain ⟨bits, v, d₁, read, decoded, rfl⟩ := Decoder.produceField_ok.mp done
  have width := Decoder.length_readBits read
  have scalars := Decoder.scalars_readBits read
  obtain ⟨ts, after, asked, applied, _, _, content, rfl⟩ := Decoder.readBits_ok.mp read
  rw [h.agree.flags, plain.flags, Flags.transforms_none] at asked
  cases asked
  have same : after.bits = wire := (Option.some.inj applied).symm.trans view
  have taken : s.input = [v] := by
    rw [Engine.scalars_produce (Field.isList_of_decode decoded), scalars] at input
    exact (List.append_cancel_left input).symm
  have whole : (s.engine.cursor + bits.length) % 8 = 0 := by
    simp only [Storage.remaining, Storage.length] at width
    rw [Engine.cursor, ← cursor]
    omega
  obtain ⟨own, out, natural, found, exact⟩ := Encoder.restBits_of_elastic elastic decoded whole
  refine ⟨v, own.length, out, rfl, rfl, taken, by rw [Field.naturalWidth, natural]; rfl, found, ?_⟩
  -- without transforms the field is what is left of the wire, and all before it is written already
  have tail : bits = wire.drop d.storage.cursor := by
    rw [content, same]
    apply List.take_of_length_le
    rw [List.length_drop, Storage.remaining, Storage.length, length]
    exact Nat.le_refl _
  rw [← width, ← exact, h.written, view, tail]
  conv => lhs; rhs; rw [← List.take_append_drop d.storage.cursor wire]
  exact List.append_right_inj _

/-- A plain encoder follows a decoder to the end of a record, where it has written data that differs from that of the
decoder at most in the last field. -/
theorem follow_record (h : Lockstep Eq wire d s.engine) (plain : s.Plain) (even : wire.length % 8 = 0)
    (room : wire.length ≤ s.engine.limits.maxBits) {instructions : List Instruction} {index : Nat}
    {fields : List (Encoding × Nat)} {last : Encoding}
    (layout : instructions.map (·.directive) = (fields.map fun f => .value f.1 (.bits f.2)) ++ [.value last .rest])
    (formed : ∀ i ∈ instructions, i.directive.WellFormed) (exact : ∀ f ∈ fields, f.1 ≠ .float)
    (elastic : Field.Elastic last) (done : Decoder.runFrom index instructions d = (none, d'))
    (input : d'.scalars = d.scalars ++ s.input) :
    let remaining := wire.length - (d.cursor + (fields.map Prod.snd).sum)
    ∃ v width written s', d'.records.inner.head? = some v ∧ Field.naturalWidth last v = .ok width
      ∧ Encoder.runFrom index instructions s = (none, s') ∧ s'.input = [] ∧ s'.engine.records = d'.records
      ∧ s'.engine.shape = d'.shape ∧ s'.Sealed written
      ∧ (written = wire ↔ width ≤ remaining ∧ remaining < width + 8) := by
  obtain ⟨front, _, rfl, first, others⟩ := List.map_eq_append_iff.mp layout
  obtain ⟨instruction, _, rfl, final, nothing⟩ := List.map_eq_cons_iff.mp others
  obtain rfl := List.map_eq_nil_iff.mp nothing
  obtain ⟨d₁, before, after⟩ := Decoder.runFrom_append_ok.mp done
  obtain ⟨d₂, taken, ⟨⟩⟩ := Decoder.runFrom_cons_ok.mp after
  obtain ⟨allowed, executed⟩ := Decoder.step_ok.mp taken
  rw [final, Decoder.execute_rest_ok] at executed
  obtain ⟨more, scalars⟩ := (Decoder.Advances.step taken).scalars
  have supplies : Supplies d d₁ s more := by
    rw [Supplies, scalars]
    exact input
  obtain ⟨s, run, beside, plain, left⟩ := h.follow_fields plain even room (fixed_of_layout first exact)
    (fun i hi => formed i (by simp [hi])) before supplies
  let begun : Encoder := { s with engine := s.engine.arrive (index + front.length) instruction }
  have arrived : begun.Plain := ⟨plain.flags, plain.log, plain.pending, plain.restEnd⟩
  have here : Lockstep Eq wire (d₁.arrive (index + front.length) instruction) begun.engine := beside.arrive _ instruction
  obtain ⟨v, width, bits, records, shape, single, own, found, same⟩ :=
    here.write_last arrived even elastic executed (by rw [← scalars, ← left]; rfl)
  have sealed := @Encoder.Plain.sealed _ v _ arrived here.atEnd (Encoder.restBits_aligned found)
  have engine := Encoder.engine_afterLast begun v bits
  refine ⟨v, width, _, { begun.afterLast v bits with engine := (begun.afterLast v bits).engine.rest }, ?_, own, ?_,
    Encoder.input_marked _, ?_, ?_, ⟨sealed.replay, sealed.checked, sealed.rest⟩, ?_⟩
  · rw [Engine.rest, records]
    rfl
  · refine Encoder.runFrom_append_ok.mpr ⟨s, run, Encoder.runFrom_cons_ok.mpr ⟨_, Encoder.step_ok.mpr ⟨?_, ?_⟩, rfl⟩⟩
    · exact (beside.checkSteps _ instruction).symm.trans allowed
    · rw [final]
      exact arrived.execute_rest single found
  · rw [engine, Engine.rest, Engine.rest, records, here.agree.records_eq]
    rfl
  · rw [engine, Engine.rest, Engine.rest, shape, here.agree.shape]
    rfl
  · have remaining : (d₁.arrive (index + front.length) instruction).storage.remaining
        = wire.length - (d.cursor + (fields.map Prod.snd).sum) := by
      rw [← Decoder.cursor_fields first before, ← here.length]
      rfl
    rwa [remaining] at same

end Lockstep

/-! ## Whole records -/

section

variable {text : String} {program : Program} {bytes : List UInt8} {values : List Value} {maxSteps readBits maxBits : Nat}
  {labels : List (String × Value)} {fields : List (Encoding × Nat)} {last : Encoding}

/-- The values of a plain record can always be encoded. They are encoded as the bytes that they were read from exactly if
the last field is as wide as its value by itself, or wider by less than a byte. -/
theorem record_survives_iff (compiled : Pattern.compile text = .ok program)
    (layout : program.instructions.map (·.directive) =
      (fields.map fun f => .value f.1 (.bits f.2)) ++ [.value last .rest])
    (exact : ∀ f ∈ fields, f.1 ≠ .float) (elastic : Field.Elastic last) (room : 8 * bytes.length ≤ maxBits)
    (decoded : (Decoder.ofBytes bytes ⟨maxSteps, readBits⟩ true labels).decode program = .ok values) :
    let remaining := 8 * bytes.length - (fields.map Prod.snd).sum
    ∃ v width back, values.getLast? = some v ∧ Field.naturalWidth last v = .ok width
      ∧ (Encoder.ofValues values ⟨maxSteps, maxBits⟩ labels).encode program = .ok back
      ∧ (back = bytes ↔ width ≤ remaining ∧ remaining < width + 8) := by
  obtain ⟨d, done, _, root⟩ := Decoder.decode_ofBytes_ok.mp decoded
  have start := Lockstep.start Value.congruence_eq bytes values maxSteps readBits maxBits true labels
  have limit : (Encoder.ofValues values ⟨maxSteps, maxBits⟩ labels).engine.limits.maxBits = maxBits :=
    congrArg Limits.maxBits Encoder.limits_ofValues
  have zero : (Decoder.ofBytes bytes ⟨maxSteps, readBits⟩ true labels).engine.cursor = 0 := by
    rw [Decoder.ofBytes, Engine.seed_eq]
    rfl
  have length := Bits.length_ofBytes bytes
  obtain ⟨v, width, written, s, newest, own, run, used, records, shape, sealed, same⟩ :=
    start.follow_record Encoder.plain_ofValues (by omega) (by omega) layout (Pattern.wellFormed_of_compile compiled)
      exact elastic done (Decoder.scalars_eq_input done root)
  rw [zero, Nat.zero_add, length] at same
  have template := Encoder.checkShape_of_run run ((congrArg Prod.snd (Decoder.flatten_root done root)).trans shape.symm)
  refine ⟨v, width, _, ?_, own, Encoder.encode_ofValues_ok.mpr ⟨s, run, used, ?_, template, written, sealed, rfl⟩, ?_⟩
  · simp only [Shape.Records.root?] at root
    split at root
    · cases root
      rw [List.getLast?_reverse, newest]
    · cases root
  · rw [records]
    exact Shape.Records.root?_isSome.mp ⟨_, root⟩
  · rw [← same]
    constructor
    · rintro rfl
      exact (Bits.ofBytes_toBytes sealed.length_mod).symm
    · rintro rfl
      exact Bits.toBytes_ofBytes bytes

end

/-- A number of four bits and a number up to the end of the data. -/
def numberedRecord : Program where
  instructions := [⟨"u4", ⟨0, 2⟩, .value .uint (.bits 4)⟩, ⟨"u$", ⟨3, 5⟩, .value .uint .rest⟩]

theorem record_survives_iff_numberedRecord :
    (Decoder.ofBytes [0x18, 0x01] ⟨20, 0⟩ true []).decode numberedRecord = .ok [.uint 1, .uint 0x801]
      ∧ (Encoder.ofValues [.uint 1, .uint 0x801] ⟨20, 16⟩ []).encode numberedRecord = .ok [0x18, 0x01] := by
  have compiled : Pattern.compile "u4 u$" = .ok numberedRecord := by cbv
  have decoded : (Decoder.ofBytes [0x18, 0x01] ⟨20, 0⟩ true []).decode numberedRecord = .ok [.uint 1, .uint 0x801] := by
    cbv
  obtain ⟨v, width, back, final, own, encoded, same⟩ :=
    @record_survives_iff _ _ _ _ 20 0 16 [] [(.uint, 4)] .uint compiled rfl (by decide) (.inl rfl) (by decide) decoded
  cases final
  have twelve : Field.naturalWidth .uint (.uint 0x801) = .ok 12 := rfl
  obtain rfl : width = 12 := Except.ok.inj (own.symm.trans twelve)
  cases same.mpr (by decide)
  exact ⟨decoded, encoded⟩

/-- A number up to the end of the data, which does not keep its leading zeros. -/
def wholeNumber : Program where
  instructions := [⟨"u$", ⟨0, 2⟩, .value .uint .rest⟩]

theorem leading_zeros_lost :
    (∃ text, Pattern.compile text = .ok wholeNumber)
      ∧ (Decoder.ofBytes [0, 1] ⟨20, 0⟩ true []).decode wholeNumber = .ok [.uint 1]
      ∧ (Encoder.ofValues [.uint 1] ⟨20, 16⟩ []).encode wholeNumber = .ok [1] :=
  ⟨⟨"u$", by cbv⟩, by cbv, by cbv⟩

end BitTemplate
