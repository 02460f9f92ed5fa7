import BitTemplate.Proofs.Compiled
import BitTemplate.Proofs.Field
import BitTemplate.Proofs.Lockstep

/-!
An encoder that follows a decoder. The encoder is given the values that the decoder produces, and if it writes each of
them in the bits that the decoder read, then it takes every step that the decoder takes. It writes the bits that the
decoder passed, but zeros for the bits that are skipped; what it postpones for the end holds on the decoder's data. If the
skipped bits are zeros, and windows start where position and offset say, then the encoder has written all that the decoder
has passed.
-/

namespace BitTemplate

namespace Decoder

/-- The condition under which an instruction of a decoder can be written as it was read, within a limit of bits. -/
def Rewritable (maxBits : Nat) (directive : Directive) (e : Engine) : Prop :=
  match directive with
  | .value encoding (.bits width) => encoding ≠ .float ∧ e.cursor + width ≤ maxBits
  | .value encoding .rest => ∀ bits v e', readBits encoding e.storage.remaining e = .ok bits e' →
      Field.decode encoding bits = .ok v → Encoder.restBits e.cursor encoding v = .ok bits
  | .takeAll encoding => encoding.needsBytes = true
  | .next width => (e.storage.bits.drop e.cursor).take width = List.replicate width false ∧ e.cursor + width ≤ maxBits
  | .constant _ width => e.cursor + width ≤ maxBits
  | _ => True

/-- The value that an instruction reads, with the bits from which it reads it and their encoding. -/
def Reads (e : Engine) (encoding : Encoding) (bits : Bits) (v : Value) (directive : Directive) : Prop :=
  Field.decode encoding bits = .ok v ∧
    match directive with
    | .value own (.bits width) => encoding = own ∧ ∃ e', readBits own width e = .ok bits e'
    | .value own .rest => encoding = own ∧ ∃ e', readBits own e.storage.remaining e = .ok bits e'
    | .takeAll own => encoding = own ∧ ∃ e', readBits own e.storage.remaining e = .ok bits e'
    | .jump origin count => encoding = gapEncoding e.cursor bits.length
      ∧ bits = (e.storage.bits.drop e.cursor).take bits.length
      ∧ Engine.jumpTarget e.log origin count e.cursor e.storage.length = .ok (e.cursor + bits.length)
    | .marker last bytes => encoding = .bytes ∧ bits = (e.storage.bits.drop e.cursor).take bits.length
      ∧ ∃ needle, Engine.disguise e.flags bytes = .ok needle
        ∧ e.storage.find? needle e.cursor last = some (e.cursor + bits.length)
    | _ => False

theorem Reads.takesValue {directive : Directive} {e : Engine} {encoding : Encoding} {bits : Bits} {v : Value}
    (h : Reads e encoding bits v directive) : directive.takesValue = true := by
  cases directive with
  | value own width => rfl
  | takeAll own => rfl
  | jump origin count => rfl
  | marker last bytes => rfl
  | _ => exact h.2.elim

/-- The condition under which an encoder can write what an instruction of a decoder passes, within a limit of bits. -/
def Writable (maxBits : Nat) (directive : Directive) (e : Engine) : Prop :=
  (∀ width, directive.reserved? = some width → e.cursor + width ≤ maxBits)
    ∧ ∀ encoding bits v, Reads e encoding bits v directive → directive.Writes e.cursor v encoding bits

namespace Rewritable

variable {maxBits : Nat} {directive : Directive} {e : Engine}

theorem skipsZeros (h : Rewritable maxBits directive e) : SkipsZeros directive e := by
  cases directive with
  | next width => exact h.1
  | _ => trivial

/-- A value is written as the bits it was read from. -/
theorem writable (h : Rewritable maxBits directive e) : Writable maxBits directive e := by
  constructor
  · intro width reserved
    cases directive with
    | value encoding own =>
      cases own with
      | bits own =>
        cases reserved
        exact h.2
      | rest => cases reserved
    | next own =>
      cases reserved
      exact h.2
    | constant bit own =>
      cases reserved
      exact h
    | _ => cases reserved
  · intro encoding bits v reads
    obtain ⟨decoded, reads⟩ := reads
    cases directive with
    | value own width =>
      cases width with
      | bits width =>
        obtain ⟨rfl, e', read⟩ := reads
        refine ⟨rfl, ?_⟩
        rw [← length_readBits read]
        exact Field.encode_decode h.1 decoded
      | rest =>
        obtain ⟨rfl, e', read⟩ := reads
        exact ⟨rfl, h bits v e' read decoded⟩
    | takeAll own =>
      obtain ⟨rfl, _⟩ := reads
      exact ⟨rfl, Field.encode_decode_none (.inr (Field.needsBytes_iff.mp h)) decoded⟩
    | jump origin count =>
      obtain ⟨rfl, _⟩ := reads
      refine ⟨rfl, ?_⟩
      have holds := decode_gap_ok.mp decoded
      rw [Value.HoldsGap] at holds
      split at holds
      · obtain ⟨_, rfl, rfl⟩ := holds
        exact Field.encode_decode_none (.inr (.inl rfl)) (Field.decode_eq_bytes.mpr rfl)
      · subst holds
        exact Field.encode_decode_none (.inl rfl) rfl
    | marker last bytes =>
      obtain ⟨rfl, _⟩ := reads
      exact ⟨rfl, Field.encode_decode_none (.inr (.inl rfl)) decoded⟩
    | _ => exact reads.elim

end Rewritable

/-- Transforms produce nothing. -/
theorem scalars_transformAll {ts : List Transform} {e e' : Engine} {u : Unit} (done : transformAll ts e = .ok u e') :
    e'.scalars = e.scalars := by
  obtain ⟨_, _, rfl⟩ := transformAll_ok.mp done
  rw [Engine.foldl_record]
  rfl

/-- The bits that a decoder passed between two states, as they stand in the later one. -/
def passed (e e' : Engine) : Bits :=
  (e'.storage.bits.drop e.cursor).take (e'.cursor - e.cursor)

namespace Advances

variable {e e' e'' : Engine}

theorem take_cursor (h : Advances True e e') :
    e'.storage.bits.take e'.cursor = e.storage.bits.take e.cursor ++ passed e e' := by
  obtain ⟨_, _, applied, keeps⟩ := h.data
  have onwards : e'.cursor = e.cursor + (e'.cursor - e.cursor) := by
    have := h.cursor
    omega
  rw [onwards, List.take_add, (keeps trivial).all applied]
  rfl

theorem passed_append (h : Advances True e e') (h' : Advances True e' e'') : passed e e'' = passed e e' ++ passed e' e'' := by
  have whole := (h.trans h').take_cursor
  rw [h'.take_cursor, h.take_cursor, List.append_assoc] at whole
  exact (List.append_cancel_left whole).symm

end Advances

end Decoder

/-- What an encoder writes for the bits that a decoder passes. -/
def Directive.rewrite (directive : Directive) (bits : Bits) : Bits :=
  match directive with
  | .next _ => List.replicate bits.length false
  | _ => bits

/-! ## One step -/

/-- An encoder at the end of its bits beside a decoder. Nothing but their bits tells the two apart. -/
structure Paired (d : Engine) (s : Encoder) : Prop where
  agree : Engine.Agree Eq d s.engine
  atEnd : s.AtEnd

/-- A step of a decoder beside a step of an encoder that writes some bits. What the encoder puts off holds on the data of
the decoder before the step. -/
structure Mirrors (bits : Bits) (d d' : Engine) (s s' : Encoder) : Prop where
  agree : Engine.Agree Eq d' s'.engine
  written : s'.engine.storage.bits = s.engine.storage.bits ++ bits
  pending : ∃ more, s'.pending = s.pending ++ more
    ∧ ∀ p ∈ more, p.logged = d.log.length ∧ p.verify d.storage d.log = .ok ()
  rest : ∀ p, s'.restEnd = some p → s.restEnd = some p ∨ p.1 = d'.storage.bits.length

namespace Mirrors

variable {bits : Bits} {d d' : Engine} {s s' : Encoder}

/-- A step that puts off nothing. -/
theorem of_engine {e : Engine} (agree : Engine.Agree Eq d' e)
    (written : e.storage.bits = s.engine.storage.bits ++ bits) (rest : List Value) :
    Mirrors bits d d' s { s with input := rest, engine := e } where
  agree := agree
  written := written
  pending := ⟨[], by simp, by simp⟩
  rest p hp := .inl hp

/-- A step to the end of the data. -/
theorem marked (h : Mirrors bits d d' s s') (all : d'.cursor = d'.storage.bits.length) :
    Mirrors bits d d' s s'.marked where
  agree := by
    rw [Encoder.engine_marked]
    exact h.agree
  written := by rw [Encoder.engine_marked, h.written]
  pending := by
    rw [show s'.marked.pending = s'.pending by unfold Encoder.marked; split <;> rfl]
    exact h.pending
  rest p hp := by
    unfold Encoder.marked at hp
    split at hp
    · exact h.rest p hp
    · cases hp
      right
      show s'.engine.cursor = d'.storage.bits.length
      rw [← all]
      exact h.agree.cursor.symm

/-- The encoder after the step is still at the end of its bits. -/
theorem paired (h : Mirrors bits d d' s s') {inWord : Prop} (after : s.Extends inWord s') : Paired d' s' :=
  ⟨h.agree, after.atEnd⟩

end Mirrors

/-- The values that an encoder has left are those that a decoder has yet to produce, and some more. -/
def Supplies (d d' : Engine) (s : Encoder) (rest : List Value) : Prop :=
  d'.scalars ++ rest = d.scalars ++ s.input

namespace Supplies

variable {d d' : Engine} {s : Encoder} {rest : List Value}

/-- A value that the decoder produced is the next value of the input. -/
theorem next (h : Supplies d d' s rest) {v : Value} (scalars : d'.scalars = d.scalars ++ [v]) :
    s.input = v :: rest := by
  rw [Supplies, scalars, List.append_assoc] at h
  exact (List.append_cancel_left h).symm

theorem same (h : Supplies d d' s rest) (scalars : d'.scalars = d.scalars) : s.input = rest := by
  rw [Supplies, scalars] at h
  exact (List.append_cancel_left h).symm

end Supplies

namespace Paired

variable {d d' : Engine} {s : Encoder} {rest : List Value} {u : Unit}

/-- The encoder takes a step too: it stays beside the decoder, and of its input the given rest is left. -/
def Follows (directive : Directive) (d d' : Engine) (s : Encoder) (rest : List Value) : Prop :=
  ∃ s', Encoder.execute directive s = .ok () s' ∧ s'.input = rest
    ∧ Mirrors (directive.rewrite (Decoder.passed d d')) d d' s s'

theorem cursor (h : Paired d s) : s.engine.cursor = d.cursor :=
  h.agree.cursor.symm

theorem length_written (h : Paired d s) : s.engine.storage.length = d.cursor := by
  rw [← h.cursor]
  exact h.atEnd.symm

/-! ### Building blocks -/

/-- The encoder writes what the decoder reads. -/
theorem writeBits (h : Paired d s) {encoding : Encoding} {width : Nat} {bits : Bits}
    (read : Decoder.readBits encoding width d = .ok bits d') :
    bits.length = width ∧ Decoder.passed d d' = bits ∧ ∃ e', Engine.Agree Eq d' e'
      ∧ e'.storage.bits = s.engine.storage.bits ++ bits
      ∧ Encoder.writeBits encoding bits s = .ok () { s with engine := e' } := by
  have width_eq := Decoder.length_readBits read
  obtain ⟨ts, after, asked, _, _, moved, rfl, rfl⟩ := Decoder.readBits_ok.mp read
  have exact : after.cursor - d.cursor = width := by omega
  refine ⟨width_eq, by rw [← exact]; rfl, _, ?_, Storage.write_at_end h.atEnd _, Encoder.writeBits_ok.mpr ⟨ts, ?_, rfl⟩⟩
  · refine (h.agree.recordAll ts).withStorage ?_
    rw [moved, Storage.cursor_write, width_eq]
    exact congrArg (· + width) h.cursor.symm
  · rwa [width_eq, ← h.agree.flags, h.cursor]

/-- The encoder writes a field that the decoder reads. -/
theorem writeField (h : Paired d s) {encoding : Encoding} {width : Nat}
    (done : Decoder.produceField encoding width d = .ok u d') (input : Supplies d d' s rest) :
    ∃ bits v s₁ d₁, Decoder.readBits encoding width d = .ok bits d₁ ∧ bits.length = width
      ∧ Field.decode encoding bits = .ok v ∧ s.input = v :: rest
      ∧ Encoder.writeField encoding v bits { s with input := rest } = .ok () s₁ ∧ s₁.input = rest
      ∧ Mirrors (Decoder.passed d d') d d' s s₁ := by
  obtain ⟨bits, v, d₁, read, decoded, rfl⟩ := Decoder.produceField_ok.mp done
  have here : Paired d { s with input := rest } := ⟨h.agree, h.atEnd⟩
  obtain ⟨width_eq, same, e', agree, appended, written⟩ := here.writeBits read
  have first : s.input = v :: rest := by
    refine input.next ?_
    rw [Engine.scalars_produce (Field.isList_of_decode decoded), Decoder.scalars_readBits read]
  refine ⟨bits, v, _, d₁, read, width_eq, decoded, first, Encoder.writeField_ok.mpr ⟨_, written, rfl⟩, rfl, ?_⟩
  refine Mirrors.of_engine ?_ ?_ rest
  · rw [h.cursor]
    exact agree.produce rfl _
  · show e'.storage.bits = s.engine.storage.bits ++ Decoder.passed d d₁
    rw [same, appended]

/-- The encoder writes a gap that the decoder passes. -/
theorem writeGap (h : Paired d s) {encoding : Encoding} {target : Nat}
    (after : d.cursor ≤ target) (done : Decoder.produceGap encoding target d = .ok u d') :
    ∃ bits v, d.cursor + bits.length = target ∧ bits = (d.storage.bits.drop d.cursor).take bits.length
      ∧ Field.decode encoding bits = .ok v ∧ d'.scalars = d.scalars ++ [v] ∧ Decoder.passed d d' = bits
      ∧ Engine.Agree Eq d' (Encoder.afterGap s.engine v bits) := by
  obtain ⟨storage, v, enough, kept, moved, decoded, rfl⟩ := Decoder.produceGap_ok.mp done
  have width : ((d.storage.bits.drop d.cursor).take (target - d.cursor)).length = target - d.cursor := by
    rw [List.length_take, List.length_drop]
    omega
  have stop : d.cursor + ((d.storage.bits.drop d.cursor).take (target - d.cursor)).length = target := by omega
  refine ⟨_, v, stop, by rw [width], decoded, Engine.scalars_produce (Field.isList_of_decode decoded) _ _, ?_, ?_⟩
  · show (storage.bits.drop d.cursor).take (storage.cursor - d.cursor) = _
    rw [kept, moved, Nat.add_sub_cancel_left]
  · simp only [Encoder.afterGap]
    rw [h.cursor, stop]
    refine ((h.agree.emit (.same _)).withStorage ?_).produce rfl _
    rw [Storage.cursor_write, width, moved]
    exact congrArg (· + (target - d.cursor)) h.cursor.symm

/-! ### Directives -/

/-- A field up to the end of the data ends where the data ends. -/
theorem cursor_rest {encoding : Encoding} (done : Decoder.produceField encoding d.storage.remaining d = .ok u d') :
    d'.cursor = d'.storage.bits.length := by
  have moved := Decoder.cursor_produceField done
  have after : Decoder.Advances True d d' := .produceField done
  have length := after.length
  have bound := d.storage.cursor_le
  simp only [Engine.cursor, Storage.remaining, Storage.length] at moved ⊢
  omega

theorem follow_value (h : Paired d s) {encoding : Encoding} {width : Nat}
    (writable : Decoder.Writable s.engine.limits.maxBits (.value encoding (.bits width)) d)
    (done : Decoder.produceField encoding width d = .ok u d') (input : Supplies d d' s rest) :
    Follows (.value encoding (.bits width)) d d' s rest := by
  obtain ⟨bits, v, s₁, d₁, read, _, decoded, first, written, left, next⟩ := h.writeField done input
  obtain ⟨_, encoded⟩ := writable.2 encoding bits v ⟨decoded, rfl, d₁, read⟩
  refine ⟨s₁, Encoder.execute_value_ok.mpr ⟨v, rest, bits, first, ?_, encoded, written⟩, left, next⟩
  rw [h.length_written]
  exact writable.1 width rfl

theorem follow_rest (h : Paired d s) {encoding : Encoding} {maxBits : Nat}
    (writable : Decoder.Writable maxBits (.value encoding .rest) d)
    (done : Decoder.produceField encoding d.storage.remaining d = .ok u d') (input : Supplies d d' s rest) :
    Follows (.value encoding .rest) d d' s rest := by
  obtain ⟨bits, v, s₁, d₁, read, _, decoded, first, written, left, next⟩ := h.writeField done input
  obtain ⟨_, widened⟩ := writable.2 encoding bits v ⟨decoded, rfl, d₁, read⟩
  rw [← h.cursor] at widened
  refine ⟨s₁.marked, Encoder.execute_rest_ok.mpr ⟨v, rest, bits, s₁, first, widened, written, rfl⟩, ?_, ?_⟩
  · rw [Encoder.input_marked, left]
  · exact next.marked (cursor_rest done)

theorem follow_takeAll (h : Paired d s) {encoding : Encoding} {maxBits : Nat}
    (writable : Decoder.Writable maxBits (.takeAll encoding) d) (even : d.cursor % 8 = 0)
    (done : Decoder.produceField encoding d.storage.remaining d = .ok u d') (input : Supplies d d' s rest) :
    Follows (.takeAll encoding) d d' s rest := by
  obtain ⟨bits, v, s₁, d₁, read, _, decoded, first, written, left, next⟩ := h.writeField done input
  obtain ⟨_, encoded⟩ := writable.2 encoding bits v ⟨decoded, rfl, d₁, read⟩
  rw [← h.cursor] at even
  refine ⟨s₁.marked, Encoder.execute_takeAll_ok.mpr ⟨v, rest, bits, s₁, even, first, encoded, written, rfl⟩, ?_, ?_⟩
  · rw [Encoder.input_marked, left]
  · exact next.marked (cursor_rest done)

theorem follow_next (h : Paired d s) {width : Nat} (room : d.cursor + width ≤ s.engine.limits.maxBits)
    (done : Decoder.execute (.next width) d = .ok u d') (input : Supplies d d' s rest) :
    Follows (.next width) d d' s rest := by
  obtain ⟨after, enough, same, moved, rfl⟩ := Decoder.execute_next_ok.mp done
  have length : (Decoder.passed d { d with storage := after }).length = width := by
    show ((after.bits.drop d.cursor).take (after.cursor - d.cursor)).length = width
    rw [same, moved, List.length_take, List.length_drop]
    omega
  obtain rfl := input.same rfl
  refine ⟨_, Encoder.execute_next_ok.mpr ⟨by rwa [h.length_written], rfl⟩, rfl, Mirrors.of_engine ?_ ?_ s.input⟩
  · refine h.agree.withStorage ?_
    rw [moved, Storage.cursor_write, List.length_replicate]
    exact congrArg (· + width) h.cursor.symm
  · simp only [Directive.rewrite, length]
    exact Storage.write_at_end h.atEnd _

theorem follow_constant (h : Paired d s) {bit : Bool} {width : Nat}
    (room : d.cursor + width ≤ s.engine.limits.maxBits) (done : Decoder.readConstant bit width d = .ok u d')
    (input : Supplies d d' s rest) : Follows (.constant bit width) d d' s rest := by
  obtain ⟨bits, read, all⟩ := Decoder.readConstant_ok.mp done
  obtain ⟨length, same, e', agree, appended, written⟩ := h.writeBits read
  have constant : bits = List.replicate width bit := by
    rw [List.eq_replicate_iff]
    exact ⟨length, fun b hb => by simpa using List.all_eq_true.mp all b hb⟩
  obtain rfl := input.same (Decoder.scalars_readBits read)
  rw [← same] at appended
  subst constant
  exact ⟨_, Encoder.writeConstant_ok.mpr ⟨by rwa [h.length_written], written⟩, rfl,
    Mirrors.of_engine agree appended s.input⟩

/-- Transforms at the cursor are recorded as they were applied. -/
theorem follow_transforms (h : Paired d s) {ts : List Transform} (done : Decoder.transformAll ts d = .ok u d')
    (input : Supplies d d' s rest) : s.input = rest
      ∧ Mirrors (Decoder.passed d d') d d' s { s with engine := ts.foldl Engine.record s.engine } := by
  have scalars := Decoder.scalars_transformAll done
  obtain ⟨after, applied, rfl⟩ := Decoder.transformAll_ok.mp done
  have cursor := (Storage.applyAll_ok.mp applied).2
  have nothing : Decoder.passed d { ts.foldl Engine.record d with storage := after } = [] := by
    show (after.bits.drop d.cursor).take (after.cursor - d.cursor) = []
    rw [← cursor, Engine.cursor, Nat.sub_self, List.take_zero]
  have agree : Engine.Agree Eq { ts.foldl Engine.record d with storage := after }
      (ts.foldl Engine.record s.engine) := by
    refine { h.agree.recordAll ts with cursor := ?_ }
    show after.cursor = _
    rw [← cursor, h.agree.cursor, Engine.foldl_record]
  refine ⟨input.same scalars, Mirrors.of_engine agree ?_ s.input⟩
  rw [nothing, List.append_nil, Engine.foldl_record]

theorem follow_jump (h : Paired d s) {origin : JumpOrigin} {count maxBits : Nat}
    (writable : Decoder.Writable maxBits (.jump origin count) d) (done : Decoder.jump origin count d = .ok u d')
    (input : Supplies d d' s rest) : Follows (.jump origin count) d d' s rest := by
  obtain ⟨target, lands, gap_passed⟩ := Decoder.jump_ok.mp done
  obtain ⟨gap, v, stop, slice, decoded, scalars, same, agree⟩ :=
    h.writeGap (Engine.le_jumpTarget lands) gap_passed
  have first := input.next scalars
  have width : target - d.cursor = gap.length := by omega
  rw [width] at decoded
  obtain ⟨_, encoded⟩ := writable.2 _ gap v ⟨decoded, rfl, slice, by rw [stop]; exact lands⟩
  refine ⟨_, Encoder.jump_ok.mpr ⟨_, _, Encoder.writeGap_ok.mpr ⟨v, rest, gap, first, encoded, rfl, rfl⟩, rfl⟩, rfl,
    agree, ?_, ⟨_, rfl, fun p hp => ?_⟩, fun p hp => .inl hp⟩
  · show (s.engine.storage.write gap).bits = s.engine.storage.bits ++ Decoder.passed d d'
    rw [same, Storage.write_at_end h.atEnd]
  · -- the decoder landed where the gap ends, on the very data that the check will look at
    obtain rfl := List.mem_singleton.mp hp
    refine ⟨congrArg List.length h.agree.log.symm, ?_⟩
    simp only [Pending.verify, except_bind_ok, h.cursor, stop]
    refine ⟨target, lands, ?_⟩
    rw [if_pos rfl]
    rfl

theorem follow_marker (h : Paired d s) {last : Bool} {bytes : List UInt8}
    {maxBits : Nat} (writable : Decoder.Writable maxBits (.marker last bytes) d)
    (done : Decoder.marker last bytes d = .ok u d') (input : Supplies d d' s rest) :
    Follows (.marker last bytes) d d' s rest := by
  obtain ⟨needle, found, d₁, even, disguised, here, gap_passed, field⟩ := Decoder.marker_ok.mp done
  obtain ⟨gap, v, stop, slice, decoded, scalars, same, agree⟩ :=
    h.writeGap (Storage.le_of_find? here) gap_passed
  obtain ⟨bits, read, content⟩ := Decoder.readField_ok.mp field
  have first := input.next (by rw [Decoder.scalars_readBits read, scalars])
  obtain ⟨_, encoded⟩ := writable.2 _ gap v ⟨decoded, rfl, slice, needle, disguised, by rw [stop]; exact here⟩
  rw [← Encoder.gapEncoding_true (v)] at encoded
  obtain rfl := Field.decode_eq_bytes.mp content
  let s₁ : Encoder := { s with input := rest, engine := Encoder.afterGap s.engine v gap }
  let pending : Pending :=
    ⟨s₁.engine.log.length, s.engine.cursor, gap.length, .marker needle bytes last, s₁.engine.context⟩
  have gap_written : s₁.engine.storage.bits = s.engine.storage.bits ++ gap := Storage.write_at_end h.atEnd gap
  have atEnd : s₁.AtEnd := by
    unfold Encoder.AtEnd
    rw [gap_written, List.length_append, ← h.atEnd]
    rfl
  have beside : Paired d₁ { s₁ with pending := s₁.pending ++ [pending] } := ⟨agree, atEnd⟩
  obtain ⟨_, same', e', agree', appended, written⟩ := beside.writeBits read
  refine ⟨_, Encoder.marker_ok.mpr ⟨needle, gap.length, s₁, ?_, ?_, ?_, written⟩, rfl, agree', ?_,
    ⟨[pending], rfl, fun p hp => ?_⟩, fun p hp => .inl hp⟩
  · rwa [h.cursor]
  · rwa [← h.agree.flags]
  · exact Encoder.writeGap_ok.mpr ⟨v, rest, gap, first, encoded, rfl, rfl⟩
  · have whole := (Decoder.Advances.produceGap gap_passed).passed_append (Decoder.Advances.readBits read)
    show e'.storage.bits = s.engine.storage.bits ++ Decoder.passed d d'
    rw [whole, same, same', appended, ← List.append_assoc]
    exact congrArg (· ++ _) gap_written
  · -- a gap adds nothing to the log, so the search goes over the data in which the decoder found the marker
    obtain rfl := List.mem_singleton.mp hp
    refine ⟨congrArg List.length h.agree.log.symm, ?_⟩
    simp only [Pending.verify, pending, h.cursor, stop]
    rw [if_pos here]
    rfl

theorem follow_control (h : Paired d s) {action : Control} (done : d.control action = .ok d')
    (input : Supplies d d' s rest) : Follows (.control action) d d' s rest := by
  have agree : Engine.Agree Eq s.engine d := h.agree.symm Eq.symm
  obtain ⟨e', acted, storage, agree⟩ :=
    agree.control Value.congruence_eq (agree.passes (Engine.passes_of_control done)) done
  have same := Engine.control_kept done
  obtain rfl := input.same same.scalars
  have nothing : Decoder.passed d d' = [] := by
    rw [Decoder.passed, Engine.cursor, Engine.cursor, same.storage, Nat.sub_self, List.take_zero]
  refine ⟨_, Encoder.execute_control_ok.mpr ⟨e', acted, rfl⟩, rfl, Mirrors.of_engine (agree.symm Eq.symm) ?_ s.input⟩
  simp only [Directive.rewrite, nothing, List.append_nil, storage]

/-- The encoder can follow every step of a decoder that can be written. -/
theorem follow (h : Paired d s) {directive : Directive}
    (writable : Decoder.Writable s.engine.limits.maxBits directive d) (done : Decoder.execute directive d = .ok u d')
    (input : Supplies d d' s rest) : Follows directive d d' s rest := by
  cases directive with
  | value encoding width =>
    cases width with
    | bits width => exact h.follow_value writable done input
    | rest => exact h.follow_rest writable (Decoder.execute_rest_ok.mp done) input
  | next width => exact h.follow_next (writable.1 width rfl) done input
  | constant bit width => exact h.follow_constant (writable.1 width rfl) done input
  | mod change width =>
    obtain ⟨ts, asked, applied⟩ := Decoder.execute_mod_ok.mp done
    obtain ⟨same, next⟩ := h.follow_transforms applied input
    rw [← h.cursor] at asked
    exact ⟨_, Encoder.execute_mod_ok.mpr ⟨ts, asked, rfl⟩, same, next⟩
  | modOff change offset width =>
    have applied := Decoder.execute_modOff_ok.mp done
    rw [← h.cursor] at applied
    obtain ⟨same, next⟩ := h.follow_transforms applied input
    exact ⟨_, Encoder.execute_modOff_ok.mpr rfl, same, next⟩
  | takeAll encoding =>
    obtain ⟨even, field⟩ := Decoder.execute_takeAll_ok.mp done
    exact h.follow_takeAll writable even field input
  | jump origin count => exact h.follow_jump writable done input
  | marker last bytes => exact h.follow_marker writable done input
  | control action => exact h.follow_control (Decoder.execute_control_ok.mp done) input

end Paired

/-! ## Zeros -/

namespace Encoder

/-- What an encoder has put off holds on the data of the wire. -/
structure Supported (wire : Bits) (s : Encoder) : Prop where
  checked : ∀ p ∈ s.pending, p.Holds wire s.engine.log
  rest : ∀ p, s.restEnd = some p → p.1 = wire.length

end Encoder

/-- Skipped bits that are zeros are written as they were, as all other bits are. -/
theorem Decoder.SkipsZeros.rewrite_passed {directive : Directive} {d d' : Engine} {u : Unit}
    (zeros : SkipsZeros directive d) (done : execute directive d = .ok u d') :
    directive.rewrite (passed d d') = passed d d' := by
  cases directive with
  | next width =>
    obtain ⟨after, _, same, moved, rfl⟩ := execute_next_ok.mp done
    have zeros : passed d { d with storage := after } = List.replicate width false := by
      rw [← show (d.storage.bits.drop d.cursor).take width = List.replicate width false from zeros]
      show (after.bits.drop d.cursor).take (after.cursor - d.cursor) = _
      rw [same, moved, Nat.add_sub_cancel_left]
    rw [zeros, Directive.rewrite, List.length_replicate]
  | _ => rfl

namespace Lockstep

variable {wire : Bits} {d d' : Engine} {s s' : Encoder}

theorem paired (h : Lockstep Eq wire d s.engine) : Paired d s :=
  ⟨h.agree, h.atEnd⟩

/-- A step in which the encoder writes what the decoder passes. -/
theorem mirrors (h : Lockstep Eq wire d s.engine) (moved : Decoder.Advances True d d')
    (step : Mirrors (Decoder.passed d d') d d' s s') : Lockstep Eq wire d' s'.engine where
  agree := step.agree
  replay := by
    obtain ⟨newer, log, applied, _⟩ := moved.data
    rw [log, Log.replay?_append, h.replay, Option.bind_some, applied]
  written := by
    rw [step.written, h.written]
    exact moved.take_cursor.symm

/-- What was put off in such a step holds on the data of the wire. -/
theorem supported (h : Lockstep Eq wire d s.engine) (kept : s.Supported wire) (moved : Decoder.Advances True d d')
    {bits : Bits} (step : Mirrors bits d d' s s') : s'.Supported wire where
  checked p hp := by
    obtain ⟨newer, log, _, _⟩ := moved.data
    obtain ⟨more, pending, holds⟩ := step.pending
    rw [pending] at hp
    rw [← step.agree.log, log]
    rcases List.mem_append.mp hp with old | new
    · have earlier := kept.checked p old
      rw [← h.agree.log] at earlier
      exact earlier.append newer
    · obtain ⟨logged, verified⟩ := holds p new
      exact ⟨newer, d.log, d.storage, rfl, logged.symm, h.replay, verified⟩
  rest p hp := by
    rcases step.rest p hp with old | new
    · exact kept.rest p old
    · rw [new, moved.length, h.length]

end Lockstep

/-! ## Runs -/

section

variable {maxBits : Nat} {instructions : List Instruction} {index : Nat} {d d' : Engine} {s : Encoder} {rest : List Value}

/-- A relation that each step keeps when an encoder follows a decoder is kept by whole runs. -/
theorem follow_run_of {related : Engine → Encoder → Prop} {property : Directive → Engine → Prop}
    (paired : ∀ {d s}, related d s → Paired d s)
    (noted : ∀ {d s steps current events steps' current' events'}, related d s →
      Engine.Agree Eq { d with steps, current, events }
        { s.engine with steps := steps', current := current', events := events' } →
      related { d with steps, current, events }
        { s with engine := { s.engine with steps := steps', current := current', events := events' } })
    (step : ∀ {d s directive d' rest}, related d s → property directive d → Decoder.execute directive d = .ok () d' →
      Supplies d d' s rest → ∃ s', Encoder.execute directive s = .ok () s' ∧ s'.input = rest ∧ related d' s')
    (h : related d s) (along : Decoder.Along property index instructions d)
    (done : Decoder.runFrom index instructions d = (none, d')) (input : Supplies d d' s rest) :
    ∃ s', Encoder.runFrom index instructions s = (none, s') ∧ s'.input = rest ∧ related d' s' := by
  induction instructions generalizing index d s with
  | nil =>
    cases done
    exact ⟨_, rfl, (List.append_cancel_left input).symm, noted h (paired h).agree.rest⟩
  | cons instruction others ih =>
    obtain ⟨d₁, first, later⟩ := Decoder.runFrom_cons_ok.mp done
    obtain ⟨allowed, executed⟩ := Decoder.step_ok.mp first
    obtain ⟨more, scalars⟩ := (Decoder.Advances.runFrom later).scalars
    let begun : Encoder := { s with engine := s.engine.arrive index instruction }
    have started := (paired h).agree.begin index instruction
    have arrived : Engine.Agree Eq (d.arrive index instruction) begun.engine := by
      refine started.emit ?_
      rw [(paired h).cursor]
      exact .same _
    have here : related (d.arrive index instruction) begun := @noted d s _ _ _ _ _ _ h arrived
    -- what is left of the input after this step is all that the decoder has yet to produce
    have next : Supplies (d.arrive index instruction) d₁ begun (more ++ rest) := by
      show d₁.scalars ++ (more ++ rest) = d.scalars ++ s.input
      rw [← input, ← scalars, List.append_assoc]
    obtain ⟨s₁, written, left, beside⟩ := step here along.1 executed next
    have taken : Encoder.step index instruction s = .ok () s₁ :=
      Encoder.step_ok.mpr ⟨started.checkSteps.symm.trans allowed, written⟩
    have after : Supplies d₁ d' s₁ rest := by
      rw [Supplies, left, ← scalars, List.append_assoc]
    obtain ⟨s', run, result⟩ := ih beside (along.2 d₁ first) later after
    exact ⟨s', Encoder.runFrom_cons_ok.mpr ⟨s₁, taken, run⟩, result⟩

/-- Whatever a decoder's run reads can be written, with zeros for the bits that were skipped. -/
theorem Paired.follow_run (h : Paired d s) (limit : s.engine.limits.maxBits = maxBits)
    (along : Decoder.Along (Decoder.Writable maxBits) index instructions d)
    (done : Decoder.runFrom index instructions d = (none, d')) (input : Supplies d d' s rest) :
    ∃ s', Encoder.runFrom index instructions s = (none, s') ∧ s'.input = rest ∧ Paired d' s' := by
  let related (d : Engine) (s : Encoder) : Prop := Paired d s ∧ s.engine.limits.maxBits = maxBits
  have step {d s directive d' rest} (h : related d s) (writable : Decoder.Writable maxBits directive d)
      (executed : Decoder.execute directive d = .ok () d') (input : Supplies d d' s rest) :
      ∃ s', Encoder.execute directive s = .ok () s' ∧ s'.input = rest ∧ related d' s' := by
    rw [← h.2] at writable
    obtain ⟨s', written, left, mirrored⟩ := h.1.follow writable executed input
    have after := Encoder.Extends.execute h.1.atEnd written
    exact ⟨s', written, left, mirrored.paired after, by rw [after.limits, h.2]⟩
  obtain ⟨s', run, left, next, _⟩ := @follow_run_of _ _ _ _ _ _ related _ And.left
    (fun h agree => ⟨⟨agree, h.1.atEnd⟩, h.2⟩) step ⟨h, limit⟩ along done input
  exact ⟨s', run, left, next⟩

/-- What is written again as it was read, instruction by instruction. -/
structure Decoder.Restorable (maxBits : Nat) (directive : Directive) (d : Engine) : Prop where
  writable : Writable maxBits directive d
  zeros : SkipsZeros directive d
  sum : directive.InWord d.cursor

/-- A step of an encoder that writes what the decoder passes. -/
theorem Lockstep.follow {wire : Bits} (h : Lockstep Eq wire d s.engine) (kept : s.Supported wire) {directive : Directive}
    (restorable : Decoder.Restorable s.engine.limits.maxBits directive d) {u : Unit}
    (done : Decoder.execute directive d = .ok u d') (input : Supplies d d' s rest) :
    ∃ s', Encoder.execute directive s = .ok () s' ∧ s'.input = rest ∧ Lockstep Eq wire d' s'.engine
      ∧ s'.Supported wire ∧ s'.engine.limits = s.engine.limits := by
  obtain ⟨s', written, left, mirrored⟩ := h.paired.follow restorable.writable done input
  have moved : Decoder.Advances True d d' := (Decoder.Advances.execute done).mono fun _ => restorable.sum
  rw [restorable.zeros.rewrite_passed done] at mirrored
  exact ⟨s', written, left, h.mirrors moved mirrored, h.supported kept moved mirrored,
    (Encoder.Extends.execute h.atEnd written).limits⟩

/-- Whatever a decoder's run reads can be written again as it was read, instruction by instruction. -/
theorem Lockstep.follow_run {wire : Bits} (h : Lockstep Eq wire d s.engine) (kept : s.Supported wire)
    (limit : s.engine.limits.maxBits = maxBits)
    (along : Decoder.Along (Decoder.Restorable maxBits) index instructions d)
    (done : Decoder.runFrom index instructions d = (none, d')) (input : Supplies d d' s rest) :
    ∃ s', Encoder.runFrom index instructions s = (none, s') ∧ s'.input = rest ∧ Lockstep Eq wire d' s'.engine
      ∧ s'.Supported wire := by
  let related (d : Engine) (s : Encoder) : Prop :=
    Lockstep Eq wire d s.engine ∧ s.Supported wire ∧ s.engine.limits.maxBits = maxBits
  have step {d s directive d' rest} (h : related d s) (restorable : Decoder.Restorable maxBits directive d)
      (executed : Decoder.execute directive d = .ok () d') (input : Supplies d d' s rest) :
      ∃ s', Encoder.execute directive s = .ok () s' ∧ s'.input = rest ∧ related d' s' := by
    rw [← h.2.2] at restorable
    obtain ⟨s', written, left, next, supported, limits⟩ := h.1.follow h.2.1 restorable executed input
    exact ⟨s', written, left, next, supported, by rw [limits, h.2.2]⟩
  obtain ⟨s', run, left, next, supported, _⟩ := @follow_run_of _ _ _ _ _ _ related _ (fun h => h.1.paired)
    (fun h agree => ⟨h.1.of_agree agree rfl rfl rfl, ⟨h.2.1.checked, h.2.1.rest⟩, h.2.2⟩) step ⟨h, kept, limit⟩ along done
    input
  exact ⟨s', run, left, next, supported⟩

end

end BitTemplate
