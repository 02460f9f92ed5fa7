import BitTemplate.Proofs.Finish

/-!
Decoder and encoder side by side. At each instruction the encoder has written what the decoder has passed, as the
decoder sees it: the data of the wire after the transforms in the log. Reading bits and writing the same bits keeps this,
because transforms of a field leave everything before it alone. What the encoder wrote the decoder reads, building block
by building block, if the wire bears it out.
-/

namespace BitTemplate

/-- The bits that an instruction writes for the value it takes, and the encoding in which a decoder reads them. -/
def Directive.Writes (position : Nat) (v : Value) (encoding : Encoding) (bits : Bits) : Directive → Prop
  | .value own (.bits width) => encoding = own ∧ Field.encode own v (some width) = .ok bits
  | .value own .rest => encoding = own ∧ Encoder.restBits position own v = .ok bits
  | .takeAll own => encoding = own ∧ Field.encode own v none = .ok bits
  | .jump _ _ =>
    encoding = Decoder.gapEncoding position bits.length
      ∧ Field.encode (Encoder.gapEncoding false v) v none = .ok bits
  | .marker _ _ => encoding = .bytes ∧ Field.encode .bytes v none = .ok bits
  | _ => False

/-- Whether an instruction takes a value of an encoder's input. -/
def Directive.takesValue : Directive → Bool
  | .value .. | .takeAll _ | .jump .. | .marker .. => true
  | _ => false

/-- The engine of a decoder and that of an encoder after the same instructions, with values that are related. -/
structure Lockstep (R : Value → Value → Prop) (wire : Bits) (d e : Engine) : Prop where
  agree : Engine.Agree R d e
  replay : d.log.replay? wire = some d.storage.bits
  written : e.storage.bits = d.storage.bits.take d.storage.cursor

/-- Whether the wire bears out what an encoder has written so far. -/
def Engine.Replays (wire : Bits) (e : Engine) : Prop :=
  ∃ view, e.log.replay? wire = some view ∧ view.take e.storage.bits.length = e.storage.bits

/-- The data of the wire at the end bears out everything written on the way, if the windows that are asked for later start
where position and offset say. -/
theorem Encoder.Extends.replays {s final : Encoder} {wire : Bits} (h : Extends True s final)
    (sealed : final.Sealed wire) : s.engine.Replays wire := by
  obtain ⟨newer, log, keeps⟩ := h.log
  obtain ⟨more, bits⟩ := h.bits
  have replay := sealed.replay
  rw [log, Log.replay?_append, Option.bind_eq_some_iff] at replay
  obtain ⟨view, earlier, later⟩ := replay
  refine ⟨view, earlier, ?_⟩
  rw [← (keeps trivial).all later, ← bits, Bits.take_padToByte (by simp), List.take_left]

namespace Lockstep

variable {R : Value → Value → Prop} {wire : Bits} {d e : Engine} {s s' : Encoder}

theorem cursor (h : Lockstep R wire d e) : d.storage.cursor = e.storage.cursor :=
  h.agree.cursor

theorem length_written (h : Lockstep R wire d e) : e.storage.bits.length = d.storage.cursor := by
  rw [h.written, List.length_take, Nat.min_eq_left d.storage.cursor_le]

theorem atEnd (h : Lockstep R wire d e) : e.storage.cursor = e.storage.bits.length := by
  rw [h.length_written, h.cursor]

theorem length (h : Lockstep R wire d e) : d.storage.bits.length = wire.length :=
  Log.length_of_replay? h.replay

/-- The record that a decoder closes is closed for the encoder, and the other way round. -/
theorem outer_eq_nil (h : Lockstep R wire d e) : d.records.outer = [] ↔ e.records.outer = [] := by
  rw [← List.length_eq_zero_iff, ← List.length_eq_zero_iff, h.agree.records.outer.length_eq]

/-- Engines that hold the same values have produced the same ones. -/
theorem scalars (h : Lockstep Eq wire d e) : d.scalars = e.scalars := by
  rw [Engine.scalars, Engine.scalars, h.agree.records_eq]

/-- Changes that leave bits and log alone. -/
theorem of_agree (h : Lockstep R wire d e) {d' e' : Engine} (agree : Engine.Agree R d' e')
    (storage : d'.storage = d.storage) (log : d'.log = d.log) (bits : e'.storage.bits = e.storage.bits) :
    Lockstep R wire d' e' where
  agree := agree
  replay := by rw [log, storage, h.replay]
  written := by rw [bits, storage, h.written]

/-- Both sides record the same transforms and move over the same bits. -/
theorem advance (h : Lockstep R wire d e) {ts : List Transform} {bits : Bits} {after : Storage}
    (applied : Transform.onAll? ts d.storage.bits = some after.bits)
    (moved : after.cursor = d.storage.cursor + bits.length)
    (slice : (after.bits.drop d.storage.cursor).take bits.length = bits)
    (keeps : Transform.Keeps d.storage.cursor ts) :
    Lockstep R wire { ts.foldl Engine.record d with storage := after }
      { ts.foldl Engine.record e with storage := e.storage.write bits } where
  agree := (h.agree.recordAll ts).withStorage (by rw [moved, Storage.cursor_write, h.cursor])
  replay := by
    have entries : (ts.foldl Engine.record d).log = Log.entries d.walk.flat ts ++ d.log := by
      rw [Engine.foldl_record]
      rfl
    rw [entries, Log.replay?_append, h.replay, Option.bind_some, Log.transforms_entries, applied]
  written := by
    change (e.storage.write bits).bits = after.bits.take after.cursor
    rw [Storage.write_at_end h.atEnd, moved, List.take_add, keeps.all applied, slice, h.written]

/-- What the encoder wrote next, and the transforms it recorded, on the side of the decoder. -/
theorem ahead (h : Lockstep R wire d e) {ts : List Transform} {bits : Bits} {e' : Engine}
    (replays : e'.Replays wire) (log : e'.log = Log.entries e.walk.flat ts ++ e.log)
    (written : e'.storage.bits = e.storage.bits ++ bits) :
    ∃ after : Storage, Transform.onAll? ts d.storage.bits = some after.bits
      ∧ after.cursor = d.storage.cursor + bits.length
      ∧ d.storage.cursor + bits.length ≤ d.storage.bits.length
      ∧ (after.bits.drop d.storage.cursor).take bits.length = bits := by
  obtain ⟨view, replay, front⟩ := replays
  rw [log, Log.replay?_append, ← h.agree.log, h.replay, Option.bind_some, Log.transforms_entries] at replay
  rw [written, List.length_append, h.length_written] at front
  have enough : d.storage.cursor + bits.length ≤ view.length := by
    have := congrArg List.length front
    rw [List.length_take, List.length_append, h.length_written] at this
    omega
  refine ⟨⟨view, d.storage.cursor + bits.length, enough⟩, replay, rfl, ?_, ?_⟩
  · rwa [← Transform.length_of_onAll? replay]
  · have := congrArg (List.drop d.storage.cursor) front
    rw [List.drop_take, Nat.add_sub_cancel_left, List.drop_left' h.length_written] at this
    exact this

/-! ## Instructions in general -/

theorem arrive (h : Lockstep R wire d e) (index : Nat) (instruction : Instruction) :
    Lockstep R wire (d.arrive index instruction) (e.arrive index instruction) := by
  refine h.of_agree ((h.agree.begin index instruction).emit ?_) rfl rfl rfl
  rw [show d.cursor = e.cursor from h.cursor]
  exact .same _

theorem checkSteps (h : Lockstep R wire d e) (index : Nat) (instruction : Instruction) :
    (d.begin index instruction).checkSteps = (e.begin index instruction).checkSteps :=
  (h.agree.begin index instruction).checkSteps

/-! ## Bits of a field -/

/-- The decoder reads what the encoder wrote. -/
theorem readBits (h : Lockstep R wire d s.engine) {encoding : Encoding} {bits : Bits} {u : Unit}
    (written : Encoder.writeBits encoding bits s = .ok u s') (replays : s'.engine.Replays wire) :
    ∃ d', Decoder.readBits encoding bits.length d = .ok bits d' ∧ Lockstep R wire d' s'.engine := by
  obtain ⟨ts, asked, rfl⟩ := Encoder.writeBits_ok.mp written
  have log : (ts.foldl Engine.record s.engine).log = Log.entries s.engine.walk.flat ts ++ s.engine.log := by
    rw [Engine.foldl_record]
    rfl
  obtain ⟨after, applied, moved, enough, slice⟩ := h.ahead replays log (Storage.write_at_end h.atEnd bits)
  have asked : d.flags.transforms d.cursor bits.length encoding = .ok ts := by
    rw [h.agree.flags]
    simpa only [Engine.cursor, h.cursor] using asked
  exact ⟨_, Decoder.readBits_ok.mpr ⟨ts, after, asked, applied, enough, moved, slice.symm, rfl⟩,
    h.advance applied moved slice (Flags.keeps asked)⟩

/-! ## Fields -/

/-- The decoder reads a field that the encoder wrote, as a value that is related to the one it was written for. -/
theorem produceField (h : Lockstep R wire d s.engine) {encoding : Encoding} {bits : Bits} {v w : Value} {u : Unit}
    (done : Encoder.writeField encoding v bits s = .ok u s') (replays : s'.engine.Replays wire)
    (decoded : Field.decode encoding bits = .ok w) (related : R w v) :
    ∃ d', Decoder.produceField encoding bits.length d = .ok () d' ∧ Lockstep R wire d' s'.engine := by
  obtain ⟨s₁, written, rfl⟩ := Encoder.writeField_ok.mp done
  obtain ⟨d₁, read, next⟩ := h.readBits written replays
  refine ⟨_, Decoder.produceField_ok.mpr ⟨bits, w, d₁, read, decoded, rfl⟩, ?_⟩
  simp only [Engine.cursor, ← h.cursor]
  exact next.of_agree (next.agree.produce related _) rfl rfl rfl

/-! ## Gaps -/

/-- Both sides move over bits as they stand. -/
theorem seek (h : Lockstep R wire d e) {bits : Bits} {after : Storage} (kept : after.bits = d.storage.bits)
    (moved : after.cursor = d.storage.cursor + bits.length)
    (slice : (d.storage.bits.drop d.storage.cursor).take bits.length = bits) (event : Event) :
    Lockstep R wire { d.emit event with storage := after }
      { e.emit event with storage := e.storage.write bits } := by
  have unchanged : Transform.onAll? [] d.storage.bits = some after.bits := by rw [kept, Transform.onAll?_nil]
  have next := h.advance unchanged moved (by rwa [kept]) (Transform.Keeps.nil _)
  exact next.of_agree (next.agree.emit (.same event)) rfl rfl rfl

/-- The decoder passes a gap that the encoder wrote. -/
theorem produceGap (h : Lockstep R wire d e) {encoding : Encoding} {bits : Bits} {v w : Value}
    (replays : (Encoder.afterGap e v bits).Replays wire) (decoded : Field.decode encoding bits = .ok w)
    (related : R w v) :
    ∃ d', Decoder.produceGap encoding (d.cursor + bits.length) d = .ok () d'
      ∧ Lockstep R wire d' (Encoder.afterGap e v bits) := by
  have log : (Encoder.afterGap e v bits).log = Log.entries e.walk.flat [] ++ e.log := rfl
  obtain ⟨after, unchanged, moved, enough, slice⟩ := h.ahead replays log (Storage.write_at_end h.atEnd bits)
  have kept : after.bits = d.storage.bits := (Option.some.inj unchanged).symm
  rw [kept] at slice
  have width : d.cursor + bits.length - d.cursor = bits.length := by omega
  have next := h.seek kept moved slice (.seek d.cursor (d.cursor + bits.length))
  refine ⟨_, Decoder.produceGap_ok.mpr ⟨after, w, ?_, kept, ?_, ?_, rfl⟩, ?_⟩
  · rwa [width]
  · rw [width]
    exact moved
  · rw [width]
    exact slice.symm ▸ decoded
  · simp only [Encoder.afterGap]
    rw [show e.cursor = d.cursor from h.cursor.symm]
    exact next.of_agree (next.agree.produce related _) rfl rfl rfl

/-! ## Transforms at the cursor -/

theorem recordAll (h : Lockstep R wire d e) {ts : List Transform} {after : Storage}
    (applied : d.storage.applyAll ts = .ok after) (keeps : Transform.Keeps d.storage.cursor ts) :
    Lockstep R wire { ts.foldl Engine.record d with storage := after } (ts.foldl Engine.record e) := by
  obtain ⟨bits, cursor⟩ := Storage.applyAll_ok.mp applied
  have next := @advance _ _ _ _ h ts [] after bits cursor.symm rfl keeps
  have agree := h.agree.recordAll ts
  refine next.of_agree { agree with cursor := ?_ } rfl rfl ?_
  · rw [← cursor, h.cursor, Engine.foldl_record]
  · simp [Engine.foldl_record, Storage.write_at_end h.atEnd]

/-! ## The end -/

theorem root (h : Lockstep R wire d e) (closed : e.records.outer = []) :
    d.records.root? = some d.records.inner.reverse := by
  rw [Shape.Records.root?, if_pos]
  simpa using h.outer_eq_nil.mpr closed

end Lockstep

end BitTemplate
