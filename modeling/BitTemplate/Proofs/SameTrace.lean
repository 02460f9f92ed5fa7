import Mathlib
import BitTemplate.Proofs.ByteRoundTrip
import BitTemplate.Run.Trace

/-!
Decoder and encoder show the same. After every instruction of a program the encoder of the values that a decoder reads
stands where the decoder stands, with the same flags, log, record, last value and labels. Skipped bits need not be zeros
for this, and markers may be searched from the end: only what is put off to the end of the encoding can tell the two
apart. So the traces of the two runs are the same.
-/

namespace BitTemplate

/-! ## What agreement means -/

namespace Engine.Agree

variable {d e : Engine}

theorem last_eq (h : Agree Eq d e) :
    d.last.map (fun last => (last.value, last.path)) = e.last.map fun last => (last.value, last.path) := by
  have last := h.last
  generalize d.last = x, e.last = y at last
  cases last with
  | some same => simp [same.path, same.value]
  | none => rfl

/-- Labels of engines that agree have the same paths and values, oldest first. -/
theorem entries_eq (h : Agree Eq d e) (name : String) :
    (d.labels.entries name).map (fun entry => (entry.path, entry.value))
      = (e.labels.entries name).map fun entry => (entry.path, entry.value) := by
  have entries := h.labels.entries name
  rw [← List.forall₂_eq_eq_eq, List.forall₂_map_left_iff, List.forall₂_map_right_iff]
  exact entries.imp fun x y same => by rw [same.path, eq_of_rel_eq same.value]

theorem events_eq (h : Agree Eq d e) : d.events = e.events := by
  have shown := h.events.imp fun _ _ => Event.Related.eq
  rwa [List.forall₂_eq_eq_eq] at shown

end Engine.Agree

/-! ## Parts of a run -/

/-- A run that succeeds goes through the first instructions alone too. -/
theorem Decoder.runFrom_take {instructions : List Instruction} {index : Nat} {e final : Engine} (count : Nat)
    (done : runFrom index instructions e = (none, final)) :
    ∃ e', runFrom index (instructions.take count) e = (none, e') ∧ e'.scalars <+: final.scalars := by
  induction instructions generalizing index e count with
  | nil => exact ⟨final, by rw [List.take_nil, done], List.prefix_refl _⟩
  | cons instruction rest ih =>
    cases count with
    | zero => exact ⟨e.rest, rfl, (Advances.runFrom done).scalars⟩
    | succ count =>
      obtain ⟨e₁, first, later⟩ := runFrom_cons_ok.mp done
      obtain ⟨e', run, before⟩ := ih count later
      exact ⟨e', runFrom_cons_ok.mpr ⟨e₁, first, run⟩, before⟩

section

variable {text : String} {program : Program} {bytes : List UInt8} {values : List Value}
  {maxSteps readBits maxBits : Nat} {check : Bool} {labels : List (String × Value)}

/-- Beside every part of a decoder's run, the encoder of what the whole run produces takes the same part. -/
theorem Encoder.run_beside {d : Engine} {instructions : List Instruction}
    (formed : ∀ i ∈ instructions, i.directive.WellFormed) (faithful : ∀ i ∈ instructions, i.directive.Faithful)
    (room : 8 * bytes.length ≤ maxBits)
    (done : Decoder.runFrom 0 instructions (Decoder.ofBytes bytes ⟨maxSteps, readBits⟩ check labels).engine = (none, d))
    (produced : d.scalars <+: (ofValues values ⟨maxSteps, maxBits⟩ labels).input) :
    ∃ s, runFrom 0 instructions (ofValues values ⟨maxSteps, maxBits⟩ labels) = (none, s)
      ∧ Engine.Agree Eq d s.engine := by
  have start := Lockstep.start Value.congruence_eq bytes values maxSteps readBits maxBits check labels
  have limit : (ofValues values ⟨maxSteps, maxBits⟩ labels).engine.limits.maxBits = maxBits :=
    congrArg Limits.maxBits limits_ofValues
  have along := Decoder.along_writable formed faithful room done
  obtain ⟨more, input⟩ := produced
  have supplies : Supplies (Decoder.ofBytes bytes ⟨maxSteps, readBits⟩ check labels).engine d
      (ofValues values ⟨maxSteps, maxBits⟩ labels) more := by
    rw [Supplies, Decoder.scalars_ofBytes.1, input]
    rfl
  obtain ⟨s, run, _, beside⟩ := start.paired.follow_run limit along done supplies
  exact ⟨s, run, beside.agree⟩

/-- After any number of instructions decoder and encoder agree, and so do their traces. -/
theorem same_trace (compiled : Pattern.compile text = .ok program)
    (faithful : ∀ i ∈ program.instructions, i.directive.Faithful) (room : 8 * bytes.length ≤ maxBits)
    (decoded : (Decoder.ofBytes bytes ⟨maxSteps, readBits⟩ true labels).decode program = .ok values) :
    (∀ count, ∃ d s,
      (Decoder.ofBytes bytes ⟨maxSteps, readBits⟩ true labels).run ⟨program.instructions.take count⟩ = (none, d)
      ∧ (Encoder.ofValues values ⟨maxSteps, maxBits⟩ labels).run ⟨program.instructions.take count⟩ = (none, s)
      ∧ d.engine.cursor = s.engine.cursor ∧ d.engine.flags = s.engine.flags ∧ d.engine.log = s.engine.log
      ∧ d.engine.shape = s.engine.shape ∧ d.engine.walk.path = s.engine.walk.path
      ∧ d.engine.walk.flat = s.engine.walk.flat
      ∧ d.engine.last.map (fun last => (last.value, last.path))
        = s.engine.last.map (fun last => (last.value, last.path))
      ∧ ∀ name, (d.engine.labels.entries name).map (fun entry => (entry.path, entry.value))
        = (s.engine.labels.entries name).map fun entry => (entry.path, entry.value))
    ∧ ∀ verbosity color, (TraceStyle.ofProgram program verbosity color).lines
        ((Decoder.ofBytes bytes ⟨maxSteps, readBits⟩ true labels).run program).2.engine
      = (TraceStyle.ofProgram program verbosity color).lines
        ((Encoder.ofValues values ⟨maxSteps, maxBits⟩ labels).run program).2.engine := by
  obtain ⟨final, done, _, root⟩ := Decoder.decode_ofBytes_ok.mp decoded
  have formed := Pattern.wellFormed_of_compile compiled
  have input := @Decoder.scalars_eq_input _ _ _ _ _ _ ⟨maxSteps, maxBits⟩ _ done root
  rw [Decoder.scalars_ofBytes.1, List.nil_append] at input
  constructor
  · intro count
    obtain ⟨d, taken, before⟩ := Decoder.runFrom_take count done
    obtain ⟨s, run, agree⟩ := Encoder.run_beside (fun i hi => formed i (List.mem_of_mem_take hi))
      (fun i hi => faithful i (List.mem_of_mem_take hi)) room taken (input ▸ before)
    refine ⟨⟨d, true⟩, s, by rw [Decoder.run_ofBytes, taken], by rw [Encoder.run_ofValues, run], agree.cursor, agree.flags,
      agree.log, agree.shape, by rw [agree.walk], by rw [agree.walk], agree.last_eq, agree.entries_eq⟩
  · intro verbosity color
    obtain ⟨s, run, agree⟩ := Encoder.run_beside formed faithful room done (by rw [input])
    rw [Decoder.run_ofBytes, done, Encoder.run_ofValues, run, TraceStyle.lines, TraceStyle.lines, agree.events_eq]

end

/-- Skipped bits, bytes up to the last of some markers and a number, in inverted bits. -/
def skippingRecord : Program where
  instructions := [
    ⟨"_8", ⟨0, 2⟩, .next 8⟩, ⟨"Iy", ⟨3, 5⟩, .control (.setFlag .invertAll .set)⟩,
    ⟨"m$\"0f\"", ⟨6, 12⟩, .marker true [0x0f]⟩, ⟨"=#\"gap\"", ⟨13, 20⟩, .control (.setLabel "gap")⟩,
    ⟨"u8", ⟨21, 23⟩, .value .uint (.bits 8)⟩]

theorem same_trace_skippingRecord :
    (TraceStyle.ofProgram skippingRecord .veryVerbose true).lines
        ((Decoder.ofBytes [0xa5, 1, 0xf0, 2, 0xf0, 7] ⟨20, 0⟩ true []).run skippingRecord).2.engine
      = (TraceStyle.ofProgram skippingRecord .veryVerbose true).lines
        ((Encoder.ofValues [.bytes [1, 0xf0, 2], .uint 248] ⟨20, 48⟩ []).run skippingRecord).2.engine := by
  have compiled : Pattern.compile "_8 Iy m$\"0f\" =#\"gap\" u8" = .ok skippingRecord := by cbv
  have decoded : (Decoder.ofBytes [0xa5, 1, 0xf0, 2, 0xf0, 7] ⟨20, 0⟩ true []).decode skippingRecord
      = .ok [.bytes [1, 0xf0, 2], .uint 248] := by cbv
  have faithful : ∀ i ∈ skippingRecord.instructions, i.directive.Faithful := by
    simp [skippingRecord, Directive.Faithful]
  exact (same_trace compiled faithful (by decide) decoded).2 .veryVerbose true

end BitTemplate
