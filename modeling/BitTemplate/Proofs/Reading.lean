import BitTemplate.Proofs.Compiled
import BitTemplate.Proofs.Forms
import BitTemplate.Proofs.Lockstep
import BitTemplate.Proofs.RestWidth

/-!
A decoder that follows an encoder. On the bytes of a finished run the decoder takes every step that the encoder took:
the wire bears out all that was written, and the checks that were put off say what the decoder finds. A field is read
from the bits that it was written in, so the decoder's value is the one that these bits read as. How this value is related
to the one that was written is left open here, and with it whether comparisons of values come out as they did.
-/

namespace BitTemplate

namespace Encoder

/-- What an instruction writes for the next value is read as a value that is related to it. -/
def Legible (R : Value → Value → Prop) (directive : Directive) (s : Encoder) : Prop :=
  ∀ v rest encoding bits, s.input = v :: rest → directive.Writes s.engine.cursor v encoding bits →
    ∃ w, Field.decode encoding bits = .ok w ∧ R w v

/-- A field that ran to the end of the data has ended within what is written. -/
def Early (s : Encoder) : Prop :=
  ∀ p, s.restEnd = some p → p.1 ≤ s.engine.storage.bits.length

theorem Extends.early {s s' : Encoder} {inWord : Prop} (h : Extends inWord s s') (early : s.Early) : s'.Early := by
  intro p hp
  rcases h.restNew p hp with old | new
  · exact Nat.le_trans (early p old) h.bits.length_le
  · exact new.2

theorem Early.marked {s : Encoder} (early : s.Early) (atEnd : s.AtEnd) : s.marked.Early := by
  have after : Extends True s s.marked := .marked atEnd
  exact after.early early

theorem early_ofValues {values : List Value} {limits : Limits} {labels : List (String × Value)} :
    (ofValues values limits labels).Early :=
  fun p hp => by cases hp

/-- After a field that runs to the end of the data and ends on a byte boundary nothing more is written. -/
theorem Sealed.length_of_rest {s final : Encoder} {wire : Bits} {inWord : Prop} (sealed : final.Sealed wire)
    (rest : Extends inWord s.marked final) (atEnd : s.AtEnd) (early : s.Early) (even : s.engine.cursor % 8 = 0) :
    wire.length = s.engine.storage.bits.length := by
  have ended : ∃ p, s.marked.restEnd = some p := by
    simp only [Encoder.marked]
    cases h : s.restEnd with
    | some p => exact ⟨p, h⟩
    | none => exact ⟨_, rfl⟩
  obtain ⟨p, ended⟩ := ended
  have low := early.marked atEnd p ended
  have high := sealed.rest p (rest.restKept p ended)
  have grown := rest.bits.length_le
  simp only [AtEnd] at atEnd
  rw [engine_marked] at low grown
  have same : final.engine.storage.bits.length = s.engine.storage.bits.length := by omega
  rw [sealed.length, Bits.length_padToByte, same, Bits.padding_eq_zero.mpr]
  · rfl
  · rw [← atEnd]
    exact even

/-- A check that was put off holds at its point if it holds at the end. -/
theorem Sealed.verify {s final : Encoder} {wire : Bits} {p : Pending} {view : Storage} {inWord : Prop}
    (sealed : final.Sealed wire) (rest : Extends inWord s final) (put_off : p ∈ s.pending) {older : Log}
    (log : ∃ newer : Log, s.engine.log = newer ++ older) (logged : older.length = p.logged)
    (replay : older.replay? wire = some view.bits) : p.verify view older = .ok () := by
  obtain ⟨more, pending, _⟩ := rest.pending
  obtain ⟨newest, grown, _⟩ := rest.log
  obtain ⟨newer, log⟩ := log
  have holds := sealed.checked p (by rw [pending]; exact List.mem_append_left more put_off)
  rw [grown, log, ← List.append_assoc] at holds
  exact holds.verify logged replay

/-- A jump whose gap was written lands behind it in the data of the wire. -/
theorem Sealed.lands {s s' final : Encoder} {wire : Bits} {inWord : Prop} (sealed : final.Sealed wire) {origin : JumpOrigin}
    {count : Nat} {u : Unit} (done : jump origin count s = .ok u s') (rest : Extends inWord s' final) :
    ∃ v left gap, s.input = v :: left ∧ Field.encode (gapEncoding false v) v none = .ok gap
      ∧ s' = { s with
          input := left
          engine := afterGap s.engine v gap
          pending := s.pending ++
            [⟨s.engine.log.length, s.engine.cursor, gap.length, .jump origin count, s.engine.context⟩] }
      ∧ Engine.jumpTarget s.engine.log origin count s.engine.cursor wire.length = .ok (s.engine.cursor + gap.length) := by
  obtain ⟨width, s₁, written, rfl⟩ := jump_ok.mp done
  obtain ⟨v, left, gap, input, encoded, rfl, rfl⟩ := writeGap_ok.mp written
  refine ⟨v, left, gap, input, encoded, rfl, ?_⟩
  -- the log of that moment takes the wire to some data of the same length
  have replay := sealed.replay
  obtain ⟨newer, log, _⟩ := rest.log
  rw [log, Log.replay?_append, Option.bind_eq_some_iff] at replay
  obtain ⟨view, earlier, _⟩ := replay
  have earlier : s.engine.log.replay? wire = some (Storage.ofBits view).bits := earlier
  let pending : Pending :=
    ⟨s.engine.log.length, s.engine.cursor, gap.length, .jump origin count, s.engine.context⟩
  have verified : pending.verify (.ofBits view) s.engine.log = .ok () :=
    sealed.verify rest (List.mem_append_right _ (List.mem_singleton_self _)) ⟨[], rfl⟩ rfl earlier
  simp only [pending, Pending.verify, except_bind_ok] at verified
  obtain ⟨target, lands, verified⟩ := verified
  rw [Storage.length, Log.length_of_replay? earlier] at lands
  split at verified
  · rename_i expected
    rwa [expected] at lands
  · cases verified

end Encoder

namespace Lockstep

variable {R : Value → Value → Prop} {wire : Bits} {directive : Directive} {d : Engine} {s s' final : Encoder} {u : Unit}

/-- The decoder takes the step too and stays beside the encoder. -/
def Retraces (R : Value → Value → Prop) (wire : Bits) (directive : Directive) (d : Engine) (s' : Encoder) : Prop :=
  ∃ d', Decoder.execute directive d = .ok () d' ∧ Lockstep R wire d' s'.engine

/-- A field that the encoder wrote is read. -/
theorem retrace_field (h : Lockstep R wire d s.engine) {v : Value} {left : List Value} {encoding : Encoding}
    {bits : Bits} (legible : Encoder.Legible R directive s) (input : s.input = v :: left)
    (writes : directive.Writes s.engine.cursor v encoding bits)
    (done : Encoder.writeField encoding v bits { s with input := left } = .ok u s') (replays : s'.engine.Replays wire) :
    ∃ d', Decoder.produceField encoding bits.length d = .ok () d' ∧ Lockstep R wire d' s'.engine := by
  obtain ⟨w, decoded, related⟩ := legible v left encoding bits input writes
  have here : Lockstep R wire d ({ s with input := left } : Encoder).engine := h
  exact here.produceField done replays decoded related

/-- A field that runs to the end of the data was written in the bits that the decoder has left. -/
theorem remaining_rest (h : Lockstep R wire d s.engine) {v : Value} {left : List Value} {encoding : Encoding}
    {bits : Bits} {s₁ : Encoder} (input : s.input = v :: left)
    (done : Encoder.writeField encoding v bits { s with input := left } = .ok u s₁)
    (even : (s.engine.cursor + bits.length) % 8 = 0) (early : s.Early) {inWord : Prop}
    (rest : Encoder.Extends inWord s₁.marked final) (sealed : final.Sealed wire) : d.storage.remaining = bits.length := by
  have first : s.Extends inWord s₁ := .writeField h.atEnd input done
  have storage : s₁.engine.storage = s.engine.storage.write bits := by
    obtain ⟨_, written, rfl⟩ := Encoder.writeField_ok.mp done
    obtain ⟨_, _, rfl⟩ := Encoder.writeBits_ok.mp written
    rfl
  -- nothing follows the field and no padding either, so the wire ends with it
  have ended := sealed.length_of_rest rest first.atEnd (first.early early)
    (by rw [Engine.cursor, storage, Storage.cursor_write]; exact even)
  rw [storage, Storage.write_at_end h.atEnd, List.length_append, h.length_written] at ended
  have length := h.length
  simp only [Storage.remaining, Storage.length]
  omega

/-- A field that runs to the end of the data is read to the end. -/
theorem retrace_rest (h : Lockstep R wire d s.engine) {v : Value} {left : List Value} {encoding : Encoding}
    {bits : Bits} {s₁ : Encoder} (legible : Encoder.Legible R directive s) (input : s.input = v :: left)
    (writes : directive.Writes s.engine.cursor v encoding bits)
    (done : Encoder.writeField encoding v bits { s with input := left } = .ok u s₁)
    (even : (s.engine.cursor + bits.length) % 8 = 0) (early : s.Early) (rest : Encoder.Extends True s₁.marked final)
    (sealed : final.Sealed wire) :
    ∃ d', Decoder.produceField encoding d.storage.remaining d = .ok () d' ∧ Lockstep R wire d' s₁.marked.engine := by
  have first : s.Extends True s₁ := .writeField h.atEnd input done
  have after := (Encoder.Extends.marked first.atEnd).trans rest
  rw [h.remaining_rest input done even early rest sealed, Encoder.engine_marked]
  exact h.retrace_field legible input writes done (after.replays sealed)

/-- Bits that the encoder skips are zeros for the decoder. -/
theorem zeros_ahead (h : Lockstep R wire d s.engine) {width : Nat}
    (done : Encoder.execute (.next width) s = .ok u s') (replays : s'.engine.Replays wire) :
    d.cursor + width ≤ d.storage.bits.length
      ∧ (d.storage.bits.drop d.cursor).take width = List.replicate width false := by
  obtain ⟨_, rfl⟩ := Encoder.execute_next_ok.mp done
  have log : s.engine.log = Log.entries s.engine.walk.flat [] ++ s.engine.log := rfl
  obtain ⟨after, unchanged, _, enough, slice⟩ := h.ahead replays log (Storage.write_at_end h.atEnd _)
  have kept : after.bits = d.storage.bits := (Option.some.inj unchanged).symm
  rw [kept] at slice
  rw [List.length_replicate] at slice enough
  exact ⟨enough, slice⟩

theorem retrace_next (h : Lockstep R wire d s.engine) {width : Nat}
    (done : Encoder.execute (.next width) s = .ok u s') (replays : s'.engine.Replays wire) :
    Retraces R wire (.next width) d s' := by
  obtain ⟨enough, zeros⟩ := h.zeros_ahead done replays
  obtain ⟨_, rfl⟩ := Encoder.execute_next_ok.mp done
  let after : Storage := ⟨d.storage.bits, d.cursor + width, enough⟩
  have length : (List.replicate width false).length = width := List.length_replicate
  have unchanged : Transform.onAll? [] d.storage.bits = some after.bits := Transform.onAll?_nil _
  have next := h.advance unchanged (by rw [length]; rfl) (by rw [length]; exact zeros) (Transform.Keeps.nil _)
  exact ⟨_, Decoder.execute_next_ok.mpr ⟨after, enough, rfl, rfl, rfl⟩, next⟩

theorem retrace_constant (h : Lockstep R wire d s.engine) {bit : Bool} {width : Nat}
    (done : Encoder.writeConstant bit width s = .ok u s') (replays : s'.engine.Replays wire) :
    Retraces R wire (.constant bit width) d s' := by
  obtain ⟨_, written⟩ := Encoder.writeConstant_ok.mp done
  obtain ⟨d', read, next⟩ := h.readBits written replays
  rw [List.length_replicate] at read
  have all : (List.replicate width bit).all (· == bit) = true := by simp [List.all_replicate]
  exact ⟨d', Decoder.readConstant_ok.mpr ⟨_, read, all⟩, next⟩

/-- Transforms that the encoder recorded can be applied. -/
theorem retrace_transforms (h : Lockstep R wire d s.engine) {ts : List Transform}
    (keeps : Transform.Keeps d.cursor ts) (replays : (ts.foldl Engine.record s.engine).Replays wire) :
    ∃ d', Decoder.transformAll ts d = .ok () d' ∧ Lockstep R wire d' (ts.foldl Engine.record s.engine) := by
  have log : (ts.foldl Engine.record s.engine).log = Log.entries s.engine.walk.flat ts ++ s.engine.log := by
    rw [Engine.foldl_record]
    rfl
  have bits : (ts.foldl Engine.record s.engine).storage.bits = s.engine.storage.bits ++ [] := by
    rw [Engine.foldl_record, List.append_nil]
  obtain ⟨after, applied, moved, _⟩ := h.ahead replays log bits
  have applied := Storage.applyAll_ok.mpr ⟨applied, moved.symm⟩
  exact ⟨_, Decoder.transformAll_ok.mpr ⟨after, applied, rfl⟩, h.recordAll applied keeps⟩

theorem retrace_jump (h : Lockstep R wire d s.engine) {origin : JumpOrigin} {bits : Nat}
    (legible : Encoder.Legible R (.jump origin bits) s) (done : Encoder.jump origin bits s = .ok u s')
    (rest : Encoder.Extends True s' final) (sealed : final.Sealed wire) : Retraces R wire (.jump origin bits) d s' := by
  obtain ⟨v, left, gap, input, encoded, rfl, lands⟩ := sealed.lands done rest
  have cursor : s.engine.cursor = d.cursor := h.cursor.symm
  obtain ⟨w, decoded, related⟩ := legible v left _ gap input ⟨rfl, encoded⟩
  obtain ⟨d', passed, next⟩ := h.produceGap (rest.replays sealed) decoded related
  rw [cursor, ← h.agree.log, ← h.length] at lands
  rw [cursor] at passed
  refine ⟨d', Decoder.jump_ok.mpr ⟨_, lands, ?_⟩, next⟩
  rwa [Nat.add_sub_cancel_left]

theorem retrace_marker (h : Lockstep R wire d s.engine) {last : Bool} {bytes : List UInt8}
    (legible : Encoder.Legible R (.marker last bytes) s) (done : Encoder.marker last bytes s = .ok u s')
    (rest : Encoder.Extends True s' final) (sealed : final.Sealed wire) : Retraces R wire (.marker last bytes) d s' := by
  obtain ⟨needle, width, s₁, even, disguised, gap_written, closed⟩ := Encoder.marker_ok.mp done
  obtain ⟨v, left, gap, input, encoded, rfl, rfl⟩ := Encoder.writeGap_ok.mp gap_written
  rw [Encoder.gapEncoding_true] at encoded
  have cursor : s.engine.cursor = d.cursor := h.cursor.symm
  let pending : Pending := ⟨(Encoder.afterGap s.engine v gap).log.length, s.engine.cursor, gap.length,
    .marker needle bytes last, (Encoder.afterGap s.engine v gap).context⟩
  let s₂ : Encoder :=
    { s with input := left, engine := Encoder.afterGap s.engine v gap, pending := s.pending ++ [pending] }
  have gap_extends : s.Extends True { s with input := left, engine := Encoder.afterGap s.engine v gap } :=
    .writeGap h.atEnd gap_written
  have atEnd : s₂.AtEnd := gap_extends.atEnd
  have rest₂ : s₂.Extends True final := (Encoder.Extends.writeBits atEnd closed).trans rest
  obtain ⟨w, decoded, related⟩ := legible v left .bytes gap input ⟨rfl, encoded⟩
  obtain ⟨d₁, passed, next⟩ := h.produceGap (rest₂.replays sealed) decoded related
  have verified : pending.verify d.storage s.engine.log = .ok () :=
    sealed.verify rest₂ (List.mem_append_right _ (List.mem_singleton_self _)) ⟨[], rfl⟩ rfl (h.agree.log ▸ h.replay)
  have found : d.storage.find? needle d.cursor last = some (d.cursor + gap.length) := by
    simp only [Pending.verify, pending, cursor] at verified
    split at verified
    · assumption
    · cases verified
  have beside : Lockstep R wire d₁ s₂.engine := next
  obtain ⟨d', read, next'⟩ := beside.readBits closed (rest.replays sealed)
  have content : Field.decode .bytes (Bits.ofBytes bytes) = .ok (.bytes bytes) := Field.decode_eq_bytes.mpr rfl
  rw [Bits.length_ofBytes] at read
  refine ⟨d', Decoder.marker_ok.mpr ⟨needle, _, d₁, ?_, ?_, found, passed, Decoder.readField_ok.mpr ⟨_, read, content⟩⟩,
    next'⟩
  · rwa [← cursor]
  · rwa [h.agree.flags]

theorem retrace_control (h : Lockstep R wire d s.engine) (congruence : Value.Congruence R) {action : Control}
    (passes : d.Passes action) (done : Encoder.execute (.control action) s = .ok u s') :
    Retraces R wire (.control action) d s' := by
  obtain ⟨e, acted, rfl⟩ := Encoder.execute_control_ok.mp done
  obtain ⟨d', followed, storage, agree⟩ := h.agree.control congruence passes acted
  have same := Engine.control_kept followed
  have bits := (Engine.control_kept acted).storage
  exact ⟨d', Decoder.execute_control_ok.mpr followed, h.of_agree agree storage same.log (by rw [bits])⟩

/-- A decoder of what an encoder wrote can follow each of its steps. -/
theorem retrace (h : Lockstep R wire d s.engine) (congruence : Value.Congruence R)
    (formed : directive.WellFormed) (legible : Encoder.Legible R directive s)
    (passes : ∀ action, directive = .control action → d.Passes action)
    (done : Encoder.execute directive s = .ok u s') (early : s.Early) (sum : directive.InWord d.cursor)
    (rest : Encoder.Extends True s' final) (sealed : final.Sealed wire) : Retraces R wire directive d s' := by
  have replays := rest.replays sealed
  cases directive with
  | value encoding width =>
    cases width with
    | bits width =>
      obtain ⟨v, left, bits, input, _, encoded, written⟩ := Encoder.execute_value_ok.mp done
      obtain ⟨d', read, result⟩ := h.retrace_field legible input ⟨rfl, encoded⟩ written replays
      rw [Field.length_of_encode encoded] at read
      exact ⟨d', read, result⟩
    | rest =>
      obtain ⟨v, left, bits, s₁, input, widened, written, rfl⟩ := Encoder.execute_rest_ok.mp done
      obtain ⟨d', read, result⟩ := h.retrace_rest legible input ⟨rfl, widened⟩ written (Encoder.restBits_aligned widened)
        early rest sealed
      exact ⟨d', Decoder.execute_rest_ok.mpr read, result⟩
  | next width => exact h.retrace_next done replays
  | constant bit width => exact h.retrace_constant done replays
  | mod change width =>
    obtain ⟨ts, asked, rfl⟩ := Encoder.execute_mod_ok.mp done
    have cursor : s.engine.cursor = d.cursor := h.cursor.symm
    rw [cursor] at asked
    obtain ⟨d', applied, next⟩ := h.retrace_transforms (Transform.Keeps.atCursor asked) replays
    exact ⟨d', Decoder.execute_mod_ok.mpr ⟨ts, asked, applied⟩, next⟩
  | modOff change offset width =>
    obtain rfl := Encoder.execute_modOff_ok.mp done
    have cursor : s.engine.cursor = d.cursor := h.cursor.symm
    simp only [cursor] at replays ⊢
    obtain ⟨d', applied, next⟩ := h.retrace_transforms (Transform.Keeps.atOffset sum) replays
    exact ⟨d', Decoder.execute_modOff_ok.mpr applied, next⟩
  | takeAll encoding =>
    obtain ⟨v, left, bits, s₁, even, input, encoded, written, rfl⟩ := Encoder.execute_takeAll_ok.mp done
    have whole := Field.length_of_encodeBytes formed encoded
    obtain ⟨d', read, result⟩ := h.retrace_rest legible input ⟨rfl, encoded⟩ written (by omega) early rest sealed
    have cursor : s.engine.cursor = d.cursor := h.cursor.symm
    exact ⟨d', Decoder.execute_takeAll_ok.mpr ⟨by rwa [← cursor], read⟩, result⟩
  | jump origin bits => exact h.retrace_jump legible done rest sealed
  | marker last bytes => exact h.retrace_marker legible done rest sealed
  | control action => exact h.retrace_control congruence (passes action rfl) done

end Lockstep

/-! ## Runs -/

namespace Lockstep

variable {R : Value → Value → Prop} {wire : Bits} {d : Engine} {s final : Encoder}

/-- What a decoder passes on the way beside an encoder whose run came to an end. -/
structure Beside (R : Value → Value → Prop) (wire : Bits) (final : Encoder) (directive : Directive) (d : Engine)
    (s s' : Encoder) : Prop where
  lockstep : Lockstep R wire d s.engine
  executed : Encoder.execute directive s = .ok () s'
  early : s.Early
  sum : directive.InWord d.cursor
  rest : s'.Extends True final

/-- One step of the decoder, or the mismatch on which it stops. -/
theorem retrace_step {index : Nat} {instruction : Instruction} {s' : Encoder} (h : Lockstep R wire d s.engine)
    (congruence : Value.Congruence R) (formed : instruction.directive.WellFormed)
    (legible : Encoder.Legible R instruction.directive { s with engine := s.engine.arrive index instruction })
    (early : s.Early) (sum : instruction.directive.InWord s.engine.cursor)
    (done : Encoder.step index instruction s = .ok () s') (rest : s'.Extends True final) (sealed : final.Sealed wire) :
    (∃ d', Decoder.step index instruction d = .ok () d' ∧ Lockstep R wire d' s'.engine
      ∧ Beside R wire final instruction.directive (d.arrive index instruction)
        { s with engine := s.engine.arrive index instruction } s')
    ∨ ∃ fault, Decoder.step index instruction d = .error fault (d.arrive index instruction)
      ∧ ∀ others, Engine.StopsBeside (Engine.Differ R) index (instruction :: others)
        ((d.arrive index instruction).error fault) (d.arrive index instruction) s := by
  obtain ⟨allowed, executed⟩ := Encoder.step_ok.mp done
  have allowed := (h.checkSteps index instruction).trans allowed
  have here : Lockstep R wire (d.arrive index instruction)
      ({ s with engine := s.engine.arrive index instruction } : Encoder).engine := h.arrive index instruction
  have sum : instruction.directive.InWord (d.arrive index instruction).cursor := by
    rw [show (d.arrive index instruction).cursor = s.engine.cursor from h.cursor]
    exact sum
  -- comparisons are all that the two values of a step can decide
  by_cases passes : ∀ action, instruction.directive = .control action → (d.arrive index instruction).Passes action
  · obtain ⟨d', followed, next⟩ := here.retrace congruence formed legible passes executed early sum rest sealed
    exact .inl ⟨d', Decoder.step_ok.mpr ⟨allowed, followed⟩, next, here, executed, early, sum, rest⟩
  · obtain ⟨action, fault, control, stopped, parts⟩ := here.agree.exists_mismatch executed passes
    refine .inr ⟨fault, Decoder.step_error allowed ?_, parts⟩
    rw [control]
    exact Decoder.execute_control_error.mpr stopped

/-- A decoder of what an encoder wrote gets to the end, unless it stops at a comparison that came out true for the
encoder. -/
theorem retrace_run {instructions : List Instruction} {index : Nat} (h : Lockstep R wire d s.engine)
    (congruence : Value.Congruence R) (formed : ∀ i ∈ instructions, i.directive.WellFormed)
    (legible : Encoder.Along (Encoder.Legible R) index instructions s) (early : s.Early)
    (sums : Encoder.InWord index instructions s) (done : Encoder.runFrom index instructions s = (none, final))
    (sealed : final.Sealed wire) :
    (∃ d', Decoder.runFrom index instructions d = (none, d') ∧ Lockstep R wire d' final.engine
      ∧ Decoder.Along (fun directive d => ∃ s s', Beside R wire final directive d s s') index instructions d)
    ∨ ∃ error d', Decoder.runFrom index instructions d = (some error, d')
      ∧ d'.StopsBeside (Engine.Differ R) index instructions error s := by
  induction instructions generalizing index d s with
  | nil =>
    cases done
    exact .inl ⟨_, rfl, h.of_agree h.agree.rest rfl rfl rfl, trivial⟩
  | cons instruction others ih =>
    obtain ⟨s₁, first, later⟩ := Encoder.runFrom_cons_ok.mp done
    have before := Encoder.Extends.step h.atEnd first
    have after : s₁.Extends True final := (Encoder.Extends.runFrom before.atEnd later).mono fun _ => sums.2 s₁ first
    rcases h.retrace_step congruence (formed instruction (by simp)) legible.1 early sums.1 first after sealed with
      ⟨d₁, taken, next, beside⟩ | ⟨fault, stopped, parts⟩
    · rcases ih next (fun i hi => formed i (by simp [hi])) (legible.2 s₁ first) (before.early early) (sums.2 s₁ first)
        later with ⟨d', run, last, along⟩ | ⟨error, d', run, parts⟩
      · refine .inl ⟨d', Decoder.runFrom_cons_ok.mpr ⟨d₁, taken, run⟩, last, ⟨_, _, beside⟩, fun d₂ again => ?_⟩
        rw [taken] at again
        cases again
        exact along
      · refine .inr ⟨error, d', ?_, parts.later first⟩
        rw [Decoder.runFrom, taken]
        exact run
    · refine .inr ⟨_, _, ?_, parts others⟩
      rw [Decoder.runFrom, stopped]

end Lockstep

end BitTemplate
