import Mathlib
import BitTemplate.Proofs.ByteRoundTrip
import BitTemplate.Proofs.Forms
import BitTemplate.Proofs.Reading

/-!
Encoders take values in more forms than decoders return them, so bytes need not decode to the values that they were
encoded from. They do decode, unless a comparison tells the two forms of a value apart, and what they decode to is encoded
as the same bytes, unless hexadecimal digits run to the end of the data from within a digit. The forms of an integer are
never told apart.
-/

namespace BitTemplate

/-- Directives that are not fields of floating-point numbers. -/
def Directive.Exact : Directive → Prop
  | .value encoding _ => encoding ≠ .float
  | _ => True

/-- Hexadecimal digits that run to the end of the data start at a whole digit. -/
def Decoder.WholeDigits (directive : Directive) (e : Engine) : Prop :=
  match directive with
  | .value encoding .rest => encoding = .lowerHex ∨ encoding = .upperHex → e.cursor % 4 = 0
  | _ => True

/-- Whether a value is what can be read from the bits that an instruction of a program writes for another one. -/
def Program.FormOf (program : Program) (form v : Value) : Prop :=
  ∃ i ∈ program.instructions, ∃ position encoding bits, i.directive.Writes position v encoding bits
    ∧ Field.decode encoding bits = .ok form

/-! ## Forms of values -/

namespace Field

variable {encoding : Encoding} {v form : Value} {width : Option Nat} {bits : Bits}

/-- Integers are read as the same integers, from all fields that they can be written in. -/
theorem integer_of_decode (exact : encoding ≠ .float) (encoded : encode encoding v width = .ok bits)
    (decoded : decode encoding bits = .ok form) {n : Int} (number : v.integer? = some n) : form.integer? = some n := by
  have same (integer : encoding = .uint ∨ encoding = .sint) : form.integer? = some n := by
    obtain ⟨back, m, read, number', own⟩ := integer_of_encode integer encoded
    cases number.symm.trans number'
    cases decoded.symm.trans read
    exact own
  cases encoding with
  | uint => exact same (.inl rfl)
  | sint => exact same (.inr rfl)
  | float => exact absurd rfl exact
  | _ =>
    cases v with
    | uint m => cases encoded
    | sint m => cases encoded
    | _ => cases number

end Field

namespace Directive

variable {directive : Directive} {position : Nat} {v form : Value} {encoding : Encoding} {bits : Bits}

/-- What is written for a value are bits of it in the encoding in which they are read, or a gap. -/
theorem Writes.encoded (writes : directive.Writes position v encoding bits) :
    (∃ width, Field.encode encoding v width = .ok bits)
      ∨ encoding = Decoder.gapEncoding position bits.length
        ∧ Field.encode (Encoder.gapEncoding false v) v none = .ok bits := by
  cases directive with
  | value own width =>
    cases width with
    | bits width =>
      obtain ⟨rfl, encoded⟩ := writes
      exact .inl ⟨_, encoded⟩
    | rest =>
      obtain ⟨rfl, widened⟩ := writes
      obtain ⟨own_bits, natural, ⟨_, rfl⟩ | ⟨_, encoded, _⟩⟩ := Encoder.restBits_ok.mp widened
      · exact .inl ⟨_, natural⟩
      · exact .inl ⟨_, encoded⟩
  | takeAll own =>
    obtain ⟨rfl, encoded⟩ := writes
    exact .inl ⟨_, encoded⟩
  | jump origin count => exact .inr writes
  | marker last bytes =>
    obtain ⟨rfl, encoded⟩ := writes
    exact .inl ⟨_, encoded⟩
  | _ => exact writes.elim

theorem Exact.ne_float (exact : directive.Exact) (formed : directive.WellFormed)
    (writes : directive.Writes position v encoding bits) : encoding ≠ .float := by
  cases directive with
  | value own width =>
    cases width <;> exact writes.1 ▸ exact
  | takeAll own =>
    obtain ⟨rfl, _⟩ := writes
    rintro rfl
    cases formed
  | jump origin count =>
    rw [writes.1, Decoder.gapEncoding]
    split <;> decide
  | marker last bytes =>
    rw [writes.1]
    decide
  | _ => exact writes.elim

/-- Whatever an instruction writes for a value can be read as some value. -/
theorem Exact.exists_decode (exact : directive.Exact) (formed : directive.WellFormed)
    (writes : directive.Writes position v encoding bits) : ∃ form, Field.decode encoding bits = .ok form := by
  rcases writes.encoded with ⟨width, encoded⟩ | ⟨rfl, _⟩
  · exact Field.exists_decode (exact.ne_float formed writes) encoded
  · exact (Decoder.exists_holdsGap _ bits).imp fun _ => Decoder.decode_gap_ok.mpr

/-- Whatever an instruction writes for an integer is read as this integer. -/
theorem Exact.integer (exact : directive.Exact) (formed : directive.WellFormed)
    (writes : directive.Writes position v encoding bits) (decoded : Field.decode encoding bits = .ok form) {n : Int}
    (number : v.integer? = some n) : form.integer? = some n := by
  rcases writes.encoded with ⟨width, encoded⟩ | ⟨_, encoded⟩
  · exact Field.integer_of_decode (exact.ne_float formed writes) encoded decoded number
  · cases v with
    | uint m => cases encoded
    | sint m => cases encoded
    | _ => cases number

end Directive

/-- A program reads all that it writes for scalars, in some form. -/
theorem Program.legible {program : Program} (exact : ∀ i ∈ program.instructions, i.directive.Exact)
    (formed : ∀ i ∈ program.instructions, i.directive.WellFormed) (values : List Value) (limits : Limits)
    (labels : List (String × Value)) :
    Encoder.Along (Encoder.Legible (Value.Alike program.FormOf)) 0 program.instructions
      (Encoder.ofValues values limits labels) := by
  have scalars : ∀ v ∈ (Encoder.ofValues values limits labels).input, v.isList = false :=
    fun _ => Shape.isList_of_mem_scalarsOf values
  refine (Encoder.along_scalars Encoder.atEnd_ofValues scalars).mono fun i hi s scalars v rest encoding bits input writes => ?_
  obtain ⟨form, decoded⟩ := (exact i hi).exists_decode (formed i hi) writes
  exact ⟨form, decoded, .scalar (Field.isList_of_decode decoded) (scalars v (by simp [input]))
    ⟨i, hi, _, encoding, bits, writes, decoded⟩⟩

namespace Lockstep

variable {R : Value → Value → Prop} {wire : Bits} {d d' : Engine} {s final : Encoder} {maxBits : Nat}

/-! ## What was read can be written -/

/-- What a decoder reads beside an encoder is written again as it was. -/
theorem Beside.rewritable {directive : Directive} {s' : Encoder} (h : Beside R wire final directive d s s')
    (sealed : final.Sealed wire) (limit : final.engine.limits.maxBits = maxBits) (exact : directive.Exact)
    (formed : directive.WellFormed) (digits : Decoder.WholeDigits directive d) : Decoder.Rewritable maxBits directive d := by
  obtain ⟨beside, executed, early, _, rest⟩ := h
  have limits := (rest.limits.trans (Encoder.Extends.execute beside.atEnd executed).limits).symm
  have written : s.engine.storage.length = d.cursor := beside.length_written
  have cursor : s.engine.cursor = d.cursor := beside.cursor.symm
  cases directive with
  | value encoding width =>
    cases width with
    | bits width =>
      obtain ⟨_, _, _, _, room, _⟩ := Encoder.execute_value_ok.mp executed
      refine ⟨exact, ?_⟩
      rwa [written, limits, limit] at room
    | rest =>
      obtain ⟨v, left, bits, s₁, input, widened, field, rfl⟩ := Encoder.execute_rest_ok.mp executed
      have even := Encoder.restBits_aligned widened
      have remaining := beside.remaining_rest input field even early rest sealed
      have after : s.Extends True s₁ := .writeField beside.atEnd input field
      have replays := ((Encoder.Extends.marked after.atEnd).trans rest).replays sealed
      -- the decoder takes the bits that the encoder wrote, whatever value they were written for
      obtain ⟨s₂, put, rfl⟩ := Encoder.writeField_ok.mp field
      have here : Lockstep R wire d ({ s with input := left } : Encoder).engine := beside
      obtain ⟨_, read, _⟩ := here.readBits put replays
      intro bits' w e' again decoded
      rw [remaining, read] at again
      cases again
      rw [cursor] at widened
      exact Encoder.restBits_again exact widened decoded digits
  | takeAll encoding => exact formed
  | next width =>
    obtain ⟨room, _⟩ := Encoder.execute_next_ok.mp executed
    refine ⟨(beside.zeros_ahead executed (rest.replays sealed)).2, ?_⟩
    rwa [written, limits, limit] at room
  | constant bit width =>
    obtain ⟨room, _⟩ := Encoder.writeConstant_ok.mp executed
    rwa [written, limits, limit] at room
  | _ => trivial

theorem Beside.restorable {directive : Directive} {s' : Encoder} (h : Beside R wire final directive d s s')
    (sealed : final.Sealed wire) (limit : final.engine.limits.maxBits = maxBits) (exact : directive.Exact)
    (formed : directive.WellFormed) (digits : Decoder.WholeDigits directive d) :
    Decoder.Restorable maxBits directive d := by
  have rewritable := h.rewritable sealed limit exact formed digits
  exact ⟨rewritable.writable, rewritable.skipsZeros, h.sum⟩

/-- The data of a decoder beside a finished encoder is what was written, filled up to a whole byte. -/
theorem padToByte_take (h : Lockstep R wire d final.engine) (sealed : final.Sealed wire) :
    Bits.padToByte (d.storage.bits.take d.storage.cursor) = d.storage.bits := by
  have replay := sealed.replay
  rw [← h.agree.log, h.replay, Option.some.injEq] at replay
  rw [← h.written, replay]

/-! ## What was written again -/

/-- Digits that an encoder of the same values writes in all of the bits that are left start at a whole digit. -/
theorem wholeDigits {directive : Directive} {t t' : Encoder} {inWord : Prop} {left : List Value}
    (h : Lockstep Eq wire d t.engine) (early : t.Early) (read : Decoder.execute directive d = .ok () d')
    (wrote : Encoder.execute directive t = .ok () t') (rest : t'.Extends inWord final) (sealed : final.Sealed wire)
    (input : Supplies d d' t left) : Decoder.WholeDigits directive d := by
  cases directive with
  | value encoding width =>
    cases width with
    | bits width => trivial
    | rest =>
      intro hex
      obtain ⟨bits, v, d₁, taken, decoded, rfl⟩ := Decoder.produceField_ok.mp (Decoder.execute_rest_ok.mp read)
      obtain ⟨w, others, out, t₁, next, widened, field, rfl⟩ := Encoder.execute_rest_ok.mp wrote
      have first : t.input = v :: left := by
        refine input.next ?_
        rw [Engine.scalars_produce (Field.isList_of_decode decoded), Decoder.scalars_readBits taken]
      obtain ⟨rfl, rfl⟩ := List.cons.inj (next.symm.trans first)
      have even := Encoder.restBits_aligned widened
      have remaining := h.remaining_rest next field even early rest sealed
      have length := (Decoder.length_readBits taken).trans remaining
      rw [show t.engine.cursor = d.cursor from h.cursor.symm] at widened even
      have same := Encoder.restBits_unique (by rcases hex with rfl | rfl <;> decide) decoded widened length.symm
      exact (Encoder.restBits_hex_iff hex decoded (length ▸ even)).mp (same ▸ widened)
  | _ => trivial

/-- If an encoder of the values that a decoder reads writes the same data, then digits to the end start at whole digits. -/
theorem wholeDigits_run {instructions : List Instruction} {index : Nat} {t final' : Encoder} {left : List Value}
    (h : Lockstep Eq wire d t.engine) (kept : t.Supported wire) (early : t.Early)
    (restorable : Decoder.Along (fun directive d =>
      Decoder.WholeDigits directive d → Decoder.Restorable t.engine.limits.maxBits directive d) index instructions d)
    (read : Decoder.runFrom index instructions d = (none, d'))
    (wrote : Encoder.runFrom index instructions t = (none, final')) (sealed : final'.Sealed wire)
    (input : Supplies d d' t left) : Decoder.Along Decoder.WholeDigits index instructions d := by
  induction instructions generalizing index d t with
  | nil => trivial
  | cons instruction others ih =>
    obtain ⟨d₁, first, later⟩ := Decoder.runFrom_cons_ok.mp read
    obtain ⟨t₁, first', later'⟩ := Encoder.runFrom_cons_ok.mp wrote
    obtain ⟨_, executed⟩ := Decoder.step_ok.mp first
    obtain ⟨_, executed'⟩ := Encoder.step_ok.mp first'
    obtain ⟨more, scalars⟩ := (Decoder.Advances.runFrom later).scalars
    have before := Encoder.Extends.step h.atEnd first'
    let begun : Encoder := { t with engine := t.engine.arrive index instruction }
    have here : Lockstep Eq wire (d.arrive index instruction) begun.engine := h.arrive index instruction
    have supplies : Supplies (d.arrive index instruction) d₁ begun (more ++ left) := by
      show d₁.scalars ++ (more ++ left) = d.scalars ++ t.input
      rw [← input, ← scalars, List.append_assoc]
    have digits := here.wholeDigits early executed executed' (Encoder.Extends.runFrom before.atEnd later') sealed supplies
    -- so the encoder has written here what the decoder has passed, and the two go on side by side
    have supported : begun.Supported wire := ⟨kept.checked, kept.rest⟩
    obtain ⟨_, again, used, next, kept₁, limits⟩ := here.follow supported (restorable.1 digits) executed supplies
    cases executed'.symm.trans again
    refine ⟨digits, fun d₂ again => ?_⟩
    cases first.symm.trans again
    have after : Supplies d₁ d' t₁ left := by
      rw [Supplies, used, ← scalars, List.append_assoc]
    refine ih next kept₁ (before.early early) ?_ later later' after
    rw [limits]
    exact restorable.2 d₁ first

end Lockstep

/-! ## Whole runs -/

section

variable {text : String} {program : Program} {values : List Value} {bytes : List UInt8}
  {maxSteps readBits maxBits : Nat} {labels : List (String × Value)}

/-- The bytes that an encoder returns decode if all windows start where position and offset say, or their decoder stops
with a mismatch at a comparison that the encoder has passed: one of the scalars that are compared is not an integer, and
the decoder has read a form of it that does not stand for it. What the bytes decode to is encoded as the same bytes exactly
if no hexadecimal digits run to the end of the data from within a digit. -/
theorem reencode (compiled : Pattern.compile text = .ok program)
    (exact : ∀ i ∈ program.instructions, i.directive.Exact)
    (sums : Encoder.InWord 0 program.instructions (Encoder.ofValues values ⟨maxSteps, maxBits⟩ labels))
    (encoded : (Encoder.ofValues values ⟨maxSteps, maxBits⟩ labels).encode program = .ok bytes) :
    (∃ back, (Decoder.ofBytes bytes ⟨maxSteps, readBits⟩ false labels).decode program = .ok back
      ∧ ((Encoder.ofValues back ⟨maxSteps, maxBits⟩ labels).encode program = .ok bytes ↔
          Decoder.Along Decoder.WholeDigits 0 program.instructions
            (Decoder.ofBytes bytes ⟨maxSteps, readBits⟩ false labels).engine))
    ∨ ∃ error d, (Decoder.ofBytes bytes ⟨maxSteps, readBits⟩ false labels).run program = (some error, d)
      ∧ (Decoder.ofBytes bytes ⟨maxSteps, readBits⟩ false labels).decode program = .error error
      ∧ d.engine.StopsBeside (Engine.ToldApart fun form v => program.FormOf form v ∧ v.integer? = none) 0
        program.instructions error (Encoder.ofValues values ⟨maxSteps, maxBits⟩ labels) := by
  obtain ⟨s, run, _, closed, _, wire, sealed, rfl⟩ := Encoder.encode_ofValues_ok.mp encoded
  have formed := Pattern.wellFormed_of_compile compiled
  have start := @Lockstep.start_of_sealed _ (Value.congruence_alike program.FormOf) _ _ sealed values maxSteps readBits
    maxBits false labels
  rcases start.retrace_run (Value.congruence_alike _) formed (Program.legible exact formed ..)
    Encoder.early_ofValues sums run sealed with ⟨d, read, last, beside⟩ | ⟨error, d, failed, parts⟩
  · have root := last.root closed
    have limit : s.engine.limits.maxBits = maxBits := by
      rw [(Encoder.Extends.runFrom Encoder.atEnd_ofValues run).limits, Encoder.limits_ofValues]
    have restorable : Decoder.Along (fun directive d => Decoder.WholeDigits directive d →
        Decoder.Restorable maxBits directive d) 0 program.instructions
        (Decoder.ofBytes (Bits.toBytes wire) ⟨maxSteps, readBits⟩ false labels).engine :=
      beside.mono fun i hi d stands digits => by
        obtain ⟨_, _, stands⟩ := stands
        exact stands.restorable sealed limit (exact i hi) (formed i hi) digits
    refine .inl ⟨_, Decoder.decode_ofBytes_ok.mpr ⟨d, read, by simp, root⟩, fun again => ?_, fun digits => ?_⟩
    · obtain ⟨t, wrote, _, _, _, wire', sealed', same⟩ := Encoder.encode_ofValues_ok.mp again
      obtain rfl := sealed.wire_eq sealed' same
      have twin := @Lockstep.start_of_sealed _ Value.congruence_eq _ _ sealed' d.records.inner.reverse maxSteps readBits
        maxBits false labels
      refine twin.wholeDigits_run ⟨(fun p hp => by cases hp), (fun p hp => by cases hp)⟩ Encoder.early_ofValues ?_ read wrote
        sealed' (Encoder.supplies_ofValues (by rw [Decoder.flatten_root read root]))
      rw [Encoder.limits_ofValues]
      exact restorable
    · exact Encoder.encode_of_run read root (last.padToByte_take sealed)
        (restorable.combine (fun _ _ _ restorable digits => restorable digits) digits)
  · have stopped : (Decoder.ofBytes (Bits.toBytes wire) ⟨maxSteps, readBits⟩ false labels).run program
        = (some error, ⟨d, false⟩) := by
      rw [Decoder.run_ofBytes, failed]
    refine .inr ⟨error, ⟨d, false⟩, stopped, by rw [Decoder.decode, stopped], parts.imp fun action d e differ => ?_⟩
    refine differ.toldApart.imp fun form v reading differs => ⟨reading, ?_⟩
    -- an integer is read as itself, and so nothing could tell it apart
    by_contra integer
    obtain ⟨n, number⟩ := Option.ne_none_iff_exists'.mp integer
    obtain ⟨i, hi, _, _, _, writes, decoded⟩ := reading
    exact differs (Value.standsFor_of_integer ((exact i hi).integer (formed i hi) writes decoded number) number)

end

/-- A number and digits to the end, given as a number of the other kind and as text of an odd number of digits. -/
def lenientRecord : Program where
  instructions := [⟨"s8", ⟨0, 2⟩, .value .sint (.bits 8)⟩, ⟨"x$", ⟨3, 5⟩, .value .lowerHex .rest⟩]

theorem reencode_lenientRecord :
    (Encoder.ofValues [.uint 5, .text "0a1"] ⟨20, 24⟩ []).encode lenientRecord = .ok [5, 0, 0xa1]
      ∧ ∃ back, (Decoder.ofBytes [5, 0, 0xa1] ⟨20, 0⟩ false []).decode lenientRecord = .ok back
        ∧ (Encoder.ofValues back ⟨20, 24⟩ []).encode lenientRecord = .ok [5, 0, 0xa1] := by
  have compiled : Pattern.compile "s8 x$" = .ok lenientRecord := by cbv
  have exact : ∀ i ∈ lenientRecord.instructions, i.directive.Exact := by simp [lenientRecord, Directive.Exact]
  have encoded : (Encoder.ofValues [.uint 5, .text "0a1"] ⟨20, 24⟩ []).encode lenientRecord = .ok [5, 0, 0xa1] := by cbv
  have decoded : (Decoder.ofBytes [5, 0, 0xa1] ⟨20, 0⟩ false []).decode lenientRecord = .ok [.sint 5, .hex "00a1"] := by
    cbv
  have digits : Decoder.Along Decoder.WholeDigits 0 lenientRecord.instructions
      (Decoder.ofBytes [5, 0, 0xa1] ⟨20, 0⟩ false []).engine := by
    refine ⟨trivial, fun e done => ⟨fun _ => ?_, fun _ _ => trivial⟩⟩
    have moved : e.cursor = 8 := Decoder.cursor_produceField (Decoder.step_ok.mp done).2
    exact congrArg (· % 4) moved
  have sums : ∀ i ∈ lenientRecord.instructions, ∀ s : Encoder, i.directive.InWord s.engine.cursor := by
    simp [lenientRecord, Directive.InWord]
  rcases reencode compiled exact (.of_forall sums) encoded with
    ⟨back, read, again⟩ | ⟨_, _, _, failed, _⟩
  · exact ⟨encoded, back, read, again.mpr digits⟩
  · rw [decoded] at failed
    cases failed

/-- Digits that are compared with a text. -/
def comparedDigits : Program where
  instructions := [⟨"x8", ⟨0, 2⟩, .value .lowerHex (.bits 8)⟩, ⟨"=\"a\";", ⟨3, 8⟩, .control (.assertion (.str "a"))⟩]

/-- Digits up to the end of the data, after one bit. -/
def shiftedDigits : Program where
  instructions := [⟨"u1", ⟨0, 2⟩, .value .uint (.bits 1)⟩, ⟨"x$", ⟨3, 5⟩, .value .lowerHex .rest⟩]

/-- An encoder can return bytes that its pattern rejects, and bytes that decode to values with a longer encoding. -/
theorem not_always_reencoded :
    ((∃ text, Pattern.compile text = .ok comparedDigits)
      ∧ (∀ i ∈ comparedDigits.instructions, i.directive.Exact)
      ∧ (Encoder.ofValues [.text "a"] ⟨20, 24⟩ []).encode comparedDigits = .ok [0x0a]
      ∧ ¬ ∃ back, (Decoder.ofBytes [0x0a] ⟨20, 0⟩ false []).decode comparedDigits = .ok back)
    ∧ (∃ text, Pattern.compile text = .ok shiftedDigits)
      ∧ (∀ i ∈ shiftedDigits.instructions, i.directive.Exact)
      ∧ (Encoder.ofValues [.uint 0, .hex "abc"] ⟨20, 24⟩ []).encode shiftedDigits = .ok [0x0a, 0xbc]
      ∧ (Decoder.ofBytes [0x0a, 0xbc] ⟨20, 0⟩ false []).decode shiftedDigits = .ok [.uint 0, .hex "0abc"]
      ∧ (Encoder.ofValues [.uint 0, .hex "0abc"] ⟨20, 24⟩ []).encode shiftedDigits = .ok [0x00, 0x0a, 0xbc] := by
  refine ⟨⟨⟨"x8 =\"a\";", by cbv⟩, ?_, by cbv, ?_⟩, ⟨"u1 x$", by cbv⟩, ?_, by cbv, by cbv, by cbv⟩
  · simp [comparedDigits, Directive.Exact]
  · rintro ⟨back, decoded⟩
    have failed : ((Decoder.ofBytes [0x0a] ⟨20, 0⟩ false []).decode comparedDigits).toOption = none := by cbv
    rw [decoded] at failed
    cases failed
  · simp [shiftedDigits, Directive.Exact]

end BitTemplate
