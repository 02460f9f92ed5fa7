import Mathlib
import BitTemplate.Pattern.Compile
import BitTemplate.Proofs.Field
import BitTemplate.Proofs.Finish

/-!
The limit on the bits of an encoder. Fixed fields, skips and constants ask for room before they write, and fail if there
is none. Fields up to the end of the data, jumps and markers write what they are given without asking, so they are what a
run can pass the limit with: a run that succeeds keeps to the limit exactly if each of them leaves it so.
-/

namespace BitTemplate

namespace Encoder

variable {s s' final : Encoder} {directive : Directive} {instruction : Instruction} {width : Nat}

/-- Whether the bits written so far keep to the limit. -/
def Fits (s : Encoder) : Prop :=
  s.engine.storage.length ≤ s.engine.limits.maxBits

/-- A directive that writes without asking for room leaves the bits within the limit. -/
def KeepsLimit (directive : Directive) (s : Encoder) : Prop :=
  directive.reserved? = none → ∀ s', execute directive s = .ok () s' → s'.Fits

/-- A field has a value to write; nothing else needs one before it asks for room. -/
def Supplied (directive : Directive) (s : Encoder) : Prop :=
  match directive with
  | .value _ _ => s.input ≠ []
  | _ => True

/-! ## Steps that ask -/

theorem length_writeBits (h : s.AtEnd) {encoding : Encoding} {bits : Bits} {u : Unit}
    (done : writeBits encoding bits s = .ok u s') :
    s'.engine.storage.length = s.engine.storage.length + bits.length ∧ s'.engine.limits = s.engine.limits := by
  obtain ⟨ts, _, rfl⟩ := writeBits_ok.mp done
  rw [Engine.foldl_record]
  refine ⟨?_, rfl⟩
  show (s.engine.storage.write bits).bits.length = s.engine.storage.bits.length + bits.length
  rw [Storage.write_at_end h, List.length_append]

/-- A step that asked for room leaves the bits within the limit. -/
theorem fits_of_reserved (h : s.AtEnd) (reserved : directive.reserved? = some width)
    (done : execute directive s = .ok () s') : s'.Fits := by
  unfold Fits
  cases directive with
  | value encoding own =>
    cases own with
    | bits own =>
      obtain ⟨v, rest, bits, _, room, encoded, field⟩ := execute_value_ok.mp done
      obtain ⟨s₁, written, rfl⟩ := writeField_ok.mp field
      have here : ({ s with input := rest } : Encoder).AtEnd := h
      obtain ⟨length, limits⟩ := length_writeBits here written
      have exact := Field.length_of_encode encoded
      show s₁.engine.storage.length ≤ s₁.engine.limits.maxBits
      rw [length, limits, exact]
      exact room
    | rest => cases reserved
  | next own =>
    obtain ⟨room, rfl⟩ := execute_next_ok.mp done
    show (s.engine.storage.write (List.replicate own false)).bits.length ≤ s.engine.limits.maxBits
    rw [Storage.write_at_end h, List.length_append, List.length_replicate]
    exact room
  | constant bit own =>
    obtain ⟨room, written⟩ := writeConstant_ok.mp done
    obtain ⟨length, limits⟩ := length_writeBits h written
    rw [length, limits, List.length_replicate]
    exact room
  | _ => cases reserved

/-- A step that asks for more room than there is fails and leaves the engine as it was. -/
theorem execute_full (reserved : directive.reserved? = some width) (supplied : s.Supplied directive)
    (full : s.engine.limits.maxBits < s.engine.storage.length + width) :
    ∃ s', execute directive s = .error (.sizeLimit s.engine.limits.maxBits) s' ∧ s'.engine = s.engine := by
  have refused (t : Encoder) (same : t.engine = s.engine) :
      check (·.reserve width) t = .error (.sizeLimit s.engine.limits.maxBits) t := by
    simp only [check, same, Engine.reserve, if_pos full]
  cases directive with
  | value encoding own =>
    cases own with
    | bits own =>
      cases reserved
      obtain ⟨v, rest, input⟩ := List.exists_cons_of_ne_nil supplied
      let taken : Encoder := { s with input := rest }
      have first : nextInput s = .ok v taken := nextInput_ok.mpr ⟨rest, input, rfl⟩
      refine ⟨taken, ?_, rfl⟩
      rw [execute, step_bind_of_ok first, step_bind_of_error (refused taken rfl)]
    | rest => cases reserved
  | next own =>
    cases reserved
    exact ⟨s, by rw [execute, step_bind_of_error (refused s rfl)], rfl⟩
  | constant bit own =>
    cases reserved
    exact ⟨s, by rw [execute, writeConstant, step_bind_of_error (refused s rfl)], rfl⟩
  | _ => cases reserved

theorem step_full (index : Nat) (allowed : s.engine.steps < s.engine.limits.maxSteps)
    (reserved : instruction.directive.reserved? = some width) (supplied : s.Supplied instruction.directive)
    (full : s.engine.limits.maxBits < s.engine.storage.length + width) :
    ∃ s', step index instruction s = .error (.sizeLimit s.engine.limits.maxBits) s'
      ∧ s'.engine = s.engine.arrive index instruction := by
  let arrived : Encoder := { s with engine := s.engine.arrive index instruction }
  have supplied : arrived.Supplied instruction.directive := supplied
  obtain ⟨s', failed, engine⟩ := execute_full reserved supplied full
  have within : (s.engine.begin index instruction).checkSteps = .ok () := by
    rw [Engine.checkSteps, if_neg]
    show ¬ s.engine.limits.maxSteps < s.engine.steps + 1
    omega
  exact ⟨s', step_error within failed, engine⟩

/-! ## Runs -/

/-- One step ends within the limit exactly if it began there and did not leave it without asking. -/
theorem fits_step (h : s.AtEnd) {index : Nat} (done : step index instruction s = .ok () s') :
    s'.Fits ↔ s.Fits ∧ KeepsLimit instruction.directive { s with engine := s.engine.arrive index instruction } := by
  have after := Extends.step h done
  obtain ⟨_, executed⟩ := step_ok.mp done
  constructor
  · intro fits
    constructor
    · unfold Fits at fits ⊢
      rw [← after.limits]
      exact Nat.le_trans after.bits.length_le fits
    · intro _ s₁ again
      rw [executed] at again
      cases again
      exact fits
  · intro ⟨_, keeps⟩
    cases reserved : instruction.directive.reserved? with
    | none => exact keeps reserved s' executed
    | some width =>
      have here : ({ s with engine := s.engine.arrive index instruction } : Encoder).AtEnd := h
      exact fits_of_reserved here reserved executed

/-- A run ends within the limit exactly if none of its steps left it without asking. -/
theorem fits_run {instructions : List Instruction} {index : Nat} (h : s.AtEnd)
    (done : runFrom index instructions s = (none, final)) :
    final.Fits ↔ s.Fits ∧ Along KeepsLimit index instructions s := by
  induction instructions generalizing index s with
  | nil =>
    cases done
    show s.Fits ↔ s.Fits ∧ True
    rw [and_true]
  | cons instruction rest ih =>
    obtain ⟨s₁, first, later⟩ := runFrom_cons_ok.mp done
    rw [ih (Extends.step h first).atEnd later, fits_step h first, along_cons, first, and_assoc]

/-- A run that fails at an instruction after a part that succeeds. -/
theorem runFrom_append_error {front rest : List Instruction} {index : Nat} {fault : Fault}
    (before : runFrom index front s = (none, s'))
    (failed : step (index + front.length) instruction s' = .error fault final) :
    runFrom index (front ++ instruction :: rest) s = (some (final.engine.error fault), final) := by
  induction front generalizing index s with
  | nil =>
    cases before
    -- the end of a part only forgets which instruction was executed last
    have failed : step index instruction s = .error fault final := failed
    rw [List.nil_append, runFrom, failed]
  | cons first front ih =>
    obtain ⟨s₁, taken, before⟩ := runFrom_cons_ok.mp before
    have place : index + (first :: front).length = index + 1 + front.length := by
      rw [List.length_cons]
      omega
    rw [place] at failed
    rw [List.cons_append, runFrom, taken]
    exact ih before failed

end Encoder

section

open Encoder

variable {values : List Value} {limits : Limits} {labels : List (String × Value)} {program : Program}

/-- The bytes of an encoder keep to the limit exactly if no field up to the end of the data, jump or marker of its run
passed the limit. A fixed field, a skip or a constant without room stops the run. -/
theorem encode_size :
    (∀ bytes, (ofValues values limits labels).encode program = .ok bytes →
      ∃ final, (ofValues values limits labels).run program = (none, final)
        ∧ bytes.length = (final.engine.storage.length + 7) / 8
        ∧ (final.engine.storage.length ≤ limits.maxBits ↔
            Along KeepsLimit 0 program.instructions (ofValues values limits labels)))
    ∧ ∀ front instruction rest s width, program.instructions = front ++ instruction :: rest →
      runFrom 0 front (ofValues values limits labels) = (none, s) → s.engine.steps < limits.maxSteps →
      instruction.directive.reserved? = some width → s.Supplied instruction.directive →
      limits.maxBits < s.engine.storage.length + width →
      (ofValues values limits labels).encode program = .error ⟨.sizeLimit limits.maxBits,
        ⟨some (front.length, instruction.token), s.engine.walk.flat, s.engine.walk.path⟩⟩ := by
  constructor
  · intro bytes encoded
    obtain ⟨final, run, _, _, _, wire, sealed, rfl⟩ := encode_ofValues_ok.mp encoded
    refine ⟨final, by rw [run_ofValues, run], ?_, ?_⟩
    · have whole := Bits.length_toBytes sealed.length_mod
      rw [sealed.length, Bits.length_padToByte] at whole
      unfold Bits.padding at whole
      show (Bits.toBytes wire).length = (final.engine.storage.bits.length + 7) / 8
      omega
    · have empty : (ofValues values limits labels).Fits := by
        simp only [Fits, ofValues]
        rw [Engine.seed_eq]
        exact Nat.zero_le _
      have fits := fits_run atEnd_ofValues run
      rwa [Fits, limits_of_run run, and_iff_right empty] at fits
  · intro front instruction rest s width split before allowed reserved supplied full
    have limits_eq := limits_of_run before
    rw [← limits_eq] at allowed full
    obtain ⟨s', failed, engine⟩ := step_full (0 + front.length) allowed reserved supplied full
    rw [limits_eq] at failed
    rw [encode, run_ofValues, split, runFrom_append_error before failed, engine, Nat.zero_add]
    rfl

end

/-- Bytes up to the end of the data. -/
def unboundedRecord : Program where
  instructions := [⟨"B$", ⟨0, 2⟩, .takeAll .bytes⟩]

/-- Bytes up to the end of the data and one more byte. -/
def crowdedRecord : Program where
  instructions := [⟨"B$", ⟨0, 2⟩, .takeAll .bytes⟩, ⟨"u8", ⟨3, 5⟩, .value .uint (.bits 8)⟩]

theorem encode_size_crowdedRecord :
    Pattern.compile "B$ u8" = .ok crowdedRecord
      ∧ (Encoder.ofValues [.bytes [1, 2], .uint 3] ⟨20, 16⟩ []).encode crowdedRecord
        = .error ⟨.sizeLimit 16, ⟨some (1, "u8"), 1, [1]⟩⟩ := by
  refine ⟨by cbv, ?_⟩
  let front := unboundedRecord.instructions
  let s := (Encoder.runFrom 0 front (Encoder.ofValues [.bytes [1, 2], .uint 3] ⟨20, 16⟩ [])).2
  have before : Encoder.runFrom 0 front (Encoder.ofValues [.bytes [1, 2], .uint 3] ⟨20, 16⟩ []) = (none, s) := rfl
  have steps : s.engine.steps = 1 := rfl
  have length : s.engine.storage.length = 16 := rfl
  have supplied : s.input ≠ [] := by
    rw [show s.input = [.uint 3] from rfl]
    exact List.cons_ne_nil _ _
  exact encode_size.2 front _ [] s 8 rfl before (by rw [steps]; decide) rfl supplied (by rw [length]; decide)

/-- Two bytes are encoded under a limit of one. -/
theorem limit_passed :
    Pattern.compile "B$" = .ok unboundedRecord
      ∧ (Encoder.ofValues [.bytes [1, 2]] ⟨20, 8⟩ []).encode unboundedRecord = .ok [1, 2]
      ∧ ¬ ∀ final, (Encoder.ofValues [.bytes [1, 2]] ⟨20, 8⟩ []).run unboundedRecord = (none, final) →
          final.engine.storage.length ≤ 8 := by
  refine ⟨by cbv, by cbv, fun limited => ?_⟩
  have length : 16 ≤ 8 := limited _ rfl
  omega

end BitTemplate
