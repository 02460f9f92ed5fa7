import Mathlib
import BitTemplate.Proofs.Compiled
import BitTemplate.Proofs.Finish
import BitTemplate.Proofs.Tiling

/-!
Faults that compiling rules out. The compiler checks the width of every field and gives every swap of bytes a width, so a
decoder of whole bytes finds bits that are no field only where a number takes everything up to the end of the data. What
the pattern does not fix is fixed by byte boundaries: a field of bytes up to the end and a marker start on one, markers
stand on one, and a gap is read as bytes only between two of them.
-/

namespace BitTemplate

/-! ## Swaps of bytes -/

/-- A swap of the bytes up to the end of the data, which no decoder can make. -/
def Directive.OpenSwap (directive : Directive) : Prop :=
  directive = .mod .endianSwap .rest

namespace Pattern

section

variable {text : List Char} {change : CursorChange} {extent : Width}

/-- Nothing but a token of a change at the cursor is compiled to one. -/
theorem mod_of_single {kind : TokenKind} (h : single kind text = .ok (.directive (.mod change extent))) :
    kind = .mod ∧ modifier text = .ok (.mod change extent) := by
  cases single_makes h with
  | mod made _ => exact ⟨rfl, made⟩

theorem extentOf_rest (h : extentOf text = .ok .rest) : text = ['$'] := by
  simp only [extentOf] at h
  split at h
  · assumption
  · simp only [except_bind_ok, except_pure_ok] at h
    obtain ⟨_, _, other⟩ := h
    cases other

/-- A dollar sign follows only the letters of a reversal and an inversion. -/
theorem letter_of_accepts_rest {letter : Char} (h : TokenKind.mod.texts.accepts [letter, '$'] = true) :
    letter = 'r' ∨ letter = 'i' := by
  by_cases reverse : letter = 'r'
  · exact .inl reverse
  by_cases invert : letter = 'i'
  · exact .inr invert
  by_cases swap : letter = 'e'
  · subst swap
    revert h
    decide
  · simp [Text.Regular.accepts, Text.Regular.afterAll, Text.Regular.after, Text.Regular.oneOf, Text.Regular.char,
      Text.Regular.hasNil, Text.Regular.join, Text.Regular.either, TokenKind.texts, reverse, invert, swap] at h

/-- A swap of bytes in a pattern has a width. -/
theorem modifier_not_openSwap {directive : Directive} (belongs : TokenKind.mod.texts.accepts text = true)
    (h : modifier text = .ok directive) : ¬ directive.OpenSwap := by
  rintro rfl
  match text with
  | [] => cases h
  | letter :: operand =>
    simp only [modifier, except_bind_ok] at h
    obtain ⟨extent, measured, h⟩ := h
    split at h
    · cases h
    · cases h
    · split at h <;> cases h
    · rename_i notReverse notInvert
      have dollar : operand = ['$'] := extentOf_rest measured
      subst dollar
      rcases letter_of_accepts_rest belongs with rfl | rfl
      · exact notReverse rfl
      · exact notInvert rfl

end

theorem single_not_openSwap {kind : TokenKind} {text : List Char} {statement : Statement}
    (h : single kind text = .ok statement) (belongs : kind = .mod → TokenKind.mod.texts.accepts text = true) :
    statement.All fun directive => ¬ directive.OpenSwap := by
  cases statement with
  | directive directive =>
    rintro rfl
    obtain ⟨kind, made⟩ := mod_of_single h
    exact modifier_not_openSwap (belongs kind) made rfl
  | _ => trivial

theorem readStatement_not_openSwap {source : List Char} {token : Token} {more rest : List Token} {statement : Statement}
    {span : Span} (member : token ∈ tokens source)
    (h : readStatement source token more = .ok (statement, span, rest)) :
    statement.All fun directive => ¬ directive.OpenSwap := by
  simp only [readStatement] at h
  split at h
  · simp only [except_bind_ok, except_pure_ok] at h
    obtain ⟨_, _, h⟩ := h
    cases h
    intro swap
    cases swap
  · simp only [except_bind_ok, except_pure_ok] at h
    obtain ⟨_, _, _, _, h⟩ := h
    cases h
    intro swap
    cases swap
  · simp only [except_bind_ok, except_pure_ok, except_mapError_ok] at h
    obtain ⟨read, made, h⟩ := h
    cases h
    exact single_not_openSwap made fun kind => kind ▸ tokens_accepts member (by rw [kind]; decide)

/-- Every swap of bytes in a compiled program has a width. -/
theorem not_openSwap_of_compile {text : String} {program : Program} (h : compile text = .ok program) :
    ∀ i ∈ program.instructions, ¬ i.directive.OpenSwap :=
  all_of_compile h fun _ member => readStatement_not_openSwap member

end Pattern

/-! ## Fields -/

namespace Field

variable {encoding : Encoding} {bits : Bits}

theorem exists_decode_of_needsBytes (needs : encoding.needsBytes = true) (whole : bits.length % 8 = 0) :
    ∃ v, decode encoding bits = .ok v := by
  apply exists_decode_iff.mpr
  rcases needsBytes_iff.mp needs with rfl | rfl
  · exact whole
  · exact whole

/-- Bits of a width that fits the encoding are a field. -/
theorem exists_decode_of_wellFormed (formed : (Directive.value encoding (.bits bits.length)).WellFormed) :
    ∃ v, decode encoding bits = .ok v := by
  obtain ⟨positive, bytes, float, integer⟩ := formed
  apply exists_decode_iff.mpr
  cases encoding with
  | uint => exact integer (.inl rfl)
  | sint => exact ⟨positive, integer (.inr rfl)⟩
  | lowerHex => trivial
  | upperHex => trivial
  | bin => trivial
  | bytes => exact bytes rfl
  | char => exact bytes rfl
  | float => exact float rfl

end Field

/-! ## Causes -/

/-- Bits that are no field of their encoding, and a swap of bytes without a width. -/
def Fault.Misfit : Fault → Prop
  | .field _ => True
  | .openEndedSwap => True
  | _ => False

section

variable {fault : Fault}

theorem Fault.ne_openEndedSwap (fits : ¬ fault.Misfit) : fault ≠ .openEndedSwap := by
  rintro rfl
  exact fits trivial

theorem Fault.family_ne_codec (fits : ¬ fault.Misfit) : fault.family ≠ .codec := by
  intro codec
  cases fault with
  | field error => exact fits trivial
  | _ => cases codec

theorem Storage.require_error {s : Storage} {width : Nat} (h : s.require width = .error fault) : ¬ fault.Misfit := by
  simp only [require] at h
  split at h
  · cases h
  · cases h
    exact id

theorem Storage.read_error {s : Storage} {width : Nat} (h : s.read width = .error fault) : ¬ fault.Misfit := by
  simp only [read] at h
  split at h
  · cases h
  · cases h
    exact id

theorem Storage.apply_error {s : Storage} {t : Transform} (h : s.apply t = .error fault) : ¬ fault.Misfit := by
  simp only [apply] at h
  split at h
  · cases h
  · cases h
    exact id

theorem Transform.endianSwap_error {start width : Nat} (h : endianSwap start width = .error fault) :
    ¬ fault.Misfit := by
  simp only [endianSwap] at h
  split at h
  · cases h
    exact id
  · cases h

/-- Only a swap up to the end of the data lacks a width. -/
theorem Transform.atCursor_error {change : CursorChange} {position : Nat} {width : Width}
    (closed : ¬ (Directive.mod change width).OpenSwap) (h : atCursor change position width = .error fault) :
    ¬ fault.Misfit := by
  simp only [atCursor] at h
  split at h
  · cases h
  · cases h
  · exact endianSwap_error h
  · exact absurd rfl closed

theorem Flags.transforms_error {flags : Flags} {start width : Nat} {encoding : Encoding}
    (h : flags.transforms start width encoding = .error fault) : ¬ fault.Misfit := by
  simp only [transforms] at h
  split at h
  · simp only [except_bind_error, except_pure_error, and_false, exists_false, or_false] at h
    exact Transform.endianSwap_error h
  · cases h

theorem Storage.applyAll_error {s : Storage} {ts : List Transform} (h : s.applyAll ts = .error fault) :
    ¬ fault.Misfit := by
  induction ts generalizing s with
  | nil => cases h
  | cons t ts ih =>
    rw [applyAll, List.foldlM_cons, except_bind_error] at h
    rcases h with first | ⟨_, _, later⟩
    · exact apply_error first
    · exact ih later

theorem Engine.disguise_error {flags : Flags} {bytes : List UInt8} (h : disguise flags bytes = .error fault) :
    ¬ fault.Misfit := by
  simp only [disguise, except_bind_error, except_pure_error, and_false, exists_false, or_false] at h
  rcases h with asked | ⟨_, _, applied⟩
  · exact Flags.transforms_error asked
  · exact Storage.applyAll_error applied

theorem Engine.checkSteps_error {e : Engine} (h : e.checkSteps = .error fault) : ¬ fault.Misfit := by
  simp only [checkSteps] at h
  split at h
  · cases h
    exact id
  · cases h

theorem Engine.requireAligned_error {e : Engine} {step : AlignedStep} (h : e.requireAligned step = .error fault) :
    ¬ fault.Misfit := by
  simp only [requireAligned] at h
  split at h
  · cases h
  · cases h
    exact id

theorem Engine.jumpTarget_error {log : Log} {origin : JumpOrigin} {bits position length : Nat}
    (h : jumpTarget log origin bits position length = .error fault) : ¬ fault.Misfit := by
  simp only [jumpTarget] at h
  grind [Fault.Misfit]

theorem Engine.matchLabel_error {e : Engine} {name : String} (h : e.matchLabel name = .error fault) :
    ¬ fault.Misfit := by
  simp only [matchLabel] at h
  grind [Fault.Misfit]

theorem Engine.assertLast_error {e : Engine} {expected : Literal} (h : e.assertLast expected = .error fault) :
    ¬ fault.Misfit := by
  simp only [assertLast] at h
  grind [Fault.Misfit]

theorem Engine.control_error {e : Engine} {action : Control} (h : e.control action = .error fault) :
    ¬ fault.Misfit := by
  cases action with
  | setFlag flag setting => cases h
  | setLabel name =>
    simp only [control, setLabel] at h
    grind [Fault.Misfit]
  | defLabel name value => cases h
  | matchLabel name =>
    simp only [control, except_bind_error, except_pure_error, and_false, exists_false, or_false] at h
    exact matchLabel_error h
  | nestOpen => cases h
  | nestClose =>
    simp only [control, closeRecord] at h
    grind [Fault.Misfit]
  | assertion expected =>
    simp only [control, except_bind_error, except_pure_error, and_false, exists_false, or_false] at h
    exact assertLast_error h

end

/-! ## Steps -/

namespace Decoder

variable {α β : Type} {e : Engine} {allowed : Fault → Prop}

/-- A step that fails in a state only with some faults. -/
def FailsWith (allowed : Fault → Prop) (x : Step α) (e : Engine) : Prop :=
  ∀ fault e', x e = .error fault e' → allowed fault

namespace FailsWith

theorem mono {x : Step α} {others : Fault → Prop} (h : FailsWith allowed x e)
    (implies : ∀ fault, allowed fault → others fault) : FailsWith others x e :=
  fun fault e' failed => implies fault (h fault e' failed)

theorem bind {x : Step α} {f : α → Step β} (first : FailsWith allowed x e)
    (next : ∀ {a e'}, x e = .ok a e' → FailsWith allowed (f a) e') : FailsWith allowed (x >>= f) e := by
  intro fault e' failed
  rcases step_bind_error.mp failed with failed | ⟨a, e₁, done, failed⟩
  · exact first fault e' failed
  · exact next done fault e' failed

theorem of_pure (a : α) : FailsWith allowed (Pure.pure a : Step α) e :=
  fun _ _ failed => (step_pure_error.mp failed).elim

theorem of_get : FailsWith allowed (MonadState.get : Step Engine) e :=
  fun _ _ failed => (step_get_error.mp failed).elim

theorem of_modify (f : Engine → Engine) : FailsWith allowed (modify f : Step PUnit) e :=
  fun _ _ failed => (step_modify_error.mp failed).elim

theorem of_throw {fault : Fault} (h : allowed fault) : FailsWith allowed (MonadExcept.throw fault : Step α) e := by
  intro fault' e' failed
  rw [← (step_throw_error.mp failed).1]
  exact h

theorem of_check {f : Engine → Except Fault α} (h : ∀ {fault}, f e = .error fault → allowed fault) :
    FailsWith allowed (Decoder.check f) e :=
  fun _ _ failed => h (check_error.mp failed).1

theorem of_change {f : Engine → Except Fault Engine} (h : ∀ {fault}, f e = .error fault → allowed fault) :
    FailsWith allowed (Decoder.change f) e :=
  fun _ _ failed => h (change_error.mp failed).1

theorem of_ok {x : Step α} {a : α} {e' : Engine} (done : x e = .ok a e') : FailsWith allowed x e := by
  intro fault e'' failed
  rw [done] at failed
  cases failed

end FailsWith

theorem transformAll_fails (ts : List Transform) (e : Engine) : FailsWith (¬ ·.Misfit) (transformAll ts) e := by
  induction ts generalizing e with
  | nil => exact .of_pure ()
  | cons t ts ih =>
    refine .bind (.of_change fun h => ?_) fun _ => ih _
    simp only [except_bind_error, except_pure_error, and_false, exists_false, or_false] at h
    exact Storage.apply_error h

theorem take_fails (width : Nat) (e : Engine) : FailsWith (¬ ·.Misfit) (take width) e :=
  .bind (.of_check Storage.read_error) fun _ => .bind (.of_modify _) fun _ => .of_pure _

theorem readBits_fails (encoding : Encoding) (width : Nat) (e : Engine) :
    FailsWith (¬ ·.Misfit) (readBits encoding width) e :=
  .bind (.of_check Storage.require_error) fun _ =>
    .bind (.of_check Flags.transforms_error) fun _ =>
      .bind (transformAll_fails _ _) fun _ => take_fails width _

theorem interpret_fails {encoding : Encoding} {bits : Bits} (decodes : ∃ v, Field.decode encoding bits = .ok v) :
    FailsWith (¬ ·.Misfit) (interpret encoding bits) e := by
  obtain ⟨v, decoded⟩ := decodes
  refine .of_check fun h => ?_
  rw [decoded] at h
  cases h

/-- No field lacks the width of a swap. -/
theorem produceField_fails_open (encoding : Encoding) (width : Nat) (e : Engine) :
    FailsWith (· ≠ .openEndedSwap) (produceField encoding width) e := by
  refine .bind .of_get fun _ => .bind (.bind ?_ fun _ => .of_check ?_) fun _ => .of_modify _
  · exact (readBits_fails encoding width _).mono fun fault fits => Fault.ne_openEndedSwap fits
  · intro fault h
    rintro rfl
    cases decoded : Field.decode encoding _ with
    | error error =>
      rw [decoded] at h
      cases h
    | ok v =>
      rw [decoded] at h
      cases h

theorem produceField_fails {encoding : Encoding} {width : Nat}
    (decodes : ∀ bits : Bits, bits.length = width → ∃ v, Field.decode encoding bits = .ok v) :
    FailsWith (¬ ·.Misfit) (produceField encoding width) e :=
  .bind .of_get fun _ => .bind (.bind (readBits_fails encoding width _) fun read =>
    interpret_fails (decodes _ (length_readBits read))) fun _ => .of_modify _

theorem length_take {width : Nat} {bits : Bits} {e' : Engine} (done : take width e = .ok bits e') :
    bits.length = width := by
  obtain ⟨s, read, _⟩ := take_ok.mp done
  obtain ⟨enough, rfl, _⟩ := Storage.read_ok.mp read
  rw [List.length_take, List.length_drop]
  omega

theorem produceGap_fails {encoding : Encoding} {target : Nat}
    (decodes : ∀ bits : Bits, bits.length = target - e.cursor → ∃ v, Field.decode encoding bits = .ok v) :
    FailsWith (¬ ·.Misfit) (produceGap encoding target) e := by
  refine .bind .of_get fun got => ?_
  obtain ⟨rfl, rfl⟩ := step_get_ok.mp got
  exact .bind (.of_modify _) fun _ => .bind (take_fails _ _) fun taken =>
    .bind (interpret_fails (decodes _ (length_take taken))) fun _ => .of_modify _

theorem readConstant_fails (bit : Bool) (width : Nat) (e : Engine) :
    FailsWith (¬ ·.Misfit) (readConstant bit width) e := by
  refine .bind (readBits_fails .uint width e) fun _ => ?_
  split
  · exact .of_pure ()
  · exact .of_throw id

/-- The gap of a jump is read as bytes only where it is whole bytes. -/
theorem jump_fails (origin : JumpOrigin) (bits : Nat) (e : Engine) : FailsWith (¬ ·.Misfit) (jump origin bits) e := by
  refine .bind .of_get fun got => .bind (.of_check Engine.jumpTarget_error) fun landed => ?_
  obtain ⟨rfl, rfl⟩ := step_get_ok.mp got
  obtain ⟨_, rfl⟩ := check_ok.mp landed
  refine produceGap_fails fun gap length => ?_
  split
  · rename_i whole
    exact Field.exists_decode_of_needsBytes rfl (length ▸ whole.2)
  · exact ⟨_, rfl⟩

/-- A marker starts and stands on byte boundaries, so what is between is bytes; and what stands there reads as its bytes. -/
theorem marker_fails (last : Bool) (bytes : List UInt8) (e : Engine) :
    FailsWith (¬ ·.Misfit) (marker last bytes) e := by
  refine .bind (.of_check Engine.requireAligned_error) fun aligned => ?_
  obtain ⟨even, rfl⟩ := check_ok.mp aligned
  rw [Engine.requireAligned_ok] at even
  refine .bind (.of_check Engine.disguise_error) fun hidden => ?_
  obtain ⟨disguised, rfl⟩ := check_ok.mp hidden
  refine .bind (.of_check fun h => ?_) @fun found _ searched => ?_
  · split at h
    · cases h
    · cases h
      exact id
  · obtain ⟨search, rfl⟩ := check_ok.mp searched
    split at search
    · rename_i place here
      obtain rfl : place = found := Except.ok.inj search
      have stands := Storage.aligned_of_find? here
      have gapWhole : (place - e.cursor) % 8 = 0 := by omega
      refine .bind (produceGap_fails fun gap length => ?_) fun passed => ?_
      · exact Field.exists_decode_of_needsBytes rfl (length ▸ gapWhole)
      · obtain ⟨_, read, _⟩ := readField_after_gap disguised here passed
        refine .bind (.of_ok read) fun _ => ?_
        split
        · exact .of_pure ()
        · exact .of_throw id
    · cases search

end Decoder

/-- A number that takes everything up to the end of the data. -/
def Directive.OpenNumber : Directive → Prop
  | .value encoding .rest => encoding = .uint ∨ encoding = .sint ∨ encoding = .float
  | _ => False

/-- The faults that an instruction can have whose widths were checked. -/
def Directive.CanFail (directive : Directive) (fault : Fault) : Prop :=
  fault ≠ .openEndedSwap ∧ (fault.family = .codec → directive.OpenNumber)

theorem Directive.canFail (directive : Directive) {fault : Fault} (fits : ¬ fault.Misfit) : directive.CanFail fault :=
  ⟨Fault.ne_openEndedSwap fits, fun codec => absurd codec (Fault.family_ne_codec fits)⟩

namespace Decoder

variable {e e' : Engine} {directive : Directive} {fault : Fault}

/-- Every instruction but a number up to the end of the data finds its fields. -/
theorem execute_fails (formed : directive.WellFormed) (swaps : ¬ directive.OpenSwap) (fixed : ¬ directive.OpenNumber)
    (whole : e.storage.length % 8 = 0) : FailsWith (¬ ·.Misfit) (execute directive) e := by
  cases directive with
  | value encoding width =>
    cases width with
    | bits width =>
      refine produceField_fails fun bits length => ?_
      subst length
      exact Field.exists_decode_of_wellFormed formed
    | rest =>
      refine .bind .of_get fun _ => produceField_fails fun bits _ => ?_
      cases encoding with
      | uint => exact absurd (.inl rfl) fixed
      | sint => exact absurd (.inr (.inl rfl)) fixed
      | float => exact absurd (.inr (.inr rfl)) fixed
      | lowerHex => exact ⟨_, rfl⟩
      | upperHex => exact ⟨_, rfl⟩
      | bin => exact ⟨_, rfl⟩
      | bytes => cases formed
      | char => cases formed
  | next width =>
    refine .bind (.of_check Storage.require_error) fun _ => ?_
    intro fault e' failed
    exact take_fails width _ fault e' (step_discard_error.mp failed)
  | constant bit width => exact readConstant_fails bit width e
  | mod change width =>
    exact .bind (.of_check (Transform.atCursor_error swaps)) fun _ => transformAll_fails _ _
  | modOff change offset width => exact .bind .of_get fun _ => transformAll_fails _ _
  | takeAll encoding =>
    refine .bind (.of_check Engine.requireAligned_error) fun aligned => ?_
    obtain ⟨even, rfl⟩ := check_ok.mp aligned
    rw [Engine.requireAligned_ok] at even
    refine .bind .of_get fun got => ?_
    obtain ⟨rfl, rfl⟩ := step_get_ok.mp got
    refine produceField_fails fun bits length => Field.exists_decode_of_needsBytes formed ?_
    have bound := e.storage.cursor_le
    simp only [Storage.remaining, Storage.length, Engine.cursor] at length even whole
    omega
  | jump origin bits => exact jump_fails origin bits e
  | marker last bytes => exact marker_fails last bytes e
  | control action => exact .of_change Engine.control_error

theorem execute_canFail (formed : directive.WellFormed) (swaps : ¬ directive.OpenSwap)
    (whole : e.storage.length % 8 = 0) : FailsWith directive.CanFail (execute directive) e := by
  by_cases number : directive.OpenNumber
  · -- a number up to the end of the data has no other fault than those of its field
    have reads : FailsWith (· ≠ .openEndedSwap) (execute directive) e := by
      match directive, number with
      | .value encoding .rest, _ => exact .bind .of_get fun _ => produceField_fails_open encoding _ _
    exact reads.mono fun fault other => ⟨other, fun _ => number⟩
  · exact (execute_fails formed swaps number whole).mono fun fault fits => directive.canFail fits

theorem step_canFail {index : Nat} {instruction : Instruction} (formed : instruction.directive.WellFormed)
    (swaps : ¬ instruction.directive.OpenSwap) (whole : e.storage.length % 8 = 0) :
    FailsWith instruction.directive.CanFail (step index instruction) e := by
  refine .bind (.of_modify _) fun begun => .bind (.of_check fun h => ?_) fun counted =>
    .bind (.of_modify _) fun arrived => ?_
  · exact instruction.directive.canFail (Engine.checkSteps_error h)
  · obtain rfl := step_modify_ok.mp begun
    obtain ⟨_, rfl⟩ := check_ok.mp counted
    obtain rfl := step_modify_ok.mp arrived
    exact execute_canFail formed swaps whole

theorem current_of_step_failed {index : Nat} {instruction : Instruction}
    (failed : step index instruction e = .error fault e') : e'.current = some (index, instruction.token) := by
  rcases step_failed failed with rfl | ⟨_, _, _, _, _, _⟩
  · rfl
  · rfl

/-- A run of instructions that make sense fails at one of them, with a fault that this one can have. -/
theorem runFrom_canFail {instructions : List Instruction} {index : Nat} {error : RunError}
    (checked : ∀ i ∈ instructions, i.directive.WellFormed ∧ ¬ i.directive.OpenSwap)
    (whole : e.storage.length % 8 = 0) (failed : runFrom index instructions e = (some error, e')) :
    ∃ k i, instructions[k]? = some i ∧ error.context.current = some (index + k, i.token)
      ∧ i.directive.CanFail error.fault := by
  induction instructions generalizing index e with
  | nil => cases failed
  | cons instruction rest ih =>
    obtain ⟨formed, swaps⟩ := checked instruction List.mem_cons_self
    simp only [runFrom] at failed
    split at failed
    · rename_i u e₁ done
      have whole' : e₁.storage.length % 8 = 0 := by
        rw [Storage.length, (Advances.step done).length]
        exact whole
      obtain ⟨k, i, place, current, fits⟩ := ih (fun i hi => checked i (List.mem_cons_of_mem _ hi)) whole' failed
      exact ⟨k + 1, i, place, by rw [current, Nat.add_right_comm, Nat.add_assoc], fits⟩
    · rename_i fault e₁ stopped
      cases failed
      exact ⟨0, instruction, rfl, current_of_step_failed stopped, step_canFail formed swaps whole _ _ stopped⟩

theorem finish_error {d : Decoder} {error : RunError} (failed : d.finish = .error error) : ¬ error.fault.Misfit := by
  simp only [finish] at failed
  split at failed
  · cases failed
    exact id
  · simp only [Engine.finish] at failed
    split at failed
    · cases failed
    · cases failed
      exact id

end Decoder

/-- Compiling checks widths. All instructions of a compiled program make sense and all its swaps of bytes have widths, so a
run of it over bytes finds bits that are no field only at a number up to the end of the data, and never lacks the width of
a swap. -/
theorem widths_checked {text : String} {program : Program} (compiled : Pattern.compile text = .ok program) :
    (∀ i ∈ program.instructions, i.directive.WellFormed ∧ ¬ i.directive.OpenSwap)
    ∧ ∀ bytes limits checkEnd labels error,
      (Decoder.ofBytes bytes limits checkEnd labels).decode program = .error error →
      error.fault ≠ .openEndedSwap
        ∧ (error.fault.family = .codec → ∃ index i, program.instructions[index]? = some i
          ∧ error.context.current = some (index, i.token) ∧ i.directive.OpenNumber) := by
  have checked : ∀ i ∈ program.instructions, i.directive.WellFormed ∧ ¬ i.directive.OpenSwap :=
    fun i hi => ⟨Pattern.wellFormed_of_compile compiled i hi, Pattern.not_openSwap_of_compile compiled i hi⟩
  refine ⟨checked, fun bytes limits checkEnd labels error failed => ?_⟩
  have whole : (Decoder.ofBytes bytes limits checkEnd labels).engine.storage.length % 8 = 0 := by
    rw [Storage.length, Decoder.length_ofBytes, Nat.mul_mod_right]
  simp only [Decoder.decode, Decoder.run_ofBytes] at failed
  cases run : Decoder.runFrom 0 program.instructions (Decoder.ofBytes bytes limits checkEnd labels).engine with
  | mk failure e =>
    rw [run] at failed
    cases failure with
    | some stopped =>
      cases failed
      obtain ⟨index, i, place, current, swaps, fields⟩ := Decoder.runFrom_canFail checked whole run
      rw [Nat.zero_add] at current
      exact ⟨swaps, fun codec => ⟨index, i, place, current, fields codec⟩⟩
    | none =>
      have fits := Decoder.finish_error failed
      exact ⟨Fault.ne_openEndedSwap fits, fun codec => absurd codec (Fault.family_ne_codec fits)⟩

/-- A digit and a floating-point number up to the end of the data. -/
def openEndedRecord : Program where
  instructions := [⟨"x4", ⟨0, 2⟩, .value .lowerHex (.bits 4)⟩, ⟨"f$", ⟨3, 5⟩, .value .float .rest⟩]

theorem widths_checked_openEndedRecord :
    let d := Decoder.ofBytes [1, 2] ⟨20, 0⟩ true []
    (∀ i ∈ openEndedRecord.instructions, i.directive.WellFormed ∧ ¬ i.directive.OpenSwap)
      ∧ ∃ error, d.decode openEndedRecord = .error error ∧ error.fault = .field (.floatWidth 12)
        ∧ error.fault ≠ .openEndedSwap ∧ ∃ index i, openEndedRecord.instructions[index]? = some i
          ∧ error.context.current = some (index, i.token) ∧ i.directive.OpenNumber := by
  intro d
  have compiled : Pattern.compile "x4 f$" = .ok openEndedRecord := by cbv
  have failed : (Decoder.ofBytes [1, 2] ⟨20, 0⟩ true []).decode openEndedRecord
      = .error ⟨.field (.floatWidth 12), some (1, "f$"), 1, [1]⟩ := by cbv
  obtain ⟨checked, runs⟩ := widths_checked compiled
  obtain ⟨swaps, fields⟩ := runs [1, 2] ⟨20, 0⟩ true [] _ failed
  exact ⟨checked, _, failed, rfl, swaps, fields rfl⟩

end BitTemplate
