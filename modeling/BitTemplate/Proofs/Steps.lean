import BitTemplate.Proofs.Agreement
import BitTemplate.Proofs.Field

/-!
What one step of a run does. For each building block of the decoder and of the encoder one equivalence says when it
succeeds and which state it leaves, so that no later proof opens the blocks again.
-/

namespace BitTemplate

/-- Recording transforms adds to the log and to the trace and to nothing else. -/
theorem Engine.foldl_record (ts : List Transform) (e : Engine) :
    ts.foldl Engine.record e = { e with
      log := (ts.map fun t => ⟨e.walk.flat, t⟩).reverse ++ e.log
      events := (ts.map Event.transform).reverse ++ e.events } := by
  induction ts generalizing e with
  | nil => rfl
  | cons t ts ih => simp [ih, Engine.record, Engine.emit]

/-- A jump does not land before the cursor. -/
theorem Engine.le_jumpTarget {log : Log} {origin : JumpOrigin} {bits position length target : Nat}
    (h : jumpTarget log origin bits position length = .ok target) : position ≤ target := by
  simp only [jumpTarget] at h
  grind

theorem Engine.requireAligned_ok {e : Engine} {step : AlignedStep} {u : Unit} :
    e.requireAligned step = .ok u ↔ e.cursor % 8 = 0 := by
  by_cases even : e.cursor % 8 = 0 <;> simp [requireAligned, even]

/-- The engine when an instruction is executed. -/
def Engine.arrive (e : Engine) (index : Nat) (instruction : Instruction) : Engine :=
  (e.begin index instruction).emit (.instruction index instruction e.cursor)

/-- The room that a directive asks for before it writes. -/
def Directive.reserved? : Directive → Option Nat
  | .value _ (.bits width) => some width
  | .next width => some width
  | .constant _ width => some width
  | _ => none

/-- Whether a value holds some bits as they stand: bytes if they start and end on byte boundaries, and otherwise binary
digits. -/
def Value.HoldsGap (start : Nat) (gap : Bits) (v : Value) : Prop :=
  if start % 8 = 0 ∧ gap.length % 8 = 0 then ∃ content, v = .bytes content ∧ Bits.ofBytes content = gap
  else v = .bin gap.toDigits

/-! ## Decoding -/

namespace Decoder

theorem transformAll_ok {ts : List Transform} {e e' : Engine} {u : Unit} :
    transformAll ts e = .ok u e' ↔
      ∃ s, e.storage.applyAll ts = .ok s ∧ { ts.foldl Engine.record e with storage := s } = e' := by
  induction ts generalizing e with
  | nil =>
    simp only [transformAll, step_pure_ok, true_and]
    constructor
    · rintro rfl
      exact ⟨e.storage, rfl, rfl⟩
    · rintro ⟨s, h, rfl⟩
      cases h
      rfl
  | cons t ts ih =>
    have first (s : Storage) : s.applyAll (t :: ts) = s.apply t >>= fun s => s.applyAll ts := rfl
    simp only [transformAll, transform, step_bind_ok, change_ok, except_bind_ok, except_pure_ok, ih, first,
      Engine.foldl_record]
    constructor
    · rintro ⟨_, _, ⟨one, h, rfl⟩, s, h', rfl⟩
      refine ⟨s, ⟨one, h, h'⟩, ?_⟩
      simp [Engine.record, Engine.emit]
    · rintro ⟨s, ⟨one, h, h'⟩, rfl⟩
      refine ⟨(), _, ⟨one, h, rfl⟩, s, h', ?_⟩
      simp [Engine.record, Engine.emit]

theorem take_ok {width : Nat} {e e' : Engine} {bits : Bits} :
    take width e = .ok bits e' ↔ ∃ s, e.storage.read width = .ok (bits, s) ∧ { e with storage := s } = e' := by
  simp only [take, step_bind_ok, check_ok, step_modify_ok, step_pure_ok]
  constructor
  · rintro ⟨⟨_, s⟩, _, ⟨h, rfl⟩, _, _, rfl, rfl, rfl⟩
    exact ⟨s, h, rfl⟩
  · rintro ⟨s, h, rfl⟩
    exact ⟨(bits, s), e, ⟨h, rfl⟩, (), _, rfl, rfl, rfl⟩

/-- Reading a field changes its window as the flags ask, and takes the bits that stand there then. -/
theorem readBits_ok {encoding : Encoding} {width : Nat} {e e' : Engine} {bits : Bits} :
    readBits encoding width e = .ok bits e' ↔
      ∃ ts s, e.flags.transforms e.cursor width encoding = .ok ts
        ∧ Transform.onAll? ts e.storage.bits = some s.bits
        ∧ e.cursor + width ≤ e.storage.bits.length ∧ s.cursor = e.cursor + width
        ∧ bits = (s.bits.drop e.cursor).take width
        ∧ { ts.foldl Engine.record e with storage := s } = e' := by
  simp only [readBits, step_bind_ok, check_ok, transformAll_ok, take_ok, Storage.applyAll_ok, Storage.read_ok,
    Storage.require_ok, Engine.foldl_record, Engine.cursor]
  constructor
  · rintro ⟨_, _, ⟨enough, rfl⟩, ts, _, ⟨asked, rfl⟩, _, _, ⟨one, ⟨applied, cursor⟩, rfl⟩, s,
      ⟨_, rfl, kept, moved⟩, rfl⟩
    exact ⟨ts, s, asked, kept ▸ applied, enough, by rw [moved, cursor], by rw [kept, cursor], rfl⟩
  · rintro ⟨ts, s, asked, applied, enough, moved, rfl, rfl⟩
    have length := Transform.length_of_onAll? applied
    have bound : e.storage.cursor ≤ s.bits.length := by omega
    refine ⟨(), e, ⟨enough, rfl⟩, ts, e, ⟨asked, rfl⟩, (), _, ⟨⟨s.bits, e.storage.cursor, bound⟩, ⟨applied, rfl⟩, rfl⟩,
      s, ⟨?_, rfl, rfl, moved⟩, rfl⟩
    change e.storage.cursor + width ≤ s.bits.length
    omega

theorem interpret_ok {encoding : Encoding} {bits : Bits} {e e' : Engine} {v : Value} :
    interpret encoding bits e = .ok v e' ↔ Field.decode encoding bits = .ok v ∧ e = e' := by
  simp only [interpret, check_ok, except_mapError_ok]

theorem readField_ok {encoding : Encoding} {width : Nat} {e e' : Engine} {v : Value} :
    readField encoding width e = .ok v e' ↔
      ∃ bits, readBits encoding width e = .ok bits e' ∧ Field.decode encoding bits = .ok v := by
  simp only [readField, step_bind_ok, interpret_ok]
  constructor
  · rintro ⟨bits, _, read, decoded, rfl⟩
    exact ⟨bits, read, decoded⟩
  · rintro ⟨bits, read, decoded⟩
    exact ⟨bits, e', read, decoded, rfl⟩

theorem produceField_ok {encoding : Encoding} {width : Nat} {e e' : Engine} {u : Unit} :
    produceField encoding width e = .ok u e' ↔
      ∃ bits v e₁, readBits encoding width e = .ok bits e₁ ∧ Field.decode encoding bits = .ok v
        ∧ e₁.produce v e.cursor = e' := by
  simp only [produceField, step_bind_ok, step_get_ok, readField_ok, step_modify_ok]
  constructor
  · rintro ⟨_, _, ⟨rfl, rfl⟩, v, e₁, ⟨bits, read, decoded⟩, rfl⟩
    exact ⟨bits, v, e₁, read, decoded, rfl⟩
  · rintro ⟨bits, v, e₁, read, decoded, rfl⟩
    exact ⟨e, e, ⟨rfl, rfl⟩, v, e₁, ⟨bits, read, decoded⟩, rfl⟩

/-- A gap is taken as it stands. -/
theorem produceGap_ok {encoding : Encoding} {target : Nat} {e e' : Engine} {u : Unit} :
    produceGap encoding target e = .ok u e' ↔
      ∃ s v, e.cursor + (target - e.cursor) ≤ e.storage.bits.length
        ∧ s.bits = e.storage.bits ∧ s.cursor = e.cursor + (target - e.cursor)
        ∧ Field.decode encoding ((e.storage.bits.drop e.cursor).take (target - e.cursor)) = .ok v
        ∧ { e.emit (.seek e.cursor target) with storage := s }.produce v e.cursor = e' := by
  simp only [produceGap, step_bind_ok, step_get_ok, step_modify_ok, take_ok, interpret_ok, Storage.read_ok]
  constructor
  · rintro ⟨_, _, ⟨rfl, rfl⟩, _, _, rfl, _, _, ⟨s, ⟨enough, rfl, kept, moved⟩, rfl⟩, v, _, ⟨decoded, rfl⟩, rfl⟩
    exact ⟨s, v, enough, kept, moved, decoded, rfl⟩
  · rintro ⟨s, v, enough, kept, moved, decoded, rfl⟩
    exact ⟨e, e, ⟨rfl, rfl⟩, (), _, rfl, _, _, ⟨s, ⟨enough, rfl, kept, moved⟩, rfl⟩, v, _, ⟨decoded, rfl⟩, rfl⟩

theorem readConstant_ok {bit : Bool} {width : Nat} {e e' : Engine} {u : Unit} :
    readConstant bit width e = .ok u e' ↔
      ∃ bits, readBits .uint width e = .ok bits e' ∧ bits.all (· == bit) = true := by
  simp only [readConstant, step_bind_ok]
  constructor
  · rintro ⟨bits, e₁, read, h⟩
    split at h
    · rename_i all
      obtain ⟨_, rfl⟩ := step_pure_ok.mp h
      exact ⟨bits, read, all⟩
    · exact (step_throw_ok.mp h).elim
  · rintro ⟨bits, read, all⟩
    exact ⟨bits, e', read, by rw [if_pos all]; rfl⟩

/-- A gap is bytes where it can be and binary digits elsewhere. -/
def gapEncoding (position width : Nat) : Encoding :=
  if position % 8 = 0 ∧ width % 8 = 0 then .bytes else .bin

theorem decode_gap_ok {start : Nat} {gap : Bits} {v : Value} :
    Field.decode (gapEncoding start gap.length) gap = .ok v ↔ v.HoldsGap start gap := by
  by_cases whole : start % 8 = 0 ∧ gap.length % 8 = 0
  · rw [gapEncoding, Value.HoldsGap, if_pos whole, if_pos whole]
    constructor
    · intro decoded
      obtain ⟨_, rfl⟩ := Field.decode_bytes_ok.mp decoded
      exact ⟨_, rfl, Bits.ofBytes_toBytes whole.2⟩
    · rintro ⟨content, rfl, rfl⟩
      exact Field.decode_eq_bytes.mpr rfl
  · rw [gapEncoding, Value.HoldsGap, if_neg whole, if_neg whole]
    constructor
    · rintro ⟨⟩
      rfl
    · rintro rfl
      rfl

/-- A gap can always be read. -/
theorem exists_holdsGap (start : Nat) (gap : Bits) : ∃ v : Value, v.HoldsGap start gap := by
  by_cases whole : start % 8 = 0 ∧ gap.length % 8 = 0
  · refine ⟨.bytes gap.toBytes, ?_⟩
    rw [Value.HoldsGap, if_pos whole]
    exact ⟨_, rfl, Bits.ofBytes_toBytes whole.2⟩
  · refine ⟨.bin gap.toDigits, ?_⟩
    rw [Value.HoldsGap, if_neg whole]

theorem jump_ok {origin : JumpOrigin} {bits : Nat} {e e' : Engine} {u : Unit} :
    jump origin bits e = .ok u e' ↔
      ∃ target, Engine.jumpTarget e.log origin bits e.cursor e.storage.length = .ok target
        ∧ produceGap (gapEncoding e.cursor (target - e.cursor)) target e = .ok u e' := by
  simp only [jump, step_bind_ok, step_get_ok, check_ok]
  constructor
  · rintro ⟨_, _, ⟨rfl, rfl⟩, target, _, ⟨lands, rfl⟩, h⟩
    exact ⟨target, lands, h⟩
  · rintro ⟨target, lands, h⟩
    exact ⟨e, e, ⟨rfl, rfl⟩, target, e, ⟨lands, rfl⟩, h⟩

theorem isBytes_eq_true {bytes : List UInt8} {v : Value} : isBytes bytes v = true ↔ v = .bytes bytes := by
  cases v <;> simp [isBytes]

theorem marker_ok {last : Bool} {bytes : List UInt8} {e e' : Engine} {u : Unit} :
    marker last bytes e = .ok u e' ↔
      ∃ needle found e₁, e.cursor % 8 = 0 ∧ Engine.disguise e.flags bytes = .ok needle
        ∧ e.storage.find? needle e.cursor last = some found ∧ produceGap .bytes found e = .ok () e₁
        ∧ readField .bytes (8 * bytes.length) e₁ = .ok (.bytes bytes) e' := by
  simp only [marker, step_bind_ok, check_ok, Engine.requireAligned_ok]
  constructor
  · rintro ⟨_, _, ⟨even, rfl⟩, needle, _, ⟨disguised, rfl⟩, found, _, ⟨at_found, rfl⟩, _, e₁, gap, v, e₂, read, h⟩
    split at at_found
    · rename_i place here
      cases at_found
      split at h
      · rename_i same
        obtain ⟨_, rfl⟩ := step_pure_ok.mp h
        rw [isBytes_eq_true] at same
        subst same
        exact ⟨needle, found, e₁, even, disguised, here, gap, read⟩
      · exact (step_throw_ok.mp h).elim
    · cases at_found
  · rintro ⟨needle, found, e₁, even, disguised, here, gap, read⟩
    refine ⟨(), e, ⟨even, rfl⟩, needle, e, ⟨disguised, rfl⟩, found, e, ⟨by rw [here], rfl⟩, (), e₁, gap,
      .bytes bytes, e', read, ?_⟩
    rw [if_pos (isBytes_eq_true.mpr rfl)]
    rfl

theorem execute_rest_ok {encoding : Encoding} {e e' : Engine} {u : Unit} :
    execute (.value encoding .rest) e = .ok u e' ↔ produceField encoding e.storage.remaining e = .ok u e' := by
  simp only [execute, step_bind_ok, step_get_ok]
  constructor
  · rintro ⟨_, _, ⟨rfl, rfl⟩, h⟩
    exact h
  · intro h
    exact ⟨e, e, ⟨rfl, rfl⟩, h⟩

theorem execute_takeAll_ok {encoding : Encoding} {e e' : Engine} {u : Unit} :
    execute (.takeAll encoding) e = .ok u e' ↔
      e.cursor % 8 = 0 ∧ produceField encoding e.storage.remaining e = .ok u e' := by
  simp only [execute, step_bind_ok, step_get_ok, check_ok, Engine.requireAligned_ok]
  constructor
  · rintro ⟨_, _, ⟨even, rfl⟩, _, _, ⟨rfl, rfl⟩, h⟩
    exact ⟨even, h⟩
  · rintro ⟨even, h⟩
    exact ⟨(), e, ⟨even, rfl⟩, e, e, ⟨rfl, rfl⟩, h⟩

theorem execute_next_ok {width : Nat} {e e' : Engine} {u : Unit} :
    execute (.next width) e = .ok u e' ↔
      ∃ s, e.cursor + width ≤ e.storage.bits.length ∧ s.bits = e.storage.bits ∧ s.cursor = e.cursor + width
        ∧ { e with storage := s } = e' := by
  simp only [execute, step_bind_ok, check_ok, step_discard_ok, take_ok, Storage.require_ok, Storage.read_ok]
  constructor
  · rintro ⟨_, _, ⟨enough, rfl⟩, _, s, ⟨_, rfl, kept, moved⟩, rfl⟩
    exact ⟨s, enough, kept, moved, rfl⟩
  · rintro ⟨s, enough, kept, moved, rfl⟩
    exact ⟨(), e, ⟨enough, rfl⟩, _, s, ⟨enough, rfl, kept, moved⟩, rfl⟩

theorem execute_mod_ok {change : CursorChange} {width : Width} {e e' : Engine} {u : Unit} :
    execute (.mod change width) e = .ok u e' ↔
      ∃ ts, Transform.atCursor change e.cursor width = .ok ts ∧ transformAll ts e = .ok u e' := by
  simp only [execute, step_bind_ok, check_ok]
  constructor
  · rintro ⟨ts, _, ⟨asked, rfl⟩, h⟩
    exact ⟨ts, asked, h⟩
  · rintro ⟨ts, asked, h⟩
    exact ⟨ts, e, ⟨asked, rfl⟩, h⟩

theorem execute_modOff_ok {change : OffsetChange} {offset : Nat} {width : Width} {e e' : Engine} {u : Unit} :
    execute (.modOff change offset width) e = .ok u e' ↔
      transformAll (Transform.atOffset change e.cursor offset width) e = .ok u e' := by
  simp only [execute, step_bind_ok, step_get_ok]
  constructor
  · rintro ⟨_, _, ⟨rfl, rfl⟩, h⟩
    exact h
  · intro h
    exact ⟨e, e, ⟨rfl, rfl⟩, h⟩

theorem execute_control_ok {action : Control} {e e' : Engine} {u : Unit} :
    execute (.control action) e = .ok u e' ↔ e.control action = .ok e' := by
  rw [execute, change_ok]

theorem step_ok {index : Nat} {instruction : Instruction} {e e' : Engine} {u : Unit} :
    step index instruction e = .ok u e' ↔
      (e.begin index instruction).checkSteps = .ok ()
        ∧ execute instruction.directive (e.arrive index instruction) = .ok u e' := by
  simp only [step, step_bind_ok, step_modify_ok, check_ok]
  constructor
  · rintro ⟨_, _, rfl, _, _, ⟨allowed, rfl⟩, _, _, rfl, h⟩
    exact ⟨allowed, h⟩
  · rintro ⟨allowed, h⟩
    exact ⟨(), _, rfl, (), _, ⟨allowed, rfl⟩, (), _, rfl, h⟩

theorem execute_control_error {action : Control} {fault : Fault} {e : Engine} :
    execute (.control action) e = .error fault e ↔ e.control action = .error fault := by
  simp only [execute, change]
  cases h : e.control action <;> simp

/-- A fault of an instruction that changes nothing is the fault of its step. -/
theorem step_error {index : Nat} {instruction : Instruction} {fault : Fault} {e : Engine}
    (allowed : (e.begin index instruction).checkSteps = .ok ())
    (h : execute instruction.directive (e.arrive index instruction) = .error fault (e.arrive index instruction)) :
    step index instruction e = .error fault (e.arrive index instruction) := by
  have begun : (modify (·.begin index instruction) : Step PUnit) e = .ok () (e.begin index instruction) := rfl
  have arrived : (modify fun e : Engine => e.emit (.instruction index instruction e.cursor) : Step PUnit)
      (e.begin index instruction) = .ok () (e.arrive index instruction) := rfl
  rw [step, step_bind_of_ok begun, step_bind_of_ok (check_ok.mpr ⟨allowed, rfl⟩), step_bind_of_ok arrived]
  exact h

theorem runFrom_cons_ok {index : Nat} {instruction : Instruction} {rest : List Instruction} {e final : Engine} :
    runFrom index (instruction :: rest) e = (none, final) ↔
      ∃ e', step index instruction e = .ok () e' ∧ runFrom (index + 1) rest e' = (none, final) := by
  simp only [runFrom]
  cases h : step index instruction e with
  | ok u e' => simp
  | error fault e' => simp

/-- A run of two parts, of which the second is not empty. -/
theorem runFrom_append_ok {index : Nat} {front rest : List Instruction} {instruction : Instruction} {e final : Engine} :
    runFrom index (front ++ instruction :: rest) e = (none, final) ↔
      ∃ e', runFrom index front e = (none, e')
        ∧ runFrom (index + front.length) (instruction :: rest) e' = (none, final) := by
  induction front generalizing index e with
  | nil =>
    -- the end of a part only forgets which instruction was executed last
    have same : runFrom index (instruction :: rest) e.rest = runFrom index (instruction :: rest) e := rfl
    constructor
    · intro done
      exact ⟨e.rest, rfl, same.trans done⟩
    · rintro ⟨_, ⟨⟩, done⟩
      exact same.symm.trans done
  | cons first front ih =>
    have place : index + (first :: front).length = index + 1 + front.length := by
      rw [List.length_cons]
      omega
    simp only [List.cons_append, runFrom_cons_ok, ih, place]
    constructor
    · rintro ⟨e₁, taken, e', before, done⟩
      exact ⟨e', ⟨e₁, taken, before⟩, done⟩
    · rintro ⟨e', ⟨e₁, taken, before⟩, done⟩
      exact ⟨e₁, taken, e', before, done⟩

end Decoder

/-! ## Encoding -/

namespace Encoder

theorem toField_ok {encoding : Encoding} {v : Value} {width : Option Nat} {bits : Bits} :
    toField encoding v width = .ok bits ↔ Field.encode encoding v width = .ok bits := by
  rw [toField, except_mapError_ok]

/-- Writing a field puts its bits down and records the changes that the flags ask for. -/
theorem writeBits_ok {encoding : Encoding} {bits : Bits} {s s' : Encoder} {u : Unit} :
    writeBits encoding bits s = .ok u s' ↔
      ∃ ts, s.engine.flags.transforms s.engine.cursor bits.length encoding = .ok ts
        ∧ { s with engine := { ts.foldl Engine.record s.engine with storage := s.engine.storage.write bits } } = s' := by
  simp only [writeBits, put, recordAll, step_bind_ok, check_ok, onEngine_ok, Engine.foldl_record]
  constructor
  · rintro ⟨ts, _, ⟨asked, rfl⟩, _, _, rfl, rfl⟩
    exact ⟨ts, asked, rfl⟩
  · rintro ⟨ts, asked, rfl⟩
    exact ⟨ts, s, ⟨asked, rfl⟩, (), _, rfl, rfl⟩

theorem writeField_ok {encoding : Encoding} {v : Value} {bits : Bits} {s s' : Encoder} {u : Unit} :
    writeField encoding v bits s = .ok u s' ↔
      ∃ s₁, writeBits encoding bits s = .ok () s₁
        ∧ { s₁ with engine := s₁.engine.produce v s.engine.cursor } = s' := by
  simp only [writeField, step_bind_ok, engineNow_ok, onEngine_ok]
  constructor
  · rintro ⟨_, _, ⟨rfl, rfl⟩, _, s₁, written, rfl⟩
    exact ⟨s₁, written, rfl⟩
  · rintro ⟨s₁, written, rfl⟩
    exact ⟨s.engine, s, ⟨rfl, rfl⟩, (), s₁, written, rfl⟩

theorem reserve_ok {e : Engine} {width : Nat} {u : Unit} :
    e.reserve width = .ok u ↔ e.storage.length + width ≤ e.limits.maxBits := by
  by_cases full : e.limits.maxBits < e.storage.length + width
  · simp [Engine.reserve, full, Nat.not_le.mpr full]
  · simp [Engine.reserve, full, Nat.not_lt.mp full]

theorem writeConstant_ok {bit : Bool} {width : Nat} {s s' : Encoder} {u : Unit} :
    writeConstant bit width s = .ok u s' ↔ s.engine.storage.length + width ≤ s.engine.limits.maxBits
      ∧ writeBits .uint (List.replicate width bit) s = .ok u s' := by
  simp only [writeConstant, step_bind_ok, check_ok, reserve_ok]
  constructor
  · rintro ⟨_, _, ⟨room, rfl⟩, h⟩
    exact ⟨room, h⟩
  · rintro ⟨room, h⟩
    exact ⟨(), s, ⟨room, rfl⟩, h⟩

theorem gapEncoding_true (v : Value) : gapEncoding true v = .bytes := by
  cases v <;> rfl

/-- The engine after a gap of the given bits that stands for a value. -/
def afterGap (e : Engine) (v : Value) (bits : Bits) : Engine :=
  { e.emit (.seek e.cursor (e.cursor + bits.length)) with storage := e.storage.write bits }.produce v e.cursor

theorem writeGap_ok {bytesOnly : Bool} {s s' : Encoder} {width : Nat} :
    writeGap bytesOnly s = .ok width s' ↔
      ∃ v rest bits, s.input = v :: rest ∧ Field.encode (gapEncoding bytesOnly v) v none = .ok bits
        ∧ width = bits.length ∧ { s with input := rest, engine := afterGap s.engine v bits } = s' := by
  simp only [writeGap, put, step_bind_ok, nextInput_ok, check_ok, engineNow_ok, onEngine_ok, step_pure_ok, toField_ok]
  constructor
  · rintro ⟨v, _, ⟨rest, input, rfl⟩, bits, _, ⟨written, rfl⟩, _, _, ⟨rfl, rfl⟩, _, _, rfl, _, _, rfl, _, _, rfl, rfl,
      rfl⟩
    exact ⟨v, rest, bits, input, written, rfl, rfl⟩
  · rintro ⟨v, rest, bits, input, written, rfl, rfl⟩
    exact ⟨v, _, ⟨rest, input, rfl⟩, bits, _, ⟨written, rfl⟩, _, _, ⟨rfl, rfl⟩, (), _, rfl, (), _, rfl, (), _, rfl, rfl,
      rfl⟩

theorem jump_ok {origin : JumpOrigin} {bits : Nat} {s s' : Encoder} {u : Unit} :
    jump origin bits s = .ok u s' ↔
      ∃ gap s₁, writeGap false s = .ok gap s₁
        ∧ { s₁ with pending := s₁.pending ++
            [⟨s.engine.log.length, s.engine.cursor, gap, .jump origin bits, s.engine.context⟩] } = s' := by
  simp only [jump, postpone, step_bind_ok, engineNow_ok, step_modify_ok]
  constructor
  · rintro ⟨_, _, ⟨rfl, rfl⟩, gap, s₁, written, rfl⟩
    exact ⟨gap, s₁, written, rfl⟩
  · rintro ⟨gap, s₁, written, rfl⟩
    exact ⟨s.engine, s, ⟨rfl, rfl⟩, gap, s₁, written, rfl⟩

theorem marker_ok {last : Bool} {bytes : List UInt8} {s s' : Encoder} {u : Unit} :
    marker last bytes s = .ok u s' ↔
      ∃ needle gap s₁, s.engine.cursor % 8 = 0 ∧ Engine.disguise s.engine.flags bytes = .ok needle
        ∧ writeGap true s = .ok gap s₁
        ∧ writeBits .bytes (Bits.ofBytes bytes) { s₁ with pending := s₁.pending ++
            [⟨s₁.engine.log.length, s.engine.cursor, gap, .marker needle bytes last, s₁.engine.context⟩] }
          = .ok u s' := by
  simp only [marker, postpone, step_bind_ok, check_ok, engineNow_ok, step_modify_ok, Engine.requireAligned_ok]
  constructor
  · rintro ⟨_, _, ⟨aligned, rfl⟩, _, _, ⟨rfl, rfl⟩, needle, _, ⟨disguised, rfl⟩, gap, s₁, written, _, _, ⟨rfl, rfl⟩,
      _, _, rfl, h⟩
    exact ⟨needle, gap, s₁, aligned, disguised, written, h⟩
  · rintro ⟨needle, gap, s₁, aligned, disguised, written, h⟩
    exact ⟨(), s, ⟨aligned, rfl⟩, s.engine, s, ⟨rfl, rfl⟩, needle, s, ⟨disguised, rfl⟩, gap, s₁, written,
      s₁.engine, s₁, ⟨rfl, rfl⟩, (), _, rfl, h⟩

theorem execute_value_ok {encoding : Encoding} {width : Nat} {s s' : Encoder} {u : Unit} :
    execute (.value encoding (.bits width)) s = .ok u s' ↔
      ∃ v rest bits, s.input = v :: rest ∧ s.engine.storage.length + width ≤ s.engine.limits.maxBits
        ∧ Field.encode encoding v (some width) = .ok bits
        ∧ writeField encoding v bits { s with input := rest } = .ok u s' := by
  simp only [execute, step_bind_ok, nextInput_ok, check_ok, reserve_ok, toField_ok]
  constructor
  · rintro ⟨v, _, ⟨rest, input, rfl⟩, _, _, ⟨room, rfl⟩, bits, _, ⟨encoded, rfl⟩, h⟩
    exact ⟨v, rest, bits, input, room, encoded, h⟩
  · rintro ⟨v, rest, bits, input, room, encoded, h⟩
    exact ⟨v, _, ⟨rest, input, rfl⟩, (), _, ⟨room, rfl⟩, bits, _, ⟨encoded, rfl⟩, h⟩

/-- A field up to the end takes its own width, or the next one that ends on a byte boundary and reads as the value. -/
theorem restBits_ok {position : Nat} {encoding : Encoding} {v : Value} {bits : Bits} :
    restBits position encoding v = .ok bits ↔ ∃ own, Field.encode encoding v none = .ok own
      ∧ (Bits.padding (position + own.length) = 0 ∧ own = bits
        ∨ Bits.padding (position + own.length) ≠ 0
          ∧ Field.encode encoding v (some (own.length + Bits.padding (position + own.length))) = .ok bits
          ∧ ∃ back, Field.decode encoding bits = .ok back ∧ absorbsPadding v back = true) := by
  simp only [restBits, except_bind_ok, toField_ok]
  constructor
  · rintro ⟨own, encoded, h⟩
    refine ⟨own, encoded, ?_⟩
    split at h
    · rename_i even
      cases h
      exact .inl ⟨even, rfl⟩
    · rename_i odd
      split at h
      · cases h
      · rename_i wide widened
        split at h
        · cases h
        · rename_i back decoded
          split at h
          · rename_i absorbed
            cases h
            exact .inr ⟨odd, widened, back, decoded, absorbed⟩
          · cases h
  · rintro ⟨own, encoded, ⟨even, rfl⟩ | ⟨odd, widened, back, decoded, absorbed⟩⟩
    · exact ⟨own, encoded, by rw [if_pos even]; rfl⟩
    · refine ⟨own, encoded, ?_⟩
      rw [if_neg odd, widened]
      simp only [decoded, if_pos absorbed]
      rfl

/-- The encoder after a field that runs to the end of the data. -/
def marked (s : Encoder) : Encoder :=
  match s.restEnd with
  | some _ => s
  | none => { s with restEnd := some (s.engine.cursor, s.engine.context) }

@[simp] theorem engine_marked (s : Encoder) : s.marked.engine = s.engine := by
  simp only [marked]
  cases s.restEnd <;> rfl

@[simp] theorem input_marked (s : Encoder) : s.marked.input = s.input := by
  simp only [marked]
  cases s.restEnd <;> rfl

theorem markRest_ok {s s' : Encoder} {u : Unit} : markRest s = .ok u s' ↔ s.marked = s' :=
  step_modify_ok

theorem execute_rest_ok {encoding : Encoding} {s s' : Encoder} {u : Unit} :
    execute (.value encoding .rest) s = .ok u s' ↔
      ∃ v rest bits s₁, s.input = v :: rest ∧ restBits s.engine.cursor encoding v = .ok bits
        ∧ writeField encoding v bits { s with input := rest } = .ok () s₁ ∧ s₁.marked = s' := by
  simp only [execute, step_bind_ok, nextInput_ok, check_ok, markRest_ok]
  constructor
  · rintro ⟨v, _, ⟨rest, input, rfl⟩, bits, _, ⟨widened, rfl⟩, _, s₁, written, rfl⟩
    exact ⟨v, rest, bits, s₁, input, widened, written, rfl⟩
  · rintro ⟨v, rest, bits, s₁, input, widened, written, rfl⟩
    exact ⟨v, _, ⟨rest, input, rfl⟩, bits, _, ⟨widened, rfl⟩, (), s₁, written, rfl⟩

theorem execute_takeAll_ok {encoding : Encoding} {s s' : Encoder} {u : Unit} :
    execute (.takeAll encoding) s = .ok u s' ↔
      ∃ v rest bits s₁, s.engine.cursor % 8 = 0 ∧ s.input = v :: rest ∧ Field.encode encoding v none = .ok bits
        ∧ writeField encoding v bits { s with input := rest } = .ok () s₁ ∧ s₁.marked = s' := by
  simp only [execute, step_bind_ok, nextInput_ok, check_ok, markRest_ok, toField_ok, Engine.requireAligned_ok]
  constructor
  · rintro ⟨_, _, ⟨even, rfl⟩, v, _, ⟨rest, input, rfl⟩, bits, _, ⟨encoded, rfl⟩, _, s₁, written, rfl⟩
    exact ⟨v, rest, bits, s₁, even, input, encoded, written, rfl⟩
  · rintro ⟨v, rest, bits, s₁, even, input, encoded, written, rfl⟩
    exact ⟨(), s, ⟨even, rfl⟩, v, _, ⟨rest, input, rfl⟩, bits, _, ⟨encoded, rfl⟩, (), s₁, written, rfl⟩

theorem execute_next_ok {width : Nat} {s s' : Encoder} {u : Unit} :
    execute (.next width) s = .ok u s' ↔ s.engine.storage.length + width ≤ s.engine.limits.maxBits
      ∧ { s with engine := { s.engine with storage := s.engine.storage.write (List.replicate width false) } } = s' := by
  simp only [execute, put, step_bind_ok, check_ok, reserve_ok, onEngine_ok]
  constructor
  · rintro ⟨_, _, ⟨room, rfl⟩, rfl⟩
    exact ⟨room, rfl⟩
  · rintro ⟨room, rfl⟩
    exact ⟨(), s, ⟨room, rfl⟩, rfl⟩

theorem execute_mod_ok {change : CursorChange} {width : Width} {s s' : Encoder} {u : Unit} :
    execute (.mod change width) s = .ok u s' ↔
      ∃ ts, Transform.atCursor change s.engine.cursor width = .ok ts
        ∧ { s with engine := ts.foldl Engine.record s.engine } = s' := by
  simp only [execute, recordAll, step_bind_ok, check_ok, onEngine_ok]
  constructor
  · rintro ⟨ts, _, ⟨asked, rfl⟩, rfl⟩
    exact ⟨ts, asked, rfl⟩
  · rintro ⟨ts, asked, rfl⟩
    exact ⟨ts, s, ⟨asked, rfl⟩, rfl⟩

theorem execute_modOff_ok {change : OffsetChange} {offset : Nat} {width : Width} {s s' : Encoder} {u : Unit} :
    execute (.modOff change offset width) s = .ok u s' ↔
      { s with engine := (Transform.atOffset change s.engine.cursor offset width).foldl Engine.record s.engine } = s' := by
  simp only [execute, recordAll, step_bind_ok, engineNow_ok, onEngine_ok]
  constructor
  · rintro ⟨_, _, ⟨rfl, rfl⟩, rfl⟩
    rfl
  · rintro rfl
    exact ⟨s.engine, s, ⟨rfl, rfl⟩, rfl⟩

theorem execute_control_ok {action : Control} {s s' : Encoder} {u : Unit} :
    execute (.control action) s = .ok u s' ↔ ∃ e, s.engine.control action = .ok e ∧ { s with engine := e } = s' := by
  simp only [execute, step_bind_ok, check_ok, onEngine_ok]
  constructor
  · rintro ⟨e, _, ⟨done, rfl⟩, rfl⟩
    exact ⟨e, done, rfl⟩
  · rintro ⟨e, done, rfl⟩
    exact ⟨e, s, ⟨done, rfl⟩, rfl⟩

theorem step_ok {index : Nat} {instruction : Instruction} {s s' : Encoder} {u : Unit} :
    step index instruction s = .ok u s' ↔
      (s.engine.begin index instruction).checkSteps = .ok ()
        ∧ execute instruction.directive { s with engine := s.engine.arrive index instruction } = .ok u s' := by
  simp only [step, step_bind_ok, onEngine_ok, check_ok]
  constructor
  · rintro ⟨_, _, rfl, _, _, ⟨allowed, rfl⟩, _, _, rfl, h⟩
    exact ⟨allowed, h⟩
  · rintro ⟨allowed, h⟩
    exact ⟨(), _, rfl, (), _, ⟨allowed, rfl⟩, (), _, rfl, h⟩

theorem execute_control_error {action : Control} {fault : Fault} {s : Encoder} (h : s.engine.control action = .error fault) :
    execute (.control action) s = .error fault s := by
  have refused : check (·.control action) s = .error fault s := by simp only [check, h]
  rw [execute, step_bind_of_error refused]

/-- A fault of an instruction is the fault of its step. -/
theorem step_error {index : Nat} {instruction : Instruction} {fault : Fault} {s s' : Encoder}
    (allowed : (s.engine.begin index instruction).checkSteps = .ok ())
    (h : execute instruction.directive { s with engine := s.engine.arrive index instruction } = .error fault s') :
    step index instruction s = .error fault s' := by
  let begun : Encoder := { s with engine := s.engine.begin index instruction }
  have first : onEngine (·.begin index instruction) s = .ok () begun := onEngine_ok.mpr rfl
  have second : check (·.checkSteps) begun = .ok () begun := check_ok.mpr ⟨allowed, rfl⟩
  have third : onEngine (fun e => e.emit (.instruction index instruction e.cursor)) begun
      = .ok () { s with engine := s.engine.arrive index instruction } := onEngine_ok.mpr rfl
  rw [step, step_bind_of_ok first, step_bind_of_ok second, step_bind_of_ok third]
  exact h

theorem runFrom_cons_ok {index : Nat} {instruction : Instruction} {rest : List Instruction} {s final : Encoder} :
    runFrom index (instruction :: rest) s = (none, final) ↔
      ∃ s', step index instruction s = .ok () s' ∧ runFrom (index + 1) rest s' = (none, final) := by
  simp only [runFrom]
  cases h : step index instruction s with
  | ok u s' => simp
  | error fault s' => simp

/-- A run of two parts, of which the second is not empty. -/
theorem runFrom_append_ok {index : Nat} {front rest : List Instruction} {instruction : Instruction} {s final : Encoder} :
    runFrom index (front ++ instruction :: rest) s = (none, final) ↔
      ∃ s', runFrom index front s = (none, s')
        ∧ runFrom (index + front.length) (instruction :: rest) s' = (none, final) := by
  induction front generalizing index s with
  | nil =>
    -- the end of a part only forgets which instruction was executed last
    have same : runFrom index (instruction :: rest) { s with engine := s.engine.rest }
        = runFrom index (instruction :: rest) s := rfl
    constructor
    · intro done
      exact ⟨_, rfl, same.trans done⟩
    · rintro ⟨_, ⟨⟩, done⟩
      exact same.symm.trans done
  | cons first front ih =>
    have place : index + (first :: front).length = index + 1 + front.length := by
      rw [List.length_cons]
      omega
    simp only [List.cons_append, runFrom_cons_ok, ih, place]
    constructor
    · rintro ⟨s₁, taken, s', before, done⟩
      exact ⟨s', ⟨s₁, taken, before⟩, done⟩
    · rintro ⟨s', ⟨s₁, taken, before⟩, done⟩
      exact ⟨s₁, taken, s', before, done⟩

end Encoder

end BitTemplate
