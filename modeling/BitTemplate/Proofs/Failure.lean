import BitTemplate.Proofs.Disguise

/-!
Instructions that fail. A decoder that fails has read on and perhaps applied some of its transforms, but its record is
as it was: open records, path, shape, last value, labels and flags. An encoder that fails has at most taken one value of
its input, and wrote nothing. Both hold of every directive, because whatever can fail comes before the first change; a
marker's bytes, which are read after its gap has become a value, cannot fail.
-/

namespace BitTemplate

/-! ## Decoding -/

namespace Decoder

variable {e e' e'' : Engine} {fault : Fault} {inWord : Prop}

/-- What reading does to an engine: it applies transforms and logs them, moves the cursor on and has more to show. The
record stays as it is. Where the sums of windows are words, the transforms apply to what comes after the cursor. -/
inductive Consumes (inWord : Prop) (e : Engine) : Engine → Prop
  | intro (ts : List Transform) (s : Storage) (events : List Event)
      (applied : Transform.onAll? ts e.storage.bits = some s.bits) (keeps : inWord → Transform.Keeps e.cursor ts)
      (moved : e.cursor ≤ s.cursor) :
      Consumes inWord e { e with storage := s, log := Log.entries e.walk.flat ts ++ e.log, events }

namespace Consumes

theorem refl (e : Engine) : Consumes inWord e e :=
  .intro [] e.storage e.events rfl (fun _ => Transform.Keeps.nil _) (Nat.le_refl _)

theorem trans (h : Consumes inWord e e') (h' : Consumes inWord e' e'') : Consumes inWord e e'' := by
  obtain ⟨ts, s, events, applied, keeps, moved⟩ := h
  obtain ⟨ts', s', events', applied', keeps', moved'⟩ := h'
  have both := Consumes.intro (ts ++ ts') s' events'
    (by rw [Transform.onAll?_append, applied, Option.bind_some, applied'])
    (fun sums => (keeps sums).append ((keeps' sums).mono moved)) (Nat.le_trans moved moved')
  rwa [Log.entries_append, List.append_assoc] at both

theorem emit (e : Engine) (event : Event) : Consumes inWord e (e.emit event) :=
  .intro [] e.storage _ rfl (fun _ => Transform.Keeps.nil _) (Nat.le_refl _)

/-- Bits that are passed as they stand. -/
theorem pass {s : Storage} (kept : s.bits = e.storage.bits) (moved : e.cursor ≤ s.cursor) :
    Consumes inWord e { e with storage := s } :=
  .intro [] s e.events (congrArg some kept.symm) (fun _ => Transform.Keeps.nil _) moved

theorem transformAll {ts : List Transform} {u : Unit} (keeps : inWord → Transform.Keeps e.cursor ts)
    (done : Decoder.transformAll ts e = .ok u e') : Consumes inWord e e' := by
  obtain ⟨s, applied, rfl⟩ := transformAll_ok.mp done
  obtain ⟨bits, cursor⟩ := Storage.applyAll_ok.mp applied
  rw [Engine.foldl_record]
  exact .intro ts s _ bits keeps (Nat.le_of_eq cursor)

/-- Where transforms fail, those in front of the failing one are applied. -/
theorem transformAll_failed {ts : List Transform} (failed : Decoder.transformAll ts e = .error fault e') :
    ∃ front, front <+: ts ∧ Decoder.transformAll front e = .ok () e' := by
  induction ts generalizing e with
  | nil => exact (step_pure_error.mp failed).elim
  | cons t ts ih =>
    simp only [Decoder.transformAll, step_bind_error] at failed
    rcases failed with first | ⟨_, e₁, first, later⟩
    · obtain ⟨_, rfl⟩ := change_error.mp first
      exact ⟨[], List.nil_prefix, rfl⟩
    · obtain ⟨front, short, done⟩ := ih later
      exact ⟨t :: front, List.prefix_cons_inj t |>.mpr short, step_bind_ok.mpr ⟨(), e₁, first, done⟩⟩

theorem of_transformAll_failed {ts : List Transform} (keeps : inWord → Transform.Keeps e.cursor ts)
    (failed : Decoder.transformAll ts e = .error fault e') : Consumes inWord e e' := by
  obtain ⟨front, short, done⟩ := transformAll_failed failed
  exact transformAll (fun sums => (keeps sums).shorter short) done

theorem take_failed {width : Nat} (failed : take width e = .error fault e') : e = e' := by
  simp only [take, step_bind_error, step_modify_error, step_pure_error, check_error, and_false, exists_false,
    or_false] at failed
  exact failed.2

theorem readBits {encoding : Encoding} {width : Nat} {bits : Bits}
    (done : Decoder.readBits encoding width e = .ok bits e') : Consumes inWord e e' := by
  obtain ⟨ts, s, asked, applied, _, moved, _, rfl⟩ := readBits_ok.mp done
  rw [Engine.foldl_record]
  exact .intro ts s _ applied (fun _ => Flags.keeps asked) (by omega)

theorem readBits_failed {encoding : Encoding} {width : Nat}
    (failed : Decoder.readBits encoding width e = .error fault e') : Consumes inWord e e' := by
  simp only [Decoder.readBits, step_bind_error, check_error, check_ok] at failed
  rcases failed with ⟨_, rfl⟩ | ⟨_, _, ⟨_, rfl⟩, ⟨_, rfl⟩ | ⟨ts, _, ⟨asked, rfl⟩, failed | ⟨_, e₁, done, failed⟩⟩⟩
  · exact refl e
  · exact refl e
  · exact of_transformAll_failed (fun _ => Flags.keeps asked) failed
  · rw [← take_failed failed]
    exact transformAll (fun _ => Flags.keeps asked) done

theorem readField_failed {encoding : Encoding} {width : Nat}
    (failed : readField encoding width e = .error fault e') : Consumes inWord e e' := by
  simp only [readField, interpret, step_bind_error, check_error] at failed
  rcases failed with failed | ⟨bits, _, done, _, rfl⟩
  · exact readBits_failed failed
  · exact readBits done

theorem produceField_failed {encoding : Encoding} {width : Nat}
    (failed : produceField encoding width e = .error fault e') : Consumes inWord e e' := by
  simp only [produceField, step_bind_error, step_get_error, step_get_ok, step_modify_error, and_false, exists_false,
    or_false, false_or] at failed
  obtain ⟨_, _, ⟨rfl, rfl⟩, failed⟩ := failed
  exact readField_failed failed

theorem produceGap_failed {encoding : Encoding} {target : Nat}
    (failed : produceGap encoding target e = .error fault e') : Consumes inWord e e' := by
  simp only [produceGap, interpret, step_bind_error, step_get_error, step_get_ok, step_modify_error, step_modify_ok,
    check_error, and_false, exists_false, or_false, false_or] at failed
  obtain ⟨_, _, ⟨rfl, rfl⟩, _, _, rfl, failed | ⟨bits, _, taken, _, rfl⟩⟩ := failed
  · rw [← take_failed failed]
    exact emit e _
  · obtain ⟨s, read, rfl⟩ := take_ok.mp taken
    obtain ⟨_, _, kept, moved⟩ := Storage.read_ok.mp read
    exact (emit e _).trans (pass kept (Nat.le.intro moved.symm))

theorem jump_failed {origin : JumpOrigin} {bits : Nat} (failed : jump origin bits e = .error fault e') :
    Consumes inWord e e' := by
  simp only [jump, step_bind_error, step_get_error, step_get_ok, check_error, check_ok, false_or] at failed
  obtain ⟨_, _, ⟨rfl, rfl⟩, ⟨_, rfl⟩ | ⟨target, _, ⟨_, rfl⟩, failed⟩⟩ := failed
  · exact refl e
  · exact produceGap_failed failed

theorem readConstant_failed {bit : Bool} {width : Nat} (failed : readConstant bit width e = .error fault e') :
    Consumes inWord e e' := by
  simp only [readConstant, step_bind_error] at failed
  rcases failed with failed | ⟨bits, e₁, done, failed⟩
  · exact readBits_failed failed
  · split at failed
    · exact (step_pure_error.mp failed).elim
    · obtain ⟨_, rfl⟩ := step_throw_error.mp failed
      exact readBits done

/-- A marker fails before it makes a value of its gap. -/
theorem marker_failed {last : Bool} {bytes : List UInt8} (failed : marker last bytes e = .error fault e') :
    Consumes inWord e e' := by
  simp only [marker, step_bind_error, check_error, check_ok] at failed
  rcases failed with ⟨_, rfl⟩ | ⟨_, _, ⟨_, rfl⟩, ⟨_, rfl⟩ | ⟨needle, _, ⟨disguised, rfl⟩, ⟨_, rfl⟩ |
    ⟨found, _, ⟨search, rfl⟩, failed | ⟨_, e₁, gap, failed⟩⟩⟩⟩
  · exact refl e
  · exact refl e
  · exact refl e
  · exact produceGap_failed failed
  · -- what stands at the place found reads as the bytes, so neither reading nor comparing fails
    split at search
    · rename_i place here
      cases search
      obtain ⟨e₂, read, _⟩ := readField_after_gap disguised here gap
      rcases failed with failed | ⟨v, e₃, again, failed⟩
      · rw [read] at failed
        cases failed
      · rw [read] at again
        cases again
        rw [if_pos (isBytes_eq_true.mpr rfl)] at failed
        exact (step_pure_error.mp failed).elim
    · cases search

/-- An instruction that fails only consumes. -/
theorem execute_failed {directive : Directive} (failed : execute directive e = .error fault e') :
    Consumes (directive.InWord e.cursor) e e' := by
  cases directive with
  | value encoding width =>
    cases width with
    | bits width => exact produceField_failed failed
    | rest =>
      simp only [execute, step_bind_error, step_get_error, step_get_ok, false_or] at failed
      obtain ⟨_, _, ⟨rfl, rfl⟩, failed⟩ := failed
      exact produceField_failed failed
  | next width =>
    simp only [execute, step_bind_error, check_error, check_ok, step_discard_error] at failed
    rcases failed with ⟨_, rfl⟩ | ⟨_, _, ⟨_, rfl⟩, failed⟩
    · exact refl e
    · rw [← take_failed failed]
      exact refl e
  | constant bit width => exact readConstant_failed failed
  | mod change width =>
    simp only [execute, step_bind_error, check_error, check_ok] at failed
    rcases failed with ⟨_, rfl⟩ | ⟨ts, _, ⟨asked, rfl⟩, failed⟩
    · exact refl e
    · exact of_transformAll_failed (fun _ => Transform.Keeps.atCursor asked) failed
  | modOff change offset width =>
    simp only [execute, step_bind_error, step_get_error, step_get_ok, false_or] at failed
    obtain ⟨_, _, ⟨rfl, rfl⟩, failed⟩ := failed
    exact of_transformAll_failed Transform.Keeps.atOffset failed
  | takeAll encoding =>
    simp only [execute, step_bind_error, step_get_error, step_get_ok, check_error, check_ok, false_or] at failed
    rcases failed with ⟨_, rfl⟩ | ⟨_, _, ⟨_, rfl⟩, _, _, ⟨rfl, rfl⟩, failed⟩
    · exact refl e
    · exact produceField_failed failed
  | jump origin bits => exact jump_failed failed
  | marker last bytes => exact marker_failed failed
  | control action =>
    rw [execute, change_error] at failed
    rw [← failed.2]
    exact refl e

end Consumes

theorem step_failed {index : Nat} {instruction : Instruction} (failed : step index instruction e = .error fault e') :
    e' = e.begin index instruction
      ∨ Consumes (instruction.directive.InWord e.cursor) (e.arrive index instruction) e' := by
  simp only [step, step_bind_error, step_modify_error, step_modify_ok, check_error, check_ok, false_or] at failed
  obtain ⟨_, _, rfl, ⟨_, rfl⟩ | ⟨_, _, ⟨_, rfl⟩, _, _, rfl, failed⟩⟩ := failed
  · exact .inl rfl
  · exact .inr (Consumes.execute_failed failed)

end Decoder

/-! ## Encoding -/

namespace Encoder

variable {s s' : Encoder} {fault : Fault}

/-- What an encoder leaves that refuses to write: itself, or itself without the next value of its input. -/
inductive Refuses (s : Encoder) : Encoder → Prop
  | untouched : Refuses s s
  | taken {v : Value} {rest : List Value} (input : s.input = v :: rest) : Refuses s { s with input := rest }

namespace Refuses

theorem writeBits_failed {encoding : Encoding} {bits : Bits} (failed : writeBits encoding bits s = .error fault s') :
    s = s' := by
  simp only [writeBits, put, recordAll, step_bind_error, check_error, onEngine_error, and_false, exists_false,
    or_false] at failed
  exact failed.2

theorem writeField_failed {encoding : Encoding} {v : Value} {bits : Bits}
    (failed : writeField encoding v bits s = .error fault s') : s = s' := by
  simp only [writeField, step_bind_error, engineNow_error, engineNow_ok, onEngine_error, and_false, exists_false,
    or_false, false_or] at failed
  obtain ⟨_, _, ⟨rfl, rfl⟩, failed⟩ := failed
  exact writeBits_failed failed

theorem markRest_failed (failed : markRest s = .error fault s') : False :=
  step_modify_error.mp failed

theorem writeGap_failed {bytesOnly : Bool} (failed : writeGap bytesOnly s = .error fault s') : Refuses s s' := by
  simp only [writeGap, put, step_bind_error, nextInput_error, nextInput_ok, engineNow_error, onEngine_error, check_error,
    step_pure_error, and_false, exists_false, or_false] at failed
  rcases failed with ⟨_, _, rfl⟩ | ⟨v, _, ⟨rest, input, rfl⟩, _, rfl⟩
  · exact .untouched
  · exact .taken input

theorem jump_failed {origin : JumpOrigin} {bits : Nat} (failed : jump origin bits s = .error fault s') :
    Refuses s s' := by
  simp only [jump, postpone, step_bind_error, engineNow_error, engineNow_ok, step_modify_error, and_false, exists_false,
    or_false, false_or] at failed
  obtain ⟨_, _, ⟨rfl, rfl⟩, failed⟩ := failed
  exact writeGap_failed failed

/-- Whole bytes can be written under all flags. -/
theorem writeBits_ofBytes (s : Encoder) (bytes : List UInt8) :
    ∃ s', writeBits .bytes (Bits.ofBytes bytes) s = .ok () s' := by
  have whole : (Bits.ofBytes bytes).length % 8 = 0 := by rw [Bits.length_ofBytes, Nat.mul_mod_right]
  obtain ⟨ts, asked⟩ := s.engine.flags.exists_transforms s.engine.cursor .bytes whole
  exact ⟨_, writeBits_ok.mpr ⟨ts, asked, rfl⟩⟩

/-- A marker fails before it writes its gap. -/
theorem marker_failed {last : Bool} {bytes : List UInt8} (failed : marker last bytes s = .error fault s') :
    Refuses s s' := by
  simp only [marker, postpone, step_bind_error, check_error, check_ok, engineNow_error, engineNow_ok, step_modify_error,
    step_modify_ok, false_or] at failed
  rcases failed with ⟨_, rfl⟩ | ⟨_, _, ⟨_, rfl⟩, _, _, ⟨rfl, rfl⟩, ⟨_, rfl⟩ | ⟨needle, _, ⟨_, rfl⟩, failed |
    ⟨gap, s₁, _, _, _, ⟨rfl, rfl⟩, _, _, rfl, failed⟩⟩⟩
  · exact .untouched
  · exact .untouched
  · exact writeGap_failed failed
  · obtain ⟨s₂, written⟩ := writeBits_ofBytes { s₁ with pending := s₁.pending ++
      [⟨s₁.engine.log.length, s.engine.cursor, gap, .marker needle bytes last, s₁.engine.context⟩] } bytes
    rw [written] at failed
    cases failed

/-- An instruction that fails writes nothing. -/
theorem execute_failed {directive : Directive} (failed : execute directive s = .error fault s') : Refuses s s' := by
  cases directive with
  | value encoding width =>
    cases width with
    | bits width =>
      simp only [execute, step_bind_error, nextInput_error, nextInput_ok, check_error, check_ok] at failed
      rcases failed with ⟨_, _, rfl⟩ | ⟨v, _, ⟨rest, input, rfl⟩, ⟨_, rfl⟩ | ⟨_, _, ⟨_, rfl⟩, ⟨_, rfl⟩ |
        ⟨bits, _, ⟨_, rfl⟩, failed⟩⟩⟩
      · exact .untouched
      · exact .taken input
      · exact .taken input
      · rw [← writeField_failed failed]
        exact .taken input
    | rest =>
      simp only [execute, step_bind_error, nextInput_error, nextInput_ok, check_error, check_ok] at failed
      rcases failed with ⟨_, _, rfl⟩ | ⟨v, _, ⟨rest, input, rfl⟩, ⟨_, rfl⟩ | ⟨bits, _, ⟨_, rfl⟩, failed |
        ⟨_, _, _, failed⟩⟩⟩
      · exact .untouched
      · exact .taken input
      · rw [← writeField_failed failed]
        exact .taken input
      · exact (markRest_failed failed).elim
  | next width =>
    simp only [execute, put, step_bind_error, check_error, onEngine_error, and_false, exists_false, or_false] at failed
    rw [← failed.2]
    exact .untouched
  | constant bit width =>
    simp only [execute, writeConstant, step_bind_error, check_error, check_ok] at failed
    rcases failed with ⟨_, rfl⟩ | ⟨_, _, ⟨_, rfl⟩, failed⟩
    · exact .untouched
    · rw [← writeBits_failed failed]
      exact .untouched
  | mod change width =>
    simp only [execute, recordAll, step_bind_error, check_error, onEngine_error, and_false, exists_false,
      or_false] at failed
    rw [← failed.2]
    exact .untouched
  | modOff change offset width =>
    simp only [execute, recordAll, step_bind_error, engineNow_error, onEngine_error, and_false, exists_false,
      or_false] at failed
  | takeAll encoding =>
    simp only [execute, step_bind_error, nextInput_error, nextInput_ok, check_error, check_ok] at failed
    rcases failed with ⟨_, rfl⟩ | ⟨_, _, ⟨_, rfl⟩, ⟨_, _, rfl⟩ | ⟨v, _, ⟨rest, input, rfl⟩, ⟨_, rfl⟩ |
      ⟨bits, _, ⟨_, rfl⟩, failed | ⟨_, _, _, failed⟩⟩⟩⟩
    · exact .untouched
    · exact .untouched
    · exact .taken input
    · rw [← writeField_failed failed]
      exact .taken input
    · exact (markRest_failed failed).elim
  | jump origin bits => exact jump_failed failed
  | marker last bytes => exact marker_failed failed
  | control action =>
    simp only [execute, step_bind_error, check_error, onEngine_error, and_false, exists_false, or_false] at failed
    rw [← failed.2]
    exact .untouched

end Refuses

theorem step_failed {index : Nat} {instruction : Instruction} (failed : step index instruction s = .error fault s') :
    s' = { s with engine := s.engine.begin index instruction }
      ∨ Refuses { s with engine := s.engine.arrive index instruction } s' := by
  simp only [step, step_bind_error, onEngine_error, onEngine_ok, check_error, check_ok, false_or] at failed
  obtain ⟨_, _, rfl, ⟨_, rfl⟩ | ⟨_, _, ⟨_, rfl⟩, _, _, rfl, failed⟩⟩ := failed
  · exact .inl rfl
  · exact .inr (Refuses.execute_failed failed)

end Encoder

/-! ## Both -/

/-- A failing instruction leaves the record as it is. A decoder has at most changed its storage and its log, and an
encoder has at most taken one value of its input. -/
theorem failure_keeps_record (index : Nat) (instruction : Instruction) (fault : Fault) :
    (∀ e e', Decoder.step index instruction e = .error fault e' →
      e' = { e with
        storage := e'.storage
        log := e'.log
        steps := e.steps + 1
        current := some (index, instruction.token)
        events := e'.events })
    ∧ ∀ s s', Encoder.step index instruction s = .error fault s' →
      s' = { s with
        engine := { s.engine with
          steps := s.engine.steps + 1
          current := some (index, instruction.token)
          events := s'.engine.events }
        input := s'.input }
      ∧ (s'.engine.events = s.engine.events
        ∨ s'.engine.events = .instruction index instruction s.engine.cursor :: s.engine.events)
      ∧ (s'.input = s.input ∨ ∃ v, s.input = v :: s'.input) := by
  constructor
  · intro e e' failed
    rcases Decoder.step_failed failed with rfl | ⟨_, _, _, _, _, _⟩
    · rfl
    · rfl
  · intro s s' failed
    rcases Encoder.step_failed failed with rfl | refuses
    · exact ⟨rfl, .inl rfl, .inl rfl⟩
    · cases refuses with
      | untouched => exact ⟨rfl, .inr rfl, .inl rfl⟩
      | taken input => exact ⟨rfl, .inr rfl, .inr ⟨_, input⟩⟩

/-- A number in a record and a pull from past the end of the data: its first reversal fits, its second does not. -/
def tornRecord : Program where
  instructions := [
    ⟨"[", ⟨0, 1⟩, .control .nestOpen⟩, ⟨"u8", ⟨1, 3⟩, .value .uint (.bits 8)⟩,
    ⟨"p16.$", ⟨4, 9⟩, .modOff .pull 16 .rest⟩, ⟨"]", ⟨9, 10⟩, .control .nestClose⟩]

/-- A number in a record and a jump. -/
def jumpingRecord : Program where
  instructions := [
    ⟨"[", ⟨0, 1⟩, .control .nestOpen⟩, ⟨"u8", ⟨1, 3⟩, .value .uint (.bits 8)⟩,
    ⟨"jf8", ⟨4, 7⟩, .jump .forward 8⟩, ⟨"]", ⟨7, 8⟩, .control .nestClose⟩]

theorem failure_keeps_record_torn :
    let d := Decoder.ofBytes [1, 2] ⟨20, 0⟩ true []
    let e := (Decoder.runFrom 0 (tornRecord.instructions.take 2) d.engine).2
    let e' := (d.run tornRecord).2.engine
    let s := Encoder.ofValues [.list [.uint 1, .text "z"]] ⟨20, 48⟩ []
    let s₁ := (Encoder.runFrom 0 (jumpingRecord.instructions.take 2) s).2
    let s' := (s.run jumpingRecord).2
    (e'.log.length = 1 ∧ e' = { e with
        storage := e'.storage
        log := e'.log
        steps := 3
        current := some (2, "p16.$")
        events := e'.events })
      ∧ s₁.input = [.text "z"] ∧ s'.input = [] ∧ s' = { s₁ with
        engine := { s₁.engine with
          steps := 3
          current := some (2, "jf8")
          events := s'.engine.events }
        input := s'.input } := by
  intro d e e' s s₁ s'
  have torn : Decoder.step 2 ⟨"p16.$", ⟨4, 9⟩, .modOff .pull 16 .rest⟩ e
      = .error (.regionOutside ⟨.reverse, .fixed 8, .fromEnd 16⟩ 16) e' := rfl
  have refused : Encoder.step 2 ⟨"jf8", ⟨4, 7⟩, .jump .forward 8⟩ s₁
      = .error (.field (.invalidDigits .bytes "z")) s' := rfl
  exact ⟨⟨rfl, (failure_keeps_record 2 _ _).1 e e' torn⟩, rfl, rfl, ((failure_keeps_record 2 _ _).2 s₁ s' refused).1⟩

end BitTemplate
