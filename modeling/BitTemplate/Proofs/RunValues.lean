import Mathlib
import BitTemplate.Proofs.Reencode

/-!
The values of a run. Every instruction that takes a value of an encoder's input reads one value for a decoder, and no
other instruction reads any. So the scalars of a decoded record are the values of these instructions, one after the
other, and what holds of each value that an instruction reads holds of the record, and the other way round.
-/

namespace BitTemplate

namespace Field

/-- Only fields of floating-point numbers are read as such numbers. -/
theorem ne_float_of_decode {encoding : Encoding} {bits : Bits} {v : Value} (exact : encoding ≠ .float)
    (decoded : decode encoding bits = .ok v) (x : Double) : v ≠ .float x := by
  rintro rfl
  cases encoding with
  | uint =>
    obtain ⟨_, same⟩ := uint_of_decode decoded
    cases same
  | sint =>
    obtain ⟨_, same⟩ := sint_of_decode decoded
    cases same
  | bytes =>
    obtain ⟨_, same⟩ := decode_bytes_ok.mp decoded
    cases same
  | char =>
    obtain ⟨_, same⟩ := decode_char_ok.mp decoded
    cases same
  | float => exact exact rfl
  | _ => cases decoded

end Field

namespace Decoder

variable {directive : Directive} {d d' : Engine} {u : Unit}

/-- An instruction reads one value at most. -/
theorem Reads.unique {encoding encoding' : Encoding} {bits bits' : Bits} {v w : Value}
    (h : Reads d encoding bits v directive) (h' : Reads d encoding' bits' w directive) : v = w := by
  obtain ⟨decoded, reads⟩ := h
  obtain ⟨decoded', reads'⟩ := h'
  have same (kind : encoding = encoding') (slice : bits = bits') : v = w := by
    subst kind
    subst slice
    exact Except.ok.inj (decoded.symm.trans decoded')
  cases directive with
  | value own width =>
    cases width with
    | bits width =>
      obtain ⟨rfl, _, read⟩ := reads
      obtain ⟨rfl, _, read'⟩ := reads'
      cases read.symm.trans read'
      exact same rfl rfl
    | rest =>
      obtain ⟨rfl, _, read⟩ := reads
      obtain ⟨rfl, _, read'⟩ := reads'
      cases read.symm.trans read'
      exact same rfl rfl
  | takeAll own =>
    obtain ⟨rfl, _, read⟩ := reads
    obtain ⟨rfl, _, read'⟩ := reads'
    cases read.symm.trans read'
    exact same rfl rfl
  | jump origin count =>
    obtain ⟨kind, slice, lands⟩ := reads
    obtain ⟨kind', slice', lands'⟩ := reads'
    -- both gaps end where the jump lands
    have length : d.cursor + bits.length = d.cursor + bits'.length := Except.ok.inj (lands.symm.trans lands')
    have length : bits.length = bits'.length := by omega
    rw [length] at kind slice
    exact same (kind.trans kind'.symm) (slice.trans slice'.symm)
  | marker last bytes =>
    obtain ⟨rfl, slice, needle, disguised, here⟩ := reads
    obtain ⟨rfl, slice', needle', disguised', here'⟩ := reads'
    cases disguised.symm.trans disguised'
    have length : d.cursor + bits.length = d.cursor + bits'.length := Option.some.inj (here.symm.trans here')
    have length : bits.length = bits'.length := by omega
    rw [length] at slice
    exact same rfl (slice.trans slice'.symm)
  | _ => exact reads.elim

/-- Instructions other than fields of floating-point numbers read no such field. -/
theorem Reads.ne_float {encoding : Encoding} {bits : Bits} {v : Value} (h : Reads d encoding bits v directive)
    (exact : directive.Exact) (formed : directive.WellFormed) : encoding ≠ .float := by
  obtain ⟨_, reads⟩ := h
  cases directive with
  | value own width =>
    cases width with
    | bits width =>
      obtain ⟨rfl, _⟩ := reads
      exact exact
    | rest =>
      obtain ⟨rfl, _⟩ := reads
      exact exact
  | takeAll own =>
    obtain ⟨rfl, _⟩ := reads
    have whole : encoding.needsBytes = true := formed
    rintro rfl
    cases whole
  | jump origin count =>
    obtain ⟨rfl, _⟩ := reads
    unfold gapEncoding
    split <;> decide
  | marker last bytes =>
    obtain ⟨rfl, _⟩ := reads
    decide
  | _ => exact reads.elim

/-- A field that is read produces its value. -/
theorem exists_reads_field {encoding : Encoding} {width : Nat} (done : produceField encoding width d = .ok u d') :
    ∃ bits v e', Field.decode encoding bits = .ok v ∧ readBits encoding width d = .ok bits e'
      ∧ d'.scalars = d.scalars ++ [v] := by
  obtain ⟨bits, v, e', read, decoded, rfl⟩ := produceField_ok.mp done
  refine ⟨bits, v, e', decoded, read, ?_⟩
  rw [Engine.scalars_produce (Field.isList_of_decode decoded), scalars_readBits read]

theorem exists_reads_gap {encoding : Encoding} {target : Nat} (after : d.cursor ≤ target)
    (done : produceGap encoding target d = .ok u d') :
    ∃ bits v, d.cursor + bits.length = target ∧ bits = (d.storage.bits.drop d.cursor).take bits.length
      ∧ Field.decode encoding bits = .ok v ∧ d'.scalars = d.scalars ++ [v] := by
  obtain ⟨storage, v, enough, _, _, decoded, rfl⟩ := produceGap_ok.mp done
  have width : ((d.storage.bits.drop d.cursor).take (target - d.cursor)).length = target - d.cursor := by
    rw [List.length_take, List.length_drop]
    omega
  exact ⟨_, v, by omega, by rw [width], decoded, Engine.scalars_produce (Field.isList_of_decode decoded) _ _⟩

/-- An instruction that takes a value of an encoder's input reads one. -/
theorem exists_reads (takes : directive.takesValue = true) (done : execute directive d = .ok u d') :
    ∃ encoding bits v, Reads d encoding bits v directive ∧ d'.scalars = d.scalars ++ [v] := by
  cases directive with
  | value encoding width =>
    cases width with
    | bits width =>
      obtain ⟨bits, v, e', decoded, read, scalars⟩ := exists_reads_field done
      exact ⟨encoding, bits, v, ⟨decoded, rfl, e', read⟩, scalars⟩
    | rest =>
      obtain ⟨bits, v, e', decoded, read, scalars⟩ := exists_reads_field (execute_rest_ok.mp done)
      exact ⟨encoding, bits, v, ⟨decoded, rfl, e', read⟩, scalars⟩
  | takeAll encoding =>
    obtain ⟨bits, v, e', decoded, read, scalars⟩ := exists_reads_field (execute_takeAll_ok.mp done).2
    exact ⟨encoding, bits, v, ⟨decoded, rfl, e', read⟩, scalars⟩
  | jump origin count =>
    obtain ⟨target, lands, gap⟩ := jump_ok.mp done
    obtain ⟨bits, v, stop, slice, decoded, scalars⟩ := exists_reads_gap (Engine.le_jumpTarget lands) gap
    have width : target - d.cursor = bits.length := by omega
    rw [width] at decoded
    exact ⟨_, bits, v, ⟨decoded, rfl, slice, by rw [stop]; exact lands⟩, scalars⟩
  | marker last bytes =>
    obtain ⟨needle, found, d₁, _, disguised, here, gap, field⟩ := marker_ok.mp done
    obtain ⟨bits, v, stop, slice, decoded, scalars⟩ := exists_reads_gap (Storage.le_of_find? here) gap
    obtain ⟨_, read, _⟩ := readField_ok.mp field
    refine ⟨.bytes, bits, v, ⟨decoded, rfl, slice, needle, disguised, by rw [stop]; exact here⟩, ?_⟩
    rw [scalars_readBits read, scalars]
  | _ => cases takes

/-- Any other instruction produces nothing. -/
theorem scalars_of_not_takesValue (takes : directive.takesValue = false) (done : execute directive d = .ok u d') :
    d'.scalars = d.scalars := by
  cases directive with
  | next width =>
    obtain ⟨_, _, _, _, rfl⟩ := execute_next_ok.mp done
    rfl
  | constant bit width =>
    obtain ⟨_, read, _⟩ := readConstant_ok.mp done
    exact scalars_readBits read
  | mod change width =>
    obtain ⟨ts, _, applied⟩ := execute_mod_ok.mp done
    exact scalars_transformAll applied
  | modOff change offset width => exact scalars_transformAll (execute_modOff_ok.mp done)
  | control action =>
    exact (Engine.control_kept (execute_control_ok.mp done)).scalars
  | value encoding width => cases takes
  | takeAll encoding => cases takes
  | jump origin count => cases takes
  | marker last bytes => cases takes

/-- The values that a run produces are those that its instructions read, one after the other. -/
theorem forall₂_iff_along {property : Directive → Value → Prop} {instructions : List Instruction} {index : Nat}
    (done : runFrom index instructions d = (none, d')) :
    ∃ produced, d'.scalars = d.scalars ++ produced
      ∧ (List.Forall₂ property ((instructions.map (·.directive)).filter Directive.takesValue) produced ↔
        Along (fun directive d => ∀ encoding bits v, Reads d encoding bits v directive → property directive v)
          index instructions d) := by
  induction instructions generalizing index d with
  | nil =>
    cases done
    exact ⟨[], (List.append_nil _).symm, fun _ => trivial, fun _ => .nil⟩
  | cons instruction rest ih =>
    obtain ⟨d₁, first, later⟩ := runFrom_cons_ok.mp done
    obtain ⟨produced, scalars, same⟩ := ih later
    obtain ⟨_, executed⟩ := step_ok.mp first
    -- the step has one outcome, so what holds along the rest after every outcome holds after this one
    have onwards (property : Directive → Engine → Prop) :
        (∀ e, step index instruction d = .ok () e → Along property (index + 1) rest e)
          ↔ Along property (index + 1) rest d₁ := by
      refine ⟨fun all => all d₁ first, fun along e again => ?_⟩
      cases first.symm.trans again
      exact along
    cases takes : instruction.directive.takesValue with
    | true =>
      obtain ⟨encoding, bits, v, reads, grown⟩ := exists_reads takes executed
      refine ⟨v :: produced, ?_, ?_⟩
      · rw [scalars, grown, List.append_assoc]
        rfl
      · rw [List.map_cons, List.filter_cons_of_pos takes, List.forall₂_cons, same, Along, onwards]
        refine and_congr_left fun _ => ⟨fun holds _ _ w again => ?_, fun all => all encoding bits v reads⟩
        rw [← reads.unique again]
        exact holds
    | false =>
      refine ⟨produced, ?_, ?_⟩
      · rw [scalars, scalars_of_not_takesValue takes executed]
        rfl
      · rw [List.map_cons, List.filter_cons_of_neg (by rw [takes]; decide), same, Along, onwards]
        refine (and_iff_right fun _ _ _ reads => ?_).symm
        rw [reads.takesValue] at takes
        cases takes

end Decoder

/-! ## Whole runs -/

section

variable {program : Program} {values : List Value} {bytes : List UInt8} {maxSteps readBits maxBits : Nat} {check : Bool}
  {labels : List (String × Value)}

/-- Decoded values hold no floating-point numbers if no field does. -/
theorem Decoder.exact_of_run {d : Engine} (exact : ∀ i ∈ program.instructions, i.directive.Exact)
    (formed : ∀ i ∈ program.instructions, i.directive.WellFormed)
    (read : runFrom 0 program.instructions (ofBytes bytes ⟨maxSteps, readBits⟩ check labels).engine = (none, d)) :
    ∀ v ∈ d.scalars, ∀ x, v ≠ .float x := by
  obtain ⟨produced, all, same⟩ := @forall₂_iff_along _ _ (fun _ v => ∀ x, v ≠ .float x) _ _ read
  rw [scalars_ofBytes.1, List.nil_append] at all
  have reads : Along (fun directive d => ∀ encoding bits v, Reads d encoding bits v directive → ∀ x, v ≠ .float x) 0
      program.instructions (ofBytes bytes ⟨maxSteps, readBits⟩ check labels).engine := by
    refine Along.of_run (fun i hi d _ _ _ encoding bits v reads => ?_) rfl read
    exact Field.ne_float_of_decode (reads.ne_float (exact i hi) (formed i hi)) reads.1
  have each {takers : List Directive} {produced : List Value}
      (h : List.Forall₂ (fun _ v => ∀ x, v ≠ Value.float x) takers produced) : ∀ v ∈ produced, ∀ x, v ≠ .float x := by
    induction h with
    | nil => simp
    | cons first _ ih => exact List.forall_mem_cons.mpr ⟨first, ih⟩
  rw [all]
  exact each (same.mpr reads)

end

end BitTemplate
