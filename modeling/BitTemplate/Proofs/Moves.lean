import Mathlib.Logic.Relation
import BitTemplate.Proofs.Failure

/-!
What a decoder can do. Every instruction, whether it succeeds or fails, is a few moves: it consumes data, makes a value
of what it consumed, acts on the record, or counts and shows something. What every move keeps holds of every instruction.
Moves say what becomes of the data before the cursor only where the sums of windows are words.
-/

namespace BitTemplate

namespace Decoder

variable {e e' : Engine} {directive : Directive} {instruction : Instruction} {index : Nat} {fault : Fault} {u : Unit}
  {inWord : Prop}

/-- One move of a decoder. -/
inductive Move (inWord : Prop) : Engine → Engine → Prop
  | consume {e e' : Engine} (consumes : Consumes inWord e e') : Move inWord e e'
  | produce (e : Engine) {v : Value} (scalar : v.isList = false) (start : Nat) : Move inWord e (e.produce v start)
  | control {e e' : Engine} {action : Control} (acted : e.control action = .ok e') : Move inWord e e'
  | note (e : Engine) (steps : Nat) (current : Option (Nat × String)) (events : List Event) :
    Move inWord e { e with steps, current, events }

/-- What holds under a condition holds under a stronger one. -/
theorem Move.mono {stronger : Prop} (move : Move inWord e e') (implies : stronger → inWord) : Move stronger e e' := by
  cases move with
  | consume consumes =>
    obtain ⟨ts, s, events, applied, keeps, moved⟩ := consumes
    exact .consume (.intro ts s events applied (fun sums => keeps (implies sums)) moved)
  | produce scalar start => exact .produce e scalar start
  | control acted => exact .control acted
  | note => exact .note ..

/-- Any number of moves. -/
abbrev Moves (inWord : Prop) : Engine → Engine → Prop :=
  Relation.ReflTransGen (Move inWord)

namespace Moves

theorem mono {stronger : Prop} (moves : Moves inWord e e') (implies : stronger → inWord) : Moves stronger e e' :=
  Relation.ReflTransGen.mono (fun _ _ move => move.mono implies) _ _ moves

theorem consume (consumes : Consumes inWord e e') : Moves inWord e e' :=
  .single (.consume consumes)

theorem produceField {encoding : Encoding} {width : Nat} (done : Decoder.produceField encoding width e = .ok u e') :
    Moves inWord e e' := by
  obtain ⟨bits, v, e₁, read, decoded, rfl⟩ := produceField_ok.mp done
  exact (consume (.readBits read)).tail (.produce e₁ (Field.isList_of_decode decoded) _)

theorem produceGap {encoding : Encoding} {target : Nat} (done : Decoder.produceGap encoding target e = .ok u e') :
    Moves inWord e e' := by
  obtain ⟨s, v, _, kept, moved, decoded, rfl⟩ := produceGap_ok.mp done
  have passed : Consumes inWord e { e.emit (.seek e.cursor target) with storage := s } :=
    (Consumes.emit e _).trans (.pass kept (Nat.le.intro moved.symm))
  exact (consume passed).tail (.produce _ (Field.isList_of_decode decoded) _)

/-- An instruction that succeeds is a few moves. -/
theorem execute (done : Decoder.execute directive e = .ok u e') : Moves (directive.InWord e.cursor) e e' := by
  cases directive with
  | value encoding width =>
    cases width with
    | bits width => exact produceField done
    | rest => exact produceField (execute_rest_ok.mp done)
  | next width =>
    obtain ⟨s, _, kept, moved, rfl⟩ := execute_next_ok.mp done
    exact consume (.pass kept (Nat.le.intro moved.symm))
  | constant bit width =>
    obtain ⟨bits, read, _⟩ := readConstant_ok.mp done
    exact consume (.readBits read)
  | mod change width =>
    obtain ⟨ts, asked, applied⟩ := execute_mod_ok.mp done
    exact consume (.transformAll (fun _ => Transform.Keeps.atCursor asked) applied)
  | modOff change offset width =>
    exact consume (.transformAll Transform.Keeps.atOffset (execute_modOff_ok.mp done))
  | takeAll encoding => exact produceField (execute_takeAll_ok.mp done).2
  | jump origin bits =>
    obtain ⟨target, _, gap⟩ := jump_ok.mp done
    exact produceGap gap
  | marker last bytes =>
    obtain ⟨needle, found, e₁, _, _, _, gap, read⟩ := marker_ok.mp done
    obtain ⟨bits, read, _⟩ := readField_ok.mp read
    exact (produceGap gap).tail (.consume (.readBits read))
  | control action => exact .single (.control (execute_control_ok.mp done))

theorem arrive (e : Engine) (index : Nat) (instruction : Instruction) : Moves inWord e (e.arrive index instruction) :=
  .single (.note e _ _ _)

theorem step (done : Decoder.step index instruction e = .ok u e') :
    Moves (instruction.directive.InWord e.cursor) e e' :=
  (arrive e index instruction).trans (execute (step_ok.mp done).2)

theorem step_failed (failed : Decoder.step index instruction e = .error fault e') :
    Moves (instruction.directive.InWord e.cursor) e e' := by
  rcases Decoder.step_failed failed with rfl | consumes
  · exact .single (.note e _ _ _)
  · exact (arrive e index instruction).tail (.consume consumes)

end Moves

end Decoder

end BitTemplate
