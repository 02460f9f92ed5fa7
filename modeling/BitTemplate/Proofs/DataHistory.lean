import BitTemplate.Proofs.Finish
import BitTemplate.Proofs.Session

/-!
The data of a decoder over a session. What is before the cursor stays as it was when the cursor passed it, and the log
always explains the whole data: undone newest first it gives the data of the wire, and replayed oldest first on that data
it gives the view. Each move keeps both, so they hold at every moment, also after an instruction that failed.
-/

namespace BitTemplate

/-! ## Consumed bits -/

/-- What a later state keeps of the data of an earlier one: all bits before its cursor, which has not moved back. -/
structure Engine.Frozen (e e' : Engine) : Prop where
  cursor : e.cursor ≤ e'.cursor
  length : e'.storage.length = e.storage.length
  bits : e'.storage.bits.take e.cursor = e.storage.bits.take e.cursor

namespace Decoder

theorem Advances.frozen {e e' : Engine} (h : Advances True e e') : e.Frozen e' := by
  obtain ⟨newer, _, applied, keeps⟩ := h.data
  exact ⟨h.cursor, h.length, (keeps trivial).all applied⟩

/-- Consumed bits are frozen. Over a session of any programs whose windows start where position and offset say, the cursor
never moves back or passes the end, the data keeps its length, and what is before the cursor at some moment is the same at
every later one. -/
theorem consumed_bits_frozen (d : Decoder) (programs : List Program)
    (sums : runner.Throughout (fun instruction e => instruction.directive.InWord e.cursor) programs d.engine) :
    (∀ e ∈ d.moments programs, e.cursor ≤ e.storage.length) ∧ (d.moments programs).Pairwise Engine.Frozen := by
  constructor
  · intro e _
    exact e.storage.cursor_le
  · have keeps : runner.Keeps (fun instruction e => instruction.directive.InWord e.cursor) (Moves True) :=
      keeps_moves fun _ _ sum _ => sum
    exact (keeps.pairwise_moments sums).imp fun moves => (Advances.moves moves).frozen

/-- A byte from its last bit to its first. -/
def mirroredByte : Program where
  instructions := [⟨"Ry", ⟨0, 2⟩, .control (.setFlag .reverseAll .set)⟩, ⟨"u8", ⟨3, 5⟩, .value .uint (.bits 8)⟩]

/-- A decoder of two bytes after a run that failed between two reversals and a run that succeeded. -/
def resumed : Decoder :=
  (((ofBytes [1, 2] ⟨20, 0⟩ true []).run tornRecord).2.run mirroredByte).2

theorem resumed_mem_moments :
    resumed.engine ∈ (ofBytes [1, 2] ⟨20, 0⟩ true []).moments [tornRecord, mirroredByte] := by
  rw [resumed, engine_run, engine_run]
  exact Runner.mem_moments_of_run (Runner.mem_moments_of_run (runner.mem_moments [] _))

theorem consumed_bits_frozen_resumed :
    let moments := (ofBytes [1, 2] ⟨20, 0⟩ true []).moments [tornRecord, mirroredByte]
    resumed.engine ∈ moments ∧ resumed.engine.cursor = 16 ∧ resumed.engine.cursor ≤ resumed.engine.storage.length
      ∧ moments.Pairwise Engine.Frozen := by
  have sums : runner.Throughout (fun instruction e => instruction.directive.InWord e.cursor) [tornRecord, mirroredByte]
      (ofBytes [1, 2] ⟨20, 0⟩ true []).engine :=
    .of_forall (by simp [tornRecord, mirroredByte, Directive.InWord])
  obtain ⟨inside, frozen⟩ := consumed_bits_frozen (ofBytes [1, 2] ⟨20, 0⟩ true []) [tornRecord, mirroredByte] sums
  exact ⟨resumed_mem_moments, by decide +kernel, inside resumed.engine resumed_mem_moments, frozen⟩

end Decoder

/-! ## The log -/

theorem Transform.region?_of_onAll? {ts : List Transform} {bits after : Bits} (h : onAll? ts bits = some after) :
    ∀ t ∈ ts, (t.region? bits.length).isSome := by
  induction ts generalizing bits with
  | nil => simp
  | cons t ts ih =>
    rw [onAll?_cons, Option.bind_eq_some_iff] at h
    obtain ⟨between, first, others⟩ := h
    intro u hu
    rcases List.mem_cons.mp hu with rfl | hu
    · obtain ⟨start, stop, region⟩ := exists_region? first
      rw [region]
      rfl
    · rw [← length_of_onBits? first]
      exact ih others u hu

theorem Storage.applyAll_bits {ts : List Transform} {s : Storage} {bits : Bits} :
    (s.applyAll ts).map (·.bits) = .ok bits ↔ Transform.onAll? ts s.bits = some bits := by
  constructor
  · intro h
    cases applied : s.applyAll ts with
    | error fault =>
      rw [applied] at h
      cases h
    | ok after =>
      rw [applied] at h
      cases h
      exact (applyAll_ok.mp applied).1
  · intro h
    obtain ⟨after, applied, rfl, _⟩ := exists_applyAll h
    rw [applied]
    rfl

namespace Engine

variable {wire : Bits} {e e' : Engine} {inWord : Prop}

/-- The log explains how the data of the wire became the view, in the order of the values. -/
structure Accounts (wire : Bits) (e : Engine) : Prop where
  replay : e.log.replay? wire = some e.storage.bits
  ordered : e.log.Pairwise fun newer older => older.flatIndex ≤ newer.flatIndex
  bounded : ∀ entry ∈ e.log, entry.flatIndex ≤ e.walk.flat

namespace Accounts

/-- A change that touches neither log nor bits. -/
theorem of_log (h : e.Accounts wire) (log : e'.log = e.log) (bits : e'.storage.bits = e.storage.bits)
    (flat : e.walk.flat ≤ e'.walk.flat) : e'.Accounts wire where
  replay := by rw [log, bits, h.replay]
  ordered := log ▸ h.ordered
  bounded := by
    rw [log]
    intro entry member
    exact Nat.le_trans (h.bounded entry member) flat

theorem consume (h : e.Accounts wire) (consumes : Decoder.Consumes inWord e e') : e'.Accounts wire := by
  obtain ⟨ts, s, events, applied, _, _⟩ := consumes
  have now : ∀ entry ∈ Log.entries e.walk.flat ts, entry.flatIndex = e.walk.flat := by
    simp [Log.entries]
  constructor
  · show (Log.entries e.walk.flat ts ++ e.log).replay? wire = some s.bits
    rw [Log.replay?_append, h.replay, Option.bind_some, Log.transforms_entries, applied]
  · refine List.pairwise_append.mpr ⟨?_, h.ordered, ?_⟩
    · refine List.pairwise_of_forall_mem_list fun newer hn older ho => ?_
      rw [now newer hn, now older ho]
    · intro newer hn older ho
      rw [now newer hn]
      exact h.bounded older ho
  · intro entry member
    rcases List.mem_append.mp member with new | old
    · exact Nat.le_of_eq (now entry new)
    · exact h.bounded entry old

theorem move (h : e.Accounts wire) (move : Decoder.Move inWord e e') : e'.Accounts wire := by
  cases move with
  | consume consumes => exact h.consume consumes
  | produce scalar start => exact h.of_log rfl rfl (Nat.le_succ _)
  | control acted =>
    have same := control_kept acted
    exact h.of_log same.log (congrArg Storage.bits same.storage) (Nat.le_of_eq same.flat.symm)
  | note => exact h.of_log rfl rfl (Nat.le_refl _)

theorem moves (h : e.Accounts wire) (moves : Decoder.Moves inWord e e') : e'.Accounts wire := by
  induction moves with
  | refl => exact h
  | tail _ last ih => exact ih.move last

end Accounts

end Engine

namespace Decoder

variable {bytes : List UInt8} {limits : Limits} {check : Bool} {labels : List (String × Value)}

theorem accounts_ofBytes : (ofBytes bytes limits check labels).engine.Accounts (Bits.ofBytes bytes) := by
  constructor
  · rw [storage_ofBytes.2, storage_ofBytes.1]
    rfl
  · rw [storage_ofBytes.2]
    exact .nil
  · rw [storage_ofBytes.2]
    exact fun _ member => nomatch member

/-- The log accounts for the whole data at every moment of a session. Every region fits; undone newest first, the log
gives back the bytes that the decoder was built from, and replayed oldest first on these, it gives the data as it is now;
the flat indices never decrease, and none is past the present one. -/
theorem log_accounts (programs : List Program) :
    ∀ e ∈ (ofBytes bytes limits check labels).moments programs,
      (∀ entry ∈ e.log, (entry.transform.region? e.storage.length).isSome)
      ∧ (e.storage.applyAll (e.log.map (·.transform))).map (·.bits) = .ok (Bits.ofBytes bytes)
      ∧ ((Storage.ofBytes bytes).applyAll (e.log.reverse.map (·.transform))).map (·.bits) = .ok e.storage.bits
      ∧ e.log.reverse.Pairwise (fun earlier later => earlier.flatIndex ≤ later.flatIndex)
      ∧ ∀ entry ∈ e.log, entry.flatIndex ≤ e.walk.flat := by
  intro e member
  have keeps : runner.Keeps (fun _ _ => True) (Moves False) := keeps_moves fun _ _ _ => False.elim
  have moves := keeps.of_mem_moments (runner.throughout_true _ _) member
  have accounts := accounts_ofBytes.moves moves
  have undone := Log.undo_eq_some_iff.mpr accounts.replay
  refine ⟨?_, Storage.applyAll_bits.mpr undone, Storage.applyAll_bits.mpr ?_, ?_, accounts.bounded⟩
  · intro entry logged
    exact Transform.region?_of_onAll? undone _ (List.mem_map_of_mem logged)
  · rw [List.map_reverse]
    exact accounts.replay
  · rw [List.pairwise_reverse]
    exact accounts.ordered

theorem log_accounts_resumed :
    let e := resumed.engine
    e ∈ (ofBytes [1, 2] ⟨20, 0⟩ true []).moments [tornRecord, mirroredByte] ∧ e.log.map (·.flatIndex) = [1, 1]
      ∧ (∀ entry ∈ e.log, (entry.transform.region? e.storage.length).isSome)
      ∧ (e.storage.applyAll (e.log.map (·.transform))).map (·.bits) = .ok (Bits.ofBytes [1, 2])
      ∧ ((Storage.ofBytes [1, 2]).applyAll (e.log.reverse.map (·.transform))).map (·.bits) = .ok e.storage.bits
      ∧ e.log.reverse.Pairwise (fun earlier later => earlier.flatIndex ≤ later.flatIndex)
      ∧ ∀ entry ∈ e.log, entry.flatIndex ≤ e.walk.flat :=
  ⟨resumed_mem_moments, by decide +kernel,
    log_accounts [tornRecord, mirroredByte] resumed.engine resumed_mem_moments⟩

end Decoder

end BitTemplate
