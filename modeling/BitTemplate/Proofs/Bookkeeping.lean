import BitTemplate.Proofs.Finish
import BitTemplate.Proofs.Session

/-!
What an encoder keeps in order over a session. It writes at the end only, its pending checks stand in the order of the
log and within what is written, and the end of a field that runs to the end of the data is remembered once. A successful
instruction keeps this because it only adds, a failing one because it writes nothing. So the end of a run cuts the log at
the checks without leaving it.
-/

namespace BitTemplate

/-! ## Slices of the log -/

/-- The entries from an index up to another one, if these are in order and within the list. -/
def slice? (entries : List LogEntry) (first last : Nat) : Option (List LogEntry) :=
  if first ≤ last ∧ last ≤ entries.length then some ((entries.take last).drop first) else none

namespace Encoder

/-- The verification of pending checks by slices of all entries, after the first `applied` of them, or none if an index
is out of range. -/
def verifySlices (entries : List LogEntry) (view : Storage) (applied : Nat) :
    List Pending → Option (Except RunError Unit)
  | [] => some (.ok ())
  | pending :: rest => do
    let fresh ← slice? entries applied pending.logged
    let seen ← slice? entries 0 pending.logged
    match view.applyAll (fresh.map (·.transform)) with
    | .error fault => return .error ⟨fault, pending.context⟩
    | .ok view =>
      match pending.verify view seen.reverse with
      | .error fault => return .error ⟨fault, pending.context⟩
      | .ok () => verifySlices entries view pending.logged rest

/-- Checks in the order of the log are verified by slices within it. -/
theorem verifySlices_eq {entries : List LogEntry} {view : Storage} {applied : Nat} {pending : List Pending}
    (sorted : pending.Pairwise fun p q => p.logged ≤ q.logged)
    (bounds : ∀ p ∈ pending, applied ≤ p.logged ∧ p.logged ≤ entries.length) :
    verifySlices entries view applied pending
      = some (verifyAll (entries.take applied).reverse view (entries.drop applied) pending) := by
  -- what is replayed up to the first check is the slice in front of the next one
  induction pending generalizing view applied with
  | nil => rfl
  | cons p rest ih =>
    obtain ⟨low, high⟩ := bounds p List.mem_cons_self
    obtain ⟨first, sorted⟩ := List.pairwise_cons.mp sorted
    have log_length : (entries.take applied).reverse.length = applied := by
      rw [List.length_reverse, List.length_take_of_le (Nat.le_trans low high)]
    have fresh : (entries.take p.logged).drop applied = (entries.drop applied).take (p.logged - applied) :=
      List.drop_take
    have fresh_length : ((entries.take p.logged).drop applied).length = p.logged - applied := by
      rw [List.length_drop, List.length_take_of_le high]
    have log : ((entries.take p.logged).drop applied).reverse ++ (entries.take applied).reverse
        = (entries.take p.logged).reverse := by
      conv => rhs; rw [← List.take_append_drop applied (entries.take p.logged), List.take_take, Nat.min_eq_left low]
      rw [List.reverse_append]
    have ahead : (entries.drop applied).drop (p.logged - applied) = entries.drop p.logged := by
      rw [List.drop_drop, Nat.add_sub_cancel' low]
    have later (view : Storage) : verifySlices entries view p.logged rest
        = some (verifyAll (entries.take p.logged).reverse view (entries.drop p.logged) rest) :=
      ih sorted fun q hq => ⟨first q hq, (bounds q (List.mem_cons_of_mem _ hq)).2⟩
    rw [verifySlices, slice?, slice?, if_pos ⟨low, high⟩, if_pos ⟨Nat.zero_le _, high⟩, verifyAll, log_length, ← fresh,
      fresh_length, ahead, log, List.drop_zero, Option.bind_eq_bind, Option.bind_some, Option.bind_some]
    cases view.applyAll (((entries.take p.logged).drop applied).map (·.transform)) with
    | error fault => rfl
    | ok view =>
      simp only [later]
      cases verified : p.verify view (entries.take p.logged).reverse with
      | error fault =>
        show _ = some ((p.verify view (entries.take p.logged).reverse).mapError _ >>= _)
        rw [verified]
        rfl
      | ok u =>
        show _ = some ((p.verify view (entries.take p.logged).reverse).mapError _ >>= _)
        rw [verified]
        rfl

/-! ## Moments -/

/-- What holds of an encoder before and after every instruction. -/
structure Booked (s : Encoder) : Prop where
  atEnd : s.engine.cursor = s.engine.storage.length
  sorted : s.pending.Pairwise fun p q => p.logged ≤ q.logged
  logged : ∀ p ∈ s.pending, p.logged ≤ s.engine.log.length
  inside : ∀ p ∈ s.pending, p.position + p.gap ≤ s.engine.storage.length
  rest : ∀ stop context, s.restEnd = some (stop, context) → stop ≤ s.engine.storage.length

/-- What a later state of an encoder keeps of an earlier one: every bit, and where its data ended. -/
structure Preserves (s s' : Encoder) : Prop where
  bits : s.engine.storage.bits <+: s'.engine.storage.bits
  restEnd : ∀ mark, s.restEnd = some mark → s'.restEnd = some mark

/-- Whether the books stay in order from a state to a later one. -/
def Continues (s s' : Encoder) : Prop :=
  s.Booked → s'.Booked ∧ s.Preserves s'

namespace Continues

variable {s s' s'' : Encoder}

theorem trans (h : Continues s s') (h' : Continues s' s'') : Continues s s'' := by
  intro booked
  obtain ⟨booked', kept⟩ := h booked
  obtain ⟨booked'', kept'⟩ := h' booked'
  exact ⟨booked'', kept.bits.trans kept'.bits, fun mark set => kept'.restEnd mark (kept.restEnd mark set)⟩

/-- A change that writes nothing and postpones nothing. -/
theorem of_same (storage : s'.engine.storage = s.engine.storage) (log : s'.engine.log = s.engine.log)
    (pending : s'.pending = s.pending) (restEnd : s'.restEnd = s.restEnd) : Continues s s' := by
  intro booked
  refine ⟨⟨?_, ?_, ?_, ?_, ?_⟩, ?_, ?_⟩
  · rw [Engine.cursor, storage]
    exact booked.atEnd
  · rw [pending]
    exact booked.sorted
  · rw [pending, log]
    exact booked.logged
  · rw [pending, storage]
    exact booked.inside
  · rw [restEnd, storage]
    exact booked.rest
  · exact storage.symm ▸ List.prefix_refl _
  · rw [restEnd]
    exact fun _ set => set

/-- An instruction that succeeds only adds. -/
theorem step {index : Nat} {instruction : Instruction} {u : Unit} (done : Encoder.step index instruction s = .ok u s') :
    Continues s s' := by
  intro booked
  have added := Extends.step booked.atEnd done
  have longer := added.bits.length_le
  obtain ⟨sorted, logged⟩ := added.ordered ⟨booked.sorted, booked.logged⟩
  refine ⟨⟨added.atEnd, sorted, logged, ?_, ?_⟩, added.bits, added.restKept⟩
  · intro p hp
    rcases added.gaps p hp with old | new
    · exact Nat.le_trans (booked.inside p old) longer
    · exact new
  · intro stop context set
    rcases added.restNew (stop, context) set with old | ⟨_, high⟩
    · exact Nat.le_trans (booked.rest stop context old) longer
    · exact high

/-- An instruction that fails writes nothing. -/
theorem step_failed {index : Nat} {instruction : Instruction} {fault : Fault}
    (failed : Encoder.step index instruction s = .error fault s') : Continues s s' := by
  rcases Encoder.step_failed failed with rfl | refuses
  · exact of_same rfl rfl rfl rfl
  · cases refuses with
    | untouched => exact of_same rfl rfl rfl rfl
    | taken input => exact of_same rfl rfl rfl rfl

end Continues

theorem keeps_books : runner.Keeps (fun _ _ => True) Continues where
  refl _ := Continues.of_same rfl rfl rfl rfl
  trans := Continues.trans
  fresh _ := Continues.of_same rfl rfl rfl rfl
  rest _ := Continues.of_same rfl rfl rfl rfl
  done _ := Continues.step
  failed _ := Continues.step_failed

variable {values : List Value} {limits : Limits} {labels : List (String × Value)}

theorem booked_ofValues : (ofValues values limits labels).Booked where
  atEnd := atEnd_ofValues
  sorted := ordered_ofValues.1
  logged := ordered_ofValues.2
  inside := fun _ member => nomatch member
  rest := fun _ _ set => nomatch set

/-- The books of an encoder are in order at every moment of a session. It writes at the end, and what it wrote stays; the
checks stand in the order of the log, none asks for more of the log or of the data than there is, and the end of a field
that runs to the end of the data is kept once it is set. So the end of a run cuts the log at the checks without leaving
it. -/
theorem books_in_order (programs : List Program) :
    (∀ s ∈ (ofValues values limits labels).moments programs,
      s.Booked ∧ ∀ wire, verifySlices s.engine.log.reverse wire 0 s.pending
        = some (verifyAll [] wire s.engine.log.reverse s.pending))
    ∧ ((ofValues values limits labels).moments programs).Pairwise Preserves := by
  have booked : ∀ s ∈ (ofValues values limits labels).moments programs, s.Booked := by
    intro s member
    exact (keeps_books.of_mem_moments (runner.throughout_true _ _) member booked_ofValues).1
  constructor
  · intro s member
    refine ⟨booked s member, fun wire => ?_⟩
    rw [verifySlices_eq (booked s member).sorted, List.take_zero, List.reverse_nil, List.drop_zero]
    intro p hp
    rw [List.length_reverse]
    exact ⟨Nat.zero_le _, (booked s member).logged p hp⟩
  · refine (keeps_books.pairwise_moments (runner.throughout_true programs _)).imp_of_mem fun member _ continues => ?_
    exact (continues (booked _ member)).2

/-- A marker and a jump under a flag, both to be checked at the end. -/
def markedRecord : Program where
  instructions := [
    ⟨"Ry", ⟨0, 2⟩, .control (.setFlag .reverseAll .set)⟩, ⟨"m^\"ff\"", ⟨3, 9⟩, .marker false [0xff]⟩,
    ⟨"jf8", ⟨10, 13⟩, .jump .forward 8⟩]

/-- Bytes up to the end of the data. -/
def remainder : Program where
  instructions := [⟨"B$", ⟨0, 2⟩, .takeAll .bytes⟩]

/-- An encoder of values, of which a jump cannot take the text. -/
def supplied : Encoder :=
  ofValues [.bytes [1], .bytes [2], .uint 7, .text "z", .bytes [3]] ⟨20, 64⟩ []

/-- An encoder after two runs that succeeded and one between them that failed. -/
def resumed : Encoder :=
  (((supplied.run markedRecord).2.run jumpingRecord).2.run remainder).2

theorem books_in_order_resumed :
    let moments := supplied.moments [markedRecord, jumpingRecord, remainder]
    resumed ∈ moments ∧ resumed.pending.map (·.logged) = [0, 1] ∧ resumed.engine.log.length = 3
      ∧ (resumed.Booked ∧ ∀ wire, verifySlices resumed.engine.log.reverse wire 0 resumed.pending
        = some (verifyAll [] wire resumed.engine.log.reverse resumed.pending))
      ∧ moments.Pairwise Preserves := by
  intro moments
  have member : resumed ∈ moments :=
    Runner.mem_moments_of_run (Runner.mem_moments_of_run (Runner.mem_moments_of_run (runner.mem_moments [] _)))
  obtain ⟨booked, preserved⟩ := books_in_order [markedRecord, jumpingRecord, remainder]
  exact ⟨member, by decide +kernel, by decide +kernel, booked resumed member, preserved⟩

end Encoder

end BitTemplate
