import BitTemplate.Proofs.Progress

/-!
The end of a run. An encoder finishes exactly if its last state is sealed by the data of a wire: the log replays that
data to what was written, every pending check holds at its own point of the replay, and nothing follows a field that
runs to the end. The replay meets the checks in the order in which they were postponed, so each of them can be looked at
by itself.
-/

namespace BitTemplate

/-! ## Pending checks -/

namespace Pending

/-- The check comes out right on the data of the wire, after the transforms that were in the log at its point. -/
def Holds (wire : Bits) (log : Log) (pending : Pending) : Prop :=
  ∃ (newer older : Log) (view : Storage), log = newer ++ older ∧ older.length = pending.logged
    ∧ older.replay? wire = some view.bits ∧ pending.verify view older = .ok ()

/-- A check looks at bits and not at the cursor. -/
theorem verify_congr (pending : Pending) {view view' : Storage} (h : view.bits = view'.bits) (log : Log) :
    pending.verify view log = pending.verify view' log := by
  have length : view.length = view'.length := congrArg List.length h
  have found (piece : Bits) (first : Nat) (last : Bool) : view.find? piece first last = view'.find? piece first last := by
    have places : view.hasAt piece = view'.hasAt piece := by
      funext position
      rw [Storage.hasAt, Storage.hasAt, h]
    rw [Storage.find?, Storage.find?, length, places]
  obtain ⟨logged, position, gap, check, context⟩ := pending
  cases check with
  | jump origin bits => simp only [verify, length]
  | marker needle bytes last => simp only [verify, found]

/-- A check that holds does so after the part of the log that has its length. -/
theorem Holds.verify {wire : Bits} {newer older : Log} {pending : Pending} {view : Storage}
    (h : pending.Holds wire (newer ++ older)) (logged : older.length = pending.logged)
    (replay : older.replay? wire = some view.bits) : pending.verify view older = .ok () := by
  obtain ⟨newer', older', view', split, logged', replay', verified⟩ := h
  obtain ⟨_, rfl⟩ := List.append_inj' split (logged.trans logged'.symm)
  rw [replay] at replay'
  rw [pending.verify_congr (Option.some.inj replay') older, verified]

theorem Holds.append {wire : Bits} {log : Log} {pending : Pending} (h : pending.Holds wire log) (newest : Log) :
    pending.Holds wire (newest ++ log) := by
  obtain ⟨newer, older, view, rfl, logged, replay, verified⟩ := h
  exact ⟨newest ++ newer, older, view, by rw [List.append_assoc], logged, replay, verified⟩

end Pending

namespace Engine

theorem finish_ok {e : Engine} {values : List Value} : e.finish = .ok values ↔ e.records.root? = some values := by
  simp only [finish]
  cases e.records.root? <;> simp

end Engine

namespace Encoder

/-- The replay goes through exactly if every check holds by itself. -/
theorem verifyAll_ok {wire : Bits} {log : Log} {view : Storage} {ahead : List LogEntry} {pending : List Pending}
    {u : Unit} (replay : log.replay? wire = some view.bits) (sorted : pending.Pairwise fun p q => p.logged ≤ q.logged)
    (bounds : ∀ p ∈ pending, log.length ≤ p.logged ∧ p.logged ≤ log.length + ahead.length) :
    verifyAll log view ahead pending = .ok u ↔ ∀ p ∈ pending, p.Holds wire (ahead.reverse ++ log) := by
  -- what is replayed up to the first check becomes the log that the other checks start from
  induction pending generalizing log view ahead with
  | nil => simp [verifyAll, pure, Except.pure]
  | cons p rest ih =>
    have logged := bounds p (by simp)
    have order := List.pairwise_cons.mp sorted
    let fresh := ahead.take (p.logged - log.length)
    let log' : Log := fresh.reverse ++ log
    have fresh_length : fresh.length = p.logged - log.length := List.length_take_of_le (by omega)
    have length' : log'.length = p.logged := by simp only [log', List.length_append, List.length_reverse]; omega
    have dropped : ahead = fresh ++ ahead.drop fresh.length := by
      rw [fresh_length]
      exact (List.take_append_drop _ _).symm
    have whole : ahead.reverse ++ log = (ahead.drop fresh.length).reverse ++ log' := by
      conv => lhs; rw [dropped]
      simp [log']
    have total : (ahead.drop fresh.length).length + fresh.length = ahead.length := by
      rw [List.length_drop]
      omega
    have replayed (after : Storage) :
        view.applyAll (fresh.map (·.transform)) = .ok after ↔
          log'.replay? wire = some after.bits ∧ view.cursor = after.cursor := by
      rw [Storage.applyAll_ok, Log.replay?_append, replay, Option.bind_some, Log.transforms, List.map_reverse,
        List.reverse_reverse]
    have later {after : Storage} (h : log'.replay? wire = some after.bits) {u : Unit} :
        verifyAll log' after (ahead.drop fresh.length) rest = .ok u ↔
          ∀ q ∈ rest, q.Holds wire ((ahead.drop fresh.length).reverse ++ log') := by
      apply ih h order.2
      intro q hq
      have := bounds q (by simp [hq])
      have := order.1 q hq
      omega
    rw [verifyAll]
    simp only [except_bind_ok, except_mapError_ok]
    constructor
    · rintro ⟨after, applied, _, verified, others⟩
      have here := ((replayed after).mp applied).1
      intro q hq
      rw [whole]
      rcases List.mem_cons.mp hq with rfl | hq
      · exact ⟨_, log', after, rfl, length', here, verified⟩
      · exact (later here).mp others q hq
    · intro holds
      rw [whole] at holds
      obtain ⟨newer, older, found, split, logged', seen, _⟩ := holds p (by simp)
      obtain ⟨_, rfl⟩ := List.append_inj' split (length'.trans logged'.symm)
      have bound : view.cursor ≤ found.bits.length := by
        rw [Log.length_of_replay? seen, ← Log.length_of_replay? replay]
        exact view.cursor_le
      let after : Storage := ⟨found.bits, view.cursor, bound⟩
      have here : log'.replay? wire = some after.bits := seen
      exact ⟨after, (replayed after).mpr ⟨here, rfl⟩, (), (holds p (by simp)).verify length' here,
        (later here).mpr fun q hq => holds q (by simp [hq])⟩

/-! ## The last state -/

/-- What ties the last state of a run to the data of the wire. -/
structure Sealed (s : Encoder) (wire : Bits) : Prop where
  replay : s.engine.log.replay? wire = some s.engine.storage.bits.padToByte
  checked : ∀ p ∈ s.pending, p.Holds wire s.engine.log
  rest : ∀ p, s.restEnd = some p → s.engine.storage.bits.length = p.1

namespace Sealed

variable {s : Encoder} {wire : Bits}

theorem length (h : s.Sealed wire) : wire.length = s.engine.storage.bits.padToByte.length :=
  (Log.length_of_replay? h.replay).symm

theorem length_mod (h : s.Sealed wire) : wire.length % 8 = 0 := by
  rw [h.length, Bits.length_padToByte]
  exact Bits.add_padding_mod _

/-- Encoders that end with the same bytes have the same wire. -/
theorem wire_eq {s' : Encoder} {wire' : Bits} (h : s.Sealed wire) (h' : s'.Sealed wire')
    (same : wire'.toBytes = wire.toBytes) : wire' = wire := by
  rw [← Bits.ofBytes_toBytes h'.length_mod, same, Bits.ofBytes_toBytes h.length_mod]

end Sealed

theorem checkRest_ok {s : Encoder} {u : Unit} :
    s.checkRest = .ok u ↔ ∀ p, s.restEnd = some p → s.engine.storage.bits.length = p.1 := by
  simp only [checkRest]
  cases h : s.restEnd with
  | none => simp [pure, Except.pure]
  | some p =>
    obtain ⟨stop, context⟩ := p
    by_cases same : s.engine.storage.length = stop
    · simp [same, pure, Except.pure]
      exact same
    · simp only [if_neg same, reduceCtorEq, false_iff]
      intro ended
      exact same (ended _ rfl)

theorem checkShape_of_eq {s : Encoder} (same : s.engine.shape = s.shape) : s.checkShape = .ok () := by
  rw [checkShape, if_neg (by simp [same])]
  rfl

/-- Whether the checks stand in the order of the log. -/
def Ordered (s : Encoder) : Prop :=
  s.pending.Pairwise (fun p q => p.logged ≤ q.logged) ∧ ∀ p ∈ s.pending, p.logged ≤ s.engine.log.length

theorem Extends.ordered {s s' : Encoder} {inWord : Prop} (h : Extends inWord s s') (ordered : s.Ordered) : s'.Ordered := by
  obtain ⟨more, eq, sorted, bounds⟩ := h.pending
  obtain ⟨sorted', bounds'⟩ := ordered
  rw [Ordered, eq]
  refine ⟨List.pairwise_append.mpr ⟨sorted', sorted, ?_⟩, ?_⟩
  · intro p hp q hq
    exact Nat.le_trans (bounds' p hp) (bounds q hq).1
  · intro p hp
    rcases List.mem_append.mp hp with old | new
    · exact Nat.le_trans (bounds' p old) h.log.length_le
    · exact (bounds p new).2

/-- A run finishes exactly if its input is used up, its records are closed in the right shape and a wire seals it. -/
theorem finish_ok {s : Encoder} {bytes : List UInt8} (ordered : s.Ordered) :
    s.finish = .ok bytes ↔ s.input = [] ∧ s.engine.records.outer = [] ∧ s.checkShape = .ok ()
      ∧ ∃ wire, s.Sealed wire ∧ Bits.toBytes wire = bytes := by
  have verified {wire : Storage} (h : s.engine.log.replay? wire.bits = some s.engine.storage.bits.padToByte) {u : Unit} :
      verifyAll [] wire s.engine.log.reverse s.pending = .ok u ↔ ∀ p ∈ s.pending, p.Holds wire.bits s.engine.log := by
    rw [verifyAll_ok rfl ordered.1 (by simpa using ordered.2), List.reverse_reverse, List.append_nil]
  by_cases used : s.input = []
  · simp only [finish, used, List.length_nil, ne_eq, not_true_eq_false, if_false]
    simp only [except_bind_ok, except_mapError_ok, except_discard_ok, except_pure_ok, checkRest_ok, Engine.finish_ok,
      true_and]
    constructor
    · rintro ⟨_, ⟨values, root⟩, _, shape, _, rest, wire, undone, _, checks, rfl⟩
      have replay := Log.undo_eq_some_iff.mp (Storage.applyAll_ok.mp undone).1
      exact ⟨Shape.Records.root?_isSome.mp ⟨_, root⟩, shape, wire.bits, ⟨replay, (verified replay).mp checks, rest⟩, rfl⟩
    · rintro ⟨closed, shape, wire, ⟨replay, checked, rest⟩, rfl⟩
      obtain ⟨values, root⟩ := Shape.Records.root?_isSome.mpr closed
      have bound : s.engine.storage.cursor ≤ wire.length := by
        rw [← Log.length_of_replay? replay]
        exact s.engine.storage.padToByte.cursor_le
      have undone : s.engine.storage.padToByte.applyAll (s.engine.log.map (·.transform))
          = .ok ⟨wire, s.engine.storage.cursor, bound⟩ :=
        Storage.applyAll_ok.mpr ⟨Log.undo_eq_some_iff.mpr replay, rfl⟩
      exact ⟨(), ⟨values, root⟩, (), shape, (), rest, _, undone, (), (verified replay).mpr checked, rfl⟩
  · have left : s.input.length ≠ 0 := by simpa using used
    simp only [finish, if_pos left]
    simp [used, bind, Except.bind]

end Encoder

/-! ## Whole runs -/

/-- Labels that have values before a run change nothing else. -/
theorem Engine.seed_eq (e : Engine) (labels : List (String × Value)) :
    e.seed labels = { e with labels := (e.seed labels).labels } := by
  induction labels generalizing e with
  | nil => rfl
  | cons label rest ih => exact ih (e.define label.1 _)

namespace Encoder

variable {values : List Value} {limits : Limits} {labels : List (String × Value)} {program : Program}

theorem atEnd_ofValues : (ofValues values limits labels).AtEnd := by
  simp only [AtEnd, ofValues]
  rw [Engine.seed_eq]
  rfl

theorem ordered_ofValues : (ofValues values limits labels).Ordered :=
  ⟨.nil, fun _ member => nomatch member⟩

theorem limits_ofValues : (ofValues values limits labels).engine.limits = limits := by
  simp only [ofValues]
  rw [Engine.seed_eq]
  rfl

theorem limits_of_run {s : Encoder} {instructions : List Instruction}
    (done : runFrom 0 instructions (ofValues values limits labels) = (none, s)) : s.engine.limits = limits :=
  (Extends.runFrom atEnd_ofValues done).limits.trans limits_ofValues

theorem run_ofValues :
    (ofValues values limits labels).run program = runFrom 0 program.instructions (ofValues values limits labels) := by
  have same : { ofValues values limits labels with
      engine := { (ofValues values limits labels).engine with events := [] } } = ofValues values limits labels := by
    simp only [ofValues]
    rw [Engine.seed_eq]
    rfl
  rw [run, same]

/-- A run that uses up its input has produced its scalars. -/
theorem scalars_of_run {s : Encoder} {instructions : List Instruction}
    (run : runFrom 0 instructions (ofValues values limits labels) = (none, s)) (used : s.input = []) :
    s.engine.scalars = Shape.scalarsOf values := by
  obtain ⟨taken, input, produced⟩ := (Extends.runFrom atEnd_ofValues run).input
  have all : Shape.scalarsOf values = taken := by
    rw [used, List.append_nil] at input
    exact input
  have fresh : (ofValues values limits labels).engine.scalars = [] := Engine.scalars_seed _ _
  rw [produced fun v hv => Shape.isList_of_mem_scalarsOf values (all ▸ hv), fresh, List.nil_append, all]

/-- When encoding succeeds, and with which bytes. -/
theorem encode_ofValues_ok {bytes : List UInt8} :
    (ofValues values limits labels).encode program = .ok bytes ↔
      ∃ s, runFrom 0 program.instructions (ofValues values limits labels) = (none, s) ∧ s.input = []
        ∧ s.engine.records.outer = [] ∧ s.checkShape = .ok () ∧ ∃ wire, s.Sealed wire ∧ Bits.toBytes wire = bytes := by
  have ordered {s : Encoder} (done : runFrom 0 program.instructions (ofValues values limits labels) = (none, s)) :
      s.Ordered :=
    (Extends.runFrom atEnd_ofValues done).ordered ordered_ofValues
  simp only [encode, run_ofValues]
  split
  · rename_i failed
    simp [failed]
  · rename_i s done
    simp [done, finish_ok (ordered done)]

end Encoder

namespace Decoder

variable {bytes : List UInt8} {limits : Limits} {check : Bool} {labels : List (String × Value)} {program : Program}

theorem remaining_eq_zero {s : Storage} : s.remaining = 0 ↔ s.cursor = s.bits.length := by
  have := s.cursor_le
  simp only [Storage.remaining, Storage.length]
  omega

theorem finish_ok {d : Decoder} {values : List Value} :
    d.finish = .ok values ↔ (d.checkEnd = true → d.engine.cursor = d.engine.storage.bits.length)
      ∧ d.engine.records.root? = some values := by
  simp only [finish]
  by_cases left : d.checkEnd = true ∧ d.engine.rest.storage.remaining ≠ 0
  · rw [if_pos left]
    simp only [reduceCtorEq, false_iff]
    rintro ⟨ended, _⟩
    exact left.2 (remaining_eq_zero.mpr (ended left.1))
  · rw [if_neg left, except_mapError_ok, Engine.finish_ok]
    simp only [not_and, ne_eq, Decidable.not_not] at left
    constructor
    · intro root
      exact ⟨fun checked => remaining_eq_zero.mp (left checked), root⟩
    · rintro ⟨_, root⟩
      exact root

/-- A run starts over the data of its bytes, with an empty log. -/
theorem storage_ofBytes : (ofBytes bytes limits check labels).engine.storage = .ofBytes bytes
    ∧ (ofBytes bytes limits check labels).engine.log = [] := by
  rw [ofBytes, Engine.seed_eq]
  exact ⟨rfl, rfl⟩

theorem length_ofBytes : (ofBytes bytes limits check labels).engine.storage.bits.length = 8 * bytes.length := by
  rw [storage_ofBytes.1]
  exact Bits.length_ofBytes bytes

theorem run_ofBytes :
    (ofBytes bytes limits check labels).run program =
      ((runFrom 0 program.instructions (ofBytes bytes limits check labels).engine).1,
        ⟨(runFrom 0 program.instructions (ofBytes bytes limits check labels).engine).2, check⟩) := by
  have same : { (ofBytes bytes limits check labels).engine with events := [] }
      = (ofBytes bytes limits check labels).engine := by
    simp only [ofBytes]
    rw [Engine.seed_eq]
    rfl
  rw [run, same]
  rfl

/-- When decoding succeeds, and with which values. -/
theorem decode_ofBytes_ok {values : List Value} :
    (ofBytes bytes limits check labels).decode program = .ok values ↔
      ∃ e, runFrom 0 program.instructions (ofBytes bytes limits check labels).engine = (none, e)
        ∧ (check = true → e.cursor = e.storage.bits.length) ∧ e.records.root? = some values := by
  simp only [decode, run_ofBytes]
  cases done : runFrom 0 program.instructions (ofBytes bytes limits check labels).engine with
  | mk failure e =>
    cases failure with
    | some error => simp
    | none => simp [finish_ok]

end Decoder

end BitTemplate
