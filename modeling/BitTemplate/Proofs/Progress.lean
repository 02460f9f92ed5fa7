import BitTemplate.Proofs.Moves
import BitTemplate.Proofs.Record

/-!
What a run adds to its state. The encoder only appends: to the bits, to the log, to the pending checks and to the record,
and the transforms it adds to the log leave the bits alone that were there before. The decoder moves its cursor on,
appends to the record and changes its bits by the transforms it adds to the log, after the cursor only. The first holds
of each instruction, the second of each move that instructions are made of, and both by composition of a whole run. What
is said of bits that were there before needs windows that start where position and offset say: it stands under a
condition, which is a parameter of both relations.
-/

namespace BitTemplate

/-! ## Encoding -/

namespace Encoder

/-- Whether the encoder writes at the end of its bits. -/
def AtEnd (s : Encoder) : Prop :=
  s.engine.storage.cursor = s.engine.storage.bits.length

/-- A property that holds at each instruction of a run. -/
def Along (property : Directive → Encoder → Prop) (index : Nat) : List Instruction → Encoder → Prop
  | [], _ => True
  | instruction :: rest, s =>
    property instruction.directive { s with engine := s.engine.arrive index instruction }
      ∧ ∀ s', step index instruction s = .ok () s' → Along property (index + 1) rest s'

theorem along_cons {property : Directive → Encoder → Prop} {instruction : Instruction} {rest : List Instruction}
    {index : Nat} {s : Encoder} :
    Along property index (instruction :: rest) s ↔
      property instruction.directive { s with engine := s.engine.arrive index instruction }
        ∧ match step index instruction s with
          | .ok () s' => Along property (index + 1) rest s'
          | .error _ _ => True := by
  refine and_congr_right fun _ => ?_
  constructor
  · intro later
    split
    · exact later _ ‹_›
    · trivial
  · intro later s' done
    rwa [done] at later

theorem Along.combine {property other both : Directive → Encoder → Prop} {instructions : List Instruction} {index : Nat}
    {s : Encoder} (implies : ∀ i ∈ instructions, ∀ s, property i.directive s → other i.directive s → both i.directive s)
    (h : Along property index instructions s) (h' : Along other index instructions s) :
    Along both index instructions s := by
  induction instructions generalizing index s with
  | nil => trivial
  | cons instruction rest ih =>
    exact ⟨implies instruction (by simp) _ h.1 h'.1,
      fun s' done => ih (fun i hi => implies i (by simp [hi])) (h.2 s' done) (h'.2 s' done)⟩

theorem Along.mono {property other : Directive → Encoder → Prop} {instructions : List Instruction} {index : Nat}
    {s : Encoder} (h : Along property index instructions s)
    (implies : ∀ i ∈ instructions, ∀ s, property i.directive s → other i.directive s) :
    Along other index instructions s :=
  h.combine (fun i hi s holds _ => implies i hi s holds) h

theorem Along.of_forall {property : Directive → Encoder → Prop} {instructions : List Instruction} {index : Nat}
    {s : Encoder} (all : ∀ i ∈ instructions, ∀ s, property i.directive s) : Along property index instructions s := by
  induction instructions generalizing index s with
  | nil => trivial
  | cons instruction rest ih => exact ⟨all instruction (by simp) _, fun s' _ => ih fun i hi => all i (by simp [hi])⟩

/-- Whether the windows of all directives of a run start where position and offset say. -/
abbrev InWord (index : Nat) (instructions : List Instruction) (s : Encoder) : Prop :=
  Along (fun directive s => directive.InWord s.engine.cursor) index instructions s

/-- What later states of the encoder add to an earlier one. -/
structure Extends (inWord : Prop) (s s' : Encoder) : Prop where
  atEnd : s'.AtEnd
  limits : s'.engine.limits = s.engine.limits
  shape : s'.shape = s.shape
  bits : s.engine.storage.bits <+: s'.engine.storage.bits
  log : Log.Grows inWord s.engine.storage.bits.length s.engine.log s'.engine.log
  pending : ∃ more, s'.pending = s.pending ++ more ∧ more.Pairwise (fun p q => p.logged ≤ q.logged)
    ∧ ∀ p ∈ more, s.engine.log.length ≤ p.logged ∧ p.logged ≤ s'.engine.log.length
  gaps : ∀ p ∈ s'.pending, p ∈ s.pending ∨ p.position + p.gap ≤ s'.engine.storage.bits.length
  input : ∃ used, s.input = used ++ s'.input
    ∧ ((∀ v ∈ used, v.isList = false) → s'.engine.scalars = s.engine.scalars ++ used)
  restKept : ∀ p, s.restEnd = some p → s'.restEnd = some p
  restNew : ∀ p, s'.restEnd = some p →
    s.restEnd = some p ∨ s.engine.storage.bits.length ≤ p.1 ∧ p.1 ≤ s'.engine.storage.bits.length

namespace Extends

variable {s s' s'' : Encoder} {inWord : Prop}

theorem trans (h : Extends inWord s s') (h' : Extends inWord s' s'') : Extends inWord s s'' where
  atEnd := h'.atEnd
  limits := h'.limits.trans h.limits
  shape := h'.shape.trans h.shape
  bits := h.bits.trans h'.bits
  log := h.log.trans h'.log h.bits.length_le
  pending := by
    obtain ⟨more, eq, sorted, bounds⟩ := h.pending
    obtain ⟨more', eq', sorted', bounds'⟩ := h'.pending
    refine ⟨more ++ more', by rw [eq', eq, List.append_assoc], ?_, ?_⟩
    · rw [List.pairwise_append]
      exact ⟨sorted, sorted', fun p hp q hq => Nat.le_trans (bounds p hp).2 (bounds' q hq).1⟩
    · intro p hp
      rcases List.mem_append.mp hp with old | new
      · exact ⟨(bounds p old).1, Nat.le_trans (bounds p old).2 h'.log.length_le⟩
      · exact ⟨Nat.le_trans h.log.length_le (bounds' p new).1, (bounds' p new).2⟩
  gaps p hp := by
    rcases h'.gaps p hp with old | new
    · rcases h.gaps p old with older | inside
      · exact .inl older
      · exact .inr (Nat.le_trans inside h'.bits.length_le)
    · exact .inr new
  input := by
    obtain ⟨used, eq, produced⟩ := h.input
    obtain ⟨used', eq', produced'⟩ := h'.input
    refine ⟨used ++ used', by rw [eq, eq', List.append_assoc], fun scalars => ?_⟩
    rw [produced' fun v hv => scalars v (List.mem_append_right used hv),
      produced fun v hv => scalars v (List.mem_append_left used' hv), List.append_assoc]
  restKept p hp := h'.restKept p (h.restKept p hp)
  restNew p hp := by
    have longer := h.bits.length_le
    have longer' := h'.bits.length_le
    rcases h'.restNew p hp with old | new
    · rcases h.restNew p old with older | ⟨low, high⟩
      · exact .inl older
      · exact .inr ⟨low, Nat.le_trans high longer'⟩
    · exact .inr ⟨Nat.le_trans longer new.1, new.2⟩

/-- What holds under a condition holds under a stronger one. -/
theorem mono {stronger : Prop} (h : Extends inWord s s') (implies : stronger → inWord) : Extends stronger s s' :=
  { h with log := h.log.mono implies }

/-! ### Single changes -/

/-- A change of the engine that touches neither bits nor log nor scalars. -/
theorem of_engine (h : s.AtEnd) {e : Engine} (storage : e.storage = s.engine.storage) (log : e.log = s.engine.log)
    (limits : e.limits = s.engine.limits) (scalars : e.scalars = s.engine.scalars) :
    Extends inWord s { s with engine := e } where
  atEnd := by simpa only [AtEnd, storage] using h
  limits := limits
  shape := rfl
  bits := by simp [storage]
  log := by
    rw [log]
    exact Log.Grows.refl _ _ _
  pending := ⟨[], by simp, .nil, by simp⟩
  gaps p hp := .inl hp
  input := ⟨[], rfl, fun _ => by simp [scalars]⟩
  restKept p hp := hp
  restNew p hp := .inl hp

theorem refl (h : s.AtEnd) : Extends inWord s s :=
  of_engine h rfl rfl rfl rfl

/-- Bits at the end and transforms of them. -/
theorem append (h : s.AtEnd) (bits : Bits) {ts : List Transform}
    (keeps : inWord → Transform.Keeps s.engine.storage.bits.length ts) (events : List Event) :
    Extends inWord s { s with engine := { s.engine with
      storage := s.engine.storage.write bits
      log := Log.entries s.engine.walk.flat ts ++ s.engine.log
      events } } where
  atEnd := by
    simp only [AtEnd] at h ⊢
    simp [Storage.write_at_end h, h]
  limits := rfl
  shape := rfl
  bits := by
    simp only [AtEnd] at h
    simp [Storage.write_at_end h]
  log := Log.Grows.entries keeps _ _
  pending := ⟨[], by simp, .nil, by simp⟩
  gaps p hp := .inl hp
  input := ⟨[], rfl, fun _ => by simp [Engine.scalars]⟩
  restKept p hp := hp
  restNew p hp := .inl hp

/-- The next value of the input in the record. -/
theorem consume (h : s.AtEnd) {v : Value} {rest : List Value} (input : s.input = v :: rest) (start : Nat) :
    Extends inWord s { s with input := rest, engine := s.engine.produce v start } where
  atEnd := h
  limits := rfl
  shape := rfl
  bits := List.prefix_refl _
  log := Log.Grows.refl _ _ _
  pending := ⟨[], by simp, .nil, by simp⟩
  gaps p hp := .inl hp
  input := ⟨[v], input, fun scalar => Engine.scalars_produce (scalar v (by simp)) _ _⟩
  restKept p hp := hp
  restNew p hp := .inl hp

theorem postpone (h : s.AtEnd) (pending : Pending) (logged : pending.logged = s.engine.log.length)
    (inside : pending.position + pending.gap ≤ s.engine.storage.bits.length) :
    Extends inWord s { s with pending := s.pending ++ [pending] } :=
  { refl h with
    pending := ⟨[pending], rfl, List.pairwise_singleton _ _, by simp [logged]⟩
    gaps := fun p hp => by
      rcases List.mem_append.mp hp with old | new
      · exact .inl old
      · rw [List.mem_singleton.mp new]
        exact .inr inside }

theorem marked (h : s.AtEnd) : Extends inWord s s.marked := by
  simp only [Encoder.marked]
  cases rest : s.restEnd with
  | some p => exact refl h
  | none =>
    exact { refl h with
      restKept := fun p hp => by simp [rest] at hp
      restNew := fun p hp => by
        cases hp
        exact .inr ⟨Nat.le_of_eq h.symm, Nat.le_of_eq h⟩ }

/-! ### Instructions -/

theorem writeBits (h : s.AtEnd) {encoding : Encoding} {bits : Bits} {u : Unit}
    (done : Encoder.writeBits encoding bits s = .ok u s') : Extends inWord s s' := by
  obtain ⟨ts, asked, rfl⟩ := writeBits_ok.mp done
  have keeps : Transform.Keeps s.engine.storage.bits.length ts := h ▸ Flags.keeps asked
  rw [Engine.foldl_record]
  exact append h bits (fun _ => keeps) _

theorem writeField (h : s.AtEnd) {encoding : Encoding} {v : Value} {rest : List Value} {bits : Bits} {u : Unit}
    (input : s.input = v :: rest) (done : Encoder.writeField encoding v bits { s with input := rest } = .ok u s') :
    Extends inWord s s' := by
  obtain ⟨s₁, written, rfl⟩ := writeField_ok.mp done
  obtain ⟨ts, asked, rfl⟩ := writeBits_ok.mp written
  have first := @writeBits s _ inWord h encoding bits () (writeBits_ok.mpr ⟨ts, asked, rfl⟩)
  exact first.trans (consume first.atEnd input _)

theorem writeGap (h : s.AtEnd) {bytesOnly : Bool} {width : Nat} (done : Encoder.writeGap bytesOnly s = .ok width s') :
    Extends inWord s s' := by
  obtain ⟨v, rest, bits, input, _, _, rfl⟩ := writeGap_ok.mp done
  have first := append h bits (fun _ : inWord => Transform.Keeps.nil _)
    (.seek s.engine.cursor (s.engine.cursor + bits.length) :: s.engine.events)
  exact first.trans (consume first.atEnd input _)

/-- A gap ends within the bits. -/
theorem writeGap_inside {bytesOnly : Bool} {width : Nat} (done : Encoder.writeGap bytesOnly s = .ok width s') :
    s.engine.cursor + width ≤ s'.engine.storage.bits.length := by
  obtain ⟨v, rest, bits, _, _, rfl, rfl⟩ := writeGap_ok.mp done
  exact (s.engine.storage.write bits).cursor_le

theorem recordAll (h : s.AtEnd) {ts : List Transform} (keeps : inWord → Transform.Keeps s.engine.cursor ts) :
    Extends inWord s { s with engine := ts.foldl Engine.record s.engine } := by
  rw [Engine.foldl_record]
  have keeps (sums : inWord) : Transform.Keeps s.engine.storage.bits.length ts := h ▸ keeps sums
  have unchanged : Extends inWord s s := refl h
  exact { unchanged with
    log := Log.Grows.entries keeps _ _
    pending := ⟨[], by simp, .nil, by simp⟩
    input := ⟨[], rfl, fun _ => by simp [Engine.scalars]⟩ }

/-- One instruction only adds. -/
theorem execute (h : s.AtEnd) {directive : Directive} {u : Unit} (done : Encoder.execute directive s = .ok u s') :
    Extends (directive.InWord s.engine.cursor) s s' := by
  generalize sums : directive.InWord s.engine.cursor = inWord
  cases directive with
  | value encoding width =>
    cases width with
    | bits width =>
      obtain ⟨v, rest, bits, input, _, _, written⟩ := execute_value_ok.mp done
      exact writeField h input written
    | rest =>
      obtain ⟨v, rest, bits, s₁, input, _, written, rfl⟩ := execute_rest_ok.mp done
      have first : Extends inWord s s₁ := writeField h input written
      exact first.trans (marked first.atEnd)
  | next width =>
    obtain ⟨_, rfl⟩ := execute_next_ok.mp done
    exact append h _ (fun _ => Transform.Keeps.nil _) _
  | constant bit width => exact writeBits h (writeConstant_ok.mp done).2
  | mod change width =>
    obtain ⟨ts, asked, rfl⟩ := execute_mod_ok.mp done
    exact recordAll h fun _ => Transform.Keeps.atCursor asked
  | modOff change offset width =>
    obtain rfl := execute_modOff_ok.mp done
    exact recordAll h fun holds => Transform.Keeps.atOffset (sums ▸ holds)
  | takeAll encoding =>
    obtain ⟨v, rest, bits, s₁, _, input, _, written, rfl⟩ := execute_takeAll_ok.mp done
    have first : Extends inWord s s₁ := writeField h input written
    exact first.trans (marked first.atEnd)
  | jump origin bits =>
    obtain ⟨gap, s₁, written, rfl⟩ := jump_ok.mp done
    have first : Extends inWord s s₁ := writeGap h written
    have inside := writeGap_inside written
    obtain ⟨v, rest, bits, _, _, _, rfl⟩ := writeGap_ok.mp written
    exact first.trans (postpone first.atEnd _ rfl inside)
  | marker last bytes =>
    obtain ⟨needle, gap, s₁, _, _, written, closed⟩ := marker_ok.mp done
    have first : Extends inWord s s₁ := writeGap h written
    have second := first.trans (postpone first.atEnd
      ⟨s₁.engine.log.length, s.engine.cursor, gap, .marker needle bytes last, s₁.engine.context⟩ rfl
      (writeGap_inside written))
    exact second.trans (writeBits second.atEnd closed)
  | control action =>
    obtain ⟨e, acted, rfl⟩ := execute_control_ok.mp done
    have same := Engine.control_kept acted
    exact of_engine h same.storage same.log same.limits same.scalars

theorem step (h : s.AtEnd) {index : Nat} {instruction : Instruction} {u : Unit}
    (done : Encoder.step index instruction s = .ok u s') :
    Extends (instruction.directive.InWord s.engine.cursor) s s' := by
  obtain ⟨_, executed⟩ := step_ok.mp done
  have arrived : Extends (instruction.directive.InWord s.engine.cursor) s
      { s with engine := s.engine.arrive index instruction } := of_engine h rfl rfl rfl rfl
  exact arrived.trans (execute arrived.atEnd executed)

/-- A run only adds. -/
theorem runFrom {instructions : List Instruction} {index : Nat} (h : s.AtEnd)
    (done : Encoder.runFrom index instructions s = (none, s')) : Extends (InWord index instructions s) s s' := by
  -- over the instructions: each step extends a state that still writes at the end
  induction instructions generalizing index s with
  | nil =>
    cases done
    exact of_engine h rfl rfl rfl rfl
  | cons instruction rest ih =>
    obtain ⟨s₁, first, others⟩ := runFrom_cons_ok.mp done
    have taken := step h first
    exact (taken.mono (·.1)).trans ((ih taken.atEnd others).mono (·.2 s₁ first))

end Extends

/-- Scalars are all that a run is given if it is given scalars at its start. -/
theorem along_scalars {instructions : List Instruction} {index : Nat} {s : Encoder} (atEnd : s.AtEnd)
    (scalars : ∀ v ∈ s.input, v.isList = false) :
    Along (fun _ s => ∀ v ∈ s.input, v.isList = false) index instructions s := by
  induction instructions generalizing index s with
  | nil => trivial
  | cons instruction rest ih =>
    refine ⟨scalars, fun s' done => ?_⟩
    have after := Extends.step atEnd done
    obtain ⟨used, input, _⟩ := after.input
    exact ih after.atEnd fun v hv => scalars v (input ▸ List.mem_append_right used hv)

end Encoder

/-! ## Decoding -/

namespace Decoder

theorem scalars_readBits {encoding : Encoding} {width : Nat} {bits : Bits} {e e' : Engine}
    (done : readBits encoding width e = .ok bits e') : e'.scalars = e.scalars := by
  obtain ⟨ts, s, _, _, _, _, _, rfl⟩ := readBits_ok.mp done
  rw [Engine.foldl_record]
  rfl

theorem length_readBits {encoding : Encoding} {width : Nat} {bits : Bits} {e e' : Engine}
    (done : readBits encoding width e = .ok bits e') : bits.length = width := by
  obtain ⟨ts, s, _, applied, enough, _, rfl, _⟩ := readBits_ok.mp done
  have := Transform.length_of_onAll? applied
  rw [List.length_take, List.length_drop]
  omega

theorem cursor_produceField {encoding : Encoding} {width : Nat} {e e' : Engine} {u : Unit}
    (done : produceField encoding width e = .ok u e') : e'.cursor = e.cursor + width := by
  obtain ⟨bits, v, e₁, read, _, rfl⟩ := produceField_ok.mp done
  obtain ⟨ts, s, _, _, _, moved, _, rfl⟩ := readBits_ok.mp read
  exact moved

/-- A property that holds at each instruction of a run. -/
def Along (property : Directive → Engine → Prop) (index : Nat) : List Instruction → Engine → Prop
  | [], _ => True
  | instruction :: rest, e =>
    property instruction.directive (e.arrive index instruction)
      ∧ ∀ e', step index instruction e = .ok () e' → Along property (index + 1) rest e'

theorem Along.combine {property other both : Directive → Engine → Prop} {instructions : List Instruction} {index : Nat}
    {e : Engine} (implies : ∀ i ∈ instructions, ∀ d, property i.directive d → other i.directive d → both i.directive d)
    (h : Along property index instructions e) (h' : Along other index instructions e) :
    Along both index instructions e := by
  induction instructions generalizing index e with
  | nil => trivial
  | cons instruction rest ih =>
    exact ⟨implies instruction (by simp) _ h.1 h'.1,
      fun e' done => ih (fun i hi => implies i (by simp [hi])) (h.2 e' done) (h'.2 e' done)⟩

theorem Along.mono {property other : Directive → Engine → Prop} {instructions : List Instruction} {index : Nat}
    {e : Engine} (h : Along property index instructions e)
    (implies : ∀ i ∈ instructions, ∀ d, property i.directive d → other i.directive d) :
    Along other index instructions e :=
  h.combine (fun i hi d holds _ => implies i hi d holds) h

theorem Along.of_forall {property : Directive → Engine → Prop} {instructions : List Instruction} {index : Nat} {e : Engine}
    (all : ∀ i ∈ instructions, ∀ e, property i.directive e) : Along property index instructions e := by
  induction instructions generalizing index e with
  | nil => trivial
  | cons instruction rest ih => exact ⟨all instruction (by simp) _, fun e' _ => ih fun i hi => all i (by simp [hi])⟩

/-- Whether the windows of all directives of a run start where position and offset say. -/
abbrev InWord (index : Nat) (instructions : List Instruction) (e : Engine) : Prop :=
  Along (fun directive e => directive.InWord e.cursor) index instructions e

/-- What later states of the decoder add to an earlier one. -/
structure Advances (inWord : Prop) (e e' : Engine) : Prop where
  cursor : e.cursor ≤ e'.cursor
  data : ∃ newer : Log, e'.log = newer ++ e.log
    ∧ Transform.onAll? newer.transforms e.storage.bits = some e'.storage.bits
    ∧ (inWord → Transform.Keeps e.cursor newer.transforms)
  scalars : e.scalars <+: e'.scalars
  shaped : e.Shaped → e'.Shaped

namespace Advances

variable {e e' e'' : Engine} {inWord : Prop}

theorem length (h : Advances inWord e e') : e'.storage.bits.length = e.storage.bits.length := by
  obtain ⟨newer, _, applied, _⟩ := h.data
  exact Transform.length_of_onAll? applied

theorem trans (h : Advances inWord e e') (h' : Advances inWord e' e'') : Advances inWord e e'' where
  cursor := Nat.le_trans h.cursor h'.cursor
  data := by
    obtain ⟨newer, log, applied, keeps⟩ := h.data
    obtain ⟨newest, log', applied', keeps'⟩ := h'.data
    refine ⟨newest ++ newer, by rw [log', log, List.append_assoc], ?_, ?_⟩
    · rw [Log.transforms_append, Transform.onAll?_append, applied, Option.bind_some, applied']
    · rw [Log.transforms_append]
      exact fun sums => (keeps sums).append ((keeps' sums).mono h.cursor)
  scalars := h.scalars.trans h'.scalars
  shaped shaped := h'.shaped (h.shaped shaped)

/-- What holds under a condition holds under a stronger one. -/
theorem mono {stronger : Prop} (h : Advances inWord e e') (implies : stronger → inWord) : Advances stronger e e' :=
  { h with
    data := by
      obtain ⟨newer, log, applied, keeps⟩ := h.data
      exact ⟨newer, log, applied, fun sums => keeps (implies sums)⟩ }

/-- A change that touches neither bits nor log, neither the record nor its shape. -/
theorem of_record (cursor : e.cursor ≤ e'.cursor) (bits : e'.storage.bits = e.storage.bits) (log : e'.log = e.log)
    (records : e'.records = e.records) (shape : e'.shape = e.shape) : Advances inWord e e' where
  cursor := cursor
  data := ⟨[], log, congrArg some bits.symm, fun _ => Transform.Keeps.nil _⟩
  scalars := by simp [Engine.scalars, records]
  shaped shaped := by
    simp only [Engine.Shaped] at shaped ⊢
    rw [shape, records, shaped]

theorem consume (consumes : Consumes inWord e e') : Advances inWord e e' := by
  obtain ⟨ts, s, events, applied, keeps, moved⟩ := consumes
  have unchanged : Advances inWord e e := of_record (Nat.le_refl _) rfl rfl rfl rfl
  refine { unchanged with
    cursor := moved
    data := ⟨Log.entries e.walk.flat ts, rfl, ?_, ?_⟩ }
  · rw [Log.transforms_entries]
    exact applied
  · rwa [Log.transforms_entries]

theorem produce {v : Value} (scalar : v.isList = false) (start : Nat) : Advances inWord e (e.produce v start) where
  cursor := Nat.le_refl _
  data := ⟨[], rfl, rfl, fun _ => Transform.Keeps.nil _⟩
  scalars := by simp [Engine.scalars_produce scalar]
  shaped shaped := shaped.produce scalar start

theorem control {action : Control} (acted : e.control action = .ok e') : Advances inWord e e' := by
  have same := Engine.control_kept acted
  have bits : e'.storage.bits = e.storage.bits := congrArg Storage.bits same.storage
  exact ⟨by simp [Engine.cursor, same.storage], ⟨[], same.log, congrArg some bits.symm, fun _ => Transform.Keeps.nil _⟩,
    by simp [same.scalars], same.shaped⟩

/-- Whatever a decoder does moves the cursor on and appends to the record. -/
theorem moves (moves : Moves inWord e e') : Advances inWord e e' := by
  induction moves with
  | refl => exact of_record (Nat.le_refl _) rfl rfl rfl rfl
  | tail _ last ih =>
    cases last with
    | consume consumes => exact ih.trans (consume consumes)
    | produce scalar start => exact ih.trans (produce scalar start)
    | control acted => exact ih.trans (control acted)
    | note => exact ih.trans (of_record (Nat.le_refl _) rfl rfl rfl rfl)

theorem readBits {encoding : Encoding} {width : Nat} {bits : Bits}
    (done : Decoder.readBits encoding width e = .ok bits e') : Advances inWord e e' :=
  consume (.readBits done)

theorem produceField {encoding : Encoding} {width : Nat} {u : Unit}
    (done : Decoder.produceField encoding width e = .ok u e') : Advances inWord e e' :=
  moves (.produceField done)

theorem produceGap {encoding : Encoding} {target : Nat} {u : Unit}
    (done : Decoder.produceGap encoding target e = .ok u e') : Advances inWord e e' :=
  moves (.produceGap done)

theorem execute {directive : Directive} {u : Unit} (done : Decoder.execute directive e = .ok u e') :
    Advances (directive.InWord e.cursor) e e' :=
  moves (.execute done)

theorem step {index : Nat} {instruction : Instruction} {u : Unit}
    (done : Decoder.step index instruction e = .ok u e') : Advances (instruction.directive.InWord e.cursor) e e' :=
  moves (.step done)

theorem runFrom {instructions : List Instruction} {index : Nat}
    (done : Decoder.runFrom index instructions e = (none, e')) : Advances (InWord index instructions e) e e' := by
  induction instructions generalizing index e with
  | nil =>
    cases done
    exact of_record (Nat.le_refl _) rfl rfl rfl rfl
  | cons instruction rest ih =>
    obtain ⟨e₁, first, others⟩ := runFrom_cons_ok.mp done
    exact ((step first).mono (·.1)).trans ((ih others).mono (·.2 e₁ first))

end Advances

/-- A property that every successful instruction on data of the right length has holds along a successful run. -/
theorem Along.of_run {property : Directive → Engine → Prop} {length : Nat} {instructions : List Instruction} {index : Nat}
    {e e' : Engine}
    (each : ∀ i ∈ instructions, ∀ d d', d.storage.bits.length = length → execute i.directive d = .ok () d' →
      property i.directive d)
    (long : e.storage.bits.length = length) (done : runFrom index instructions e = (none, e')) :
    Along property index instructions e := by
  induction instructions generalizing index e with
  | nil => trivial
  | cons instruction rest ih =>
    obtain ⟨e₁, first, others⟩ := runFrom_cons_ok.mp done
    refine ⟨each instruction (by simp) _ _ long (step_ok.mp first).2, fun e₂ again => ?_⟩
    rw [first] at again
    cases again
    exact ih (fun i hi => each i (by simp [hi])) ((Advances.step first).length.trans long) others

/-- Skipped bits that are zeros. -/
def SkipsZeros (directive : Directive) (e : Engine) : Prop :=
  match directive with
  | .next width => (e.storage.bits.drop e.cursor).take width = List.replicate width false
  | _ => True

end Decoder

end BitTemplate
