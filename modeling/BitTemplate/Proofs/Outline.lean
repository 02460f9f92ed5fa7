import Mathlib
import BitTemplate.Proofs.Finish
import BitTemplate.Proofs.Session
import BitTemplate.Proofs.Shape

/-!
The record of a run beside its path, its shape and its count of scalars. Four parts of an engine follow the values: the
open records, the place of the next item, the shape and the last value. Every instruction changes them by one scalar, by
one bracket or not at all, and one that fails leaves them. So they always agree: the path counts the items of the open
records, and the walk along the shape ends at the place of the next item. What a run has produced can therefore be looked
up in its shape, by flat index and by path.
-/

namespace BitTemplate

/-! ## Outlines -/

/-- The numbers of items in the open records, the root first. -/
def Shape.Records.counts (records : Shape.Records) : List Nat :=
  ((records.inner :: records.outer).map List.length).reverse

theorem Shape.Walk.path_eq_counts {walk : Shape.Walk} {records : Shape.Records} :
    walk.path = records.counts ↔ walk.inner = records.inner.length ∧ walk.outer = records.outer.map List.length := by
  simp [Shape.Walk.path, Shape.Records.counts, List.reverse_inj, and_comm]

/-- Closing a record keeps the counts right: the record becomes one more item of the one around it. -/
theorem Shape.Walk.path_of_leave {walk next : Shape.Walk} {records after : Shape.Records} {v : Value}
    (h : walk.path = records.counts) (left : walk.leave? = some next) (closed : records.leave? = some (v, after)) :
    next.path = (after.push v).counts := by
  obtain ⟨inner, outer, flat⟩ := walk
  obtain ⟨items, around⟩ := records
  cases outer with
  | nil => cases left
  | cons index outer =>
    cases around with
    | nil => cases closed
    | cons parent around =>
      cases left
      cases closed
      obtain ⟨same, others⟩ := List.cons_eq_cons.mp (path_eq_counts.mp h).2
      exact path_eq_counts.mpr ⟨congrArg Nat.succ same, others⟩

/-- The part of an engine that follows its values. -/
structure Outline where
  records : Shape.Records
  walk : Shape.Walk
  shape : String
  last : Option Produced

/-- What an engine keeps of its values. -/
def Engine.outline (e : Engine) : Outline :=
  ⟨e.records, e.walk, e.shape, e.last⟩

namespace Outline

variable {o o' o'' : Outline}

/-- What one instruction does to an outline. -/
inductive Step : Outline → Outline → Prop
  | stay (o : Outline) : Step o o
  | scalar (o : Outline) {v : Value} (single : v.isList = false) (position : Nat) :
    Step o ⟨o.records.push v, o.walk.scalar, o.shape.push '.', some ⟨v, position, o.walk.path⟩⟩
  | enter (o : Outline) : Step o ⟨o.records.enter, o.walk.enter, o.shape.push '[', o.last⟩
  | leave (o : Outline) {v : Value} {records : Shape.Records} {walk : Shape.Walk}
    (closed : o.records.leave? = some (v, records)) (left : o.walk.leave? = some walk) (position : Nat) :
    Step o ⟨records.push v, walk, o.shape.push ']', some ⟨v, position, o.walk.enclosing⟩⟩

/-- The parts of an outline agree. -/
structure Structured (o : Outline) : Prop where
  /-- One component for each open record, which is the number of items already in it. -/
  path : o.walk.path = o.records.counts
  /-- The walk along the shape ends at the place of the next item. -/
  walked : Shape.Walk.start.along? o.shape.toList = some o.walk
  marks : o.shape.toList = o.records.marks
  flat : o.walk.flat = o.records.scalars.length

/-- The agreement survives a scalar, a bracket on either side, and nothing. -/
theorem Structured.step (h : o.Structured) (step : Step o o') : o'.Structured := by
  obtain ⟨inner, outer⟩ := Shape.Walk.path_eq_counts.mp h.path
  cases step with
  | stay => exact h
  | scalar single position =>
    constructor
    · exact Shape.Walk.path_eq_counts.mpr ⟨congrArg Nat.succ inner, outer⟩
    · rw [String.toList_push, Shape.Walk.along?_append, h.walked]
      rfl
    · rw [String.toList_push, h.marks, Shape.Records.marks_push, Shape.marks_of_not_isList single]
    · rw [Shape.Records.scalars_push, Shape.scalars_of_not_isList single, List.length_append, ← h.flat]
      rfl
  | enter =>
    constructor
    · exact Shape.Walk.path_eq_counts.mpr ⟨rfl, List.cons_eq_cons.mpr ⟨inner, outer⟩⟩
    · rw [String.toList_push, Shape.Walk.along?_append, h.walked]
      rfl
    · rw [String.toList_push, h.marks, Shape.Records.marks_enter]
    · rw [Shape.Records.scalars_enter, ← h.flat]
      rfl
  | leave closed left position =>
    constructor
    · exact Shape.Walk.path_of_leave h.path left closed
    · rw [String.toList_push, Shape.Walk.along?_append, h.walked]
      simp [left]
    · rw [String.toList_push, h.marks, Shape.Records.marks_leave closed]
    · rw [Shape.Records.scalars_leave closed, ← h.flat, Shape.Walk.flat_of_leave? left]

/-! ### What is produced -/

/-- The value that an instruction added to the first of two outlines. -/
def added? (o o' : Outline) : Option Produced :=
  if o.walk.flat < o'.walk.flat then o'.last else none

theorem added?_of_eq (same : o'.walk.flat = o.walk.flat) : added? o o' = none := by
  rw [added?, if_neg (Nat.not_lt_of_ge (Nat.le_of_eq same))]

theorem added?_of_succ (next : o'.walk.flat = o.walk.flat + 1) : added? o o' = o'.last := by
  rw [added?, if_pos (by omega)]

/-- The values that were added from each of some outlines to the next one. -/
def produced : List Outline → List Produced
  | o :: o' :: rest => (added? o o').toList ++ produced (o' :: rest)
  | _ => []

/-- What outlines have in common that lead from one to another and produce some values on the way. -/
structure Adds (o : Outline) (made : List Produced) (o' : Outline) : Prop where
  structured : o'.Structured
  shape : o.shape.toList <+: o'.shape.toList
  scalars : o'.records.scalars = o.records.scalars ++ made.map (·.value)
  /-- The path that was kept with a value is its path in the shape. -/
  stands : ∀ index p, made[index]? = some p → Shape.Stands o'.shape (o.records.scalars.length + index) p.path

namespace Adds

variable {made more : List Produced}

theorem refl (h : o.Structured) : Adds o [] o where
  structured := h
  shape := List.prefix_refl _
  scalars := by simp
  stands _ _ found := nomatch found

/-- An instruction without a scalar adds at most to the shape. -/
theorem of_same (h : o'.Structured) (flat : o'.walk.flat = o.walk.flat) (shape : o.shape.toList <+: o'.shape.toList)
    (scalars : o'.records.scalars = o.records.scalars) : Adds o (added? o o').toList o' := by
  rw [added?_of_eq flat]
  exact ⟨h, shape, by simp [scalars], fun _ _ found => nomatch found⟩

theorem trans (h : Adds o made o') (h' : Adds o' more o'') : Adds o (made ++ more) o'' where
  structured := h'.structured
  shape := h.shape.trans h'.shape
  scalars := by rw [h'.scalars, h.scalars, List.map_append, List.append_assoc]
  stands index p found := by
    by_cases early : index < made.length
    · rw [List.getElem?_append_left early] at found
      exact (h.stands index p found).extend h'.shape
    · rw [List.getElem?_append_right (Nat.not_lt.mp early)] at found
      have later := h'.stands _ p found
      rw [h.scalars, List.length_append, List.length_map] at later
      have place : o.records.scalars.length + made.length + (index - made.length)
          = o.records.scalars.length + index := by omega
      rwa [place] at later

/-- One instruction produces at most one scalar, and keeps it with its path. -/
theorem of_step (h : o.Structured) (step : Step o o') : Adds o (added? o o').toList o' := by
  have h' := h.step step
  cases step with
  | stay => exact of_same h' rfl (List.prefix_refl _) rfl
  | scalar single position =>
    rw [added?_of_succ rfl]
    refine ⟨h', ⟨['.'], (String.toList_push _).symm⟩, ?_, fun index p found => ?_⟩
    · rw [Shape.Records.scalars_push, Shape.scalars_of_not_isList single]
      rfl
    · cases index with
      | succ index => cases found
      | zero =>
        cases found
        exact ⟨o.shape.toList, [], o.walk, String.toList_push _, h.walked, h.flat, rfl⟩
  | enter => exact of_same h' rfl ⟨['['], (String.toList_push _).symm⟩ (Shape.Records.scalars_enter _)
  | leave closed left position =>
    exact of_same h' (Shape.Walk.flat_of_leave? left) ⟨[']'], (String.toList_push _).symm⟩
      (Shape.Records.scalars_leave closed)

/-- What a chain of instructions adds is what its steps add. -/
theorem of_isChain {os : List Outline} (h : o.Structured) (chain : os.IsChain Step) (first : os.head? = some o)
    (last : os.getLast? = some o') : Adds o (produced os) o' := by
  induction os generalizing o with
  | nil => cases first
  | cons start rest ih =>
    cases first
    cases rest with
    | nil =>
      cases last
      exact refl h
    | cons next rest =>
      obtain ⟨step, others⟩ := List.isChain_cons_cons.mp chain
      rw [List.getLast?_cons_cons] at last
      exact (of_step h step).trans (ih (h.step step) others rfl last)

end Adds

end Outline

/-! ## Engines -/

namespace Engine

theorem structured_start (storage : Storage) (limits : Limits) : (start storage limits).outline.Structured :=
  ⟨rfl, rfl, rfl, rfl⟩

theorem outline_seed (e : Engine) (labels : List (String × Value)) : (e.seed labels).outline = e.outline := by
  rw [seed_eq]
  rfl

theorem outline_produce {v : Value} (single : v.isList = false) (e : Engine) (start : Nat) :
    Outline.Step e.outline (e.produce v start).outline :=
  .scalar e.outline single _

theorem outline_control {e e' : Engine} {action : Control} (acted : e.control action = .ok e') :
    Outline.Step e.outline e'.outline := by
  cases action with
  | setFlag flag setting =>
    cases acted
    exact .stay _
  | setLabel name =>
    simp only [control, setLabel] at acted
    split at acted
    · cases acted
      exact .stay _
    · cases acted
  | defLabel name value =>
    cases acted
    exact .stay _
  | matchLabel name =>
    simp only [control, except_bind_ok, except_pure_ok] at acted
    obtain ⟨_, _, rfl⟩ := acted
    exact .stay _
  | nestOpen =>
    cases acted
    exact .enter _
  | nestClose =>
    simp only [control, closeRecord] at acted
    split at acted
    · rename_i closed left
      cases acted
      exact .leave e.outline closed left _
    · cases acted
  | assertion expected =>
    simp only [control, except_bind_ok, except_pure_ok] at acted
    obtain ⟨_, _, rfl⟩ := acted
    exact .stay _

end Engine

/-! ### Decoding -/

namespace Decoder

variable {e e' : Engine} {u : Unit}

theorem Consumes.outline {inWord : Prop} (consumes : Consumes inWord e e') : e'.outline = e.outline := by
  cases consumes
  rfl

theorem outline_produceField {encoding : Encoding} {width : Nat}
    (done : produceField encoding width e = .ok u e') : Outline.Step e.outline e'.outline := by
  obtain ⟨bits, v, e₁, read, decoded, rfl⟩ := produceField_ok.mp done
  have reads : Consumes False e e₁ := .readBits read
  rw [← reads.outline]
  exact e₁.outline_produce (Field.isList_of_decode decoded) _

theorem outline_produceGap {encoding : Encoding} {target : Nat} (done : produceGap encoding target e = .ok u e') :
    Outline.Step e.outline e'.outline := by
  obtain ⟨s, v, _, _, _, decoded, rfl⟩ := produceGap_ok.mp done
  exact Engine.outline_produce (Field.isList_of_decode decoded) { e.emit (.seek e.cursor target) with storage := s } _

theorem outline_execute {directive : Directive} (done : execute directive e = .ok u e') :
    Outline.Step e.outline e'.outline := by
  have stays {inWord : Prop} (consumes : Consumes inWord e e') : Outline.Step e.outline e'.outline := by
    rw [consumes.outline]
    exact .stay _
  cases directive with
  | value encoding width =>
    cases width with
    | bits width => exact outline_produceField done
    | rest => exact outline_produceField (execute_rest_ok.mp done)
  | next width =>
    obtain ⟨s, _, _, _, rfl⟩ := execute_next_ok.mp done
    exact .stay _
  | constant bit width =>
    obtain ⟨bits, read, _⟩ := readConstant_ok.mp done
    have reads : Consumes False e e' := .readBits read
    exact stays reads
  | mod change width =>
    obtain ⟨ts, asked, applied⟩ := execute_mod_ok.mp done
    have changes : Consumes False e e' := .transformAll (fun _ => Transform.Keeps.atCursor asked) applied
    exact stays changes
  | modOff change offset width =>
    exact stays (.transformAll Transform.Keeps.atOffset (execute_modOff_ok.mp done))
  | takeAll encoding => exact outline_produceField (execute_takeAll_ok.mp done).2
  | jump origin bits =>
    obtain ⟨target, _, gap⟩ := jump_ok.mp done
    exact outline_produceGap gap
  | marker last bytes =>
    obtain ⟨needle, found, e₁, _, _, _, gap, read⟩ := marker_ok.mp done
    obtain ⟨bits, read, _⟩ := readField_ok.mp read
    have reads : Consumes False e₁ e' := .readBits read
    rw [reads.outline]
    exact outline_produceGap gap
  | control action => exact e.outline_control (execute_control_ok.mp done)

/-- Whatever an instruction of a decoder does, it adds at most one scalar or one bracket. -/
theorem links_outline : runner.Links (fun _ _ => True) fun e e' => Outline.Step e.outline e'.outline where
  refl _ := .stay _
  fresh _ := .stay _
  rest _ := .stay _
  done _ done := by
    have executed := outline_execute (step_ok.mp done).2
    exact executed
  failed _ failed := by
    rcases step_failed failed with rfl | consumes
    · exact .stay _
    · rw [consumes.outline]
      exact .stay _

/-- The decoder after a session. -/
def after (d : Decoder) (programs : List Program) : Decoder :=
  programs.foldl (fun d program => (d.run program).2) d

theorem engine_after (d : Decoder) (programs : List Program) :
    (d.after programs).engine = programs.foldl (fun e program => runner.run program e) d.engine := by
  induction programs generalizing d with
  | nil => rfl
  | cons program later ih => exact ih (d.run program).2

/-- What a session of a decoder produces. -/
def produced (d : Decoder) (programs : List Program) : List Produced :=
  Outline.produced ((d.moments programs).map Engine.outline)

end Decoder

/-! ### Encoding -/

namespace Encoder

variable {s s' : Encoder} {u : Unit}

/-- The input of an encoder has no records in it. -/
def FlatInput (s : Encoder) : Prop :=
  ∀ v ∈ s.input, v.isList = false

/-- What one instruction does to the outline of an encoder whose input is flat. -/
def Outlines (s s' : Encoder) : Prop :=
  s.FlatInput → s'.FlatInput ∧ Outline.Step s.engine.outline s'.engine.outline

namespace Outlines

theorem of_eq (input : s'.input = s.input) (outline : s'.engine.outline = s.engine.outline) : Outlines s s' := by
  intro flat
  rw [FlatInput, input, outline]
  exact ⟨flat, .stay _⟩

/-- A value that is taken from the input and becomes the next value of the record. -/
theorem of_taken {v : Value} {rest : List Value} (input : s.input = v :: rest) (left : s'.input = rest)
    (grown : v.isList = false → Outline.Step s.engine.outline s'.engine.outline) : Outlines s s' := by
  intro flat
  rw [FlatInput, input] at flat
  rw [FlatInput, left]
  exact ⟨fun u hu => flat u (List.mem_cons_of_mem _ hu), grown (flat v List.mem_cons_self)⟩

/-- A change after an instruction that leaves input and outline. -/
theorem then_same {s'' : Encoder} (h : Outlines s s') (input : s''.input = s'.input)
    (outline : s''.engine.outline = s'.engine.outline) : Outlines s s'' := by
  intro flat
  rw [FlatInput, input, outline]
  exact h flat

theorem outline_writeBits {encoding : Encoding} {bits : Bits} (done : writeBits encoding bits s = .ok u s') :
    s'.input = s.input ∧ s'.engine.outline = s.engine.outline := by
  obtain ⟨ts, _, rfl⟩ := writeBits_ok.mp done
  rw [Engine.foldl_record]
  exact ⟨rfl, rfl⟩

theorem writeField {encoding : Encoding} {v : Value} {rest : List Value} {bits : Bits} (input : s.input = v :: rest)
    (done : Encoder.writeField encoding v bits { s with input := rest } = .ok u s') : Outlines s s' := by
  obtain ⟨s₁, written, rfl⟩ := writeField_ok.mp done
  obtain ⟨left, outline⟩ := outline_writeBits written
  refine of_taken input left fun single => ?_
  have grown := s₁.engine.outline_produce single s.engine.cursor
  rwa [outline] at grown

theorem writeGap {bytesOnly : Bool} {width : Nat} (done : Encoder.writeGap bytesOnly s = .ok width s') :
    Outlines s s' := by
  obtain ⟨v, rest, bits, input, _, _, rfl⟩ := writeGap_ok.mp done
  exact of_taken input rfl fun single => .scalar s.engine.outline single _

theorem execute {directive : Directive} (done : Encoder.execute directive s = .ok u s') : Outlines s s' := by
  cases directive with
  | value encoding width =>
    cases width with
    | bits width =>
      obtain ⟨v, rest, bits, input, _, _, written⟩ := execute_value_ok.mp done
      exact writeField input written
    | rest =>
      obtain ⟨v, rest, bits, s₁, input, _, written, rfl⟩ := execute_rest_ok.mp done
      exact (writeField input written).then_same (input_marked s₁) (congrArg Engine.outline (engine_marked s₁))
  | next width =>
    obtain ⟨_, rfl⟩ := execute_next_ok.mp done
    exact of_eq rfl rfl
  | constant bit width =>
    obtain ⟨input, outline⟩ := outline_writeBits (writeConstant_ok.mp done).2
    exact of_eq input outline
  | mod change width =>
    obtain ⟨ts, _, rfl⟩ := execute_mod_ok.mp done
    refine of_eq rfl ?_
    rw [Engine.foldl_record]
    rfl
  | modOff change offset width =>
    obtain rfl := execute_modOff_ok.mp done
    refine of_eq rfl ?_
    rw [Engine.foldl_record]
    rfl
  | takeAll encoding =>
    obtain ⟨v, rest, bits, s₁, _, input, _, written, rfl⟩ := execute_takeAll_ok.mp done
    exact (writeField input written).then_same (input_marked s₁) (congrArg Engine.outline (engine_marked s₁))
  | jump origin bits =>
    obtain ⟨gap, s₁, written, rfl⟩ := jump_ok.mp done
    exact (writeGap written).then_same rfl rfl
  | marker last bytes =>
    obtain ⟨needle, gap, s₁, _, _, written, closed⟩ := marker_ok.mp done
    obtain ⟨input, outline⟩ := outline_writeBits closed
    exact (writeGap written).then_same input outline
  | control action =>
    obtain ⟨e, acted, rfl⟩ := execute_control_ok.mp done
    exact fun flat => ⟨flat, Engine.outline_control acted⟩

end Outlines

theorem links_outline : runner.Links (fun _ _ => True) Outlines where
  refl _ := .of_eq rfl rfl
  fresh _ := .of_eq rfl rfl
  rest _ := .of_eq rfl rfl
  done _ done := by
    have executed := Outlines.execute (step_ok.mp done).2
    exact executed
  failed _ failed := by
    rcases step_failed failed with rfl | refuses
    · exact .of_eq rfl rfl
    · cases refuses with
      | untouched => exact .of_eq rfl rfl
      | taken input =>
        intro flat
        exact ⟨fun v hv => flat v (input ▸ List.mem_cons_of_mem _ hv), .stay _⟩

end Encoder

/-! ### Sessions -/

namespace Decoder

variable (bytes : List UInt8) (limits : Limits) (check : Bool) (labels : List (String × Value)) (programs : List Program)

theorem outline_ofBytes :
    (ofBytes bytes limits check labels).engine.outline = (Engine.start (.ofBytes bytes) limits).outline :=
  Engine.outline_seed _ _

theorem structured_ofBytes : (ofBytes bytes limits check labels).engine.outline.Structured := by
  rw [outline_ofBytes]
  exact Engine.structured_start _ _

theorem structured_moments : ∀ e ∈ (ofBytes bytes limits check labels).moments programs, e.outline.Structured := by
  intro e member
  have keeps : runner.Keeps (fun _ _ => True) fun e e' => e.outline.Structured → e'.outline.Structured :=
    links_outline.keeps fun step structured => structured.step step
  exact keeps.of_mem_moments (runner.throughout_true _ _) member (structured_ofBytes bytes limits check labels)

/-- From its start to its end, a session adds what it produces. -/
theorem adds_produced :
    let d := ofBytes bytes limits check labels
    Outline.Adds d.engine.outline (d.produced programs) (d.after programs).engine.outline := by
  intro d
  have chain := links_outline.isChain_moments (runner.throughout_true programs d.engine)
  refine .of_isChain (structured_ofBytes bytes limits check labels) ((List.isChain_map Engine.outline).mpr chain) ?_ ?_
  · rw [List.head?_map, moments, Runner.head?_moments]
    rfl
  · rw [List.getLast?_map, moments, Runner.getLast?_moments, engine_after]
    rfl

end Decoder

namespace Encoder

variable (values : List Value) (limits : Limits) (labels : List (String × Value)) (programs : List Program)

theorem flatInput_ofValues : (ofValues values limits labels).FlatInput :=
  fun _ member => Shape.isList_of_mem_scalarsOf values member

theorem structured_ofValues : (ofValues values limits labels).engine.outline.Structured := by
  simp only [ofValues, Engine.outline_seed]
  exact Engine.structured_start _ _

theorem structured_moments :
    ∀ s ∈ (ofValues values limits labels).moments programs, s.engine.outline.Structured := by
  intro s member
  have keeps : runner.Keeps (fun _ _ => True) fun s s' =>
      s.FlatInput ∧ s.engine.outline.Structured → s'.FlatInput ∧ s'.engine.outline.Structured :=
    links_outline.keeps fun outlines ⟨flat, structured⟩ => ⟨(outlines flat).1, structured.step (outlines flat).2⟩
  exact (keeps.of_mem_moments (runner.throughout_true _ _) member ⟨flatInput_ofValues values limits labels,
    structured_ofValues values limits labels⟩).2

end Encoder

/-- What a run keeps beside its record agrees with the record, and with what can be told from the shape alone. At every
moment of a session of either engine, also after instructions that failed, the path has the number of items of each open
record, and the walk along the shape ends at the path and the flat index of the next item. The values with which a decoder
finishes flatten to the scalars that it produced and to its shape, these two make the same values again, and each scalar
is found in the shape, by its flat index and by the path that was kept with it. -/
theorem outline_agrees (limits : Limits) (labels : List (String × Value)) (programs : List Program) :
    (∀ bytes check, ∀ e ∈ (Decoder.ofBytes bytes limits check labels).moments programs, e.outline.Structured)
    ∧ (∀ values, ∀ s ∈ (Encoder.ofValues values limits labels).moments programs, s.engine.outline.Structured)
    ∧ ∀ bytes check values,
      let d := Decoder.ofBytes bytes limits check labels
      let shape := (d.after programs).engine.shape
      let scalars := (d.produced programs).map (·.value)
      (d.after programs).finish = .ok values →
        Shape.flatten values = (scalars, shape) ∧ Shape.deflatten shape scalars = .ok values
        ∧ ∀ index p, (d.produced programs)[index]? = some p →
          Shape.pathOf shape index = .ok p.path ∧ Shape.flatIndex shape p.path = .ok index := by
  refine ⟨fun bytes check => Decoder.structured_moments bytes limits check labels programs,
    fun values => Encoder.structured_moments values limits labels programs, ?_⟩
  intro bytes check values d shape scalars finished
  have adds := Decoder.adds_produced bytes limits check labels programs
  have start : d.engine.outline.records.scalars = [] := by
    rw [Decoder.outline_ofBytes]
    rfl
  have flat : Shape.flatten values = (scalars, shape) := by
    have made := adds.scalars
    rw [start, List.nil_append] at made
    have marks : shape.toList = (d.after programs).engine.records.marks := adds.structured.marks
    rw [Shape.Records.flatten_of_root? (Decoder.finish_ok.mp finished).2, ← marks, String.ofList_toList]
    exact congrArg (·, shape) made
  refine ⟨flat, ?_, fun index p found => ?_⟩
  · have again := Shape.deflatten_flatten values
    rwa [flat] at again
  · have stands := adds.stands index p found
    rw [start, List.length_nil, Nat.zero_add] at stands
    exact ⟨stands.pathOf, stands.flatIndex⟩

/-- A record with an empty one in it, a number, and a bracket too many. -/
def looseRecord : Program where
  instructions := [
    ⟨"[", ⟨0, 1⟩, .control .nestOpen⟩, ⟨"u8", ⟨1, 3⟩, .value .uint (.bits 8)⟩, ⟨"[", ⟨4, 5⟩, .control .nestOpen⟩,
    ⟨"]", ⟨5, 6⟩, .control .nestClose⟩, ⟨"]", ⟨6, 7⟩, .control .nestClose⟩, ⟨"u8", ⟨8, 10⟩, .value .uint (.bits 8)⟩,
    ⟨"]", ⟨11, 12⟩, .control .nestClose⟩]

theorem outline_agrees_looseRecord :
    let d := Decoder.ofBytes [1, 2] ⟨20, 48⟩ true []
    let e := (d.after [looseRecord]).engine
    let s := Encoder.ofValues [.uint 1, .uint 2] ⟨20, 48⟩ []
    let s' := (s.run looseRecord).2
    let scalars := (d.produced [looseRecord]).map (·.value)
    let values : List Value := [.list [.uint 1, .list []], .uint 2]
    (e.walk.path = [2] ∧ e.outline.Structured) ∧ (s'.engine.walk.path = [2] ∧ s'.engine.outline.Structured)
      ∧ (d.after [looseRecord]).finish = .ok values ∧ e.shape = "[.[]]." ∧ scalars = [.uint 1, .uint 2]
      ∧ Shape.flatten values = (scalars, e.shape) ∧ Shape.deflatten e.shape scalars = .ok values
      ∧ Shape.pathOf e.shape 0 = .ok [0, 0] ∧ Shape.flatIndex e.shape [0, 0] = .ok 0 := by
  intro d e s s' scalars values
  have decoded : e ∈ d.moments [looseRecord] :=
    Runner.mem_moments_of_run (Decoder.runner.mem_moments [] _)
  have encoded : s' ∈ s.moments [looseRecord] :=
    Runner.mem_moments_of_run (Encoder.runner.mem_moments [] _)
  have finished : (d.after [looseRecord]).finish = .ok values := by cbv
  have made : (d.produced [looseRecord]).map (·.value) = [.uint 1, .uint 2] := by cbv
  have first : (d.produced [looseRecord])[0]? = some ⟨.uint 1, 0, [0, 0]⟩ := by cbv
  obtain ⟨decoding, encoding, finishing⟩ := outline_agrees ⟨20, 48⟩ [] [looseRecord]
  obtain ⟨flat, deflated, found⟩ := finishing [1, 2] true values finished
  exact ⟨⟨by decide +kernel, decoding [1, 2] true e decoded⟩,
    ⟨by decide +kernel, encoding [.uint 1, .uint 2] s' encoded⟩, finished, by decide +kernel, made, flat, deflated,
    found 0 _ first⟩

end BitTemplate
