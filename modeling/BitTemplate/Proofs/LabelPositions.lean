import BitTemplate.Proofs.SameTrace

/-!
Where labels stand on the wire. Decoder and encoder bind the same labels to the same values under the same paths, and
they take the position of an entry from the same place in the view by the same log. But the decoder looks at its whole
data and the encoder at what it has written so far. A window that a directive has opened ahead of the cursor is not yet in
what the encoder has written, so the two may send the same place to different positions. Without such windows they agree.
-/

namespace BitTemplate

/-! ## Windows ahead of the cursor -/

/-- Whether a directive may reverse a window, by a transform that is not one of the lasting changes of a field. -/
def Directive.Opens (directive : Directive) (t : Transform) : Prop :=
  t.change = .reverse ∧ match directive with
    | .mod change width => ∃ position ts, Transform.atCursor change position width = .ok ts ∧ t ∈ ts
    | .modOff change offset width => ∃ position, t ∈ Transform.atOffset change position offset width
    | _ => False

/-- Whether an instruction of a program may reverse a window. -/
def Program.Opens (program : Program) (t : Transform) : Prop :=
  ∃ i ∈ program.instructions, i.directive.Opens t

/-- Whether a directive is of a kind that reverses windows. -/
def Directive.reverses : Directive → Bool
  | .mod .invert _ | .modOff .invert _ _ => false
  | .mod _ _ | .modOff _ _ _ => true
  | _ => false

theorem Directive.reverses_of_opens {directive : Directive} {t : Transform} (h : directive.Opens t) :
    directive.reverses = true := by
  obtain ⟨reversal, opens⟩ := h
  cases directive with
  | mod change width =>
    cases change with
    | invert =>
      obtain ⟨position, ts, asked, member⟩ := opens
      cases asked
      rw [List.mem_singleton.mp member] at reversal
      cases width <;> cases reversal
    | _ => rfl
  | modOff change offset width =>
    cases change with
    | invert =>
      obtain ⟨position, member⟩ := opens
      rw [List.mem_singleton.mp member] at reversal
      cases width <;> cases reversal
    | _ => rfl
  | _ => exact opens.elim

namespace Transform.Within

variable {first last last' : Nat} {t : Transform}

theorem mono (h : Within first last t) (low : Nat) (le : low ≤ first) (le' : last ≤ last') : Within low last' t := by
  obtain ⟨start, stop, fixed, fixed', below, above⟩ := h
  exact ⟨start, stop, fixed, fixed', Nat.le_trans le below, Nat.le_trans above le'⟩

/-- A region with fixed edges is the same in all data that it fits. -/
theorem region?_eq (h : Within first last t) {length : Nat} (fits : last ≤ length) : t.region? length = t.region? last := by
  obtain ⟨start, stop, fixed, fixed', _, above⟩ := h
  simp only [region?, fixed, fixed', Edge.resolve?, Option.bind_eq_bind, Option.bind_some]
  have inside : stop ≤ length := Nat.le_trans above fits
  simp only [above, inside, and_true]

end Transform.Within

namespace Log

variable {opened : Transform → Prop} {bits more : Nat} {log : Log}

/-- Whether what a log reverses lies within the first bits, or is a window that was opened. -/
def Charted (opened : Transform → Prop) (bits : Nat) (log : Log) : Prop :=
  ∀ entry ∈ log, entry.transform.change = .reverse → opened entry.transform ∨ Transform.Within 0 bits entry.transform

theorem Charted.mono (h : Charted opened bits log) (le : bits ≤ more) : Charted opened more log :=
  fun entry member reversal =>
    (h entry member reversal).imp_right fun within => within.mono 0 (Nat.le_refl 0) le

theorem Charted.append (h : Charted opened bits log) {flat : Nat} {ts : List Transform}
    (new : ∀ t ∈ ts, t.change = .reverse → opened t ∨ Transform.Within 0 bits t) :
    Charted opened bits (entries flat ts ++ log) := by
  intro entry member
  rcases List.mem_append.mp member with fresh | old
  · obtain ⟨t, ht, rfl⟩ : ∃ t ∈ ts, (⟨flat, t⟩ : LogEntry) = entry := by simpa [entries] using fresh
    exact new t ht
  · exact h entry old

/-- If no window was opened, more data makes no difference. -/
theorem Charted.toWire_eq (h : Charted opened bits log) (closed : ∀ t, ¬ opened t) {length : Nat} (fits : bits ≤ length)
    (position : Nat) : log.toWire length position = log.toWire bits position := by
  induction log generalizing position with
  | nil => rfl
  | cons entry rest ih =>
    have same : entry.transform.mapPosition length position = entry.transform.mapPosition bits position := by
      cases change : entry.transform.change with
      | invert => simp only [Transform.mapPosition, change]
      | reverse =>
        have within := (h entry List.mem_cons_self change).resolve_left (closed _)
        simp only [Transform.mapPosition, within.region?_eq fits]
    rw [toWire, toWire, List.foldl_cons, List.foldl_cons, same]
    exact ih (fun other member => h other (List.mem_cons_of_mem entry member)) _

end Log

/-! ## One instruction -/

/-- The log by which an instruction finds the position of its value. The gap before a marker has its position before the
marker is changed. -/
def Directive.placing (directive : Directive) (before after : Log) : Log :=
  match directive with
  | .marker _ _ => before
  | _ => after

/-- Whether a directive acts on the record only. -/
def Directive.controls : Directive → Bool
  | .control _ => true
  | _ => false

namespace Decoder

variable {e e' : Engine} {u : Unit}

theorem Consumes.length {inWord : Prop} (consumes : Consumes inWord e e') : e'.storage.length = e.storage.length := by
  obtain ⟨ts, s, events, applied, _, _⟩ := consumes
  exact Transform.length_of_onAll? applied

theorem Consumes.labels {inWord : Prop} (consumes : Consumes inWord e e') : e'.labels = e.labels := by
  cases consumes
  rfl

theorem Consumes.last {inWord : Prop} (consumes : Consumes inWord e e') : e'.last = e.last := by
  cases consumes
  rfl

theorem placed_produceField {encoding : Encoding} {width : Nat} (done : produceField encoding width e = .ok u e') :
    e'.labels = e.labels ∧ ∃ v path, e'.last = some ⟨v, e'.log.toWire e.storage.length e.cursor, path⟩ := by
  obtain ⟨bits, v, e₁, read, _, rfl⟩ := produceField_ok.mp done
  have consumes : Consumes True e e₁ := .readBits read
  refine ⟨consumes.labels, v, e₁.walk.path, ?_⟩
  rw [← consumes.length]
  rfl

theorem placed_produceGap {encoding : Encoding} {target : Nat} (done : produceGap encoding target e = .ok u e') :
    e'.labels = e.labels ∧ e'.log = e.log
      ∧ ∃ v path, e'.last = some ⟨v, e.log.toWire e.storage.length e.cursor, path⟩ := by
  obtain ⟨s, v, _, kept, _, _, rfl⟩ := produceGap_ok.mp done
  refine ⟨rfl, rfl, v, e.walk.path, ?_⟩
  rw [← show s.length = e.storage.length from congrArg List.length kept]
  rfl

/-- An instruction of a decoder finds the position of its value in the whole data. -/
theorem placed {directive : Directive} (done : execute directive e = .ok u e') (takes : directive.takesValue = true) :
    e'.labels = e.labels ∧ ∃ v path,
      e'.last = some ⟨v, (directive.placing e.log e'.log).toWire e.storage.length e.cursor, path⟩ := by
  cases directive with
  | value encoding width =>
    cases width with
    | bits width => exact placed_produceField done
    | rest => exact placed_produceField (execute_rest_ok.mp done)
  | takeAll encoding => exact placed_produceField (execute_takeAll_ok.mp done).2
  | jump origin bits =>
    obtain ⟨target, _, gap⟩ := jump_ok.mp done
    obtain ⟨labels, log, last⟩ := placed_produceGap gap
    simp only [Directive.placing, log]
    exact ⟨labels, last⟩
  | marker origin bytes =>
    obtain ⟨needle, found, e₁, _, _, _, gap, read⟩ := marker_ok.mp done
    obtain ⟨bits, read, _⟩ := readField_ok.mp read
    have consumes : Consumes True e₁ e' := .readBits read
    obtain ⟨labels, _, last⟩ := placed_produceGap gap
    rw [consumes.labels, consumes.last]
    exact ⟨labels, last⟩
  | _ => cases takes

theorem unplaced {directive : Directive} (done : execute directive e = .ok u e') (takes : directive.takesValue = false)
    (controls : directive.controls = false) : e'.labels = e.labels ∧ e'.last = e.last := by
  have consumed (consumes : Consumes (directive.InWord e.cursor) e e') : e'.labels = e.labels ∧ e'.last = e.last := ⟨consumes.labels, consumes.last⟩
  cases directive with
  | next width =>
    obtain ⟨s, _, _, _, rfl⟩ := execute_next_ok.mp done
    exact ⟨rfl, rfl⟩
  | constant bit width =>
    obtain ⟨bits, read, _⟩ := readConstant_ok.mp done
    exact consumed (.readBits read)
  | mod change width =>
    obtain ⟨ts, asked, applied⟩ := execute_mod_ok.mp done
    exact consumed (.transformAll (fun _ => Transform.Keeps.atCursor asked) applied)
  | modOff change offset width =>
    exact consumed (.transformAll Transform.Keeps.atOffset (execute_modOff_ok.mp done))
  | control action => cases controls
  | _ => cases takes

end Decoder

namespace Encoder

variable {s s' : Encoder} {u : Unit}

/-- What writing does to an engine: bits at the end, and transforms that lie within what is written then. -/
theorem writeBits_charted (h : s.AtEnd) {opened : Transform → Prop} {encoding : Encoding} {bits : Bits}
    (done : writeBits encoding bits s = .ok u s') (charted : s.engine.log.Charted opened s.engine.storage.length) :
    s'.engine.log.Charted opened s'.engine.storage.length := by
  obtain ⟨ts, asked, rfl⟩ := writeBits_ok.mp done
  rw [Engine.foldl_record]
  have length : (s.engine.storage.write bits).length = s.engine.cursor + bits.length := by
    rw [Storage.length, Storage.write_at_end h, List.length_append, ← h]
    rfl
  have longer : s.engine.storage.length ≤ (s.engine.storage.write bits).length := by
    rw [length, show s.engine.storage.length = s.engine.cursor from h.symm]
    exact Nat.le_add_right _ _
  refine (charted.mono longer).append fun t ht _ => .inr ?_
  rw [length]
  exact (Flags.within asked t ht).mono 0 (Nat.zero_le _) (Nat.le_refl _)

/-- What an instruction of an encoder says about the position of its value: it is found by a log, in what is written when
the value is complete. -/
structure Placed (opened : Transform → Prop) (log : Log) (s s' : Encoder) : Prop where
  labels : s'.engine.labels = s.engine.labels
  last : ∃ v path bits, s'.engine.last = some ⟨v, log.toWire bits s.engine.cursor, path⟩
    ∧ s.engine.cursor ≤ bits ∧ bits ≤ s'.engine.storage.length ∧ log.Charted opened bits

section

variable {opened : Transform → Prop} (h : s.AtEnd) (charted : s.engine.log.Charted opened s.engine.storage.length)
include h charted

theorem placed_writeField {encoding : Encoding} {v : Value} {rest : List Value} {bits : Bits}
    (done : writeField encoding v bits { s with input := rest } = .ok u s') : Placed opened s'.engine.log s s'
      ∧ s'.engine.log.Charted opened s'.engine.storage.length := by
  obtain ⟨s₁, written, rfl⟩ := writeField_ok.mp done
  have atEnd : ({ s with input := rest } : Encoder).AtEnd := h
  have charted₁ := writeBits_charted atEnd written charted
  have after : Extends True { s with input := rest } s₁ := .writeBits atEnd written
  have longer := after.bits.length_le
  have labels : s₁.engine.labels = s.engine.labels := by
    obtain ⟨ts, _, rfl⟩ := writeBits_ok.mp written
    simp only [Engine.foldl_record]
  refine ⟨⟨labels, v, s₁.engine.walk.path, s₁.engine.storage.length, rfl, ?_, Nat.le_refl _, charted₁⟩, charted₁⟩
  exact Nat.le_trans (Nat.le_of_eq h) longer

theorem placed_writeGap {bytesOnly : Bool} {width : Nat} (done : writeGap bytesOnly s = .ok width s') :
    Placed opened s.engine.log s s' ∧ s'.engine.log = s.engine.log
      ∧ s'.engine.log.Charted opened s'.engine.storage.length := by
  have after : Extends True s s' := .writeGap h done
  have longer := after.bits.length_le
  obtain ⟨v, rest, bits, _, _, _, rfl⟩ := writeGap_ok.mp done
  have charted₁ := charted.mono longer
  refine ⟨⟨rfl, v, s.engine.walk.path, (s.engine.storage.write bits).length, rfl, ?_, Nat.le_refl _, charted₁⟩, rfl,
    charted₁⟩
  exact Nat.le_trans (Nat.le_of_eq h) longer

/-- An instruction of an encoder finds the position of its value in what is written when the value is complete. -/
theorem placed {directive : Directive} (done : execute directive s = .ok u s') (takes : directive.takesValue = true) :
    Placed opened (directive.placing s.engine.log s'.engine.log) s s'
      ∧ s'.engine.log.Charted opened s'.engine.storage.length := by
  cases directive with
  | value encoding width =>
    cases width with
    | bits width =>
      obtain ⟨v, rest, bits, _, _, _, written⟩ := execute_value_ok.mp done
      exact placed_writeField h charted written
    | rest =>
      obtain ⟨v, rest, bits, s₁, _, _, written, rfl⟩ := execute_rest_ok.mp done
      obtain ⟨placed, charted₁⟩ := placed_writeField h charted written
      have same := engine_marked s₁
      exact ⟨⟨same ▸ placed.labels, same ▸ placed.last⟩, same ▸ charted₁⟩
  | takeAll encoding =>
    obtain ⟨v, rest, bits, s₁, _, _, _, written, rfl⟩ := execute_takeAll_ok.mp done
    obtain ⟨placed, charted₁⟩ := placed_writeField h charted written
    have same := engine_marked s₁
    exact ⟨⟨same ▸ placed.labels, same ▸ placed.last⟩, same ▸ charted₁⟩
  | jump origin bits =>
    obtain ⟨gap, s₁, written, rfl⟩ := jump_ok.mp done
    obtain ⟨placed, log, charted₁⟩ := placed_writeGap h charted written
    simp only [Directive.placing, log]
    exact ⟨⟨placed.labels, placed.last⟩, log ▸ charted₁⟩
  | marker last bytes =>
    obtain ⟨needle, gap, s₁, _, _, written, closed⟩ := marker_ok.mp done
    obtain ⟨placed, _, charted₁⟩ := placed_writeGap h charted written
    have over_gap : Extends True s s₁ := .writeGap h written
    have over_field : Extends True { s₁ with pending := s₁.pending ++
        [⟨s₁.engine.log.length, s.engine.cursor, gap, .marker needle bytes last, s₁.engine.context⟩] } s' :=
      .writeBits over_gap.atEnd closed
    have longer := over_field.bits.length_le
    have after := writeBits_charted (by exact over_gap.atEnd) closed charted₁
    obtain ⟨ts, _, rfl⟩ := writeBits_ok.mp closed
    rw [Engine.foldl_record] at longer after ⊢
    obtain ⟨v, path, bits, last, low, high, charted₂⟩ := placed.last
    exact ⟨⟨placed.labels, v, path, bits, last, low, Nat.le_trans high longer, charted₂⟩, after⟩
  | _ => cases takes

theorem unplaced {directive : Directive} (windows : ∀ t, directive.Opens t → opened t)
    (done : execute directive s = .ok u s') (takes : directive.takesValue = false)
    (controls : directive.controls = false) :
    s'.engine.labels = s.engine.labels ∧ s'.engine.last = s.engine.last
      ∧ s'.engine.log.Charted opened s'.engine.storage.length := by
  cases directive with
  | next width =>
    have longer := (Extends.execute h done).bits.length_le
    obtain ⟨_, rfl⟩ := execute_next_ok.mp done
    exact ⟨rfl, rfl, charted.mono longer⟩
  | constant bit width =>
    obtain ⟨_, written⟩ := writeConstant_ok.mp done
    have after := writeBits_charted h written charted
    obtain ⟨ts, _, rfl⟩ := writeBits_ok.mp written
    rw [Engine.foldl_record] at after ⊢
    exact ⟨rfl, rfl, after⟩
  | mod change width =>
    obtain ⟨ts, asked, rfl⟩ := execute_mod_ok.mp done
    rw [Engine.foldl_record]
    exact ⟨rfl, rfl, charted.append fun t ht reversal => .inl (windows t ⟨reversal, _, ts, asked, ht⟩)⟩
  | modOff change offset width =>
    obtain rfl := execute_modOff_ok.mp done
    rw [Engine.foldl_record]
    exact ⟨rfl, rfl, charted.append fun t ht reversal => .inl (windows t ⟨reversal, _, ht⟩)⟩
  | control action => cases controls
  | _ => cases takes

end

end Encoder

/-! ## Two engines -/

/-- Whether two positions on the wire are those of one place in the view, found by one part of a log: the first in the
whole data, the second in what was written at that time. -/
def SamePlace (opened : Transform → Prop) (total : Nat) (log : Log) (there here : Nat) : Prop :=
  ∃ (older : Log) (position bits : Nat), older <:+ log ∧ older.Charted opened bits ∧ position ≤ bits ∧ bits ≤ total
    ∧ there = older.toWire total position ∧ here = older.toWire bits position

namespace SamePlace

variable {opened : Transform → Prop} {total there here : Nat} {log later : Log}

theorem mono (h : SamePlace opened total log there here) (grows : log <:+ later) :
    SamePlace opened total later there here := by
  obtain ⟨older, position, bits, part, others⟩ := h
  exact ⟨older, position, bits, part.trans grows, others⟩

/-- If no window was opened, the two positions are the same. -/
theorem eq (h : SamePlace opened total log there here) (closed : ∀ t, ¬ opened t) : there = here := by
  obtain ⟨older, position, bits, _, charted, _, fits, rfl, rfl⟩ := h
  exact charted.toWire_eq closed fits position

end SamePlace

namespace Engine

variable {related weaker : Nat → Nat → Prop} {d e d' e' : Engine}

/-- Whether all that two engines keep about positions on the wire is related. -/
structure Located (related : Nat → Nat → Prop) (d e : Engine) : Prop where
  labels : d.labels.Related (fun x y => related x.position y.position) e.labels
  last : Option.Rel (fun a b => related a.position b.position) d.last e.last

namespace Located

theorem mono (h : Located related d e) (implies : ∀ x y, related x y → weaker x y) : Located weaker d e where
  labels := h.labels.mono fun _ _ => implies _ _
  last := by
    have last := h.last
    generalize d.last = a, e.last = b at last
    cases last with
    | some held => exact .some (implies _ _ held)
    | none => exact .none

theorem of_same (h : Located related d e) (labels : d'.labels = d.labels) (labels' : e'.labels = e.labels)
    (last : d'.last = d.last) (last' : e'.last = e.last) : Located related d' e' :=
  ⟨labels ▸ labels' ▸ h.labels, last ▸ last' ▸ h.last⟩

theorem seed (h : Located related d e) (zero : related 0 0) (labels : List (String × Value)) :
    Located related (d.seed labels) (e.seed labels) := by
  induction labels generalizing d e with
  | nil => exact h
  | cons label rest ih => exact ih ⟨h.labels.add zero label.1, h.last⟩

/-- An action keeps what is related, if the cursors of both engines are. -/
theorem control (h : Located related d e) (here : related d.streamPosition e.streamPosition) {action : Control}
    (done : d.control action = .ok d') (done' : e.control action = .ok e') : Located related d' e' := by
  cases action with
  | setFlag flag setting =>
    cases done
    cases done'
    exact ⟨h.labels, h.last⟩
  | setLabel name =>
    simp only [Engine.control, setLabel] at done done'
    have last := h.last
    cases hd : d.last with
    | none => simp [hd] at done
    | some held =>
      cases he : e.last with
      | none => simp [he] at done'
      | some held' =>
        simp only [hd, he, Except.ok.injEq] at done done' last
        subst done done'
        cases last with
        | some related =>
          refine ⟨h.labels.add related name, ?_⟩
          show Option.Rel _ d.last e.last
          exact h.last
  | defLabel name value =>
    cases done
    cases done'
    exact ⟨h.labels.add here name, h.last⟩
  | matchLabel name =>
    simp only [Engine.control, except_bind_ok, except_pure_ok] at done done'
    obtain ⟨_, _, rfl⟩ := done
    obtain ⟨_, _, rfl⟩ := done'
    exact h
  | nestOpen =>
    cases done
    cases done'
    exact ⟨h.labels, h.last⟩
  | nestClose =>
    simp only [Engine.control, closeRecord] at done done'
    split at done
    · split at done'
      · cases done
        cases done'
        exact ⟨h.labels, .some here⟩
      · cases done'
    · cases done
  | assertion expected =>
    simp only [Engine.control, except_bind_ok, except_pure_ok] at done done'
    obtain ⟨_, _, rfl⟩ := done
    obtain ⟨_, _, rfl⟩ := done'
    exact h

end Located

end Engine

/-! ## Two runs -/

/-- A decoder and an encoder beside it, whose positions on the wire are those of the same places. -/
structure Charting (opened : Transform → Prop) (total maxBits : Nat) (d : Engine) (s : Encoder) : Prop where
  paired : Paired d s
  limit : s.engine.limits.maxBits = maxBits
  whole : d.storage.length = total
  charted : s.engine.log.Charted opened s.engine.storage.length
  located : Engine.Located (SamePlace opened total d.log) d s.engine

namespace Charting

variable {opened : Transform → Prop} {total maxBits : Nat} {d d' : Engine} {s s' : Encoder} {u : Unit}

/-- What an encoder has written fits the data of the decoder. -/
theorem fits (h : Charting opened total maxBits d s) : s.engine.storage.length ≤ total := by
  rw [h.paired.length_written, ← h.whole]
  exact d.storage.cursor_le

/-- The cursors stand at the same place. -/
theorem streamPosition (h : Charting opened total maxBits d s) :
    SamePlace opened total d.log d.streamPosition s.engine.streamPosition := by
  refine ⟨d.log, d.cursor, s.engine.storage.length, List.suffix_refl _, ?_, ?_, h.fits, ?_, ?_⟩
  · rw [h.paired.agree.log]
    exact h.charted
  · exact Nat.le_of_eq h.paired.length_written.symm
  · rw [← h.whole]
    rfl
  · rw [h.paired.agree.log, ← h.paired.cursor]
    rfl

/-- After an instruction the positions are still those of the same places. -/
theorem located_execute (h : Charting opened total maxBits d s) {directive : Directive}
    (windows : ∀ t, directive.Opens t → opened t) (executed : Decoder.execute directive d = .ok u d')
    (written : Encoder.execute directive s = .ok u s') (paired : Paired d' s') :
    s'.engine.log.Charted opened s'.engine.storage.length
      ∧ Engine.Located (SamePlace opened total d'.log) d' s'.engine := by
  have advanced := Decoder.Advances.execute executed
  obtain ⟨newer, log, _⟩ := advanced.data
  have grows : d.log <:+ d'.log := ⟨newer, log.symm⟩
  have located := h.located.mono fun _ _ same => same.mono grows
  by_cases controls : directive.controls = true
  · -- the positions of labels and records are those of the cursors
    obtain ⟨action, rfl⟩ : ∃ action, directive = .control action := by
      cases directive with
      | control action => exact ⟨action, rfl⟩
      | _ => cases controls
    have acted := Decoder.execute_control_ok.mp executed
    obtain ⟨e, acted', rfl⟩ := Encoder.execute_control_ok.mp written
    have same := Engine.control_kept acted'
    refine ⟨?_, located.control (h.streamPosition.mono grows) acted acted'⟩
    simp only [same.log, same.storage]
    exact h.charted
  · have controls : directive.controls = false := by simpa using controls
    cases takes : directive.takesValue with
    | false =>
      obtain ⟨labels, last⟩ := Decoder.unplaced executed takes controls
      obtain ⟨labels', last', charted⟩ := Encoder.unplaced h.paired.atEnd h.charted windows written takes controls
      exact ⟨charted, located.of_same labels labels' last last'⟩
    | true =>
      obtain ⟨labels, v, path, last⟩ := Decoder.placed executed takes
      obtain ⟨⟨labels', v', path', bits, last', low, high, charted⟩, charted'⟩ :=
        Encoder.placed h.paired.atEnd h.charted written takes
      have logs : directive.placing s.engine.log s'.engine.log = directive.placing d.log d'.log := by
        rw [h.paired.agree.log, paired.agree.log]
      have part : directive.placing d.log d'.log <:+ d'.log := by
        cases directive with
        | marker origin bytes => exact grows
        | _ => exact List.suffix_refl _
      have inside : bits ≤ total := by
        rw [paired.length_written] at high
        refine Nat.le_trans high ?_
        rw [← h.whole, ← show d'.storage.length = d.storage.length from advanced.length]
        exact d'.storage.cursor_le
      refine ⟨charted', ⟨labels ▸ labels' ▸ located.labels, ?_⟩⟩
      rw [last, last']
      refine .some ⟨directive.placing d.log d'.log, d.cursor, bits, part, logs ▸ charted, ?_, inside, ?_, ?_⟩
      · exact Nat.le_trans (Nat.le_of_eq h.paired.cursor.symm) low
      · rw [h.whole]
      · rw [logs, h.paired.cursor]

theorem step (h : Charting opened total maxBits d s) {directive : Directive} {rest : List Value}
    (writable : Decoder.Writable maxBits directive d) (windows : ∀ t, directive.Opens t → opened t)
    (executed : Decoder.execute directive d = .ok () d') (input : Supplies d d' s rest) :
    ∃ s', Encoder.execute directive s = .ok () s' ∧ s'.input = rest ∧ Charting opened total maxBits d' s' := by
  rw [← h.limit] at writable
  obtain ⟨s', written, left, mirrored⟩ := h.paired.follow writable executed input
  have after := Encoder.Extends.execute h.paired.atEnd written
  have paired := mirrored.paired after
  obtain ⟨charted, located⟩ := h.located_execute windows executed written paired
  have whole : d'.storage.length = total := by
    rw [← h.whole]
    exact (Decoder.Advances.execute executed).length
  exact ⟨s', written, left, paired, by rw [after.limits, h.limit], whole, charted, located⟩

/-- A whole run keeps the positions those of the same places. -/
theorem run (h : Charting opened total maxBits d s) {instructions : List Instruction} {index : Nat} {rest : List Value}
    (along : Decoder.Along (Decoder.Writable maxBits) index instructions d)
    (windows : ∀ i ∈ instructions, ∀ t, i.directive.Opens t → opened t)
    (done : Decoder.runFrom index instructions d = (none, d')) (input : Supplies d d' s rest) :
    ∃ s', Encoder.runFrom index instructions s = (none, s') ∧ s'.input = rest ∧ Charting opened total maxBits d' s' := by
  have both : Decoder.Along (fun directive d => Decoder.Writable maxBits directive d
      ∧ ∀ t, directive.Opens t → opened t) index instructions d :=
    along.mono fun i hi d writable => ⟨writable, windows i hi⟩
  exact @follow_run_of _ _ _ _ _ _ (Charting opened total maxBits) _ Charting.paired
    (fun h agree => ⟨⟨agree, h.paired.atEnd⟩, h.limit, h.whole, h.charted, ⟨h.located.labels, h.located.last⟩⟩)
    (fun h both executed input => h.step both.1 both.2 executed input) h both done input

end Charting

section

variable {text : String} {program : Program} {bytes : List UInt8} {values : List Value}
  {maxSteps readBits maxBits : Nat} {check : Bool} {labels : List (String × Value)}

theorem Charting.start (opened : Transform → Prop) :
    Charting opened (8 * bytes.length) maxBits (Decoder.ofBytes bytes ⟨maxSteps, readBits⟩ check labels).engine
      (Encoder.ofValues values ⟨maxSteps, maxBits⟩ labels) where
  paired := (Lockstep.start Value.congruence_eq bytes values maxSteps readBits maxBits check labels).paired
  limit := congrArg Limits.maxBits Encoder.limits_ofValues
  whole := Decoder.length_ofBytes
  charted := by
    have empty : (Encoder.ofValues values ⟨maxSteps, maxBits⟩ labels).engine.log = [] := by
      simp only [Encoder.ofValues]
      rw [Engine.seed_eq]
      rfl
    rw [empty]
    exact List.forall_mem_nil _
  located := by
    have zero : SamePlace opened (8 * bytes.length) [] 0 0 :=
      ⟨[], 0, 0, List.suffix_refl _, List.forall_mem_nil _, Nat.le_refl 0, Nat.zero_le _, rfl, rfl⟩
    have fresh : Engine.Located (SamePlace opened (8 * bytes.length) [])
        (Engine.start (.ofBytes bytes) ⟨maxSteps, readBits⟩) (Engine.start (.ofBits []) ⟨maxSteps, maxBits⟩) :=
      ⟨List.Forall₂.nil, Option.Rel.none⟩
    rw [Decoder.storage_ofBytes.2]
    exact fresh.seed zero labels

/-- Lists that look the same and are related are related where they look the same. -/
theorem forall₂_of_map_eq {α β : Type} {related : α → α → Prop} {f : α → β} {as bs : List α}
    (h : List.Forall₂ related as bs) (same : as.map f = bs.map f) :
    List.Forall₂ (fun a b => f a = f b ∧ related a b) as bs := by
  induction h with
  | nil => exact .nil
  | cons first rest ih =>
    obtain ⟨here, later⟩ := List.cons_eq_cons.mp same
    exact .cons ⟨here, first⟩ (ih later)

/-- Labels have the same entries in a decoder and in the encoder of what it reads, up to the positions of the entries.
These are found for the same place in the view and by the same part of the log, by the decoder in its whole data and by the
encoder in what is written at that time. So they are the same if the program reverses no windows. -/
theorem label_positions (compiled : Pattern.compile text = .ok program)
    (faithful : ∀ i ∈ program.instructions, i.directive.Faithful) (room : 8 * bytes.length ≤ maxBits)
    (decoded : (Decoder.ofBytes bytes ⟨maxSteps, readBits⟩ check labels).decode program = .ok values) :
    ∃ d s, (Decoder.ofBytes bytes ⟨maxSteps, readBits⟩ check labels).run program = (none, d)
      ∧ (Encoder.ofValues values ⟨maxSteps, maxBits⟩ labels).run program = (none, s)
      ∧ ∀ name, List.Forall₂ (fun x y => (x.path, x.value) = (y.path, y.value)
          ∧ SamePlace program.Opens (8 * bytes.length) d.engine.log x.position y.position)
          (d.engine.labels.entries name) (s.engine.labels.entries name)
        ∧ ((∀ i ∈ program.instructions, i.directive.reverses = false) →
          d.engine.labels.entries name = s.engine.labels.entries name) := by
  obtain ⟨d, done, _, root⟩ := Decoder.decode_ofBytes_ok.mp decoded
  have along := Decoder.along_writable (Pattern.wellFormed_of_compile compiled) faithful room done
  have supplies : Supplies (Decoder.ofBytes bytes ⟨maxSteps, readBits⟩ check labels).engine d
      (Encoder.ofValues values ⟨maxSteps, maxBits⟩ labels) [] := by
    apply Encoder.supplies_ofValues
    rw [Decoder.flatten_root done root]
  obtain ⟨s, run, _, charting⟩ := (Charting.start program.Opens).run along
    (fun i member t opens => ⟨i, member, opens⟩) done supplies
  refine ⟨⟨d, check⟩, s, by rw [Decoder.run_ofBytes, done], by rw [Encoder.run_ofValues, run], fun name => ?_⟩
  have entries := forall₂_of_map_eq (charting.located.labels.entries name)
    (charting.paired.agree.entries_eq name)
  refine ⟨entries, fun still => ?_⟩
  have closed : ∀ t, ¬ program.Opens t := by
    rintro t ⟨i, member, opens⟩
    have reverses := Directive.reverses_of_opens opens
    rw [still i member] at reverses
    cases reverses
  have equal := entries.imp fun x y ⟨seen, place⟩ => show x = y by
    obtain ⟨position, path, value⟩ := x
    obtain ⟨position', path', value'⟩ := y
    obtain ⟨rfl, rfl⟩ := Prod.mk.inj seen
    rw [show position = position' from place.eq closed]
  rwa [List.forall₂_eq_eq_eq] at equal

end

/-- Numbers whose bits are reversed, one of them in a record and in an inverted window, and labels for them. -/
def labelledRecord : Program where
  instructions := [
    ⟨"Ry", ⟨0, 2⟩, .control (.setFlag .reverseAll .set)⟩, ⟨"u8", ⟨3, 5⟩, .value .uint (.bits 8)⟩,
    ⟨"=#\"n\"", ⟨6, 11⟩, .control (.setLabel "n")⟩, ⟨"[", ⟨12, 13⟩, .control .nestOpen⟩,
    ⟨"i8", ⟨13, 15⟩, .mod .invert (.bits 8)⟩, ⟨"u4", ⟨16, 18⟩, .value .uint (.bits 4)⟩,
    ⟨"=#\"n\"", ⟨19, 24⟩, .control (.setLabel "n")⟩, ⟨"]", ⟨24, 25⟩, .control .nestClose⟩,
    ⟨"u4", ⟨26, 28⟩, .value .uint (.bits 4)⟩]

theorem label_positions_labelledRecord :
    let d := ((Decoder.ofBytes [0x12, 0x34] ⟨20, 0⟩ true []).run labelledRecord).2.engine
    let s := ((Encoder.ofValues [.uint 72, .list [.uint 3], .uint 13] ⟨20, 16⟩ []).run labelledRecord).2.engine
    (d.labels.entries "n").map (·.position) = [0, 8] ∧ d.labels.entries "n" = s.labels.entries "n" := by
  intro d s
  have compiled : Pattern.compile "Ry u8 =#\"n\" [i8 u4 =#\"n\"] u4" = .ok labelledRecord := by cbv
  have decoded : (Decoder.ofBytes [0x12, 0x34] ⟨20, 0⟩ true []).decode labelledRecord
      = .ok [.uint 72, .list [.uint 3], .uint 13] := by cbv
  have faithful : ∀ i ∈ labelledRecord.instructions, i.directive.Faithful := by
    simp [labelledRecord, Directive.Faithful]
  have still : ∀ i ∈ labelledRecord.instructions, i.directive.reverses = false := by
    simp [labelledRecord, Directive.reverses]
  obtain ⟨d', s', run, run', entries⟩ :=
    @label_positions _ _ _ _ 20 0 16 true [] compiled faithful (by decide) decoded
  have same := (entries "n").2 still
  have there : d = d'.engine := congrArg (fun result => result.2.engine) run
  have here : s = s'.engine := congrArg (fun result => result.2.engine) run'
  rw [← there, ← here] at same
  exact ⟨by decide +kernel, same⟩

/-- Half a byte, a label and the other bits, in a window that is reversed as a whole. -/
def reversedRecord : Program where
  instructions := [
    ⟨"r16", ⟨0, 3⟩, .mod .reverse (.bits 16)⟩, ⟨"u4", ⟨4, 6⟩, .value .uint (.bits 4)⟩,
    ⟨"#\"a\"", ⟨7, 11⟩, .control (.defLabel "a" none)⟩, ⟨"u12", ⟨12, 15⟩, .value .uint (.bits 12)⟩]

/-- The decoder puts the label where its place lies on the wire. The encoder has written only four of the sixteen bits to
be reversed, and leaves the label where it is in the view. -/
theorem label_positions_differ :
    let d := ((Decoder.ofBytes [0x12, 0x34] ⟨20, 0⟩ true []).run reversedRecord).2.engine
    let s := ((Encoder.ofValues [.uint 2, .uint 3144] ⟨20, 16⟩ []).run reversedRecord).2.engine
    Pattern.compile "r16 u4 #\"a\" u12" = .ok reversedRecord
      ∧ (Decoder.ofBytes [0x12, 0x34] ⟨20, 0⟩ true []).decode reversedRecord = .ok [.uint 2, .uint 3144]
      ∧ (Encoder.ofValues [.uint 2, .uint 3144] ⟨20, 16⟩ []).encode reversedRecord = .ok [0x12, 0x34]
      ∧ (d.labels.entries "a").map (·.position) = [12] ∧ (s.labels.entries "a").map (·.position) = [4]
      ∧ d.labels.entries "a" ≠ s.labels.entries "a" := by
  intro d s
  have there : (d.labels.entries "a").map (·.position) = [12] := by decide +kernel
  have here : (s.labels.entries "a").map (·.position) = [4] := by decide +kernel
  refine ⟨by cbv, by cbv, rfl, there, here, fun same => ?_⟩
  rw [same, here] at there
  cases there

end BitTemplate
