import Mathlib.Data.List.Forall2
import BitTemplate.Proofs.Storage

/-!
Two engines that went through the same instructions. They agree when nothing tells them apart but the bits in their
storage, the wire positions of labels, which hang on the length of the storage, and the forms of the values that they
hold. These stand in a relation, place by place: in equality, or in a weaker one if the engines were given the same values
in different forms. Every operation that both interpreters share keeps the agreement.
-/

namespace BitTemplate

variable {R S : Value → Value → Prop}

/-! ## Related values -/

theorem exists_of_rel_some {α β : Type} {r : α → β → Prop} {x : Option α} {b : β} (h : Option.Rel r x (some b)) :
    ∃ a, x = some a ∧ r a b := by
  cases h with
  | some related => exact ⟨_, rfl, related⟩

theorem eq_of_rel_eq {α : Type} {x y : Option α} (h : Option.Rel Eq x y) : x = y := by
  cases h with
  | some same => rw [same]
  | none => rfl

theorem rel_symm {α β : Type} {r : α → β → Prop} {s : β → α → Prop} (flips : ∀ {a b}, r a b → s b a) {x : Option α}
    {y : Option β} (h : Option.Rel r x y) : Option.Rel s y x := by
  cases h with
  | some related => exact .some (flips related)
  | none => exact .none

theorem forall₂_symm {α β : Type} {r : α → β → Prop} {s : β → α → Prop} (flips : ∀ {a b}, r a b → s b a) {xs : List α}
    {ys : List β} (h : List.Forall₂ r xs ys) : List.Forall₂ s ys xs :=
  List.Forall₂.flip (h.imp fun _ _ => flips)

/-- What the operations of an engine ask of a relation of values: every value is related to itself, and lists are related
if their items are. -/
structure Value.Congruence (R : Value → Value → Prop) : Prop where
  refl : ∀ v, R v v
  list : ∀ {as bs}, List.Forall₂ R as bs → R (.list as) (.list bs)

theorem Value.congruence_eq : Congruence Eq where
  refl _ := rfl
  list same := by
    rw [List.forall₂_eq_eq_eq] at same
    rw [same]

theorem Value.Congruence.option (congruence : Congruence R) (v : Option Value) : Option.Rel R v v := by
  cases v with
  | none => exact .none
  | some v => exact .some (congruence.refl v)

/-- Entries of a label with the same path and related values, wherever they stand on the wire. -/
structure LabelEntry.Related (R : Value → Value → Prop) (x y : LabelEntry) : Prop where
  path : x.path = y.path
  value : Option.Rel R x.value y.value

/-- Labels of the same names with entries that are related one by one. -/
def Labels.Related (related : LabelEntry → LabelEntry → Prop) (labels others : Labels) : Prop :=
  List.Forall₂ (fun a b => a.1 = b.1 ∧ List.Forall₂ related a.2 b.2) labels others

/-- Related values of the same path, wherever they stand on the wire. -/
structure Produced.Related (R : Value → Value → Prop) (x y : Produced) : Prop where
  path : x.path = y.path
  value : R x.value y.value

/-- Open records with items that are related one by one. -/
structure Shape.Records.Related (R : Value → Value → Prop) (records others : Shape.Records) : Prop where
  inner : List.Forall₂ R records.inner others.inner
  outer : List.Forall₂ (List.Forall₂ R) records.outer others.outer

/-- Lines of a trace that show related values. -/
inductive Event.Related (R : Value → Value → Prop) : Event → Event → Prop
  | value {v w : Value} (related : R v w) (start stop : Nat) : Related R (.value v start stop) (.value w start stop)
  | label (name : String) {v w : Option Value} (related : Option.Rel R v w) : Related R (.label name v) (.label name w)
  | same (event : Event) : Related R event event

theorem Event.Related.symm (flips : ∀ {v w}, R v w → S w v) {x y : Event} (h : Related R x y) : Related S y x := by
  cases h with
  | value related start stop => exact .value (flips related) start stop
  | label name related => exact .label name (rel_symm flips related)
  | same => exact .same x

theorem Event.Related.eq {x y : Event} (h : Related Eq x y) : x = y := by
  cases h with
  | value related => rw [related]
  | label name related => rw [eq_of_rel_eq related]
  | same => rfl

namespace Labels.Related

variable {related weaker : LabelEntry → LabelEntry → Prop} {labels others : Labels}

theorem mono (h : labels.Related related others) (implies : ∀ x y, related x y → weaker x y) :
    labels.Related weaker others :=
  h.imp fun _ _ ⟨name, entries⟩ => ⟨name, entries.imp implies⟩

theorem symm (flips : ∀ {x y}, related x y → weaker y x) (h : labels.Related related others) :
    others.Related weaker labels :=
  forall₂_symm (fun ⟨name, entries⟩ => ⟨name.symm, forall₂_symm flips entries⟩) h

theorem add (h : labels.Related related others) {x y : LabelEntry} (new : related x y) (name : String) :
    (labels.add name x).Related related (others.add name y) := by
  induction h with
  | nil => exact .cons ⟨rfl, .cons new .nil⟩ .nil
  | @cons a b _ _ first rest ih =>
    obtain ⟨own, entries⟩ := a
    obtain ⟨own', entries'⟩ := b
    obtain ⟨rfl, older⟩ := first
    by_cases hit : own = name
    · simp only [Labels.add, if_pos hit]
      exact .cons ⟨rfl, .cons new older⟩ rest
    · simp only [Labels.add, if_neg hit]
      exact .cons ⟨rfl, older⟩ ih

theorem lookup (h : labels.Related related others) (name : String) :
    Option.Rel (List.Forall₂ related) (labels.lookup name) (others.lookup name) := by
  induction h with
  | nil => exact .none
  | @cons a b _ _ first rest ih =>
    obtain ⟨own, entries⟩ := a
    obtain ⟨own', entries'⟩ := b
    obtain ⟨rfl, found⟩ := first
    simp only [List.lookup_cons]
    cases name == own with
    | true => exact .some found
    | false => exact ih

theorem entries (h : labels.Related related others) (name : String) :
    List.Forall₂ related (labels.entries name) (others.entries name) := by
  have found := h.lookup name
  unfold Labels.entries
  generalize labels.lookup name = x, others.lookup name = y at found
  cases found with
  | some found => exact List.rel_reverse found
  | none => exact .nil

theorem newest? (h : labels.Related related others) (name : String) :
    Option.Rel related (labels.newest? name) (others.newest? name) := by
  have found := h.lookup name
  unfold Labels.newest?
  generalize labels.lookup name = x, others.lookup name = y at found
  cases found with
  | some found =>
    cases found with
    | nil => exact .none
    | cons first _ => exact .some first
  | none => exact .none

theorem value? (h : labels.Related (LabelEntry.Related R) others) (name : String) :
    Option.Rel R (labels.value? name) (others.value? name) := by
  have newest := h.newest? name
  unfold Labels.value?
  generalize labels.newest? name = x, others.newest? name = y at newest
  cases newest with
  | some newest => exact newest.value
  | none => exact .none

end Labels.Related

/-! ## Agreement -/

/-- Nothing tells two engines apart but bits, wire positions, and values as far as these are related. -/
structure Engine.Agree (R : Value → Value → Prop) (d e : Engine) : Prop where
  cursor : d.storage.cursor = e.storage.cursor
  log : d.log = e.log
  flags : d.flags = e.flags
  labels : d.labels.Related (LabelEntry.Related R) e.labels
  records : d.records.Related R e.records
  walk : d.walk = e.walk
  shape : d.shape = e.shape
  last : Option.Rel (Produced.Related R) d.last e.last
  maxSteps : d.limits.maxSteps = e.limits.maxSteps
  steps : d.steps = e.steps
  current : d.current = e.current
  events : List.Forall₂ (Event.Related R) d.events e.events

namespace Engine.Agree

variable {d e : Engine}

theorem symm (flips : ∀ {v w}, R v w → S w v) (h : Agree R d e) : Agree S e d where
  cursor := h.cursor.symm
  log := h.log.symm
  flags := h.flags.symm
  labels := h.labels.symm fun entry => ⟨entry.path.symm, rel_symm flips entry.value⟩
  records := ⟨forall₂_symm flips h.records.inner, forall₂_symm (forall₂_symm flips) h.records.outer⟩
  walk := h.walk.symm
  shape := h.shape.symm
  last := rel_symm (fun last => ⟨last.path.symm, flips last.value⟩) h.last
  maxSteps := h.maxSteps.symm
  steps := h.steps.symm
  current := h.current.symm
  events := forall₂_symm (.symm flips) h.events

theorem emit (h : Agree R d e) {event event' : Event} (shown : event.Related R event') :
    Agree R (d.emit event) (e.emit event') :=
  { h with
    events := .cons shown h.events }

theorem withStorage (h : Agree R d e) {s s' : Storage} (same : s.cursor = s'.cursor) :
    Agree R { d with storage := s } { e with storage := s' } :=
  { h with
    cursor := same }

theorem begin (h : Agree R d e) (step : Nat) (instruction : Instruction) :
    Agree R (d.begin step instruction) (e.begin step instruction) :=
  { h with
    steps := by simp [Engine.begin, h.steps]
    current := rfl }

theorem rest (h : Agree R d e) : Agree R d.rest e.rest :=
  { h with
    current := rfl }

theorem checkSteps (h : Agree R d e) : d.checkSteps = e.checkSteps := by
  rw [Engine.checkSteps, Engine.checkSteps, h.maxSteps, h.steps]

theorem record (h : Agree R d e) (t : Transform) : Agree R (d.record t) (e.record t) := by
  have logged : Agree R { d with log := ⟨d.walk.flat, t⟩ :: d.log } { e with log := ⟨e.walk.flat, t⟩ :: e.log } :=
    { h with log := by simp [h.log, h.walk] }
  exact logged.emit (.same _)

theorem recordAll (h : Agree R d e) (ts : List Transform) :
    Agree R (ts.foldl Engine.record d) (ts.foldl Engine.record e) := by
  induction ts generalizing d e with
  | nil => exact h
  | cons t ts ih => exact ih (h.record t)

theorem produce (h : Agree R d e) {v w : Value} (related : R v w) (start : Nat) :
    Agree R (d.produce v start) (e.produce w start) :=
  { h with
    last := .some ⟨h.walk ▸ rfl, related⟩
    records := ⟨.cons related h.records.inner, h.records.outer⟩
    walk := by simp [Engine.produce, Engine.emit, h.walk]
    shape := by simp [Engine.produce, Engine.emit, h.shape]
    events := by
      have cursor : d.cursor = e.cursor := h.cursor
      simp only [Engine.produce, Engine.emit, cursor]
      exact .cons (.value related start e.cursor) h.events }

theorem openRecord (h : Agree R d e) : Agree R d.openRecord e.openRecord :=
  { h with
    records := ⟨.nil, .cons h.records.inner h.records.outer⟩
    walk := by simp [Engine.openRecord, h.walk]
    shape := by simp [Engine.openRecord, h.shape] }

theorem define (h : Agree R d e) {entry entry' : LabelEntry} (related : entry.Related R entry') (name : String) :
    Agree R (d.define name entry) (e.define name entry') :=
  { h with
    labels := h.labels.add related name }

theorem showLabel (h : Agree R d e) (name : String) : Agree R (d.showLabel name) (e.showLabel name) :=
  h.emit (.label name (h.labels.value? name))

theorem seed (congruence : Value.Congruence R) (h : Agree R d e) (labels : List (String × Value)) :
    Agree R (d.seed labels) (e.seed labels) := by
  induction labels generalizing d e with
  | nil => exact h
  | cons label rest ih => exact ih (h.define ⟨rfl, .some (congruence.refl label.2)⟩ label.1)

theorem defLabel (congruence : Value.Congruence R) (h : Agree R d e) (name : String) (value : Option Literal) :
    Agree R (d.defLabel name value) (e.defLabel name value) := by
  have entry : LabelEntry.Related R ⟨d.streamPosition, d.walk.path, value.map Literal.toValue⟩
      ⟨e.streamPosition, e.walk.path, value.map Literal.toValue⟩ :=
    ⟨congrArg Shape.Walk.path h.walk, congruence.option _⟩
  exact (h.define entry name).showLabel name

/-! ## Control -/

theorem closeRecord (congruence : Value.Congruence R) (h : Agree R d e) {e' : Engine} (closed : e.closeRecord = .ok e') :
    ∃ d', d.closeRecord = .ok d' ∧ d'.storage = d.storage ∧ Agree R d' e' := by
  have inner := h.records.inner
  have outer := h.records.outer
  simp only [Engine.closeRecord, Shape.Records.leave?] at closed ⊢
  rw [h.walk]
  cases he : e.records.outer with
  | nil => simp [he] at closed
  | cons items rest =>
    rw [he] at outer
    cases hd : d.records.outer with
    | nil =>
      rw [hd] at outer
      cases outer
    | cons items' rest' =>
      rw [hd] at outer
      obtain ⟨around, others⟩ := List.forall₂_cons.mp outer
      simp only [he] at closed
      cases walk : e.walk.leave? with
      | none => simp [walk] at closed
      | some place =>
        simp only [walk, Except.ok.injEq] at closed
        subst closed
        have record : R (.list d.records.inner.reverse) (.list e.records.inner.reverse) :=
          congruence.list (List.rel_reverse inner)
        exact ⟨_, rfl, rfl,
          { h with
            last := .some ⟨rfl, record⟩
            records := ⟨.cons record around, others⟩
            walk := rfl
            shape := by simp [h.shape] }⟩

theorem setLabel (h : Agree R d e) {name : String} {e' : Engine} (bound : e.setLabel name = .ok e') :
    ∃ d', d.setLabel name = .ok d' ∧ d'.storage = d.storage ∧ Agree R d' e' := by
  have last := h.last
  simp only [Engine.setLabel] at bound ⊢
  cases he : e.last with
  | none => simp [he] at bound
  | some produced =>
    rw [he] at last
    obtain ⟨produced', hd, related⟩ := exists_of_rel_some last
    simp only [he, Except.ok.injEq] at bound
    subst bound
    rw [hd]
    exact ⟨_, rfl, rfl, (h.define ⟨related.path, .some related.value⟩ name).showLabel name⟩

end Engine.Agree

/-! ## Comparisons -/

/-- Whether the comparison that an action asks for comes out true. -/
def Engine.Passes (e : Engine) : Control → Prop
  | .matchLabel name => e.matchLabel name = .ok ()
  | .assertion expected => e.assertLast expected = .ok ()
  | _ => True

/-- Whether an action compares the last value with something. -/
def Control.compares : Control → Bool
  | .matchLabel _ => true
  | .assertion _ => true
  | _ => false

/-- Whether a fault says that a comparison of values came out false. -/
def Fault.isMismatch : Fault → Bool
  | .labelMismatch _ _ _ => true
  | .assertionMismatch _ _ => true
  | _ => false

/-- The values of an engine that an action compares: the last one, and the one that a label stands for. -/
def Engine.compared (e : Engine) : Control → List Value
  | .matchLabel name => (e.last.map (·.value)).toList ++ (e.labels.value? name).toList
  | .assertion _ => (e.last.map (·.value)).toList
  | _ => []

/-- Two engines that compare related values at an action, and the comparison comes out true in the second one only. -/
structure Engine.Differ (R : Value → Value → Prop) (action : Control) (d e : Engine) : Prop where
  compared : List.Forall₂ R (d.compared action) (e.compared action)
  passes : e.Passes action
  fails : ¬ d.Passes action

namespace Engine

theorem passes_of_control {e e' : Engine} {action : Control} (h : e.control action = .ok e') : e.Passes action := by
  cases action with
  | matchLabel name =>
    simp only [control, except_bind_ok] at h
    obtain ⟨_, h, _⟩ := h
    exact h
  | assertion expected =>
    simp only [control, except_bind_ok] at h
    obtain ⟨_, h, _⟩ := h
    exact h
  | _ => trivial

theorem matchLabel_ok {e : Engine} {name : String} :
    e.matchLabel name = .ok () ↔ ∃ entry expected last, e.labels.newest? name = some entry
      ∧ entry.value = some expected ∧ e.last = some last ∧ last.value.same expected = true := by
  simp only [matchLabel]
  cases e.labels.newest? name with
  | none => simp
  | some entry =>
    cases hv : entry.value <;> cases e.last <;> simp [hv]

theorem assertLast_ok {e : Engine} {expected : Literal} :
    e.assertLast expected = .ok () ↔ ∃ last, e.last = some last ∧ expected.matches last.value = true := by
  simp only [assertLast]
  cases e.last <;> simp

/-- A label is matched if there is a last value and one that the label stands for, and they are the same. -/
theorem passes_matchLabel {e : Engine} {name : String} :
    e.Passes (.matchLabel name) ↔
      ∃ last expected, e.compared (.matchLabel name) = [last, expected] ∧ last.same expected = true := by
  rw [Passes, matchLabel_ok, compared, Labels.value?]
  constructor
  · rintro ⟨entry, expected, last, newest, value, produced, same⟩
    exact ⟨last.value, expected, by simp [newest, value, produced], same⟩
  · rintro ⟨last, expected, both, same⟩
    cases produced : e.last with
    | none =>
      rw [produced] at both
      cases found : (e.labels.newest? name).bind LabelEntry.value <;> simp [found] at both
    | some produced' =>
      cases newest : e.labels.newest? name with
      | none => simp [produced, newest] at both
      | some entry =>
        cases value : entry.value with
        | none => simp [produced, newest, value] at both
        | some held =>
          simp only [produced, newest, value, Option.map_some, Option.toList_some, Option.bind_some, List.cons_append,
            List.nil_append, List.cons.injEq, and_true] at both
          obtain ⟨rfl, rfl⟩ := both
          exact ⟨entry, held, produced', rfl, value, rfl, same⟩

theorem passes_assertion {e : Engine} {expected : Literal} :
    e.Passes (.assertion expected) ↔
      ∃ last, e.compared (.assertion expected) = [last] ∧ expected.matches last = true := by
  rw [Passes, assertLast_ok, compared]
  cases e.last with
  | none => simp
  | some last => simp

/-- Comparisons of the same values come out the same. -/
theorem Differ.elim {d e : Engine} {action : Control} (h : Differ Eq action d e) : False := by
  have same := h.compared
  rw [List.forall₂_eq_eq_eq] at same
  refine h.fails ?_
  cases action with
  | matchLabel name => exact passes_matchLabel.mpr (same ▸ passes_matchLabel.mp h.passes)
  | assertion expected => exact passes_assertion.mpr (same ▸ passes_assertion.mp h.passes)
  | _ => trivial

namespace Agree

variable {d e : Engine}

/-- A comparison in one engine has both of its values in the other too, and so it fails by a mismatch at most. -/
theorem mismatch (h : Agree R d e) {action : Control} (passed : e.Passes action) (failed : ¬ d.Passes action) :
    ∃ fault : Fault, fault.isMismatch ∧ d.control action = .error fault := by
  cases action with
  | matchLabel name =>
    obtain ⟨entry, expected, last, newest, value, produced, _⟩ := matchLabel_ok.mp passed
    obtain ⟨entry', newest', related⟩ := exists_of_rel_some (newest ▸ h.labels.newest? name)
    obtain ⟨last', produced', _⟩ := exists_of_rel_some (produced ▸ h.last)
    obtain ⟨expected', value', _⟩ := exists_of_rel_some (value ▸ related.value)
    refine ⟨.labelMismatch last'.value name expected', rfl, ?_⟩
    simp only [Passes, matchLabel, newest', value', produced'] at failed
    rw [Engine.control, matchLabel, newest']
    simp only [value', produced']
    split at failed
    · exact absurd rfl failed
    · rename_i differs
      rw [if_neg differs]
      rfl
  | assertion expected =>
    obtain ⟨last, produced, _⟩ := assertLast_ok.mp passed
    obtain ⟨last', produced', _⟩ := exists_of_rel_some (produced ▸ h.last)
    refine ⟨.assertionMismatch expected last'.value, rfl, ?_⟩
    simp only [Passes, assertLast, produced'] at failed
    rw [Engine.control, assertLast, produced']
    simp only
    split at failed
    · exact absurd rfl failed
    · rename_i differs
      rw [if_neg differs]
      rfl
  | _ => exact absurd trivial failed

/-- Engines that agree compare related values. -/
theorem compared (h : Agree R d e) (action : Control) : List.Forall₂ R (d.compared action) (e.compared action) := by
  have listed {x y : Option Value} (related : Option.Rel R x y) : List.Forall₂ R x.toList y.toList := by
    cases related with
    | some related => exact .cons related .nil
    | none => exact .nil
  have last : Option.Rel R (d.last.map (·.value)) (e.last.map (·.value)) := by
    have last := h.last
    generalize d.last = x, e.last = y at last
    cases last with
    | some last => exact .some last.value
    | none => exact .none
  cases action with
  | matchLabel name => exact List.rel_append (listed last) (listed (h.labels.value? name))
  | assertion expected => exact listed last
  | _ => exact .nil

theorem differ (h : Agree R d e) {action : Control} (passed : e.Passes action) (failed : ¬ d.Passes action) :
    Differ R action d e :=
  ⟨h.compared action, passed, failed⟩

/-- An action that one engine takes is taken by the other as well if no comparison stands against it. -/
theorem control (congruence : Value.Congruence R) (h : Agree R d e) {action : Control} (passes : d.Passes action)
    {e' : Engine} (done : e.control action = .ok e') :
    ∃ d', d.control action = .ok d' ∧ d'.storage = d.storage ∧ Agree R d' e' := by
  cases action with
  | setFlag flag setting =>
    cases done
    exact ⟨_, rfl, rfl, { h with flags := by simp [h.flags] }⟩
  | setLabel name => exact h.setLabel done
  | defLabel name value =>
    cases done
    exact ⟨_, rfl, rfl, h.defLabel congruence name value⟩
  | matchLabel name =>
    simp only [Engine.control, except_bind_ok, except_pure_ok] at done ⊢
    obtain ⟨_, _, rfl⟩ := done
    exact ⟨d, ⟨(), passes, rfl⟩, rfl, h⟩
  | nestOpen =>
    cases done
    exact ⟨_, rfl, rfl, h.openRecord⟩
  | nestClose => exact h.closeRecord congruence done
  | assertion expected =>
    simp only [Engine.control, except_bind_ok, except_pure_ok] at done ⊢
    obtain ⟨_, _, rfl⟩ := done
    exact ⟨d, ⟨(), passes, rfl⟩, rfl, h⟩

end Agree

/-- Engines with the same values have the same record. -/
theorem Agree.records_eq {d e : Engine} (h : Agree Eq d e) : d.records = e.records := by
  have inner := h.records.inner
  have outer := h.records.outer
  simp only [List.forall₂_eq_eq_eq] at inner outer
  show (⟨d.records.inner, d.records.outer⟩ : Shape.Records) = ⟨e.records.inner, e.records.outer⟩
  rw [inner, outer]

/-- Engines with the same values make the same comparisons. -/
theorem Agree.passes {d e : Engine} (h : Agree Eq d e) {action : Control} (passed : e.Passes action) :
    d.Passes action := by
  by_contra failed
  exact (h.differ passed failed).elim

end Engine

end BitTemplate
