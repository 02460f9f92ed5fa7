import BitTemplate.Proofs.Comparison
import BitTemplate.Proofs.Shape

/-!
Values in other forms. What an encoder takes, what a decoder returns for it and what is printed and read back may be the
same value in different forms, such as digits and a text. Two values are alike if they have the same structure, with
scalars that are equal or of which one is a form of the other. A form stands for a scalar if comparisons find it the same
as all that they find the scalar the same as. Two engines that hold alike values make the same comparisons, unless one of
the scalars that they compare has a form that does not stand for it. At such a comparison one of two runs may stop.
-/

namespace BitTemplate

variable {R S : Value → Value → Prop}

namespace Value

/-! ## Alike values -/

/-- Whether a form of a scalar is the same, to a label or an assertion, as all that the scalar is the same as. -/
def StandsFor (form v : Value) : Prop :=
  ∀ w, v.sameScalar w = true → form.sameScalar w = true

/-- Values of one structure, with scalars that are equal or related. -/
inductive Alike (R : Value → Value → Prop) : Value → Value → Prop
  | same (v : Value) : Alike R v v
  | scalar {form v : Value} (single : form.isList = false) (single' : v.isList = false) (related : R form v) :
    Alike R form v
  | list {as bs : List Value} (items : List.Forall₂ (Alike R) as bs) : Alike R (.list as) (.list bs)

theorem congruence_alike (R : Value → Value → Prop) : Congruence (Alike R) where
  refl := .same
  list := .list

namespace Alike

variable {form v : Value} {forms vs items : List Value}

theorem of_list (h : Alike R form (.list items)) : ∃ forms, form = .list forms ∧ List.Forall₂ (Alike R) forms items := by
  cases h with
  | same => exact ⟨items, rfl, List.forall₂_same.mpr fun v _ => .same v⟩
  | scalar single single' related => cases single'
  | list forms => exact ⟨_, rfl, forms⟩

theorem of_single (h : Alike R form v) (single : v.isList = false) :
    form.isList = false ∧ (form = v ∨ R form v) := by
  cases h with
  | same => exact ⟨single, .inl rfl⟩
  | scalar single' _ related => exact ⟨single', .inr related⟩
  | list => cases single

theorem length_scalarsOf (h : List.Forall₂ (Alike R) forms vs) :
    (Shape.scalarsOf forms).length = (Shape.scalarsOf vs).length := by
  induction vs using Value.nested_induction generalizing forms with
  | nil =>
    cases h
    rfl
  | scalar v rest single ih =>
    obtain ⟨form, others, first, later, rfl⟩ := List.forall₂_cons_right_iff.mp h
    rw [Shape.scalarsOf, Shape.scalarsOf, List.length_append, List.length_append, ih later,
      Shape.scalars_of_not_isList (first.of_single single).1, Shape.scalars_of_not_isList single]
    rfl
  | record items rest inner ih =>
    obtain ⟨form, others, first, later, rfl⟩ := List.forall₂_cons_right_iff.mp h
    obtain ⟨forms, rfl, within⟩ := first.of_list
    rw [Shape.scalarsOf, Shape.scalarsOf, List.length_append, List.length_append, ih later, Shape.scalars, Shape.scalars,
      inner within]

/-- Alike values are alike in a relation that holds of their scalars, taken one by one. -/
theorem refine (h : List.Forall₂ (Alike R) forms vs)
    (each : ∀ form v, (form, v) ∈ (Shape.scalarsOf forms).zip (Shape.scalarsOf vs) → R form v → S form v) :
    List.Forall₂ (Alike S) forms vs := by
  induction vs using Value.nested_induction generalizing forms with
  | nil =>
    cases h
    exact .nil
  | scalar v rest single ih =>
    obtain ⟨form, others, first, later, rfl⟩ := List.forall₂_cons_right_iff.mp h
    obtain ⟨single', same⟩ := first.of_single single
    simp only [Shape.scalarsOf, Shape.scalars_of_not_isList single', Shape.scalars_of_not_isList single,
      List.singleton_append, List.zip_cons_cons, List.mem_cons] at each
    refine .cons ?_ (ih later fun form v member => each form v (.inr member))
    rcases same with rfl | related
    · exact .same form
    · exact .scalar single' single (each form v (.inl rfl) related)
  | record items rest inner ih =>
    obtain ⟨form, others, first, later, rfl⟩ := List.forall₂_cons_right_iff.mp h
    obtain ⟨forms, rfl, within⟩ := first.of_list
    simp only [Shape.scalarsOf, Shape.scalars, List.zip_append (length_scalarsOf within), List.mem_append] at each
    exact .cons (.list (inner within fun form v member => each form v (.inl member)))
      (ih later fun form v member => each form v (.inr member))

/-- Forms that stand for the scalars are the same as all that the values are the same as. -/
theorem sameItems (h : List.Forall₂ (Alike StandsFor) forms vs) {ws : List Value} (same : Value.sameItems vs ws = true) :
    Value.sameItems forms ws = true := by
  induction vs using Value.nested_induction generalizing forms ws with
  | nil =>
    cases h
    exact same
  | scalar v rest single ih =>
    obtain ⟨form, others, first, later, rfl⟩ := List.forall₂_cons_right_iff.mp h
    obtain ⟨single', stands⟩ := first.of_single single
    cases ws with
    | nil => cases same
    | cons w ws =>
      simp only [Value.sameItems, Bool.and_eq_true, same_of_left single, same_of_left single'] at same ⊢
      refine ⟨?_, ih later same.2⟩
      rcases stands with rfl | stands
      · exact same.1
      · exact stands w same.1
  | record items rest inner ih =>
    obtain ⟨form, others, first, later, rfl⟩ := List.forall₂_cons_right_iff.mp h
    obtain ⟨forms, rfl, within⟩ := first.of_list
    cases ws with
    | nil => cases same
    | cons w ws =>
      simp only [Value.sameItems, Bool.and_eq_true] at same ⊢
      refine ⟨?_, ih later same.2⟩
      cases w with
      | list items' => exact inner within same.1
      | _ => exact same.1

theorem same_left (h : Alike StandsFor form v) {w : Value} (same : v.same w = true) : form.same w = true := by
  have listed : Value.sameItems [v] [w] = true := by rw [Value.sameItems, same, Value.sameItems, Bool.and_self]
  have kept := sameItems (.cons h .nil) listed
  simp only [Value.sameItems, Bool.and_true] at kept
  exact kept

/-- A comparison of two values that comes out true does so for forms that stand for their scalars. -/
theorem same_both {form' v' : Value} (h : Alike StandsFor form v) (h' : Alike StandsFor form' v')
    (same : v.same v' = true) : form.same form' = true := by
  rw [same_comm]
  apply h'.same_left
  rw [same_comm]
  exact h.same_left same

end Alike

end Value

/-! ## Comparisons of forms -/

namespace Engine

variable {d e : Engine} {action : Control}

/-- Forms that stand for the compared scalars pass where the scalars do. -/
theorem passes_of_standsFor (stands : List.Forall₂ (Value.Alike Value.StandsFor) (d.compared action) (e.compared action))
    (passed : e.Passes action) : d.Passes action := by
  cases action with
  | matchLabel name =>
    obtain ⟨last, expected, both, same⟩ := passes_matchLabel.mp passed
    rw [both] at stands
    obtain ⟨last', _, first, stands, both'⟩ := List.forall₂_cons_right_iff.mp stands
    obtain ⟨expected', _, second, none, rfl⟩ := List.forall₂_cons_right_iff.mp stands
    cases none
    exact passes_matchLabel.mpr ⟨last', expected', both', first.same_both second same⟩
  | assertion expected =>
    obtain ⟨last, single, same⟩ := passes_assertion.mp passed
    rw [single] at stands
    obtain ⟨last', _, first, none, single'⟩ := List.forall₂_cons_right_iff.mp stands
    cases none
    rw [Literal.matches_comm] at same
    exact passes_assertion.mpr ⟨last', single', by rw [Literal.matches_comm]; exact first.same_left same⟩
  | _ => trivial

/-- Two engines at a comparison that comes out true in the second one only. Among the scalars that are compared there is
one that the first engine holds in a form which does not stand for it. -/
structure ToldApart (R : Value → Value → Prop) (action : Control) (d e : Engine) : Prop where
  passes : e.Passes action
  fails : ¬ d.Passes action
  forms : ∃ form v, (form, v) ∈ (Shape.scalarsOf (d.compared action)).zip (Shape.scalarsOf (e.compared action))
    ∧ R form v ∧ ¬ form.StandsFor v

/-- If comparisons of alike values differ, some form of a compared scalar does not stand for it. -/
theorem Differ.toldApart (h : Differ (Value.Alike R) action d e) : ToldApart R action d e where
  passes := h.passes
  fails := h.fails
  forms := by
    by_contra none
    refine h.fails (passes_of_standsFor (Value.Alike.refine h.compared fun form v member related => ?_) h.passes)
    by_contra differs
    exact none ⟨form, v, member, related, differs⟩

theorem ToldApart.imp (h : ToldApart R action d e) (implies : ∀ form v, R form v → ¬ form.StandsFor v → S form v) :
    ToldApart S action d e where
  passes := h.passes
  fails := h.fails
  forms := by
    obtain ⟨form, v, member, related, differs⟩ := h.forms
    exact ⟨form, v, member, implies form v related differs, differs⟩

end Engine

/-! ## Runs that are told apart -/

namespace Engine

variable {differ : Control → Engine → Engine → Prop} {index : Nat} {instructions : List Instruction} {error : RunError}
  {d : Engine} {s s' : Encoder}

/-- Whether an engine has stopped with a mismatch at an instruction, at which an encoder of the same instructions arrives
too, with an engine that is different. -/
def StopsBeside (differ : Control → Engine → Engine → Prop) (index : Nat) (instructions : List Instruction)
    (error : RunError) (d : Engine) (s : Encoder) : Prop :=
  ∃ k instruction action s', instructions[k]? = some instruction ∧ instruction.directive = .control action
    ∧ error.fault.isMismatch = true ∧ error.context.current = some (index + k, instruction.token)
    ∧ Encoder.runFrom index (instructions.take k) s = (none, s') ∧ differ action d s'.engine

theorem StopsBeside.later {instruction : Instruction} {rest : List Instruction}
    (done : Encoder.step index instruction s = .ok () s') (h : StopsBeside differ (index + 1) rest error d s') :
    StopsBeside differ index (instruction :: rest) error d s := by
  obtain ⟨k, stopped, action, s₁, place, control, mismatch, current, run, differs⟩ := h
  refine ⟨k + 1, stopped, action, s₁, by simpa using place, control, mismatch, ?_, ?_, differs⟩
  · rw [current, Nat.add_assoc, Nat.add_comm 1 k]
  · exact Encoder.runFrom_cons_ok.mpr ⟨s', done, run⟩

theorem StopsBeside.imp {weaker : Control → Engine → Engine → Prop} (h : StopsBeside differ index instructions error d s)
    (implies : ∀ action d e, differ action d e → weaker action d e) :
    StopsBeside weaker index instructions error d s := by
  obtain ⟨k, stopped, action, s₁, place, control, mismatch, current, run, differs⟩ := h
  exact ⟨k, stopped, action, s₁, place, control, mismatch, current, run, implies _ _ _ differs⟩

/-- Engines with the same values do not part at a comparison. -/
theorem StopsBeside.elim (h : StopsBeside (Differ Eq) index instructions error d s) : False := by
  obtain ⟨_, _, _, _, _, _, _, _, _, differs⟩ := h
  exact differs.elim

/-- Where an encoder has executed an instruction, an engine that does not pass it stops there with a mismatch. -/
theorem Agree.exists_mismatch {instruction : Instruction} {u : Unit}
    (h : Agree R (d.arrive index instruction) (s.engine.arrive index instruction))
    (done : Encoder.execute instruction.directive { s with engine := s.engine.arrive index instruction } = .ok u s')
    (fails : ¬ ∀ action, instruction.directive = .control action → (d.arrive index instruction).Passes action) :
    ∃ action fault, instruction.directive = .control action
      ∧ (d.arrive index instruction).control action = .error fault
      ∧ ∀ others, StopsBeside (Differ R) index (instruction :: others) ((d.arrive index instruction).error fault)
        (d.arrive index instruction) s := by
  simp only [Classical.not_forall] at fails
  obtain ⟨action, control, failed⟩ := fails
  rw [control] at done
  obtain ⟨_, acted, _⟩ := Encoder.execute_control_ok.mp done
  have passed := passes_of_control acted
  obtain ⟨fault, mismatch, stopped⟩ := h.mismatch passed failed
  have differ := h.differ passed failed
  exact ⟨action, fault, control, stopped, fun others =>
    ⟨0, instruction, action, _, rfl, control, mismatch, rfl, rfl, differ.compared, differ.passes, differ.fails⟩⟩

end Engine

/-! ## Integers -/

namespace Value

theorem sameScalar_float {a : Value} {n : Int} (number : a.integer? = some n) (x : Double) :
    a.sameScalar (.float x) = a.equalsDouble x := by
  cases a with
  | uint m => rfl
  | sint m => rfl
  | _ => cases number

/-- One number stands for the other if they are the same integer. -/
theorem standsFor_of_integer {form v : Value} {n : Int} (number : form.integer? = some n) (number' : v.integer? = some n) :
    form.StandsFor v := by
  intro w same
  have signed : form.signed? = v.signed? := by
    ext m
    rw [signed?_eq_some, signed?_eq_some, number, number']
  cases integer : w.integer? with
  | some m => rwa [sameScalar_integer number integer, ← sameScalar_integer number' integer]
  | none =>
    cases w with
    | uint m => cases integer
    | sint m => cases integer
    | float x =>
      rw [sameScalar_float number'] at same
      rw [sameScalar_float number]
      unfold equalsDouble at same ⊢
      rwa [signed]
    | _ =>
      -- besides numbers nothing is the same as an integer
      cases v with
      | uint m => cases same
      | sint m => cases same
      | _ => cases number'

end Value

end BitTemplate
