import Mathlib.Data.List.Lex
import BitTemplate.Proofs.Record

/-!
Shapes and the walks along them. Every mark moves the path of a walk on in lexicographic order, so no two items of a
shape have the same path, and the place of a scalar in its shape can be told by its path as well as by its flat index.
What a list of values flattens to is put together again to the same list.
-/

namespace BitTemplate

/-- Induction over nested values: a list of values starts with a scalar or with a record. -/
@[elab_as_elim]
theorem Value.nested_induction {motive : List Value → Prop} (nil : motive [])
    (scalar : ∀ v rest, v.isList = false → motive rest → motive (v :: rest))
    (record : ∀ items rest, motive items → motive rest → motive (.list items :: rest)) :
    ∀ values, motive values
  | [] => nil
  | .list items :: rest =>
    record items rest (nested_induction nil scalar record items) (nested_induction nil scalar record rest)
  | .uint _ :: rest | .sint _ :: rest | .float _ :: rest | .hex _ :: rest | .bin _ :: rest | .bytes _ :: rest
  | .text _ :: rest => scalar _ rest rfl (nested_induction nil scalar record rest)

namespace Shape

/-! ## Walks -/

namespace Walk

variable {walk next there : Walk} {c : Char} {front rest : List Char}

/-- The place after a mark, if the mark can stand here. -/
def step? (walk : Walk) (c : Char) : Option Walk :=
  if c = '.' then some walk.scalar
  else if c = '[' then some walk.enter
  else if c = ']' then walk.leave?
  else none

/-- The place after some marks, if they can stand here. -/
def along? (walk : Walk) (marks : List Char) : Option Walk :=
  marks.foldlM step? walk

@[simp] theorem along?_nil : walk.along? [] = some walk :=
  rfl

@[simp] theorem along?_cons : walk.along? (c :: rest) = (walk.step? c).bind fun next => next.along? rest :=
  rfl

theorem along?_append : walk.along? (front ++ rest) = (walk.along? front).bind fun there => there.along? rest :=
  List.foldlM_append

@[simp] theorem step?_scalar : walk.step? '.' = some walk.scalar :=
  rfl

@[simp] theorem step?_enter : walk.step? '[' = some walk.enter :=
  rfl

@[simp] theorem step?_leave : walk.step? ']' = walk.leave? :=
  rfl

/-- What a mark is that can stand at a place. -/
theorem step?_eq_some (h : walk.step? c = some next) :
    c = '.' ∧ next = walk.scalar ∨ c = '[' ∧ next = walk.enter ∨ c = ']' ∧ walk.leave? = some next := by
  simp only [step?] at h
  split at h
  · exact .inl ⟨‹_›, (Option.some.inj h).symm⟩
  · split at h
    · exact .inr (.inl ⟨‹_›, (Option.some.inj h).symm⟩)
    · split at h
      · exact .inr (.inr ⟨‹_›, h⟩)
      · cases h

/-! ### Order -/

theorem flat_le_of_step? (h : walk.step? c = some next) : walk.flat ≤ next.flat := by
  rcases step?_eq_some h with ⟨_, rfl⟩ | ⟨_, rfl⟩ | ⟨_, left⟩
  · exact Nat.le_succ _
  · exact Nat.le_refl _
  · rw [flat_of_leave? left]

theorem flat_le_of_along? (h : walk.along? front = some there) : walk.flat ≤ there.flat := by
  induction front generalizing walk with
  | nil => rw [Option.some.inj h]
  | cons c rest ih =>
    obtain ⟨next, first, later⟩ := Option.bind_eq_some_iff.mp h
    exact Nat.le_trans (flat_le_of_step? first) (ih later)

/-- Every mark moves the path on. -/
theorem path_lt_of_step? (h : walk.step? c = some next) : List.Lex (· < ·) walk.path next.path := by
  obtain ⟨inner, outer, flat⟩ := walk
  rcases step?_eq_some h with ⟨_, rfl⟩ | ⟨_, rfl⟩ | ⟨_, left⟩
  · have moved : List.Lex (· < ·) [inner] [inner + 1] := .rel (Nat.lt_succ_self inner)
    simpa [path, scalar] using moved.append_left (· < ·) outer.reverse
  · have deeper : List.Lex (· < ·) [] [0] := .nil
    simpa [path, enter] using deeper.append_left (· < ·) (inner :: outer).reverse
  · cases outer with
    | nil => cases left
    | cons index outer =>
      cases left
      have moved : List.Lex (· < ·) [index, inner] [index + 1] := .rel (Nat.lt_succ_self index)
      simpa [path] using moved.append_left (· < ·) outer.reverse

/-- A walk never comes back to a path. -/
theorem path_lt_of_along? (h : walk.along? (c :: rest) = some there) : List.Lex (· < ·) walk.path there.path := by
  induction rest generalizing walk c with
  | nil =>
    obtain ⟨next, first, last⟩ := Option.bind_eq_some_iff.mp h
    cases last
    exact path_lt_of_step? first
  | cons d rest ih =>
    obtain ⟨next, first, later⟩ := Option.bind_eq_some_iff.mp h
    exact List.lt_trans (path_lt_of_step? first) (ih later)

theorem path_ne_of_along? (h : walk.along? (c :: rest) = some there) : walk.path ≠ there.path := by
  intro same
  have moved := path_lt_of_along? h
  rw [same] at moved
  exact List.lt_irrefl _ moved

theorem path_ne_nil : walk.path ≠ [] := by
  simp [path]

end Walk

/-! ## Scalars by flat index and by path -/

variable {walk there : Walk} {front rest : List Char}

/-- The scalar after a walk has the path of the place to which it leads. -/
theorem pathFrom_of_along (h : walk.along? front = some there) (offset : Nat) :
    pathFrom there.flat walk offset (front ++ '.' :: rest) = .ok there.path := by
  induction front generalizing walk offset with
  | nil =>
    obtain rfl := Option.some.inj h
    simp [pathFrom]
  | cons c front ih =>
    obtain ⟨next, first, later⟩ := Option.bind_eq_some_iff.mp h
    rcases Walk.step?_eq_some first with ⟨rfl, rfl⟩ | ⟨rfl, rfl⟩ | ⟨rfl, left⟩
    · -- the scalars in front have smaller flat indices
      have before : walk.flat < there.flat := Walk.flat_le_of_along? later
      simp [pathFrom, Nat.ne_of_lt before, ih later]
    · simp [pathFrom, ih later]
    · simp [pathFrom, left, ih later]

/-- The scalar after a walk has the flat index of the place to which it leads. -/
theorem indexFrom_of_along (h : walk.along? front = some there) (offset : Nat) :
    indexFrom there.path walk offset (front ++ '.' :: rest) = .ok there.flat := by
  induction front generalizing walk offset with
  | nil =>
    obtain rfl := Option.some.inj h
    simp [indexFrom]
  | cons c front ih =>
    -- neither a scalar nor a record in front has the same path
    have other := Walk.path_ne_of_along? h
    obtain ⟨next, first, later⟩ := Option.bind_eq_some_iff.mp h
    rcases Walk.step?_eq_some first with ⟨rfl, rfl⟩ | ⟨rfl, rfl⟩ | ⟨rfl, left⟩
    · simp [indexFrom, other, ih later]
    · simp [indexFrom, other, ih later]
    · simp [indexFrom, left, ih later]

/-- Whether a scalar of a shape has the given flat index and the given path. -/
def Stands (shape : String) (index : Nat) (path : List Nat) : Prop :=
  ∃ front rest there, shape.toList = front ++ '.' :: rest ∧ Walk.start.along? front = some there
    ∧ there.flat = index ∧ there.path = path

namespace Stands

variable {shape : String} {index : Nat} {path : List Nat}

theorem extend (h : Stands shape index path) {longer : String} (begins : shape.toList <+: longer.toList) :
    Stands longer index path := by
  obtain ⟨front, rest, there, split, walked, flat, place⟩ := h
  obtain ⟨more, split'⟩ := begins
  refine ⟨front, rest ++ more, there, ?_, walked, flat, place⟩
  rw [← split', split, List.append_assoc, List.cons_append]

theorem pathOf (h : Stands shape index path) : Shape.pathOf shape index = .ok path := by
  obtain ⟨front, rest, there, split, walked, rfl, rfl⟩ := h
  rw [Shape.pathOf, split, pathFrom_of_along walked]

theorem flatIndex (h : Stands shape index path) : Shape.flatIndex shape path = .ok index := by
  obtain ⟨front, rest, there, split, walked, rfl, rfl⟩ := h
  rw [Shape.flatIndex, if_neg (by simpa using Walk.path_ne_nil), split, indexFrom_of_along walked]

end Stands

/-! ## Putting together what was taken apart -/

namespace Records

theorem foldl_push (records : Records) (values : List Value) :
    values.foldl push records = { records with inner := values.reverse ++ records.inner } := by
  induction values generalizing records with
  | nil => rfl
  | cons v rest ih => simp [ih, push]

end Records

/-- The marks of some values are filled with their scalars, which makes these values. -/
theorem fill_marksOf (values : List Value) (records : Records) (offset : Nat) (rest : List Char) (flat : List Value) :
    fill records offset (marksOf values ++ rest) (scalarsOf values ++ flat)
      = fill (values.foldl Records.push records) (offset + (marksOf values).length) rest flat := by
  induction values using Value.nested_induction generalizing records offset rest flat with
  | nil => rfl
  | scalar v others single ih =>
    rw [marksOf, scalarsOf, marks_of_not_isList single, scalars_of_not_isList single]
    simp [fill, ih, Nat.add_assoc, Nat.add_comm 1]
  | record items others inner ih =>
    have closed : (items.foldl Records.push records.enter).leave? = some (.list items, records) := by
      simp [Records.foldl_push, Records.leave?, Records.enter]
    simp only [marksOf, marks, scalarsOf, scalars, List.cons_append, List.append_assoc, List.nil_append, fill,
      Char.reduceEq, if_false, if_true, inner, closed, ih, List.foldl_cons]
    congr 1
    simp only [List.length_cons, List.length_append]
    omega

/-- The marks of some values count as many scalars as the values have. -/
theorem countFrom_marksOf {values : List Value} {offset count : Nat} {rest : List Char}
    (h : countFrom (offset + (marksOf values).length) rest = .ok count) :
    countFrom offset (marksOf values ++ rest) = .ok (count + (scalarsOf values).length) := by
  induction values using Value.nested_induction generalizing offset count rest with
  | nil => exact h
  | scalar v others single ih =>
    rw [marksOf, marks_of_not_isList single] at h ⊢
    rw [scalarsOf, scalars_of_not_isList single]
    have later : countFrom (offset + 1) (marksOf others ++ rest) = .ok (count + (scalarsOf others).length) := by
      apply ih
      rw [← h, List.length_append, List.length_singleton, Nat.add_assoc]
    simp only [List.cons_append, List.nil_append, countFrom, if_true, later, List.length_cons]
    rfl
  | record items others inner ih =>
    simp only [marksOf, marks] at h ⊢
    have after : countFrom (offset + 1 + (marksOf items).length) (']' :: (marksOf others ++ rest))
        = .ok (count + (scalarsOf others).length) := by
      simp only [countFrom, Char.reduceEq, if_false, if_true, or_true]
      apply ih
      rw [← h]
      congr 1
      simp only [List.length_append, List.length_cons, List.length_nil]
      omega
    simp only [List.cons_append, List.append_assoc, List.nil_append, countFrom, Char.reduceEq, if_false, if_true,
      true_or, inner after, scalarsOf, scalars, List.length_append]
    congr 1
    omega

/-- Values that are taken apart are put together again. -/
theorem deflatten_flatten (values : List Value) : deflatten (flatten values).2 (flatten values).1 = .ok values := by
  have counted : countFrom 0 (marksOf values) = .ok (scalarsOf values).length := by
    simpa using @countFrom_marksOf values 0 0 [] rfl
  have filled : fill .empty 0 (marksOf values) (scalarsOf values) = .ok values := by
    have all := fill_marksOf values .empty 0 [] []
    rw [List.append_nil, List.append_nil, Records.foldl_push] at all
    rw [all]
    simp [fill, Records.root?, Records.empty]
  simp only [deflatten, flatten, scalarCount, String.toList_ofList, counted]
  show (if _ then _ else _) = _
  rw [if_neg (by simp), filled]

end Shape

end BitTemplate
