import BitTemplate.Proofs.Shape

/-!
Places of scalars in nested values. The scalars of a list of values are numbered from left to right, and each is reached
by a path of indices. A walk along the shape meets them in this order and with these paths, and it meets nothing else;
whatever a path or a flat index is turned into was met by a walk, in any shape. So the two translations are inverse, and
on the shape of nested values they are nested indexing.
-/

namespace BitTemplate

namespace Value

/-- The item that a path of indices leads to, outermost index first. -/
def at? (v : Value) : List Nat → Option Value
  | [] => some v
  | index :: path =>
    match v with
    | .list items => items[index]?.bind fun item => item.at? path
    | _ => none

variable {v : Value} {rest : List Value} {index : Nat} {path : List Nat}

@[simp] theorem at?_first : (Value.list (v :: rest)).at? (0 :: path) = v.at? path :=
  rfl

@[simp] theorem at?_later :
    (Value.list (v :: rest)).at? ((index + 1) :: path) = (Value.list rest).at? (index :: path) :=
  rfl

theorem at?_scalar (single : v.isList = false) : v.at? (index :: path) = none := by
  cases v with
  | list items => cases single
  | _ => rfl

end Value

namespace Shape

/-! ## Where a walk meets a scalar -/

/-- Whether a walk through some marks meets a scalar with the given flat index and the given path. -/
def Meets (walk : Walk) (marks : List Char) (index : Nat) (path : List Nat) : Prop :=
  ∃ front rest there, marks = front ++ '.' :: rest ∧ walk.along? front = some there ∧ there.flat = index
    ∧ there.path = path

namespace Meets

variable {walk next : Walk} {c : Char} {front rest : List Char} {index : Nat} {path : List Nat}

theorem here : Meets walk ('.' :: rest) walk.flat walk.path :=
  ⟨[], rest, walk, rfl, rfl, rfl, rfl⟩

theorem cons (first : walk.step? c = some next) (later : Meets next rest index path) :
    Meets walk (c :: rest) index path := by
  obtain ⟨front, back, there, split, walked, flat, place⟩ := later
  refine ⟨c :: front, back, there, by rw [split, List.cons_append], ?_, flat, place⟩
  rw [Walk.along?_cons, first, Option.bind_some, walked]

theorem append (walked : walk.along? front = some next) (later : Meets next rest index path) :
    Meets walk (front ++ rest) index path := by
  induction front generalizing walk with
  | nil =>
    cases walked
    exact later
  | cons c front ih =>
    obtain ⟨after, first, others⟩ := Option.bind_eq_some_iff.mp walked
    exact cons first (ih others)

theorem extend (h : Meets walk front index path) : Meets walk (front ++ rest) index path := by
  obtain ⟨before, back, there, split, walked, flat, place⟩ := h
  refine ⟨before, back ++ rest, there, ?_, walked, flat, place⟩
  rw [split, List.append_assoc, List.cons_append]

end Meets

theorem along?_marksOf (values : List Value) (walk : Walk) :
    walk.along? (marksOf values)
      = some { walk with inner := walk.inner + values.length, flat := walk.flat + (scalarsOf values).length } := by
  induction values using Value.nested_induction generalizing walk with
  | nil => rfl
  | scalar v rest single ih =>
    rw [marksOf, marks_of_not_isList single, List.cons_append, List.nil_append, Walk.along?_cons, Walk.step?_scalar,
      Option.bind_some, ih, scalarsOf, scalars_of_not_isList single]
    simp [Walk.scalar, Nat.add_comm 1, Nat.add_assoc]
  | record items rest inner ih =>
    rw [marksOf, marks, List.cons_append, List.append_assoc, Walk.along?_cons, Walk.step?_enter, Option.bind_some,
      Walk.along?_append, inner, Option.bind_some, List.cons_append, List.nil_append, Walk.along?_cons,
      Walk.step?_leave]
    simp [Walk.enter, Walk.leave?, ih, scalarsOf, scalars, Nat.add_comm 1, Nat.add_assoc]

theorem along?_marks (v : Value) (walk : Walk) :
    walk.along? (marks v) = some { walk with inner := walk.inner + 1, flat := walk.flat + (scalars v).length } := by
  simpa [marksOf, scalarsOf] using along?_marksOf [v] walk

/-! ## Answers are scalars that a walk meets -/

section

variable {walk : Walk} {marks : List Char} {index offset : Nat} {path : List Nat} {shape : String}

theorem meets_of_pathFrom (h : pathFrom index walk offset marks = .ok path) : Meets walk marks index path := by
  induction marks generalizing walk offset with
  | nil => cases h
  | cons c rest ih =>
    simp only [pathFrom] at h
    split at h
    · subst c
      split at h
      · subst index
        cases h
        exact .here
      · exact .cons Walk.step?_scalar (ih h)
    · split at h
      · subst c
        exact .cons Walk.step?_enter (ih h)
      · split at h
        · subst c
          split at h
          · exact .cons (Walk.step?_leave.trans ‹_›) (ih h)
          · cases h
        · cases h

theorem meets_of_indexFrom (h : indexFrom path walk offset marks = .ok index) : Meets walk marks index path := by
  induction marks generalizing walk offset with
  | nil => cases h
  | cons c rest ih =>
    simp only [indexFrom] at h
    split at h
    · subst c
      split at h
      · subst path
        cases h
        exact .here
      · exact .cons Walk.step?_scalar (ih h)
    · split at h
      · subst c
        split at h
        · cases h
        · exact .cons Walk.step?_enter (ih h)
      · split at h
        · subst c
          split at h
          · exact .cons (Walk.step?_leave.trans ‹_›) (ih h)
          · cases h
        · cases h

theorem pathOf_iff : pathOf shape index = .ok path ↔ Stands shape index path :=
  ⟨meets_of_pathFrom, Stands.pathOf⟩

theorem flatIndex_iff : flatIndex shape path = .ok index ↔ Stands shape index path := by
  refine ⟨fun h => ?_, Stands.flatIndex⟩
  simp only [flatIndex] at h
  split at h
  · cases h
  · exact meets_of_indexFrom h

end

/-! ## Places in nested values -/

/-- Whether a scalar has a flat index in some values, and the index of an item with a path into it. -/
inductive Placed : List Value → Nat → Nat → List Nat → Value → Prop
  | here {v : Value} {rest : List Value} (single : v.isList = false) : Placed (v :: rest) 0 0 [] v
  | inside {items rest : List Value} {flat index : Nat} {path : List Nat} {v : Value}
      (inner : Placed items flat index path v) : Placed (.list items :: rest) flat 0 (index :: path) v
  | later {u : Value} {rest : List Value} {flat index : Nat} {path : List Nat} {v : Value}
      (others : Placed rest flat index path v) :
      Placed (u :: rest) ((scalars u).length + flat) (index + 1) path v

namespace Placed

variable {values : List Value} {flat index : Nat} {path : List Nat} {v : Value}

theorem scalar (h : Placed values flat index path v) : (scalarsOf values)[flat]? = some v := by
  induction h with
  | here single => simp [scalarsOf, scalars_of_not_isList single]
  | inside inner ih =>
    rw [scalarsOf, scalars, List.getElem?_append_left (List.getElem?_eq_some_iff.mp ih).1, ih]
  | later others ih => rw [scalarsOf, List.getElem?_append_right (Nat.le_add_right _ _), Nat.add_sub_cancel_left, ih]

theorem at? (h : Placed values flat index path v) : (Value.list values).at? (index :: path) = some v := by
  induction h with
  | here single => exact Value.at?_first
  | inside inner ih => rw [Value.at?_first, ih]
  | later others ih => rw [Value.at?_later, ih]

theorem meets (h : Placed values flat index path v) (walk : Walk) :
    Meets walk (marksOf values) (walk.flat + flat) (walk.enclosing ++ (walk.inner + index) :: path) := by
  induction h generalizing walk with
  | here single =>
    rw [marksOf, marks_of_not_isList single]
    simpa [Walk.path, Walk.enclosing] using Meets.here
  | inside inner ih =>
    have within := ih walk.enter
    rw [marksOf, marks, List.cons_append, List.append_assoc]
    refine .cons Walk.step?_enter ?_
    simpa [Walk.enter, Walk.enclosing] using within.extend
  | @later u rest flat index path v others ih =>
    have after := ih { walk with inner := walk.inner + 1, flat := walk.flat + (scalars u).length }
    rw [marksOf]
    refine .append (along?_marks u walk) ?_
    simpa [Walk.enclosing, Nat.add_assoc, Nat.add_comm 1] using after

end Placed

/-- Every flat index below the number of scalars is that of a place. -/
theorem exists_placed_of_lt {values : List Value} {flat : Nat} (h : flat < (scalarsOf values).length) :
    ∃ index path v, Placed values flat index path v := by
  induction values using Value.nested_induction generalizing flat with
  | nil => simp [scalarsOf] at h
  | scalar v rest single ih =>
    rw [scalarsOf, scalars_of_not_isList single] at h
    cases flat with
    | zero => exact ⟨0, [], v, .here single⟩
    | succ flat =>
      obtain ⟨index, path, u, placed⟩ := ih (by simpa using h)
      have later := Placed.later (u := v) placed
      rw [scalars_of_not_isList single, List.length_singleton, Nat.add_comm] at later
      exact ⟨_, _, _, later⟩
  | record items rest inner ih =>
    by_cases within : flat < (scalarsOf items).length
    · obtain ⟨index, path, u, placed⟩ := inner within
      exact ⟨_, _, _, .inside placed⟩
    · rw [scalarsOf, scalars, List.length_append] at h
      obtain ⟨index, path, u, placed⟩ := ih (show flat - (scalarsOf items).length < _ by omega)
      have later := Placed.later (u := .list items) placed
      rw [scalars, Nat.add_sub_cancel' (by omega)] at later
      exact ⟨_, _, _, later⟩

/-- Every path to a scalar is that of a place. -/
theorem exists_placed_of_at? {values : List Value} {index : Nat} {path : List Nat} {v : Value}
    (h : (Value.list values).at? (index :: path) = some v) (single : v.isList = false) :
    ∃ flat, Placed values flat index path v := by
  induction values using Value.nested_induction generalizing index path with
  | nil => cases h
  | scalar u rest other ih =>
    cases index with
    | zero =>
      rw [Value.at?_first] at h
      cases path with
      | nil =>
        cases h
        exact ⟨0, .here single⟩
      | cons next path =>
        rw [Value.at?_scalar other] at h
        cases h
    | succ index =>
      obtain ⟨flat, placed⟩ := ih h
      exact ⟨_, .later placed⟩
  | record items rest inner ih =>
    cases index with
    | zero =>
      rw [Value.at?_first] at h
      cases path with
      | nil =>
        cases h
        cases single
      | cons next path =>
        obtain ⟨flat, placed⟩ := inner h
        exact ⟨flat, .inside placed⟩
    | succ index =>
      obtain ⟨flat, placed⟩ := ih h
      exact ⟨_, .later placed⟩

theorem Placed.stands {values : List Value} {flat index : Nat} {path : List Nat} {v : Value}
    (h : Placed values flat index path v) : Stands (flatten values).2 flat (index :: path) := by
  have met := h.meets .start
  rw [Walk.start, Nat.zero_add, Nat.zero_add] at met
  rwa [Stands, flatten, String.toList_ofList]

/-- A walk meets no more scalars than there are. -/
theorem Stands.lt {values : List Value} {index : Nat} {path : List Nat}
    (h : Stands (flatten values).2 index path) : index < (scalarsOf values).length := by
  obtain ⟨front, rest, there, split, walked, rfl, _⟩ := h
  rw [flatten, String.toList_ofList] at split
  have whole := along?_marksOf values .start
  rw [split, Walk.along?_append, walked, Option.bind_some, Walk.along?_cons, Walk.step?_scalar,
    Option.bind_some] at whole
  have bound := Walk.flat_le_of_along? whole
  simp only [Walk.start, Walk.scalar, Nat.zero_add] at bound
  exact bound

/-- What stands in the shape of some values is a scalar of them. -/
theorem Stands.placed {values : List Value} {flat : Nat} {path : List Nat} (h : Stands (flatten values).2 flat path) :
    ∃ index below v, path = index :: below ∧ Placed values flat index below v := by
  obtain ⟨index, below, v, placed⟩ := exists_placed_of_lt h.lt
  -- a flat index stands at one path only
  have same := h.pathOf.symm.trans placed.stands.pathOf
  exact ⟨index, below, v, Except.ok.inj same, placed⟩

theorem exists_flatIndex_iff {values : List Value} {path : List Nat} :
    (∃ index, flatIndex (flatten values).2 path = .ok index)
      ↔ ∃ v, (Value.list values).at? path = some v ∧ v.isList = false := by
  constructor
  · intro h
    obtain ⟨flat, found⟩ := h
    obtain ⟨index, below, v, rfl, placed⟩ := (flatIndex_iff.mp found).placed
    exact ⟨v, placed.at?, isList_of_mem_scalarsOf values (List.mem_of_getElem? placed.scalar)⟩
  · intro h
    obtain ⟨v, reached, single⟩ := h
    cases path with
    | nil =>
      -- the empty path leads to the whole list
      cases reached
      cases single
    | cons index below =>
      obtain ⟨flat, placed⟩ := exists_placed_of_at? reached single
      exact ⟨flat, placed.stands.flatIndex⟩

theorem exists_pathOf_iff {values : List Value} {index : Nat} :
    (∃ path, pathOf (flatten values).2 index = .ok path) ↔ index < (flatten values).1.length := by
  constructor
  · intro h
    obtain ⟨path, found⟩ := h
    exact (pathOf_iff.mp found).lt
  · intro inRange
    obtain ⟨first, below, v, placed⟩ := exists_placed_of_lt inRange
    exact ⟨_, placed.stands.pathOf⟩

/-- Paths and flat indices name the same scalars. In the shape of nested values these are the paths that lead to a
scalar by nested indexing and the indices of the flat list; in any shape each is turned into the other and back. -/
theorem paths_agree :
    (∀ values path,
      ((∃ index, flatIndex (flatten values).2 path = .ok index)
          ↔ ∃ v, (Value.list values).at? path = some v ∧ v.isList = false)
        ∧ ∀ index, flatIndex (flatten values).2 path = .ok index →
          (flatten values).1[index]? = (Value.list values).at? path)
      ∧ (∀ values index,
        (∃ path, pathOf (flatten values).2 index = .ok path) ↔ index < (flatten values).1.length)
      ∧ ∀ shape index path, pathOf shape index = .ok path ↔ flatIndex shape path = .ok index := by
  refine ⟨fun values path => ⟨exists_flatIndex_iff, fun index found => ?_⟩, fun _ _ => exists_pathOf_iff,
    fun shape index path => pathOf_iff.trans flatIndex_iff.symm⟩
  obtain ⟨first, below, v, rfl, placed⟩ := (flatIndex_iff.mp found).placed
  rw [placed.at?]
  exact placed.scalar

/-- A text behind an empty record. -/
theorem paths_agree_emptyRecord :
    flatten [.uint 1, .list [.list [], .text "a"]] = ([.uint 1, .text "a"], ".[[].]")
      ∧ flatIndex ".[[].]" [1, 1] = .ok 1 ∧ pathOf ".[[].]" 1 = .ok [1, 1]
      ∧ [Value.uint 1, .text "a"][1]? = (Value.list [.uint 1, .list [.list [], .text "a"]]).at? [1, 1] := by
  have shape : flatten [.uint 1, .list [.list [], .text "a"]] = ([.uint 1, .text "a"], ".[[].]") := by cbv
  have found : flatIndex ".[[].]" [1, 1] = .ok 1 := by cbv
  obtain ⟨reached, _, inverse⟩ := paths_agree
  have scalar := (reached [.uint 1, .list [.list [], .text "a"]] [1, 1]).2 1
  rw [shape] at scalar
  exact ⟨shape, found, (inverse _ _ _).mpr found, scalar found⟩

end Shape

end BitTemplate
