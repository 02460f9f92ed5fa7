import BitTemplate.Proofs.Shape

/-!
Which shapes can be filled. A shape is filled with scalars exactly if it has nothing but dots and brackets, a dot for
each scalar, and brackets that go together; the values that it makes flatten to the scalars and the shape again. The
records that are open while a shape is filled count the brackets that the rest of it has still to close.
-/

namespace BitTemplate.Shape

/-! ## Brackets -/

/-- Whether the brackets of some marks go together inside `depth` open records: no front part closes more records than
are open, and none is left open in the end. -/
structure Balanced (depth : Nat) (marks : List Char) : Prop where
  within : ∀ front, front <+: marks → front.count ']' ≤ depth + front.count '['
  closed : marks.count ']' = depth + marks.count '['

namespace Balanced

variable {depth : Nat} {marks : List Char}

theorem nil_iff : Balanced depth [] ↔ depth = 0 := by
  constructor
  · intro h
    simpa using h.closed.symm
  · intro root
    subst depth
    refine ⟨fun front hfront => ?_, rfl⟩
    rw [List.prefix_nil.mp hfront]
    exact Nat.le_refl _

/-- The empty front part closes nothing, and every other one has the first mark. -/
theorem cons_iff {c : Char} : Balanced depth (c :: marks)
    ↔ (∀ front, front <+: marks → (c :: front).count ']' ≤ depth + (c :: front).count '[')
      ∧ (c :: marks).count ']' = depth + (c :: marks).count '[' := by
  constructor
  · intro h
    exact ⟨fun front hfront => h.within (c :: front) (List.cons_prefix_cons.mpr ⟨rfl, hfront⟩), h.closed⟩
  · intro h
    obtain ⟨within, closed⟩ := h
    refine ⟨fun front hfront => ?_, closed⟩
    rcases List.prefix_cons_iff.mp hfront with rfl | ⟨later, rfl, hlater⟩
    · exact Nat.zero_le _
    · exact within later hlater

theorem scalar_iff : Balanced depth ('.' :: marks) ↔ Balanced depth marks := by
  rw [cons_iff]
  constructor
  · intro h
    obtain ⟨within, closed⟩ := h
    exact ⟨by simpa using within, by simpa using closed⟩
  · intro h
    exact ⟨by simpa using h.within, by simpa using h.closed⟩

theorem open_iff : Balanced depth ('[' :: marks) ↔ Balanced (depth + 1) marks := by
  simp only [cons_iff, List.count_cons_self, List.count_cons_of_ne (show '[' ≠ ']' by decide)]
  constructor
  · intro h
    obtain ⟨within, closed⟩ := h
    refine ⟨fun front hfront => ?_, by omega⟩
    have bound := within front hfront
    omega
  · intro h
    have closed := h.closed
    refine ⟨fun front hfront => ?_, by omega⟩
    have bound := h.within front hfront
    omega

theorem close_iff : Balanced depth (']' :: marks) ↔ ∃ outside, depth = outside + 1 ∧ Balanced outside marks := by
  simp only [cons_iff, List.count_cons_self, List.count_cons_of_ne (show ']' ≠ '[' by decide)]
  constructor
  · intro h
    obtain ⟨within, closed⟩ := h
    -- the bracket alone closes a record
    have first : 0 + 1 ≤ depth + 0 := within [] List.nil_prefix
    refine ⟨depth - 1, by omega, fun front hfront => ?_, by omega⟩
    have bound := within front hfront
    omega
  · intro h
    obtain ⟨outside, deeper, h⟩ := h
    have closed := h.closed
    refine ⟨fun front hfront => ?_, by omega⟩
    have bound := h.within front hfront
    omega

end Balanced

/-- The marks of a shape that holds a number of scalars: dots and brackets, a dot for each scalar, and brackets that go
together. -/
structure Holds (shape : String) (count : Nat) : Prop where
  marks : ∀ c ∈ shape.toList, c = '.' ∨ c = '[' ∨ c = ']'
  dots : shape.toList.count '.' = count
  balanced : Balanced 0 shape.toList

/-! ## Filling -/

theorem countFrom_ok {marks : List Char} {offset count : Nat} :
    countFrom offset marks = .ok count ↔ (∀ c ∈ marks, c = '.' ∨ c = '[' ∨ c = ']') ∧ marks.count '.' = count := by
  induction marks generalizing offset count with
  | nil => simp [countFrom]
  | cons c rest ih =>
    by_cases dot : c = '.'
    · subst c
      simp only [countFrom, if_true, except_bind_ok, except_pure_ok, ih, List.mem_cons, List.count_cons_self]
      constructor
      · intro h
        obtain ⟨n, ⟨marks, counted⟩, next⟩ := h
        refine ⟨fun c hc => ?_, by omega⟩
        rcases hc with rfl | hc
        · exact .inl rfl
        · exact marks c hc
      · intro h
        obtain ⟨marks, counted⟩ := h
        exact ⟨rest.count '.', ⟨fun c hc => marks c (.inr hc), rfl⟩, counted⟩
    · by_cases bracket : c = '[' ∨ c = ']'
      · simp only [countFrom, if_neg dot, if_pos bracket, ih, List.mem_cons, List.count_cons_of_ne dot]
        constructor
        · intro h
          obtain ⟨marks, counted⟩ := h
          refine ⟨fun c' hc => ?_, counted⟩
          rcases hc with rfl | hc
          · exact .inr bracket
          · exact marks c' hc
        · intro h
          obtain ⟨marks, counted⟩ := h
          exact ⟨fun c hc => marks c (.inr hc), counted⟩
      · simp only [countFrom, if_neg dot, if_neg bracket]
        constructor
        · intro h
          cases h
        · intro h
          obtain ⟨marks, _⟩ := h
          rcases marks c (by simp) with h | h
          · exact absurd h dot
          · exact absurd h bracket

/-- A shape is filled exactly if its brackets go together inside the records that are open. -/
theorem exists_fill {marks : List Char} {records : Records} {offset : Nat} {flat : List Value}
    (known : ∀ c ∈ marks, c = '.' ∨ c = '[' ∨ c = ']') (dots : marks.count '.' = flat.length) :
    (∃ values, fill records offset marks flat = .ok values) ↔ Balanced records.outer.length marks := by
  induction marks generalizing records offset flat with
  | nil =>
    rw [Balanced.nil_iff, List.length_eq_zero_iff, ← Records.root?_isSome, fill]
    cases records.root? <;> simp
  | cons c rest ih =>
    have known' : ∀ c ∈ rest, c = '.' ∨ c = '[' ∨ c = ']' := fun c hc => known c (by simp [hc])
    rcases known c (by simp) with rfl | rfl | rfl
    · cases flat with
      | nil => simp at dots
      | cons v flat =>
        simp only [fill, if_true, Balanced.scalar_iff]
        exact ih known' (by simpa using dots)
    · simp only [fill, Char.reduceEq, if_false, if_true, Balanced.open_iff]
      exact ih known' (by simpa using dots)
    · obtain ⟨inner, outer⟩ := records
      simp only [fill, Char.reduceEq, if_false, if_true, Balanced.close_iff]
      cases outer with
      | nil => simp [Records.leave?]
      | cons items outer =>
        simp only [Records.leave?]
        rw [ih known' (by simpa using dots)]
        simp [Records.push]

/-- The values of a filled shape flatten to the scalars and the marks with which it was filled. -/
theorem flatten_of_fill {marks : List Char} {records : Records} {offset : Nat} {flat values : List Value}
    (dots : marks.count '.' = flat.length) (single : ∀ v ∈ flat, v.isList = false)
    (h : fill records offset marks flat = .ok values) :
    flatten values = (records.scalars ++ flat, String.ofList (records.marks ++ marks)) := by
  induction marks generalizing records offset flat with
  | nil =>
    rw [List.eq_nil_of_length_eq_zero dots.symm, List.append_nil, List.append_nil]
    simp only [fill] at h
    split at h
    · cases h
      exact Records.flatten_of_root? ‹_›
    · cases h
  | cons c rest ih =>
    simp only [fill] at h
    split at h
    · subst c
      cases flat with
      | nil => cases h
      | cons v flat =>
        have first := single v (by simp)
        rw [ih (by simpa using dots) (fun u hu => single u (by simp [hu])) h, Records.scalars_push, Records.marks_push,
          scalars_of_not_isList first, marks_of_not_isList first]
        simp
    · split at h
      · subst c
        rw [ih (by simpa using dots) single h, Records.scalars_enter, Records.marks_enter]
        simp
      · split at h
        · subst c
          split at h
          · rename_i left
            rw [ih (by simpa using dots) single h, Records.scalars_leave left, Records.marks_leave left]
            simp
          · cases h
        · cases h

theorem deflatten_ok {shape : String} {flat values : List Value} :
    deflatten shape flat = .ok values
      ↔ scalarCount shape = .ok flat.length ∧ fill .empty 0 shape.toList flat = .ok values := by
  simp only [deflatten, except_bind_ok]
  constructor
  · intro h
    obtain ⟨count, counted, h⟩ := h
    split at h
    · cases h
    · rename_i same
      rw [Decidable.not_not.mp same] at counted
      exact ⟨counted, h⟩
  · intro h
    obtain ⟨counted, h⟩ := h
    exact ⟨_, counted, by rw [if_neg (by simp)]; exact h⟩

/-- Values that are taken apart are put together again, and conversely. A shape can be filled with scalars exactly if it
holds that many of them. -/
theorem deflatten_exact :
    (∀ values, deflatten (flatten values).2 (flatten values).1 = .ok values)
      ∧ ∀ shape flat, (∀ v ∈ flat, v.isList = false) →
        ((∃ values, deflatten shape flat = .ok values) ↔ Holds shape flat.length)
          ∧ ∀ values, deflatten shape flat = .ok values → flatten values = (flat, shape) := by
  refine ⟨deflatten_flatten, fun shape flat single => ⟨?_, ?_⟩⟩
  · simp only [deflatten_ok, exists_and_left, scalarCount, countFrom_ok]
    constructor
    · intro h
      obtain ⟨⟨known, dots⟩, filled⟩ := h
      exact ⟨known, dots, (exists_fill known dots).mp filled⟩
    · intro h
      obtain ⟨known, dots, balanced⟩ := h
      exact ⟨⟨known, dots⟩, (exists_fill known dots).mpr balanced⟩
  · intro values h
    obtain ⟨counted, filled⟩ := deflatten_ok.mp h
    rw [flatten_of_fill (countFrom_ok.mp counted).2 single filled]
    simp [Records.empty, Records.scalars, Records.marks, scalarsOf, marksOf]

/-- A record with an empty one inside. -/
theorem deflatten_exact_emptyRecord :
    (∀ v ∈ [Value.uint 1, .text "a"], v.isList = false)
      ∧ Holds ".[[].]" 2 ∧ flatten [.uint 1, .list [.list [], .text "a"]] = ([.uint 1, .text "a"], ".[[].]") := by
  have single : ∀ v ∈ [Value.uint 1, .text "a"], v.isList = false := by simp [Value.isList]
  have filled : deflatten ".[[].]" [.uint 1, .text "a"] = .ok [.uint 1, .list [.list [], .text "a"]] := by cbv
  obtain ⟨accepts, restores⟩ := deflatten_exact.2 ".[[].]" [.uint 1, .text "a"] single
  exact ⟨single, accepts.mp ⟨_, filled⟩, restores _ filled⟩

end BitTemplate.Shape
