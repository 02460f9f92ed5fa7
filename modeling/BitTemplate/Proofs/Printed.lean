import BitTemplate.Proofs.ReadBack
import BitTemplate.Proofs.Shape

/-!
Printed values as documents. Whoever reads a printed list with the rules for input values gets the list again, but a
document knows fewer kinds: an integer is unsigned unless it is negative, digits are texts, and a byte string is the
text of its digits. It does so for both renderings, whatever the texts contain and however the lists nest, up to the
depth that the reader goes and for the integers that 64 bits hold.
-/

namespace BitTemplate

namespace Value

/-! ## Images -/

mutual

/-- The value that a document keeps of a value. -/
def image : Value → Value
  | .uint n => .uint n
  | .sint n => if 0 ≤ n.toInt then .uint n else .sint n
  | .float x => .float x
  | .hex digits => .text digits
  | .bin digits => .text digits
  | .bytes content => .text (Hex.ofBytes content)
  | .text content => .text content
  | .list items => .list (images items)

/-- The values that it keeps of the items of a list. -/
def images : List Value → List Value
  | [] => []
  | item :: rest => image item :: images rest

end

theorem images_eq_map (values : List Value) : images values = values.map image := by
  induction values with
  | nil => rfl
  | cons v rest ih => rw [images, ih, List.map_cons]

/-- Of a list a document keeps the list of the images. -/
@[simp] theorem image_list (items : List Value) : (Value.list items).image = .list (items.map image) := by
  rw [image, images_eq_map]

/-- A scalar in range is read back as its image. -/
theorem reread_eq_image {v : Value} (single : v.isList = false) (range : v.InRange) : v.reread = v.image := by
  cases v with
  | uint n =>
    obtain ⟨_, small⟩ := range _ rfl
    rw [image, reread_uint (by omega)]
  | sint n =>
    obtain ⟨low, high⟩ := range _ rfl
    rw [image, reread_sint low high]
  | list items => cases single
  | _ => rw [image, reread]

/-- A list is read back as the list of the images. -/
theorem rereadItems_eq_map {values : List Value} (range : ∀ v ∈ Shape.scalarsOf values, v.InRange) :
    rereadItems values = values.map image := by
  induction values using Value.nested_induction with
  | nil => rfl
  | scalar v rest single ih =>
    rw [Shape.scalarsOf, Shape.scalars_of_not_isList single, List.singleton_append, List.forall_mem_cons] at range
    obtain ⟨first, others⟩ := range
    rw [rereadItems, reread_eq_image single first, ih others, List.map_cons]
  | record items rest inner later =>
    rw [Shape.scalarsOf, Shape.scalars, List.forall_mem_append] at range
    obtain ⟨among, others⟩ := range
    rw [rereadItems, reread, inner among, later others, List.map_cons, image_list]

/-! ## Documents -/

/-- Values without floating-point numbers and with integers that 64 bits hold, in lists of at most 126 levels, are read
back from either rendering as their images. -/
theorem printed_list_returns {values : List Value} (exact : ∀ v ∈ Shape.scalarsOf values, ∀ x, v ≠ .float x)
    (range : ∀ v ∈ Shape.scalarsOf values, v.InRange) (shallow : depthOf values ≤ 126) (pretty : Bool) :
    parseList ((Value.list values).format pretty Palette.plain) = .ok (values.map image) := by
  have deep : depthOf values + 1 ≤ Json.maxDepth := Nat.succ_le_succ shallow
  rw [parseList_format exact deep, rereadItems_eq_map range]

/-- Integers at both ends of the range, nested and empty lists, and texts that need every kind of escape. -/
def mixedList : List Value :=
  [.uint (BitVec.ofNat 128 (2 ^ 64 - 1)), .list [.sint (BitVec.ofInt 128 (-2 ^ 63)), .sint 7, .list []],
    .text "\"\\\n\x1b\x7f\u009f\u2028é", .hex "Ab", .bin "01", .bytes [0, 0xff]]

theorem printed_list_returns_mixedList :
    depthOf mixedList = 2 ∧ parseList ((Value.list mixedList).format true Palette.plain)
      = .ok [.uint (BitVec.ofNat 128 (2 ^ 64 - 1)), .list [.sint (BitVec.ofInt 128 (-2 ^ 63)), .uint 7, .list []],
          .text "\"\\\n\x1b\x7f\u009f\u2028é", .text "Ab", .text "01", .text "00ff"] := by
  have exact : ∀ v ∈ Shape.scalarsOf mixedList, ∀ x, v ≠ .float x := by
    simp [mixedList, Shape.scalarsOf, Shape.scalars]
  have range : ∀ v ∈ Shape.scalarsOf mixedList, v.InRange := by
    simp [mixedList, Shape.scalarsOf, Shape.scalars, InRange, integer?]
  refine ⟨rfl, ?_⟩
  rw [printed_list_returns exact range (by decide) true]
  rfl

end Value

end BitTemplate
