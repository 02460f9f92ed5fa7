import BitTemplate.Proofs.Outcome

/-!
Transforms one after another. Each transform undoes itself, so a list of them is undone from its end, and a window that
starts at a position or later leaves everything before the position alone. The windows of all directives do so, unless
the sum of the position and an offset is too large for a word. A replay of a log applies its transforms to the data of
the wire, oldest first.
-/

namespace BitTemplate

/-- Whether the window of a directive starts where position and offset say, because their sum is a word. A pull needs no
such condition: where its sums are too large it does not fit. -/
def Directive.InWord (position : Nat) : Directive → Prop
  | .modOff .reverse offset _ => position + offset < wordSize
  | .modOff .invert offset _ => position + offset < wordSize
  | _ => True

namespace Transform

/-! ## One transform -/

theorem act_act (change : Change) (bits : Bits) : change.act (change.act bits) = bits := by
  cases change with
  | reverse => exact List.reverse_reverse bits
  | invert => simp [Change.act, Function.comp_def]

@[simp] theorem length_act (change : Change) (bits : Bits) : (change.act bits).length = bits.length := by
  cases change <;> simp [Change.act]

theorem onRegion_onRegion {change : Change} {start stop : Nat} {bits : Bits} (first : start ≤ stop)
    (last : stop ≤ bits.length) : onRegion change start stop (onRegion change start stop bits) = bits := by
  have front : (bits.take start).length = start := by rw [List.length_take]; omega
  have middle : (change.act ((bits.drop start).take (stop - start))).length = stop - start := by
    rw [length_act, List.length_take, List.length_drop]
    omega
  have split : onRegion change start stop bits
      = bits.take start ++ (change.act ((bits.drop start).take (stop - start)) ++ bits.drop stop) := by
    rw [onRegion, List.append_assoc]
  have taken : (onRegion change start stop bits).take start = bits.take start := by
    rw [split, List.take_left' front]
  have dropped : (onRegion change start stop bits).drop start
      = change.act ((bits.drop start).take (stop - start)) ++ bits.drop stop := by
    rw [split, List.drop_left' front]
  have after : (onRegion change start stop bits).drop stop = bits.drop stop := by
    rw [show stop = start + (stop - start) by omega, ← List.drop_drop, show start + (stop - start) = stop by omega,
      dropped, List.drop_left' middle]
  rw [onRegion, taken, dropped, after, List.take_left' middle, act_act]
  have rest : bits.drop stop = (bits.drop start).drop (stop - start) := by
    rw [List.drop_drop, show start + (stop - start) = stop by omega]
  rw [rest, List.append_assoc, List.take_append_drop, List.take_append_drop]

/-- On bits a transform is its own inverse. -/
theorem onBits?_of_onBits? {t : Transform} {bits after : Bits} (h : t.onBits? bits = some after) :
    t.onBits? after = some bits := by
  have length := length_of_onBits? h
  simp only [onBits?, Option.map_eq_some_iff] at h ⊢
  obtain ⟨⟨start, stop⟩, region, rfl⟩ := h
  have bounds := region?_bounds region
  exact ⟨(start, stop), by rw [length, region], onRegion_onRegion bounds.1 bounds.2⟩

theorem take_onRegion {change : Change} {start stop count : Nat} {bits : Bits} (h : count ≤ start)
    (bound : start ≤ bits.length) : (onRegion change start stop bits).take count = bits.take count := by
  have within : count ≤ (bits.take start).length := by rw [List.length_take]; omega
  rw [onRegion, List.append_assoc, List.take_append_of_le_length within, List.take_take, Nat.min_eq_left h]

/-! ## Several transforms -/

/-- The bits after several transforms, the first one first, if every region fits. -/
def onAll? (ts : List Transform) (bits : Bits) : Option Bits :=
  ts.foldlM (fun bits t => t.onBits? bits) bits

@[simp] theorem onAll?_nil (bits : Bits) : onAll? [] bits = some bits := rfl

theorem onAll?_cons (t : Transform) (ts : List Transform) (bits : Bits) :
    onAll? (t :: ts) bits = (t.onBits? bits).bind (onAll? ts) := rfl

theorem onAll?_append (front back : List Transform) (bits : Bits) :
    onAll? (front ++ back) bits = (onAll? front bits).bind (onAll? back) := by
  rw [onAll?, List.foldlM_append]
  rfl

theorem length_of_onAll? {ts : List Transform} {bits after : Bits} (h : onAll? ts bits = some after) :
    after.length = bits.length := by
  induction ts generalizing bits with
  | nil =>
    cases h
    rfl
  | cons t ts ih =>
    rw [onAll?_cons, Option.bind_eq_some_iff] at h
    obtain ⟨between, first, others⟩ := h
    rw [ih others, length_of_onBits? first]

/-- Several transforms are undone from the last one on. -/
theorem onAll?_reverse {ts : List Transform} {bits after : Bits} (h : onAll? ts bits = some after) :
    onAll? ts.reverse after = some bits := by
  induction ts generalizing bits with
  | nil =>
    cases h
    rfl
  | cons t ts ih =>
    rw [onAll?_cons, Option.bind_eq_some_iff] at h
    obtain ⟨between, first, others⟩ := h
    rw [List.reverse_cons, onAll?_append, ih others, Option.bind_some, onAll?_cons, onBits?_of_onBits? first]
    rfl

/-- Transforms whose regions all fit can be applied one after another. -/
theorem exists_onAll? {ts : List Transform} {bits : Bits} (fits : ∀ t ∈ ts, (t.region? bits.length).isSome) :
    ∃ after, onAll? ts bits = some after := by
  induction ts generalizing bits with
  | nil => exact ⟨bits, rfl⟩
  | cons t ts ih =>
    obtain ⟨edges, region⟩ := Option.isSome_iff_exists.mp (fits t (by simp))
    have first : t.onBits? bits = some (onRegion t.change edges.1 edges.2 bits) := by rw [onBits?, region, Option.map_some]
    obtain ⟨after, others⟩ := @ih (onRegion t.change edges.1 edges.2 bits) fun u hu => by
      rw [length_of_onBits? first]
      exact fits u (by simp [hu])
    exact ⟨after, by rw [onAll?_cons, first, Option.bind_some, others]⟩

/-! ## What stays -/

/-- However far the transforms get, the first `count` bits stay as they are. -/
def Keeps (count : Nat) (ts : List Transform) : Prop :=
  ∀ front, front <+: ts → ∀ bits after, onAll? front bits = some after → after.take count = bits.take count

theorem Keeps.all {count : Nat} {ts : List Transform} (keeps : Keeps count ts) {bits after : Bits}
    (h : onAll? ts bits = some after) : after.take count = bits.take count :=
  keeps ts (List.prefix_refl ts) bits after h

theorem Keeps.mono {count more : Nat} {ts : List Transform} (keeps : Keeps more ts) (le : count ≤ more) :
    Keeps count ts := by
  intro front short bits after h
  have := congrArg (List.take count) (keeps front short bits after h)
  rwa [List.take_take, List.take_take, Nat.min_eq_left le] at this

theorem Keeps.shorter {count : Nat} {front ts : List Transform} (keeps : Keeps count ts) (short : front <+: ts) :
    Keeps count front :=
  fun part h => keeps part (h.trans short)

theorem Keeps.nil (count : Nat) : Keeps count [] := by
  intro front short bits after h
  rw [List.prefix_nil.mp short] at h
  cases h
  rfl

theorem Keeps.append {count : Nat} {front back : List Transform} (first : Keeps count front)
    (second : Keeps count back) : Keeps count (front ++ back) := by
  intro part short bits after h
  rcases List.prefix_or_prefix_of_prefix short (List.prefix_append front back) with within | ⟨more, rfl⟩
  · exact first part within bits after h
  · have beyond : more <+: back := (List.prefix_append_right_inj front).mp short
    rw [onAll?_append, Option.bind_eq_some_iff] at h
    obtain ⟨between, h, h'⟩ := h
    rw [second more beyond between after h', first.all h]

/-- Whether a transform has a fixed start at a position or after it. -/
def StartsAt (count : Nat) (t : Transform) : Prop :=
  ∃ start, t.start = .fixed start ∧ count ≤ start

theorem take_of_onBits? {count start stop : Nat} {t : Transform} {bits after : Bits} (h : t.onBits? bits = some after)
    (region : t.region? bits.length = some (start, stop)) (beyond : count ≤ start) :
    after.take count = bits.take count := by
  have bounds := region?_bounds region
  rw [onBits?, region] at h
  cases h
  exact take_onRegion beyond (by omega)

theorem start_of_region? {t : Transform} {length start stop : Nat} (h : t.region? length = some (start, stop)) :
    t.start.resolve? length = some start ∧ t.stop.resolve? length = some stop := by
  simp only [region?, Option.bind_eq_bind, Option.bind_eq_some_iff, Option.ite_none_right_eq_some,
    Option.some.injEq, Prod.mk.injEq] at h
  obtain ⟨_, first, _, last, _, rfl, rfl⟩ := h
  exact ⟨first, last⟩

theorem exists_region? {t : Transform} {bits after : Bits} (h : t.onBits? bits = some after) :
    ∃ start stop, t.region? bits.length = some (start, stop) := by
  simp only [onBits?, Option.map_eq_some_iff] at h
  obtain ⟨⟨start, stop⟩, region, _⟩ := h
  exact ⟨start, stop, region⟩

theorem Keeps.single {count : Nat} {t : Transform} (h : StartsAt count t) : Keeps count [t] := by
  intro front short bits after applied
  rcases List.prefix_cons_iff.mp short with rfl | ⟨_, rfl, empty⟩
  · cases applied
    rfl
  · rw [List.prefix_nil.mp empty, onAll?_cons, Option.bind_eq_some_iff] at applied
    obtain ⟨between, first, rest⟩ := applied
    cases rest
    obtain ⟨start, stop, region⟩ := exists_region? first
    obtain ⟨position, fixed, beyond⟩ := h
    have start_eq := (start_of_region? region).1
    rw [fixed] at start_eq
    cases start_eq
    exact take_of_onBits? first region beyond

theorem Keeps.of_forall {count : Nat} {ts : List Transform} (h : ∀ t ∈ ts, StartsAt count t) : Keeps count ts := by
  induction ts with
  | nil => exact Keeps.nil count
  | cons t ts ih =>
    have first : Keeps count [t] := Keeps.single (h t (by simp))
    exact first.append (ih fun u hu => h u (by simp [hu]))

/-! ## Windows -/

theorem startsAt_window {count start : Nat} (h : count ≤ start) (change : Change) (width : Width) :
    StartsAt count (window change start width) := by
  cases width <;> exact ⟨start, rfl, h⟩

/-- Whether a transform has fixed edges between two positions. -/
def Within (first last : Nat) (t : Transform) : Prop :=
  ∃ start stop, t.start = .fixed start ∧ t.stop = .fixed stop ∧ first ≤ start ∧ stop ≤ last

theorem Within.startsAt {first last : Nat} {t : Transform} (h : Within first last t) : StartsAt first t := by
  obtain ⟨start, _, fixed, _, le, _⟩ := h
  exact ⟨start, fixed, le⟩

/-- Whether a transform changes bits between two positions. -/
def IsWindow (first last : Nat) (t : Transform) : Prop :=
  ∃ change start count, t = span change start count ∧ first ≤ start ∧ start + count ≤ last

theorem IsWindow.within {first last : Nat} {t : Transform} (h : IsWindow first last t) : Within first last t := by
  obtain ⟨change, start, count, rfl, le, le'⟩ := h
  exact ⟨start, start + count, rfl, rfl, le, le'⟩

/-- A window fits data that does not end before it. -/
theorem IsWindow.region?_isSome {first last length : Nat} {t : Transform} (h : IsWindow first last t)
    (fits : last ≤ length) : (t.region? length).isSome := by
  obtain ⟨change, start, count, rfl, _, le'⟩ := h
  have bounds : start ≤ start + count ∧ start + count ≤ length := ⟨Nat.le_add_right start count, Nat.le_trans le' fits⟩
  simp [region?, span, Edge.resolve?, bounds]

theorem isWindow_endianSwap {start width : Nat} {ts : List Transform} (h : Transform.endianSwap start width = .ok ts) :
    ∀ t ∈ ts, IsWindow start (start + width) t := by
  simp only [Transform.endianSwap] at h
  split at h
  · cases h
  · cases h
    intro t ht
    simp only [List.mem_cons, List.mem_map, List.mem_range] at ht
    rcases ht with rfl | ⟨k, small, rfl⟩
    · exact ⟨.reverse, start, width, rfl, Nat.le_refl start, Nat.le_refl _⟩
    · exact ⟨.reverse, start + 8 * k, 8, rfl, Nat.le_add_right start _, by omega⟩

theorem Keeps.endianSwap {start width : Nat} {ts : List Transform} (h : Transform.endianSwap start width = .ok ts) :
    Keeps start ts :=
  Keeps.of_forall fun t ht => (isWindow_endianSwap h t ht).within.startsAt

/-- Where the last of three transforms starts where the second one ends, it starts no earlier than the second one does. -/
theorem Keeps.relay {count : Nat} {one two three : Transform} (first : StartsAt count one) (second : StartsAt count two)
    (meet : three.start = two.stop) : Keeps count [one, two, three] := by
  have both : Keeps count ([one] ++ [two]) := (Keeps.single first).append (Keeps.single second)
  intro front short bits after applied
  by_cases whole : front = [one, two, three]
  · rw [whole, onAll?_cons, Option.bind_eq_some_iff] at applied
    obtain ⟨between, h₁, applied⟩ := applied
    rw [onAll?_cons, Option.bind_eq_some_iff] at applied
    obtain ⟨middle, h₂, applied⟩ := applied
    rw [onAll?_cons, Option.bind_eq_some_iff] at applied
    obtain ⟨last, h₃, applied⟩ := applied
    cases applied
    obtain ⟨a, b, region⟩ := exists_region? h₂
    obtain ⟨a', b', region'⟩ := exists_region? h₃
    have edges := start_of_region? region
    have edges' := start_of_region? region'
    have bounds := region?_bounds region
    obtain ⟨start, fixed, beyond⟩ := second
    rw [fixed] at edges
    cases edges.1
    rw [length_of_onBits? h₂, meet] at edges'
    cases edges.2.symm.trans edges'.1
    have kept : middle.take count = bits.take count := by
      apply both.all
      rw [List.singleton_append, onAll?_cons, h₁, Option.bind_some, onAll?_cons, h₂]
      rfl
    rw [take_of_onBits? h₃ region' (Nat.le_trans beyond bounds.1), kept]
  · have shorter : front <+: [one] ++ [two] := by
      rw [show [one, two, three] = ([one] ++ [two]) ++ [three] from rfl] at short whole
      exact (List.prefix_concat_iff.mp short).resolve_left whole
    exact both front shorter bits after applied

theorem Keeps.pull (start offset : Nat) (width : Width) : Keeps start (pull start offset width) := by
  cases width with
  | rest => exact Keeps.relay ⟨start, rfl, Nat.le_refl start⟩ ⟨start, rfl, Nat.le_refl start⟩ rfl
  | bits count =>
    exact Keeps.relay (startsAt_window (Nat.le_refl start) _ _) (startsAt_window (Nat.le_refl start) _ _) rfl

theorem Keeps.atCursor {change : CursorChange} {position : Nat} {width : Width} {ts : List Transform}
    (h : Transform.atCursor change position width = .ok ts) : Keeps position ts := by
  cases change with
  | reverse =>
    cases h
    exact Keeps.single (startsAt_window (Nat.le_refl position) _ _)
  | invert =>
    cases h
    exact Keeps.single (startsAt_window (Nat.le_refl position) _ _)
  | endianSwap =>
    cases width with
    | bits count => exact Keeps.endianSwap h
    | rest => cases h

theorem Keeps.atOffset {change : OffsetChange} {position offset : Nat} {width : Width}
    (inWord : (Directive.modOff change offset width).InWord position) :
    Keeps position (Transform.atOffset change position offset width) := by
  have start (sum : position + offset < wordSize) : position ≤ wordSum position offset := by
    rw [wordSum_eq sum]
    exact Nat.le_add_right position offset
  cases change with
  | reverse => exact Keeps.single (startsAt_window (start inWord) _ _)
  | invert => exact Keeps.single (startsAt_window (start inWord) _ _)
  | pull => exact Keeps.pull position offset width

end Transform

/-- The lasting changes of a field are those of windows in the field. -/
theorem Flags.isWindow {flags : Flags} {start width : Nat} {encoding : Encoding} {ts : List Transform}
    (h : flags.transforms start width encoding = .ok ts) : ∀ t ∈ ts, Transform.IsWindow start (start + width) t := by
  have here (change : Change) : Transform.IsWindow start (start + width) (Transform.span change start width) :=
    ⟨change, start, width, rfl, Nat.le_refl start, Nat.le_refl _⟩
  have single {flag : Bool} {change : Change} {t : Transform}
      (ht : t ∈ if flag then [Transform.span change start width] else []) :
      Transform.IsWindow start (start + width) t := by
    split at ht
    · rw [List.mem_singleton.mp ht]
      exact here change
    · cases ht
  have two {t : Transform} (ht : t ∈ (if flags.reverseAll then [Transform.reverse start width] else [])
      ++ if flags.invertAll then [Transform.invert start width] else []) : Transform.IsWindow start (start + width) t :=
    (List.mem_append.mp ht).elim single single
  intro t ht
  simp only [transforms] at h
  split at h
  · simp only [except_bind_ok, except_pure_ok] at h
    obtain ⟨swap, swapped, rfl⟩ := h
    exact (List.mem_append.mp ht).elim two (Transform.isWindow_endianSwap swapped t)
  · cases h
    rw [List.append_nil] at ht
    exact two ht

/-- The lasting changes of a field lie within the field. -/
theorem Flags.within {flags : Flags} {start width : Nat} {encoding : Encoding} {ts : List Transform}
    (h : flags.transforms start width encoding = .ok ts) : ∀ t ∈ ts, Transform.Within start (start + width) t :=
  fun t ht => (Flags.isWindow h t ht).within

/-- The lasting changes of a field leave everything before it alone. -/
theorem Flags.keeps {flags : Flags} {start width : Nat} {encoding : Encoding} {ts : List Transform}
    (h : flags.transforms start width encoding = .ok ts) : Transform.Keeps start ts :=
  Transform.Keeps.of_forall fun t ht => (Flags.within h t ht).startsAt

end BitTemplate
