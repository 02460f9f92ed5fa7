import BitTemplate.Proofs.Storage

/-!
Windows rearranged by reversals. Reversing a window and then each of its parts puts the parts in another order and changes
nothing in them. With the bytes of the window as its parts this swaps the byte order; with two parts it pulls the later
one to the front. The main statements say so of storage, wherever the window lies in it.
-/

namespace BitTemplate

/-- Eight bits in a row: the byte with an index, counted from a position that need not be a byte boundary. -/
def Bits.byteAt (bits : Bits) (start index : Nat) : Bits :=
  (bits.drop (start + 8 * index)).take 8

namespace Transform

variable {front middle back : Bits}

/-! ## Parts of data -/

theorem region?_of_resolve {t : Transform} {length start stop : Nat} (first : t.start.resolve? length = some start)
    (last : t.stop.resolve? length = some stop) (bounds : start ≤ stop ∧ stop ≤ length) :
    t.region? length = some (start, stop) := by
  simp [region?, first, last, bounds]

theorem region?_reverse {start count length : Nat} (fits : start + count ≤ length) :
    (reverse start count).region? length = some (start, start + count) :=
  region?_of_resolve rfl rfl ⟨Nat.le_add_right start count, fits⟩

/-- A transform whose region is a part of the data changes that part. -/
theorem onBits?_part {t : Transform}
    (region : t.region? (front ++ middle ++ back).length = some (front.length, front.length + middle.length)) :
    t.onBits? (front ++ middle ++ back) = some (front ++ t.change.act middle ++ back) := by
  have behind : (front ++ (middle ++ back)).drop (front.length + middle.length) = back := by
    rw [← List.drop_drop, List.drop_left, List.drop_left]
  rw [onBits?, region, Option.map_some]
  simp only [onRegion, List.append_assoc, List.take_left, List.drop_left, Nat.add_sub_cancel_left, behind]

theorem onBits?_reverse (front middle back : Bits) :
    (reverse front.length middle.length).onBits? (front ++ middle ++ back) = some (front ++ middle.reverse ++ back) :=
  onBits?_part (region?_reverse (by simp))

/-! ## Byte order -/

/-- Reversing each byte of a window turns bytes that stand reversed back. -/
theorem onAll?_eachByte (front : Bits) (bytes : List UInt8) (back : Bits) :
    onAll? ((List.range bytes.length).map fun k => reverse (front.length + 8 * k) 8)
        (front ++ bytes.flatMap (fun byte => (Bits.ofByte byte).reverse) ++ back)
      = some (front ++ Bits.ofBytes bytes ++ back) := by
  -- the bytes that stand right again belong to the front of those still to be turned
  induction bytes generalizing front with
  | nil => rfl
  | cons byte rest ih =>
    have first := onBits?_reverse front (Bits.ofByte byte).reverse
      (rest.flatMap (fun byte => (Bits.ofByte byte).reverse) ++ back)
    have others := ih (front ++ Bits.ofByte byte)
    rw [List.length_reverse, Bits.length_ofByte, List.reverse_reverse] at first
    rw [List.length_append, Bits.length_ofByte] at others
    have shifted (k : Nat) : front.length + 8 * (k + 1) = front.length + 8 + 8 * k := by omega
    rw [List.length_cons, List.range_succ_eq_map, List.map_cons, List.map_map, Nat.mul_zero, Nat.add_zero, onAll?_cons,
      List.flatMap_cons, Bits.ofBytes_cons]
    simp only [Function.comp_def, Nat.succ_eq_add_one, shifted]
    simp only [List.append_assoc] at first others ⊢
    rw [first, Option.bind_some, others]

/-- An endian swap puts the bytes of its window in reverse order. -/
theorem endianSwap_reverses (front : Bits) (bytes : List UInt8) (back : Bits) {ts : List Transform}
    (swap : endianSwap front.length (8 * bytes.length) = .ok ts) :
    onAll? ts (front ++ Bits.ofBytes bytes ++ back) = some (front ++ Bits.ofBytes bytes.reverse ++ back) := by
  have whole := onBits?_reverse front (Bits.ofBytes bytes) back
  have mirrored : (Bits.ofBytes bytes).reverse = bytes.reverse.flatMap fun byte => (Bits.ofByte byte).reverse :=
    List.reverse_flatMap
  have each := onAll?_eachByte front bytes.reverse back
  rw [Bits.length_ofBytes, mirrored] at whole
  rw [List.length_reverse] at each
  rw [endianSwap, if_neg (by omega), Nat.mul_div_cancel_left _ (by decide : 0 < 8)] at swap
  cases swap
  rw [onAll?_cons, whole, Option.bind_some, each]

/-- A byte of a window of bytes. -/
theorem byteAt_ofBytes (front : Bits) {bytes : List UInt8} (back : Bits) {index : Nat} (inside : index < bytes.length) :
    Bits.byteAt (front ++ Bits.ofBytes bytes ++ back) front.length index = Bits.ofByte bytes[index] := by
  have split : Bits.ofBytes bytes
      = Bits.ofBytes (bytes.take index) ++ (Bits.ofByte bytes[index] ++ Bits.ofBytes (bytes.drop (index + 1))) := by
    rw [← Bits.ofBytes_cons, List.getElem_cons_drop, Bits.ofBytes, Bits.ofBytes, Bits.ofBytes, ← List.flatMap_append,
      List.take_append_drop]
  have before : (Bits.ofBytes (bytes.take index)).length = 8 * index := by
    rw [Bits.length_ofBytes, List.length_take, Nat.min_eq_left (Nat.le_of_lt inside)]
  rw [Bits.byteAt, ← List.drop_drop, List.append_assoc, List.drop_left, split, List.append_assoc, List.drop_left' before,
    List.append_assoc, List.take_left' (Bits.length_ofByte _)]

/-! ## Pulls -/

/-- Reversing a window and then each of its two parts exchanges the parts. -/
theorem onAll?_exchange {front first second back : Bits} {whole left right : Transform} {length : Nat}
    (total : length = front.length + (first.length + second.length) + back.length)
    (reversals : ∀ t ∈ [whole, left, right], t.change = .reverse)
    (wholeRegion : whole.region? length = some (front.length, front.length + (first.length + second.length)))
    (leftRegion : left.region? length = some (front.length, front.length + second.length))
    (rightRegion : right.region? length
      = some (front.length + second.length, front.length + second.length + first.length)) :
    onAll? [whole, left, right] (front ++ (first ++ second) ++ back) = some (front ++ (second ++ first) ++ back) := by
  -- each of the three reversals meets its part where the one before it left it
  have part {t : Transform} {before middle after : Bits} (member : t ∈ [whole, left, right])
      (size : (before ++ middle ++ after).length = length)
      (region : t.region? length = some (before.length, before.length + middle.length)) :
      t.onBits? (before ++ middle ++ after) = some (before ++ middle.reverse ++ after) := by
    rw [onBits?_part (size.symm ▸ region), reversals t member, Change.act]
  have one : whole.onBits? (front ++ (first ++ second) ++ back)
      = some (front ++ second.reverse ++ (first.reverse ++ back)) := by
    rw [part (by simp) (by simp [total, Nat.add_assoc]) (by simpa using wholeRegion), List.reverse_append]
    simp only [List.append_assoc]
  have two : left.onBits? (front ++ second.reverse ++ (first.reverse ++ back))
      = some (front ++ second ++ first.reverse ++ back) := by
    rw [part (by simp) (by simp [total]; omega) (by simpa using leftRegion), List.reverse_reverse]
    simp only [List.append_assoc]
  have three : right.onBits? (front ++ second ++ first.reverse ++ back) = some (front ++ (second ++ first) ++ back) := by
    rw [part (by simp) (by simp [total]; omega) (by simpa using rightRegion), List.reverse_reverse]
    simp only [List.append_assoc]
  rw [onAll?_cons, one, Option.bind_some, onAll?_cons, two, Option.bind_some, onAll?_cons, three]
  rfl

/-- The reversals of a pull whose window ends below the size of a word. -/
theorem pull_eq {start offset count : Nat} (small : start + offset + count < wordSize) :
    pull start offset (.bits count)
      = [reverse start (offset + count), reverse start count, reverse (start + count) offset] := by
  have whole : wordSum offset count = offset + count := wordSum_eq (by omega)
  have behind : wordSum start count = start + count := wordSum_eq (by omega)
  rw [pull, whole, behind, window_eq_span (by omega), window_eq_span (by omega), window_eq_span (by omega)]
  rfl

/-- A pull exchanges the bits that it skips and those of the window that it moves. -/
theorem pull_exchanges (front first second back : Bits)
    (small : front.length + first.length + second.length < wordSize) :
    onAll? (pull front.length first.length (.bits second.length)) (front ++ (first ++ second) ++ back)
      = some (front ++ (second ++ first) ++ back) := by
  rw [pull_eq small]
  exact onAll?_exchange rfl (by simp [reverse, span]) (region?_reverse (by omega)) (region?_reverse (by omega))
    (region?_reverse (by omega))

/-- A pull up to the end of the data does so too, with edges that are measured from the end. -/
theorem pull_rest_exchanges (front first second : Bits) :
    onAll? (pull front.length first.length .rest) (front ++ (first ++ second) ++ [])
      = some (front ++ (second ++ first) ++ []) := by
  have back {length behind position : Nat} (h : position + behind = length) :
      (Edge.fromEnd behind).resolve? length = some position := by
    rw [Edge.resolve?, if_pos (by omega), ← h, Nat.add_sub_cancel]
  exact onAll?_exchange rfl (by simp)
    (region?_of_resolve rfl (back (by simp)) (by simp))
    (region?_of_resolve rfl (back (by simp; omega)) (by simp))
    (region?_of_resolve (back (by simp; omega)) (back (by simp; omega)) (by simp; omega))

/-- Data is what lies before a pull, what the pull skips, its window and the rest. -/
theorem append_pulled (bits : Bits) (start offset count : Nat) :
    bits.take start ++ ((bits.drop start).take offset ++ (bits.drop (start + offset)).take count)
      ++ bits.drop (start + offset + count) = bits := by
  have window : bits.drop (start + offset) = (bits.drop start).drop offset := List.drop_drop.symm
  have behind : bits.drop (start + offset + count) = (bits.drop (start + offset)).drop count := List.drop_drop.symm
  rw [List.append_assoc, List.append_assoc, behind, List.take_append_drop, window, List.take_append_drop,
    List.take_append_drop]

section

variable {bits : Bits} {start offset count : Nat}

theorem length_pulled (fits : start + offset + count ≤ bits.length) :
    (bits.take start).length = start ∧ ((bits.drop start).take offset).length = offset
      ∧ ((bits.drop (start + offset)).take count).length = count := by
  simp only [List.length_take, List.length_drop]
  omega

theorem onAll?_pull (word : bits.length < wordSize) (fits : start + offset + count ≤ bits.length) :
    onAll? (pull start offset (.bits count)) bits
      = some (bits.take start ++ ((bits.drop (start + offset)).take count ++ (bits.drop start).take offset)
        ++ bits.drop (start + offset + count)) := by
  have exchanged := pull_exchanges (bits.take start) ((bits.drop start).take offset)
    ((bits.drop (start + offset)).take count) (bits.drop (start + offset + count))
  obtain ⟨before, skipped, window⟩ := length_pulled fits
  rw [before, skipped, window, append_pulled] at exchanged
  exact exchanged (Nat.lt_of_le_of_lt fits word)

/-- Up to the end of the data, a pull does what it does with the width of all that is left. -/
theorem onAll?_pull_rest (word : bits.length < wordSize) (fits : start + offset ≤ bits.length) :
    onAll? (pull start offset .rest) bits = onAll? (pull start offset (.bits (bits.length - start - offset))) bits := by
  obtain ⟨count, whole⟩ := Nat.exists_eq_add_of_le fits
  have left : bits.length - start - offset = count := by omega
  have nothing : bits.drop (start + offset + count) = [] := List.drop_eq_nil_of_le (Nat.le_of_eq whole)
  have exchanged := pull_rest_exchanges (bits.take start) ((bits.drop start).take offset)
    ((bits.drop (start + offset)).take count)
  obtain ⟨before, skipped, _⟩ := length_pulled (Nat.le_of_eq whole.symm)
  rw [before, skipped, ← nothing, append_pulled] at exchanged
  rw [left, onAll?_pull word (Nat.le_of_eq whole.symm), exchanged]

end

end Transform

/-! ## Storage -/

namespace Storage

/-- The bits in front of a window, in it and behind it. -/
theorem exists_parts {bits : Bits} {start width : Nat} (fits : start + width ≤ bits.length) :
    ∃ front window back, bits = front ++ window ++ back ∧ front.length = start ∧ window.length = width := by
  refine ⟨bits.take start, (bits.drop start).take width, bits.drop (start + width), ?_, ?_, ?_⟩
  · rw [List.append_assoc, ← List.drop_drop, List.take_append_drop, List.take_append_drop]
  · rw [List.length_take]
    omega
  · rw [List.length_take, List.length_drop]
    omega

/-- An endian swap reverses the order of the bytes in a window of whole bytes, which may start anywhere. Every byte keeps
the order of its bits, everything outside the window stays, and the same swap undoes it. A window that is not made of whole
bytes is refused for its alignment. -/
theorem bytes_swapped (s : Storage) (start width : Nat) :
    (width % 8 = 0 → start + width ≤ s.length →
      ∃ ts after, Transform.endianSwap start width = .ok ts ∧ s.applyAll ts = .ok after
        ∧ (∀ index < width / 8, after.bits.byteAt start (width / 8 - 1 - index) = s.bits.byteAt start index)
        ∧ after.bits.take start = s.bits.take start ∧ after.bits.drop (start + width) = s.bits.drop (start + width)
        ∧ after.length = s.length ∧ after.cursor = s.cursor ∧ after.applyAll ts = .ok s)
      ∧ (width % 8 ≠ 0 → Transform.endianSwap start width = .error (.partialBytes width)
        ∧ (Fault.partialBytes width).family = .alignment) := by
  refine ⟨fun whole fits => ?_, fun broken => ⟨if_pos broken, rfl⟩⟩
  obtain ⟨front, window, back, split, rfl, rfl⟩ := exists_parts fits
  obtain ⟨bytes, rfl⟩ : ∃ bytes, window = Bits.ofBytes bytes := ⟨window.toBytes, (Bits.ofBytes_toBytes whole).symm⟩
  rw [Bits.length_ofBytes] at whole ⊢
  obtain ⟨ts, swap⟩ : ∃ ts, Transform.endianSwap front.length (8 * bytes.length) = .ok ts := ⟨_, if_neg (by omega)⟩
  -- the way back is the way there for the reversed bytes
  have there := Transform.endianSwap_reverses front bytes back swap
  have again := Transform.endianSwap_reverses front bytes.reverse back (by rwa [List.length_reverse])
  rw [List.reverse_reverse, ← split] at again
  rw [← split] at there
  obtain ⟨after, applied, swapped, cursor⟩ := exists_applyAll there
  refine ⟨ts, after, swap, applied, fun index inside => ?_, ?_, ?_, ?_, cursor, ?_⟩
  · rw [Nat.mul_div_cancel_left _ (by decide : 0 < 8)] at inside ⊢
    have mirrored : bytes.length - 1 - index < bytes.reverse.length := by
      rw [List.length_reverse]
      omega
    rw [swapped, split, Transform.byteAt_ofBytes front back mirrored, Transform.byteAt_ofBytes front back inside,
      List.getElem_reverse]
    congr 2
    omega
  · rw [swapped, split, List.append_assoc, List.append_assoc, List.take_left, List.take_left]
  · have size : (front ++ Bits.ofBytes bytes).length = front.length + 8 * bytes.length := by simp
    have size' : (front ++ Bits.ofBytes bytes.reverse).length = front.length + 8 * bytes.length := by simp
    rw [swapped, split, List.drop_left' size, List.drop_left' size']
  · rw [Storage.length, Storage.length, swapped, Transform.length_of_onAll? there]
  · exact applyAll_ok.mpr ⟨swapped ▸ again, cursor⟩

/-- Two bytes that start within a byte, and a window that ends within one. -/
theorem bytes_swapped_unaligned :
    let s := ofBytes [0xab, 0x12, 0x34]
    16 % 8 = 0 ∧ 4 + 16 ≤ s.length
      ∧ (∃ ts after, Transform.endianSwap 4 16 = .ok ts ∧ s.applyAll ts = .ok after
        ∧ after.bits.byteAt 4 1 = Bits.ofByte 0xb1 ∧ after.bits.byteAt 4 0 = Bits.ofByte 0x23
        ∧ after.bits.take 4 = s.bits.take 4 ∧ after.bits.drop 20 = s.bits.drop 20 ∧ after.applyAll ts = .ok s)
      ∧ 12 % 8 ≠ 0 ∧ Transform.endianSwap 4 12 = .error (.partialBytes 12) := by
  intro s
  have fits : 4 + 16 ≤ s.length := by decide
  obtain ⟨ts, after, swap, applied, moved, before, behind, _, _, again⟩ := (bytes_swapped s 4 16).1 rfl fits
  exact ⟨rfl, fits, ⟨ts, after, swap, applied, moved 0 (by decide), moved 1 (by decide), before, behind, again⟩,
    by decide, ((bytes_swapped s 4 12).2 (by decide)).1⟩

/-- A pull is a rotation in data whose length is a word. It puts the bits of the window before those that lie between the
cursor and the window, each in their order, and leaves everything else as it is. Up to the end of the data it does what it
does with the width of all that is left. -/
theorem window_pulled (s : Storage) (word : s.length < wordSize) (start offset count : Nat) :
    (start + offset + count ≤ s.length →
      ∃ after, s.applyAll (Transform.pull start offset (.bits count)) = .ok after
        ∧ after.bits = s.bits.take start ++ (s.bits.drop (start + offset)).take count ++ (s.bits.drop start).take offset
          ++ s.bits.drop (start + offset + count)
        ∧ after.cursor = s.cursor)
      ∧ (start + offset ≤ s.length →
        s.applyAll (Transform.pull start offset .rest)
          = s.applyAll (Transform.pull start offset (.bits (s.length - start - offset)))) := by
  refine ⟨fun fits => ?_, fun fits => ?_⟩
  · obtain ⟨after, applied, bits, cursor⟩ := exists_applyAll (Transform.onAll?_pull word fits)
    exact ⟨after, applied, by rw [bits, ← List.append_assoc], cursor⟩
  · have window : start + offset + (s.length - start - offset) ≤ s.length := by omega
    have whole := Transform.onAll?_pull word window
    obtain ⟨after, applied, bits, cursor⟩ := exists_applyAll ((Transform.onAll?_pull_rest word fits).trans whole)
    rw [applied]
    exact (applyAll_ok.mpr ⟨bits ▸ whole, cursor.symm⟩).symm

/-- Half a byte is passed over by a window that ends before the data does, and by all the data behind it. -/
theorem window_pulled_unaligned :
    let s := ofBytes [0xab, 0x12, 0x34]
    s.length < wordSize ∧ 4 + 4 + 12 ≤ s.length ∧ 4 + 4 ≤ s.length
      ∧ (∃ after, s.applyAll (Transform.pull 4 4 (.bits 12)) = .ok after ∧ after.bits = Bits.ofBytes [0xa1, 0x23, 0xb4]
        ∧ after.cursor = 0)
      ∧ s.applyAll (Transform.pull 4 4 .rest) = s.applyAll (Transform.pull 4 4 (.bits 16)) := by
  intro s
  have fits : 4 + 4 + 12 ≤ s.length := by decide
  have rest : 4 + 4 ≤ s.length := by decide
  have word : s.length < wordSize := by decide
  obtain ⟨after, applied, bits, cursor⟩ := (window_pulled s word 4 4 12).1 fits
  exact ⟨word, fits, rest, ⟨after, applied, bits, cursor⟩, (window_pulled s word 4 4 12).2 rest⟩

end Storage

end BitTemplate
