import Mathlib
import BitTemplate.Proofs.JsonText
import BitTemplate.Proofs.RunValues
import BitTemplate.Proofs.Twins

/-!
Encoding printed values. Decoded values that are printed as JSON and read back have other kinds: digits and bytes are
texts, and integers that 64 bits do not hold are floating-point numbers. The encoder takes them for the same bits, but
for these integers and for binary digits in the gap of a jump, which it would read as hexadecimal ones. Comparisons see
the kind of a value, so they may stop it as well, but only at digits or bytes that have become texts.
-/

namespace BitTemplate

/-! ## Flattened values -/

namespace Value

theorem isList_ofWhole (positive : Bool) (n : Nat) : (ofWhole positive n).isList = false := by
  unfold ofWhole
  split_ifs <;> rfl

theorem isList_reread {v : Value} (single : v.isList = false) : v.reread.isList = false := by
  cases v with
  | uint n => exact isList_ofWhole _ _
  | sint n => exact isList_ofWhole _ _
  | list items => cases single
  | _ => rfl

end Value

namespace Shape

mutual

theorem scalars_reread : ∀ v : Value, scalars v.reread = (scalars v).map Value.reread
  | .list items => by
    rw [Value.reread, scalars, scalars]
    exact scalarsOf_reread items
  | .uint n => scalars_of_not_isList (Value.isList_ofWhole _ _)
  | .sint n => scalars_of_not_isList (Value.isList_ofWhole _ _)
  | .float _ | .hex _ | .bin _ | .bytes _ | .text _ => rfl

/-- What is read back flattens to what the scalars are read back as. -/
theorem scalarsOf_reread : ∀ values : List Value, scalarsOf (Value.rereadItems values) = (scalarsOf values).map Value.reread
  | [] => rfl
  | v :: rest => by
    rw [Value.rereadItems, scalarsOf, scalarsOf, scalars_reread v, scalarsOf_reread rest, List.map_append]

end

mutual

theorem marks_reread : ∀ v : Value, marks v.reread = marks v
  | .list items => by
    rw [Value.reread, marks, marks, marksOf_reread items]
  | .uint n => marks_of_not_isList (Value.isList_ofWhole _ _)
  | .sint n => marks_of_not_isList (Value.isList_ofWhole _ _)
  | .float _ | .hex _ | .bin _ | .bytes _ | .text _ => rfl

/-- It has the same shape. -/
theorem marksOf_reread : ∀ values : List Value, marksOf (Value.rereadItems values) = marksOf values
  | [] => rfl
  | v :: rest => by
    rw [Value.rereadItems, marksOf, marksOf, marks_reread v, marksOf_reread rest]

end

theorem flatten_reread (values : List Value) :
    flatten (Value.rereadItems values) = ((flatten values).1.map Value.reread, (flatten values).2) := by
  rw [flatten, flatten, scalarsOf_reread, marksOf_reread]

end Shape

/-! ## What survives -/

namespace Value

/-- Whether an integer is one that 64 bits hold, with a sign or without one. -/
def InRange (v : Value) : Prop :=
  ∀ n, v.integer? = some n → -2 ^ 63 ≤ n ∧ n < 2 ^ 64

theorem reread_uint {n : BitVec 128} (small : n.toNat < 2 ^ 64) : (Value.uint n).reread = .uint n := by
  rw [reread, ofWhole, if_pos small, if_pos rfl, BitVec.ofNat_toNat, BitVec.setWidth_eq]

/-- A signed integer is read back as an unsigned one if it has no sign. -/
theorem reread_sint {n : BitVec 128} (low : -2 ^ 63 ≤ n.toInt) (high : n.toInt < 2 ^ 64) :
    (Value.sint n).reread = if 0 ≤ n.toInt then .uint n else .sint n := by
  have small : n.toInt.natAbs < 2 ^ 64 := by omega
  by_cases sign : 0 ≤ n.toInt
  · have same : (n.toInt.natAbs : Int) = n.toInt := Int.natAbs_of_nonneg sign
    rw [reread, decide_eq_true sign, ofWhole, if_pos small, if_pos rfl, if_pos sign, ← BitVec.ofInt_natCast, same,
      BitVec.ofInt_toInt]
  · have magnitude : 0 < n.toInt.natAbs ∧ n.toInt.natAbs ≤ 2 ^ 63 := by omega
    have same : -(n.toInt.natAbs : Int) = n.toInt := by omega
    rw [reread, decide_eq_false sign, ofWhole, if_pos small, if_neg Bool.false_ne_true, if_pos magnitude, if_neg sign,
      same, BitVec.ofInt_toInt]

/-- An integer in range is read back as the same number. -/
theorem integer?_reread {v : Value} {n : Int} (range : v.InRange) (number : v.integer? = some n) :
    v.reread.integer? = some n := by
  cases v with
  | uint m =>
    obtain ⟨_, small⟩ := range _ rfl
    rwa [reread_uint (by omega)]
  | sint m =>
    obtain ⟨low, high⟩ := range _ rfl
    cases number
    rw [reread_sint low high]
    by_cases sign : 0 ≤ m.toInt
    · rw [if_pos sign, integer?, BitVec.toInt_eq_toNat_of_lt (BitVec.toInt_pos_iff.mp sign)]
    · rw [if_neg sign, integer?]
  | _ => cases number

/-- The text that digits or bytes have become once they are read back. -/
inductive TextOf : Value → Value → Prop
  | hex (digits : String) : TextOf (.text digits) (.hex digits)
  | bytes (content : List UInt8) : TextOf (.text (Hex.ofBytes content)) (.bytes content)

/-- Whether a form stands for a value or is the text that the value has become. -/
def ReadAs (form v : Value) : Prop :=
  form.StandsFor v ∨ TextOf form v

/-- Nothing but digits and bytes compares in another way once it is read back. -/
theorem readAs_reread {v : Value} (range : v.InRange) (exact : ∀ x, v ≠ .float x) (single : v.isList = false) :
    ReadAs v.reread v := by
  cases v with
  | uint n => exact .inl (standsFor_of_integer (integer?_reread range rfl) rfl)
  | sint n => exact .inl (standsFor_of_integer (integer?_reread range rfl) rfl)
  | float x => exact absurd rfl (exact x)
  | hex digits => exact .inr (.hex digits)
  | bin digits =>
    -- binary digits are compared letter by letter, and so are texts
    refine .inl fun w same => ?_
    cases w with
    | bin other => exact same
    | text other => exact same
    | _ => cases same
  | bytes content => exact .inr (.bytes content)
  | text content => exact .inl fun w same => same
  | list items => cases single

/-- An integer past 64 bits is read back as a floating-point number. -/
theorem exists_float_ofWhole {positive : Bool} {n : Nat} (far : if positive then 2 ^ 64 ≤ n else 2 ^ 63 < n) :
    ∃ x, ofWhole positive n = .float x := by
  cases positive with
  | true =>
    rw [ofWhole, if_neg (Nat.not_lt.mpr far)]
    exact ⟨_, rfl⟩
  | false =>
    have past : ¬ (0 < n ∧ n ≤ 2 ^ 63) := fun near => Nat.not_le.mpr far near.2
    rw [ofWhole, if_neg Bool.false_ne_true, if_neg past, if_neg Bool.false_ne_true]
    split <;> exact ⟨_, rfl⟩

end Value

namespace Field

variable {encoding : Encoding} {bits out : Bits} {v : Value} {width : Option Nat}

/-- Only errors show the value whose bits are fitted. -/
theorem fit_congr {w : Value} {own : Bits} (h : fit encoding v own width = .ok out) :
    fit encoding w own width = .ok out := by
  unfold fit at h ⊢
  cases width with
  | none => exact h
  | some width =>
    simp only at h ⊢
    split at h
    · rename_i wide
      rw [if_pos wide]
      split at h
      · cases h
      · rename_i zeros
        rw [if_neg zeros]
        exact h
    · rename_i narrow
      rw [if_neg narrow]
      exact h

/-- A decoded value is written as what it is read back as, if it is no integer past 64 bits. -/
theorem encode_reread (exact : encoding ≠ .float) (decoded : decode encoding bits = .ok v) (range : v.InRange)
    (encoded : encode encoding v width = .ok out) : encode encoding v.reread width = .ok out := by
  cases encoding with
  | uint =>
    obtain ⟨m, rfl⟩ := uint_of_decode decoded
    have small := (range _ rfl).2
    rwa [Value.reread_uint (by omega)]
  | sint =>
    have encoded : encodeSigned v width = .ok out := encoded
    obtain ⟨n, number, fits⟩ := encodeSigned_ok.mp encoded
    obtain ⟨number, bounds⟩ := Value.signed?_eq_some.mp number
    exact encodeSigned_ok.mpr ⟨n, Value.signed?_eq_some.mpr ⟨Value.integer?_reread range number, bounds⟩, fits⟩
  | lowerHex | upperHex | bin =>
    cases decoded
    obtain ⟨_, own, ⟨⟩, read, fits⟩ := encodeDigits_ok.mp encoded
    exact encodeDigits_ok.mpr ⟨_, own, rfl, read, fit_congr fits⟩
  | bytes =>
    obtain ⟨_, rfl⟩ := decode_bytes_ok.mp decoded
    obtain ⟨_, ⟨⟩, same, rfl⟩ := encodeBytes_ok.mp encoded
    refine encodeBytes_ok.mpr ⟨bits.toBytes, ?_, same, rfl⟩
    rw [Value.reread, bytesOf, if_neg (by decide), bytesOfDigits, Hex.toBytes?_ofBytes]
  | char =>
    obtain ⟨_, rfl⟩ := decode_char_ok.mp decoded
    exact encoded
  | float => exact absurd rfl exact

/-- Only fields of integers are read as integers. -/
theorem integer?_of_decode (unsigned : encoding ≠ .uint) (signed : encoding ≠ .sint)
    (decoded : decode encoding bits = .ok v) : v.integer? = none := by
  cases encoding with
  | uint => exact absurd rfl unsigned
  | sint => exact absurd rfl signed
  | float =>
    obtain ⟨_, rfl⟩ := float_of_decode decoded
    rfl
  | bytes =>
    obtain ⟨_, rfl⟩ := decode_bytes_ok.mp decoded
    rfl
  | char =>
    obtain ⟨_, rfl⟩ := decode_char_ok.mp decoded
    rfl
  | _ =>
    cases decoded
    rfl

/-- An integer past 64 bits is not. -/
theorem inRange_of_encode (exact : encoding ≠ .float) (decoded : decode encoding bits = .ok v)
    (encoded : encode encoding v.reread width = .ok out) : v.InRange := by
  intro n number
  cases encoding with
  | uint =>
    obtain ⟨m, rfl⟩ := uint_of_decode decoded
    cases number
    refine ⟨by omega, ?_⟩
    by_contra far
    obtain ⟨x, same⟩ := @Value.exists_float_ofWhole true m.toNat (by show 2 ^ 64 ≤ m.toNat; omega)
    have encoded : encodeUnsigned (Value.ofWhole true m.toNat) width = .ok out := encoded
    rw [same] at encoded
    obtain ⟨_, none, _⟩ := encodeUnsigned_ok.mp encoded
    cases none
  | sint =>
    obtain ⟨m, rfl⟩ := sint_of_decode decoded
    cases number
    by_contra far
    obtain ⟨x, same⟩ := @Value.exists_float_ofWhole (decide (0 ≤ m.toInt)) m.toInt.natAbs (by
      split <;> rename_i sign <;> rw [decide_eq_true_eq] at sign <;> omega)
    have encoded : encodeSigned (Value.ofWhole (decide (0 ≤ m.toInt)) m.toInt.natAbs) width = .ok out := encoded
    rw [same] at encoded
    obtain ⟨_, none, _⟩ := encodeSigned_ok.mp encoded
    cases none
  | float => exact absurd rfl exact
  | _ =>
    rw [integer?_of_decode (by decide) (by decide) decoded] at number
    cases number

end Field

namespace Encoder

variable {position : Nat} {encoding : Encoding} {bits out : Bits} {v : Value}

/-- A field up to the end of the data is written for it as well. -/
theorem restBits_reread (exact : encoding ≠ .float) (decoded : Field.decode encoding bits = .ok v) (range : v.InRange)
    (encoded : restBits position encoding v = .ok out) : restBits position encoding v.reread = .ok out := by
  obtain ⟨own, natural, written⟩ := restBits_ok.mp encoded
  refine restBits_ok.mpr ⟨own, Field.encode_reread exact decoded range natural, ?_⟩
  rcases written with even | ⟨odd, widened, back, read, absorbed⟩
  · exact .inl even
  · refine .inr ⟨odd, Field.encode_reread exact decoded range widened, back, read, ?_⟩
    have kept (integer : encoding = .uint ∨ encoding = .sint) : absorbsPadding v.reread back = true := by
      obtain ⟨_, n, read', number, same⟩ := Field.integer_of_encode integer widened
      cases read.symm.trans read'
      exact Field.absorbs_integer (Value.integer?_reread range number) same
    cases encoding with
    | uint => exact kept (.inl rfl)
    | sint => exact kept (.inr rfl)
    | lowerHex | upperHex | bin =>
      cases decoded
      cases read
      exact absorbed
    | bytes =>
      obtain ⟨content, found, same, rfl⟩ := Field.encodeBytes_ok.mp natural
      obtain ⟨content', found', wide, rfl⟩ := Field.encodeBytes_ok.mp widened
      -- bytes have one width only, so they are never widened
      cases found.symm.trans found'
      have length := Bits.length_ofBytes content
      rw [Option.getD_some] at wide
      omega
    | char =>
      obtain ⟨_, rfl⟩ := Field.decode_char_ok.mp decoded
      exact absorbed
    | float => exact absurd rfl exact

end Encoder

/-- A text of pairs is twice as long as the bytes that it stands for. -/
theorem Hex.length_of_pairs? {chars : List Char} {content : List UInt8} (h : pairs? chars = some content) :
    chars.length = 2 * content.length := by
  fun_induction pairs? chars generalizing content with
  | case1 =>
    cases h
    rfl
  | case2 => cases h
  | case3 first second rest ih =>
    simp only [Option.bind_eq_bind, Option.bind_eq_some_iff, Option.pure_def, Option.some.injEq] at h
    obtain ⟨byte, _, others, later, rfl⟩ := h
    have length := ih later
    simp only [List.length_cons]
    omega

/-- Binary digits are four times as long as what they stand for as hexadecimal ones. -/
theorem Field.eq_nil_of_encode_toDigits {bits out : Bits} (h : encode .bytes (.text bits.toDigits) none = .ok out)
    (length : out.length = bits.length) : bits = [] := by
  have h : encodeBytes .bytes (.text bits.toDigits) none = .ok out := h
  obtain ⟨content, found, _, same⟩ := encodeBytes_ok.mp h
  have pairs : Hex.pairs? bits.toDigits.toList = some content := by
    rw [bytesOf, if_neg (by decide), bytesOfDigits, Hex.toBytes?] at found
    split at found
    · cases found
      assumption
    · cases found
  have digits := Hex.length_of_pairs? pairs
  have width := congrArg List.length same
  rw [Bits.length_ofBytes] at width
  rw [Bits.toDigits, String.toList_ofList, List.length_map] at digits
  exact List.length_eq_zero_iff.mp (by omega)

namespace Directive

variable {directive : Directive} {position : Nat} {encoding : Encoding} {bits : Bits} {v : Value}

/-- Whether an instruction reads a value from some bits. -/
def Yields (directive : Directive) (v : Value) : Prop :=
  ∃ encoding bits, Field.decode encoding bits = .ok v ∧
    match directive with
    | .value own _ => encoding = own
    | .takeAll own => encoding = own
    | .jump _ _ => encoding = .bytes ∨ encoding = .bin
    | .marker _ _ => encoding = .bytes
    | _ => False

/-- Whether an instruction writes a value that is printed and read back in the bits of the value. Integers stay integers
in the range of 64 bits, and binary digits are no hexadecimal ones in the gap of a jump. -/
def Restores (directive : Directive) (v : Value) : Prop :=
  v.InRange ∧ ∀ origin count digits, directive = .jump origin count → v = .bin digits → digits = ""

theorem Restores.of_inRange (range : v.InRange) (free : ∀ origin count, directive ≠ .jump origin count) :
    directive.Restores v :=
  ⟨range, fun origin count _ jump _ => (free origin count jump).elim⟩

theorem Yields.isList (yields : directive.Yields v) : v.isList = false := by
  obtain ⟨_, _, decoded, _⟩ := yields
  exact Field.isList_of_decode decoded

theorem Yields.ne_float (yields : directive.Yields v) (exact : directive.Exact) (formed : directive.WellFormed) (x : Double) :
    v ≠ .float x := by
  obtain ⟨own, read, decoded, kind⟩ := yields
  refine Field.ne_float_of_decode ?_ decoded x
  cases directive with
  | value own' width => exact kind ▸ exact
  | takeAll own' =>
    subst kind
    have whole : own.needsBytes = true := formed
    rintro rfl
    cases whole
  | jump origin count => rcases kind with rfl | rfl <;> decide
  | marker last bytes =>
    subst kind
    decide
  | _ => exact kind.elim

/-- What is read back is written in the same bits. -/
theorem Writes.reread (writes : directive.Writes position v encoding bits) (yields : directive.Yields v)
    (exact : directive.Exact) (formed : directive.WellFormed) (restores : directive.Restores v) :
    directive.Writes position v.reread encoding bits := by
  obtain ⟨range, gap⟩ := restores
  obtain ⟨own, read, decoded, kind⟩ := yields
  cases directive with
  | value own' width =>
    subst kind
    cases width with
    | bits width =>
      obtain ⟨rfl, encoded⟩ := writes
      exact ⟨rfl, Field.encode_reread exact decoded range encoded⟩
    | rest =>
      obtain ⟨rfl, widened⟩ := writes
      exact ⟨rfl, Encoder.restBits_reread exact decoded range widened⟩
  | takeAll own' =>
    subst kind
    obtain ⟨rfl, encoded⟩ := writes
    have whole : encoding.needsBytes = true := formed
    exact ⟨rfl, Field.encode_reread (by rintro rfl; cases whole) decoded range encoded⟩
  | jump origin count =>
    obtain ⟨rfl, encoded⟩ := writes
    refine ⟨rfl, ?_⟩
    rcases kind with rfl | rfl
    · obtain ⟨_, rfl⟩ := Field.decode_bytes_ok.mp decoded
      exact Field.encode_reread (by rintro ⟨⟩) decoded range encoded
    · cases decoded
      have empty := congrArg String.toList (gap origin count read.toDigits rfl rfl)
      rw [Bits.toDigits, String.toList_ofList, String.toList_empty, List.map_eq_nil_iff] at empty
      subst empty
      exact encoded
  | marker last bytes =>
    subst kind
    obtain ⟨rfl, encoded⟩ := writes
    exact ⟨rfl, Field.encode_reread (by decide) decoded range encoded⟩
  | _ => exact kind.elim

theorem Restores.carries (restores : directive.Restores v) (yields : directive.Yields v) (exact : directive.Exact)
    (formed : directive.WellFormed) :
    directive.Carries Value.ReadAs v.reread v where
  related :=
    .scalar (Value.isList_reread yields.isList) yields.isList
      (Value.readAs_reread restores.1 (yields.ne_float exact formed) yields.isList)
  writes _ _ _ writes := writes.reread yields exact formed restores

end Directive

theorem Decoder.Reads.yields {directive : Directive} {d : Engine} {encoding : Encoding} {bits : Bits} {v : Value}
    (reads : Reads d encoding bits v directive) : directive.Yields v := by
  obtain ⟨decoded, reads⟩ := reads
  refine ⟨encoding, bits, decoded, ?_⟩
  cases directive with
  | value own width => cases width <;> exact reads.1
  | takeAll own => exact reads.1
  | jump origin count =>
    obtain ⟨rfl, _⟩ := reads
    simp only [gapEncoding]
    split
    · exact .inl rfl
    · exact .inr rfl
  | marker last bytes => exact reads.1
  | _ => exact reads.elim

/-! ## What is not restored -/

namespace Encoder.Twin

variable {R : Value → Value → Prop} {directive : Directive} {t t' s s' final final' : Encoder} {wire : Bits}
  {inWord inWord' : Prop} {u : Unit}

/-- Twins that write the same data have written what is read back in the bits of the values. -/
theorem restores (h : Twin R Value.reread t s) (exact : directive.Exact) (formed : directive.WellFormed)
    (yields : s.Takes Directive.Yields directive) (done : Encoder.execute directive s = .ok u s')
    (done' : Encoder.execute directive t = .ok u t') (rest : s'.Extends inWord final) (rest' : t'.Extends inWord' final')
    (sealed : final.Sealed wire) (sealed' : final'.Sealed wire) : s.Takes Directive.Restores directive := by
  intro takes v left input
  obtain ⟨encoding, bits, decoded, kind⟩ := yields takes v left input
  have head {w : Value} {others : List Value} (taken : t.input = w :: others) : w = v.reread := by
    rw [h.input, input, List.map_cons] at taken
    exact (List.cons.inj taken).1.symm
  cases directive with
  | value own width =>
    subst kind
    refine .of_inRange ?_ (by rintro _ _ ⟨⟩)
    cases width with
    | bits width =>
      obtain ⟨w, _, out, taken, _, encoded, _⟩ := execute_value_ok.mp done'
      exact Field.inRange_of_encode exact decoded (head taken ▸ encoded)
    | rest =>
      obtain ⟨w, _, out, _, taken, widened, _, _⟩ := execute_rest_ok.mp done'
      obtain ⟨own_bits, natural, _⟩ := restBits_ok.mp widened
      exact Field.inRange_of_encode exact decoded (head taken ▸ natural)
  | takeAll own =>
    subst kind
    obtain ⟨w, _, out, _, _, taken, encoded, _⟩ := execute_takeAll_ok.mp done'
    have whole : encoding.needsBytes = true := formed
    exact .of_inRange (Field.inRange_of_encode (by rintro rfl; cases whole) decoded (head taken ▸ encoded))
      (by rintro _ _ ⟨⟩)
  | jump origin count =>
    refine ⟨fun n number => ?_, fun _ _ digits _ same => ?_⟩
    · rw [Field.integer?_of_decode (by rcases kind with rfl | rfl <;> decide) (by rcases kind with rfl | rfl <;> decide)
        decoded] at number
      cases number
    · -- both gaps end where the jump lands
      subst same
      rcases kind with rfl | rfl
      · obtain ⟨_, ⟨⟩⟩ := Field.decode_bytes_ok.mp decoded
      · obtain ⟨v, _, gap, taken, encoded, _, lands⟩ := sealed.lands done rest
        obtain ⟨w, _, gap', taken', encoded', _, lands'⟩ := sealed'.lands done' rest'
        cases input.symm.trans taken
        cases head taken'
        rw [h.agree.log, h.cursor, lands] at lands'
        cases decoded
        cases (Field.encode_decode_none (.inl rfl) (show Field.decode .bin bits = .ok (.bin bits.toDigits) from rfl)).symm.trans
          encoded
        have length : gap'.length = bits.length := by
          have := Except.ok.inj lands'
          omega
        rw [Field.eq_nil_of_encode_toDigits encoded' length]
        rfl
  | marker last bytes =>
    subst kind
    obtain ⟨needle, width, t₁, _, _, written, _⟩ := marker_ok.mp done'
    obtain ⟨w, _, out, taken, encoded, _, _⟩ := writeGap_ok.mp written
    rw [gapEncoding_true] at encoded
    exact .of_inRange (Field.inRange_of_encode (by decide) decoded (head taken ▸ encoded)) (by rintro _ _ ⟨⟩)
  | _ => exact kind.elim

theorem restores_run (h : Twin Value.ReadAs Value.reread t s) {instructions : List Instruction} {index : Nat}
    (exact : ∀ i ∈ instructions, i.directive.Exact) (formed : ∀ i ∈ instructions, i.directive.WellFormed)
    (atEnd : s.AtEnd) (atEnd' : t.AtEnd) (yields : Along (Takes Directive.Yields) index instructions s)
    (done : runFrom index instructions s = (none, final)) (done' : runFrom index instructions t = (none, final'))
    (sealed : final.Sealed wire) (sealed' : final'.Sealed wire) :
    Along (Takes Directive.Restores) index instructions s := by
  induction instructions generalizing index t s with
  | nil => trivial
  | cons instruction rest ih =>
    obtain ⟨s₁, first, later⟩ := runFrom_cons_ok.mp done
    obtain ⟨t₁, first', later'⟩ := runFrom_cons_ok.mp done'
    obtain ⟨_, executed⟩ := step_ok.mp first
    obtain ⟨_, executed'⟩ := step_ok.mp first'
    have after := Extends.step atEnd first
    have after' := Extends.step atEnd' first'
    have exact₁ := exact instruction (by simp)
    have formed₁ := formed instruction (by simp)
    have restores := (h.arrive index instruction).restores exact₁ formed₁ yields.1 executed executed'
      (Extends.runFrom after.atEnd later) (Extends.runFrom after'.atEnd later') sealed sealed'
    -- so this value is carried, and the two are twins after the step as well
    have carries : Takes (fun directive v => directive.Carries Value.ReadAs v.reread v) instruction.directive
        { s with engine := s.engine.arrive index instruction } :=
      fun takes v left input =>
        (restores takes v left input).carries (yields.1 takes v left input) exact₁ formed₁
    refine ⟨restores, fun s₂ again => ?_⟩
    cases first.symm.trans again
    rcases h.step carries first with ⟨t₂, taken, next⟩ | ⟨error, _, stopped, _⟩
    · cases first'.symm.trans taken
      exact ih next (fun i hi => exact i (by simp [hi])) (fun i hi => formed i (by simp [hi])) after.atEnd after'.atEnd
        (yields.2 s₁ first) later later'
    · rw [stopped rest] at done'
      cases done'

end Encoder.Twin

/-! ## Whole runs -/

/-- Whether the instructions of a program that take values restore the scalars of some values. -/
def Program.Restores (program : Program) (values : List Value) : Prop :=
  List.Forall₂ Directive.Restores ((program.instructions.map (·.directive)).filter Directive.takesValue)
    (Shape.scalarsOf values)

section

variable {text : String} {program : Program} {values : List Value} {bytes : List UInt8} {maxSteps readBits maxBits : Nat}
  {check : Bool} {labels : List (String × Value)}

/-- What is printed of decoded values is enough to encode them. It can be read back, and if the values themselves are
encoded as the bytes that they were read from, so is what is read back, where all that instructions take is restored.
Otherwise it is encoded as other bytes or not at all. Where all is restored, the encoder can only stop with a mismatch at a
comparison that the values pass: the text of digits or bytes is compared there, and does not stand for them. -/
theorem printed_values_suffice (compiled : Pattern.compile text = .ok program)
    (exact : ∀ i ∈ program.instructions, i.directive.Exact)
    (decoded : (Decoder.ofBytes bytes ⟨maxSteps, readBits⟩ check labels).decode program = .ok values)
    (deep : (Value.list values).depth ≤ Json.maxDepth)
    (encoded : (Encoder.ofValues values ⟨maxSteps, maxBits⟩ labels).encode program = .ok bytes) (pretty : Bool) :
    ∃ back, Value.parseList ((Value.list values).format pretty Palette.plain) = .ok back
      ∧ ((Encoder.ofValues back ⟨maxSteps, maxBits⟩ labels).encode program = .ok bytes → program.Restores values)
      ∧ (program.Restores values →
        (Encoder.ofValues back ⟨maxSteps, maxBits⟩ labels).encode program = .ok bytes
        ∨ ∃ error t, (Encoder.ofValues back ⟨maxSteps, maxBits⟩ labels).run program = (some error, t)
          ∧ (Encoder.ofValues back ⟨maxSteps, maxBits⟩ labels).encode program = .error error
          ∧ t.engine.StopsBeside (Engine.ToldApart Value.TextOf) 0 program.instructions error
            (Encoder.ofValues values ⟨maxSteps, maxBits⟩ labels)) := by
  obtain ⟨d, read, _, root⟩ := Decoder.decode_ofBytes_ok.mp decoded
  have formed := Pattern.wellFormed_of_compile compiled
  have scalars : Shape.scalarsOf values = d.scalars := congrArg Prod.fst (Decoder.flatten_root read root)
  have back : Value.parseList ((Value.list values).format pretty Palette.plain) = .ok (Value.rereadItems values) :=
    Value.parseList_format (by rw [scalars]; exact Decoder.exact_of_run exact formed read) deep
  -- the decoder has read the values one by one where the encoder takes them
  obtain ⟨s, done, used, _, _, wire, sealed, same⟩ := Encoder.encode_ofValues_ok.mp encoded
  have along {property : Directive → Value → Prop} :
      List.Forall₂ property ((program.instructions.map (·.directive)).filter Directive.takesValue) (Shape.scalarsOf values)
        ↔ Encoder.Along (Encoder.Takes property) 0 program.instructions
          (Encoder.ofValues values ⟨maxSteps, maxBits⟩ labels) :=
    Encoder.forall₂_iff_along done used
  have yields : Encoder.Along (Encoder.Takes Directive.Yields) 0 program.instructions
      (Encoder.ofValues values ⟨maxSteps, maxBits⟩ labels) := by
    obtain ⟨produced, all, each⟩ := @Decoder.forall₂_iff_along _ _ Directive.Yields _ _ read
    rw [Decoder.scalars_ofBytes.1, List.nil_append, ← scalars] at all
    refine along.mp ?_
    rw [all]
    exact each.mpr (.of_forall fun _ _ _ _ _ _ reads => reads.yields)
  refine ⟨Value.rereadItems values, back, fun again => ?_, fun restores => ?_⟩
  · obtain ⟨t, done', _, _, _, wire', sealed', same'⟩ := Encoder.encode_ofValues_ok.mp again
    obtain rfl := sealed.wire_eq sealed' (same'.trans same.symm)
    exact along.mpr ((Encoder.Twin.start (Shape.flatten_reread values)).restores_run exact formed Encoder.atEnd_ofValues
      Encoder.atEnd_ofValues yields done done' sealed sealed')
  · have carries : Encoder.Along (Encoder.Takes fun directive v => directive.Carries Value.ReadAs v.reread v) 0
        program.instructions (Encoder.ofValues values ⟨maxSteps, maxBits⟩ labels) :=
      yields.combine (fun i hi s yields restores takes v rest input =>
        (restores takes v rest input).carries (yields takes v rest input) (exact i hi) (formed i hi)) (along.mp restores)
    refine (Encoder.encode_of_carries (Shape.flatten_reread values) carries encoded).imp_right fun stopped => ?_
    obtain ⟨error, t, run, failed, parts⟩ := stopped
    refine ⟨error, t, run, failed, parts.imp fun action d e differ => differ.toldApart.imp fun form v read differs => ?_⟩
    exact read.resolve_left differs

end

/-- A number, digits, bytes in a nested gap, and text. -/
def mixedRecord : Program where
  instructions := [
    ⟨"s8", ⟨0, 2⟩, .value .sint (.bits 8)⟩, ⟨"x12", ⟨3, 6⟩, .value .lowerHex (.bits 12)⟩,
    ⟨"b4", ⟨7, 9⟩, .value .bin (.bits 4)⟩, ⟨"[", ⟨10, 11⟩, .control .nestOpen⟩, ⟨"jf8", ⟨11, 14⟩, .jump .forward 8⟩,
    ⟨"]", ⟨14, 15⟩, .control .nestClose⟩, ⟨"C$", ⟨16, 18⟩, .takeAll .char⟩]

theorem printed_values_suffice_mixedRecord :
    (Decoder.ofBytes [0xff, 0xab, 0xc5, 7, 0x41] ⟨20, 0⟩ true []).decode mixedRecord
        = .ok [.sint (-1), .hex "abc", .bin "0101", .list [.bytes [7]], .text "A"]
      ∧ ∃ back, Value.parseList ((Value.list [.sint (-1), .hex "abc", .bin "0101", .list [.bytes [7]], .text "A"]).format
          true Palette.plain) = .ok back
        ∧ (Encoder.ofValues back ⟨20, 40⟩ []).encode mixedRecord = .ok [0xff, 0xab, 0xc5, 7, 0x41] := by
  have compiled : Pattern.compile "s8 x12 b4 [jf8] C$" = .ok mixedRecord := by cbv
  have exact : ∀ i ∈ mixedRecord.instructions, i.directive.Exact := by simp [mixedRecord, Directive.Exact]
  have decoded : (Decoder.ofBytes [0xff, 0xab, 0xc5, 7, 0x41] ⟨20, 0⟩ true []).decode mixedRecord
      = .ok [.sint (-1), .hex "abc", .bin "0101", .list [.bytes [7]], .text "A"] := by cbv
  have encoded : (Encoder.ofValues [.sint (-1), .hex "abc", .bin "0101", .list [.bytes [7]], .text "A"] ⟨20, 40⟩ []).encode
      mixedRecord = .ok [0xff, 0xab, 0xc5, 7, 0x41] := by cbv
  have free {v : Value} (none : v.integer? = none) : v.InRange := by
    intro n number
    rw [none] at number
    cases number
  have range : (Value.sint (-1)).InRange := by
    intro n number
    cases number
    decide
  have restores : mixedRecord.Restores [.sint (-1), .hex "abc", .bin "0101", .list [.bytes [7]], .text "A"] :=
    .cons ⟨range, by rintro _ _ _ ⟨⟩⟩ (.cons ⟨free rfl, by rintro _ _ _ ⟨⟩⟩ (.cons ⟨free rfl, by rintro _ _ _ ⟨⟩⟩
      (.cons ⟨free rfl, by rintro _ _ _ _ ⟨⟩⟩ (.cons ⟨free rfl, by rintro _ _ _ ⟨⟩⟩ .nil))))
  obtain ⟨back, read, _, again⟩ := printed_values_suffice compiled exact decoded (by decide) encoded true
  refine ⟨decoded, back, read, ?_⟩
  rcases again restores with same | ⟨_, _, _, _, k, instruction, action, _, place, control, _, _, _, apart⟩
  · exact same
  · -- nothing in the record compares
    have member := List.mem_of_getElem? place
    simp only [mixedRecord, List.mem_cons, List.not_mem_nil, or_false] at member
    rcases member with rfl | rfl | rfl | rfl | rfl | rfl | rfl <;> cases control <;> exact absurd trivial apart.fails

/-- Values that a program without floating-point fields reads from some bytes and is encoded as, but not once they are
printed and read back. -/
def Program.Loses (program : Program) (bytes : List UInt8) (values : List Value) : Prop :=
  (∃ text, Pattern.compile text = .ok program) ∧ (∀ i ∈ program.instructions, i.directive.Exact)
    ∧ (Decoder.ofBytes bytes ⟨20, 0⟩ true []).decode program = .ok values
    ∧ (Encoder.ofValues values ⟨20, 72⟩ []).encode program = .ok bytes
    ∧ ∃ back, Value.parseList ((Value.list values).format false Palette.plain) = .ok back
      ∧ (Encoder.ofValues back ⟨20, 72⟩ []).encode program ≠ .ok bytes

/-- Digits that are compared with a text in other letters. -/
def letteredDigits : Program where
  instructions := [⟨"x8", ⟨0, 2⟩, .value .lowerHex (.bits 8)⟩, ⟨"=\"0A\";", ⟨3, 9⟩, .control (.assertion (.str "0A"))⟩]

/-- A number past 64 bits. -/
def largeNumber : Program where
  instructions := [⟨"u72", ⟨0, 3⟩, .value .uint (.bits 72)⟩]

/-- A gap of half a byte. -/
def halfGap : Program where
  instructions := [⟨"jf4", ⟨0, 3⟩, .jump .forward 4⟩, ⟨"u4", ⟨4, 6⟩, .value .uint (.bits 4)⟩]

/-- What is read back need not compare as the values do, a large number is no integer any more, and the binary digits of a
gap are taken for hexadecimal ones. -/
theorem printed_values_differ :
    letteredDigits.Loses [0x0a] [.hex "0a"]
      ∧ largeNumber.Loses [1, 0, 0, 0, 0, 0, 0, 0, 0] [.uint 0x10000000000000000#128]
      ∧ halfGap.Loses [0xa5] [.bin "1010", .uint 5] := by
  have refused {program : Program} {values : List Value} {bytes : List UInt8}
      (failed : ((Encoder.ofValues values ⟨20, 72⟩ []).encode program).toOption = none) :
      (Encoder.ofValues values ⟨20, 72⟩ []).encode program ≠ .ok bytes := by
    intro encoded
    rw [encoded] at failed
    cases failed
  refine ⟨⟨⟨"x8 =\"0A\";", by cbv⟩, ?_, by cbv, by cbv, _, Value.parseList_format ?_ (by decide), refused ?_⟩,
    ⟨⟨"u72", by cbv⟩, ?_, by cbv, rfl, _, Value.parseList_format ?_ (by decide), refused ?_⟩,
    ⟨"jf4 u4", by cbv⟩, ?_, by cbv, by cbv, _, Value.parseList_format ?_ (by decide), refused ?_⟩
  · simp [letteredDigits, Directive.Exact]
  · simp [Shape.scalarsOf, Shape.scalars]
  · cbv
  · simp [largeNumber, Directive.Exact]
  · simp [Shape.scalarsOf, Shape.scalars]
  · exact rfl
  · simp [halfGap, Directive.Exact]
  · simp [Shape.scalarsOf, Shape.scalars]
  · cbv

end BitTemplate
