import BitTemplate.Proofs.Rearrangement
import BitTemplate.Proofs.Steps

/-!
Transforms undone. A transform keeps the number of bits, so whether its region fits does not depend on the transforms
before it. Transforms that all fit can be applied, and the same ones from the last to the first give everything back. Where
one does not fit, its predecessors are applied and nothing happens after them. The main statement says both of storage and
of the decoder, which goes on with what the storage has become.
-/

namespace BitTemplate

namespace Transform

/-! ## Regions that fit -/

/-- Whether the edges of a transform are in data of a given length, the start not behind the stop. -/
def Fits (length : Nat) (t : Transform) : Prop :=
  ∃ start stop, t.start.resolve? length = some start ∧ t.stop.resolve? length = some stop ∧ start ≤ stop ∧ stop ≤ length

variable {t : Transform} {length : Nat} {bits : Bits}

theorem fits_iff : t.Fits length ↔ (t.region? length).isSome := by
  rw [Option.isSome_iff_exists]
  constructor
  · rintro ⟨start, stop, first, last, bounds⟩
    exact ⟨(start, stop), region?_of_resolve first last bounds⟩
  · rintro ⟨⟨start, stop⟩, region⟩
    have edges := start_of_region? region
    exact ⟨start, stop, edges.1, edges.2, region?_bounds region⟩

instance : Decidable (t.Fits length) :=
  decidable_of_iff _ fits_iff.symm

theorem onBits?_of_not_fits (outside : ¬ t.Fits bits.length) : t.onBits? bits = none := by
  rw [fits_iff, Option.not_isSome_iff_eq_none] at outside
  rw [onBits?, outside, Option.map_none]

/-- The first transform that does not fit. -/
theorem exists_first_misfit {ts : List Transform} (outside : ∃ t ∈ ts, ¬ t.Fits length) :
    ∃ front t back, ts = front ++ t :: back ∧ (∀ u ∈ front, u.Fits length) ∧ ¬ t.Fits length := by
  obtain ⟨u, member, misfit⟩ := outside
  have some : (ts.find? fun t => decide (¬ t.Fits length)).isSome :=
    List.find?_isSome.mpr ⟨u, member, decide_eq_true misfit⟩
  obtain ⟨t, found⟩ := Option.isSome_iff_exists.mp some
  obtain ⟨misfit, front, back, split, before⟩ := List.find?_eq_some_iff_append.mp found
  exact ⟨front, t, back, split, fun u hu => by simpa using before u hu, of_decide_eq_true misfit⟩

end Transform

/-! ## Storage -/

namespace Storage

variable {s reached : Storage} {t : Transform} {front back ts : List Transform} {fault : Fault}

theorem applyAll_append (s : Storage) (front back : List Transform) :
    s.applyAll (front ++ back) = s.applyAll front >>= fun reached => reached.applyAll back :=
  List.foldlM_append

/-- A transform that does not fit fails for lack of data. -/
theorem apply_of_not_fits (outside : ¬ t.Fits s.length) : s.apply t = .error (.regionOutside t s.length) := by
  have nothing : t.onBits? s.bits = none := Transform.onBits?_of_not_fits outside
  simp only [apply]
  split
  · rename_i bits found
    rw [nothing] at found
    cases found
  · rfl

/-- Transforms that all fit can be applied. They keep the number of bits and the cursor. -/
theorem exists_applyAll_of_fits (fits : ∀ t ∈ ts, t.Fits s.length) :
    ∃ after, s.applyAll ts = .ok after ∧ after.length = s.length ∧ after.cursor = s.cursor := by
  obtain ⟨bits, applied⟩ := Transform.exists_onAll? fun t ht => Transform.fits_iff.mp (fits t ht)
  obtain ⟨after, done, same, cursor⟩ := exists_applyAll applied
  refine ⟨after, done, ?_, cursor⟩
  rw [length, same, Transform.length_of_onAll? applied]
  rfl

/-- What was applied is undone from the last one on. -/
theorem applyAll_reverse (done : s.applyAll ts = .ok reached) : reached.applyAll ts.reverse = .ok s := by
  obtain ⟨bits, cursor⟩ := applyAll_ok.mp done
  exact applyAll_ok.mpr ⟨Transform.onAll?_reverse bits, cursor.symm⟩

/-- The transform that fails is the last one that is tried. -/
theorem applyAll_of_stuck (done : s.applyAll front = .ok reached) (stuck : reached.apply t = .error fault) :
    s.applyAll (front ++ t :: back) = .error fault := by
  rw [applyAll_append, done]
  show reached.apply t >>= _ = _
  rw [stuck]
  rfl

end Storage

/-! ## Decoders -/

namespace Decoder

variable {e e' : Engine} {t : Transform} {front back : List Transform} {fault : Fault}

theorem transformAll_append (front back : List Transform) :
    transformAll (front ++ back) = (do transformAll front; transformAll back) := by
  induction front with
  | nil => rfl
  | cons t front ih =>
    show (do transform t; transformAll (front ++ back)) = (do (do transform t; transformAll front); transformAll back)
    rw [ih, bind_assoc]

theorem transform_of_error (stuck : e.storage.apply t = .error fault) : transform t e = .error fault e := by
  refine change_error.mpr ⟨?_, rfl⟩
  rw [stuck]
  rfl

/-- Where a transform fails, those before it are in the storage and in the log, and nothing else has changed. -/
theorem transformAll_of_stuck {reached : Storage} (done : e.storage.applyAll front = .ok reached)
    (stuck : reached.apply t = .error fault) :
    transformAll (front ++ t :: back) e = .error fault { front.foldl Engine.record e with storage := reached } := by
  have applied : transformAll front e = .ok () { front.foldl Engine.record e with storage := reached } :=
    transformAll_ok.mpr ⟨reached, done, rfl⟩
  rw [transformAll_append, step_bind_of_ok applied]
  exact step_bind_of_error (transform_of_error stuck)

end Decoder

/-! ## Lists of transforms -/

/-- Transforms undo each other. If the regions of all of them fit the data, they can be applied one after the other, and the
same ones from the last to the first give back the storage, its bits and its cursor. If some region does not fit, the first
such transform is refused for lack of data: those before it are applied, and a decoder that stops there differs from the
decoder before by these transforms in its storage, its log and its trace, and by nothing else. -/
theorem transforms_undone (s : Storage) (ts : List Transform) :
    ((∀ t ∈ ts, t.Fits s.length) →
      ∃ after, s.applyAll ts = .ok after ∧ after.length = s.length ∧ after.cursor = s.cursor
        ∧ after.applyAll ts.reverse = .ok s)
    ∧ ((∃ t ∈ ts, ¬ t.Fits s.length) →
      ∃ front t back reached, ts = front ++ t :: back ∧ (∀ u ∈ front, u.Fits s.length) ∧ ¬ t.Fits s.length
        ∧ s.applyAll front = .ok reached ∧ reached.length = s.length ∧ reached.cursor = s.cursor
        ∧ s.applyAll ts = .error (.regionOutside t s.length)
        ∧ (Fault.regionOutside t s.length).family = .incompleteData
        ∧ ∀ e : Engine, e.storage = s → Decoder.transformAll ts e
          = .error (.regionOutside t s.length) { front.foldl Engine.record e with storage := reached }) := by
  constructor
  · intro fits
    obtain ⟨after, done, length, cursor⟩ := Storage.exists_applyAll_of_fits fits
    exact ⟨after, done, length, cursor, Storage.applyAll_reverse done⟩
  · intro outside
    obtain ⟨front, t, back, rfl, fits, misfit⟩ := Transform.exists_first_misfit outside
    obtain ⟨reached, done, length, cursor⟩ := Storage.exists_applyAll_of_fits fits
    have stuck : reached.apply t = .error (.regionOutside t s.length) := by
      rw [← length] at misfit ⊢
      exact Storage.apply_of_not_fits misfit
    refine ⟨front, t, back, reached, rfl, fits, misfit, done, length, cursor, Storage.applyAll_of_stuck done stuck, rfl, ?_⟩
    rintro e rfl
    exact Decoder.transformAll_of_stuck done stuck

/-- Overlapping regions at fixed places and at places counted from the end, and one that would stop before it starts. -/
theorem transforms_undone_overlapping :
    let s : Storage := ⟨Bits.ofBytes [0xab, 0x12, 0x34], 5, by decide⟩
    let ts : List Transform := [⟨.reverse, .fixed 4, .fromEnd 4⟩, .invert 0 12, ⟨.reverse, .fromEnd 16, .fromEnd 0⟩]
    let crossed : Transform := ⟨.invert, .fixed 20, .fromEnd 8⟩
    (∀ t ∈ ts, t.Fits s.length)
      ∧ (∃ after, s.applyAll ts = .ok after ∧ after.bits = Bits.ofBytes [0x53, 0x2b, 0x1d] ∧ after.cursor = 5
        ∧ after.applyAll ts.reverse = .ok s)
      ∧ (∃ t ∈ ts ++ [crossed, .reverse 0 8], ¬ t.Fits s.length)
      ∧ s.applyAll (ts ++ [crossed, .reverse 0 8]) = .error (.regionOutside crossed 24) := by
  intro s ts crossed
  have fits : ∀ t ∈ ts, t.Fits s.length := by decide
  have outside : ∃ t ∈ ts ++ [crossed, .reverse 0 8], ¬ t.Fits s.length := ⟨crossed, by simp, by decide⟩
  obtain ⟨after, done, _, cursor, undone⟩ := (transforms_undone s ts).1 fits
  have bits : Transform.onAll? ts s.bits = some (Bits.ofBytes [0x53, 0x2b, 0x1d]) := by decide
  have same : some after.bits = some (Bits.ofBytes [0x53, 0x2b, 0x1d]) := (Storage.applyAll_ok.mp done).1.symm.trans bits
  obtain ⟨front, t, back, _, split, _, misfit, _, _, _, stuck, _⟩ := (transforms_undone s _).2 outside
  have only : ∀ u ∈ ts ++ [crossed, .reverse 0 8], ¬ u.Fits s.length → u = crossed := by decide
  obtain rfl : t = crossed := only t (by simp [split]) misfit
  exact ⟨fits, ⟨after, done, Option.some.inj same, cursor, undone⟩, outside, stuck⟩

end BitTemplate
