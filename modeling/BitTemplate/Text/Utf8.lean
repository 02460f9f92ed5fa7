/-!
UTF-8 bytes as text. Each longest run of bytes that starts a character and breaks off is read as one replacement
character, and so is each byte that starts none.
-/

namespace BitTemplate.Text

/-- What a lead byte announces: the high bits of its code point and the range of each byte that has to follow. -/
def announced? (lead : Nat) : Option (Nat × List (Nat × Nat)) :=
  if lead < 0x80 then some (lead, [])
  else if 0xc2 ≤ lead ∧ lead ≤ 0xdf then some (lead % 0x20, [(0x80, 0xbf)])
  else if lead = 0xe0 then some (0, [(0xa0, 0xbf), (0x80, 0xbf)])
  else if lead = 0xed then some (0xd, [(0x80, 0x9f), (0x80, 0xbf)])
  else if 0xe1 ≤ lead ∧ lead ≤ 0xef then some (lead % 0x10, [(0x80, 0xbf), (0x80, 0xbf)])
  else if lead = 0xf0 then some (0, [(0x90, 0xbf), (0x80, 0xbf), (0x80, 0xbf)])
  else if 0xf1 ≤ lead ∧ lead ≤ 0xf3 then some (lead % 0x8, [(0x80, 0xbf), (0x80, 0xbf), (0x80, 0xbf)])
  else if lead = 0xf4 then some (4, [(0x80, 0x8f), (0x80, 0xbf), (0x80, 0xbf)])
  else none

/-- The character that stands for bytes which are no text. -/
def replacement : Char :=
  Char.ofNat 0xfffd

/-- The character that the announced bytes complete, and the bytes after it or after the point where it breaks off. -/
def complete (code : Nat) : List (Nat × Nat) → List UInt8 → Char × List UInt8
  | [], rest => (Char.ofNat code, rest)
  | _ :: _, [] => (replacement, [])
  | (low, high) :: ranges, byte :: rest =>
    if low ≤ byte.toNat ∧ byte.toNat ≤ high then complete (code * 0x40 + byte.toNat % 0x40) ranges rest
    else (replacement, byte :: rest)

theorem length_complete_le (code : Nat) (ranges : List (Nat × Nat)) (bytes : List UInt8) :
    (complete code ranges bytes).2.length ≤ bytes.length := by
  fun_induction complete code ranges bytes with
  | case1 | case2 | case4 => exact Nat.le_refl _
  | case3 _ _ _ _ _ _ _ ih => exact Nat.le_succ_of_le ih

/-- The text that bytes spell, with replacements where they spell none. -/
def ofUtf8 : List UInt8 → List Char
  | [] => []
  | lead :: rest =>
    match announced? lead.toNat with
    | none => replacement :: ofUtf8 rest
    | some (code, ranges) => (complete code ranges rest).1 :: ofUtf8 (complete code ranges rest).2
  termination_by bytes => bytes.length
  decreasing_by
    · simp
    · exact Nat.lt_succ_of_le (length_complete_le code ranges rest)

/-- The number of bytes that characters take. -/
def utf8Length (text : List Char) : Nat :=
  text.foldl (fun size c => size + c.utf8Size) 0

end BitTemplate.Text
