/-!
# UTF-8

Texts as bytes and back. Decoding comes in two forms: `decode?` refuses ill-formed bytes, and
`decodeLossy` puts U+FFFD for each maximal part of a character that its continuation breaks off.

## Main definitions

* `step`: the first character of a byte list, or the ill-formed part in its place.
* `decodeLossy`, `decode?`, `encode`.
-/

namespace TagsFile.Text.Utf8

/-- What a first byte above 0x7F announces: how many bytes follow, between which bounds the next of
them lies, and the bits that it carries itself. -/
structure Lead where
  more : Nat
  low : UInt8
  high : UInt8
  bits : Nat

/-- The announcement of a first byte; none for a byte that starts no character. -/
def lead? (b : UInt8) : Option Lead :=
  let n := b.toNat
  if n < 0xC2 then none
  else if n < 0xE0 then some ⟨1, 0x80, 0xBF, n - 0xC0⟩
  else if n = 0xE0 then some ⟨2, 0xA0, 0xBF, 0⟩
  else if n = 0xED then some ⟨2, 0x80, 0x9F, 0xD⟩
  else if n < 0xF0 then some ⟨2, 0x80, 0xBF, n - 0xE0⟩
  else if n = 0xF0 then some ⟨3, 0x90, 0xBF, 0⟩
  else if n < 0xF4 then some ⟨3, 0x80, 0xBF, n - 0xF0⟩
  else if n = 0xF4 then some ⟨3, 0x80, 0x8F, 4⟩
  else none

/-- Reads `more` continuation bytes, the first of them between `low` and `high`. The character is
missing when a byte does not fit, and that byte stays. -/
def continuation : (more : Nat) → (low high : UInt8) → (bits : Nat) → List UInt8 →
    Option Char × List UInt8
  | 0, _, _, bits, bytes => (some (Char.ofNat bits), bytes)
  | more + 1, low, high, bits, b :: bytes =>
    if low ≤ b && b ≤ high then
      continuation more 0x80 0xBF (bits * 64 + (b.toNat - 0x80)) bytes
    else (none, b :: bytes)
  | _ + 1, _, _, _, [] => (none, [])

/-- The character at the front of `b :: bytes` with what follows it; no character when the bytes are
ill-formed, and then one maximal part of a character is gone. -/
def step (b : UInt8) (bytes : List UInt8) : Option Char × List UInt8 :=
  if b < 0x80 then (some (Char.ofNat b.toNat), bytes)
  else
    match lead? b with
    | none => (none, bytes)
    | some l => continuation l.more l.low l.high l.bits bytes

theorem length_continuation (more : Nat) (low high : UInt8) (bits : Nat) (bytes : List UInt8) :
    (continuation more low high bits bytes).2.length ≤ bytes.length := by
  fun_induction continuation more low high bits bytes <;> grind

theorem length_step (b : UInt8) (bytes : List UInt8) : (step b bytes).2.length ≤ bytes.length := by
  unfold step
  split
  · exact Nat.le_refl _
  · split
    · exact Nat.le_refl _
    · exact length_continuation ..

/-- Decodes with U+FFFD in place of each ill-formed part. -/
def decodeLossy : List UInt8 → List Char
  | [] => []
  | b :: bytes => (step b bytes).1.getD '�' :: decodeLossy (step b bytes).2
termination_by bytes => bytes.length
decreasing_by have := length_step b bytes; grind

/-- Decodes well-formed bytes. -/
def decode? : List UInt8 → Option (List Char)
  | [] => some []
  | b :: bytes =>
    match (step b bytes).1 with
    | none => none
    | some c => (decode? (step b bytes).2).map (c :: ·)
termination_by bytes => bytes.length
decreasing_by have := length_step b bytes; grind

/-- The bytes of a text. -/
def encode (s : String) : List UInt8 := s.toList.flatMap String.utf8EncodeChar

end TagsFile.Text.Utf8
