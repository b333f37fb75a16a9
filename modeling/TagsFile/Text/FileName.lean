import TagsFile.Text.CodePoint
import TagsFile.Text.Utf8

/-!
# Texts as names of files

A file system knows names as bytes. A text stands for its UTF-8 bytes, and for the sake of names
whose bytes are no UTF-8 the code points from U+DC80 to U+DCFF stand for the single bytes from 0x80
to 0xFF. The other halves of surrogate pairs stand for no bytes at all.

## Main definitions

* `fileBytes?`: the bytes of a text, if it has any.
* `ofFileBytes`: the text that is read off some bytes.
* `asFileName?`: the text that a name has once it has been given to the file system.
-/

namespace TagsFile

/-- The bytes that a code point stands for in a name. -/
def CodePoint.fileBytes? : CodePoint → Option (List UInt8)
  | .char c => some (String.utf8EncodeChar c)
  | .surrogate n => if 0x480 ≤ n.val ∧ n.val < 0x500 then some [UInt8.ofNat (n - 0x400)] else none

/-- The code point that stands for a byte which belongs to no character. -/
def CodePoint.ofStrayByte (b : UInt8) : CodePoint :=
  .surrogate ⟨0x400 + b.toNat, by have := b.toNat_lt; omega⟩

namespace Text

/-- The bytes that a text stands for as the name or the path of a file. -/
def fileBytes? (t : Text) : Option (List UInt8) := (t.mapM CodePoint.fileBytes?).map List.flatten

/-- How many bytes a text has as a name or a path. -/
def fileLength (t : Text) : Nat := t.fileBytes?.elim 0 List.length

/-- The text of a name with the given bytes: the characters that they encode, and a code point of
its own for each byte that is in none. -/
def ofFileBytes : List UInt8 → Text
  | [] => []
  | b :: bytes =>
    match (Utf8.step b bytes).1 with
    | some c => .char c :: ofFileBytes (Utf8.step b bytes).2
    | none => .ofStrayByte b :: ofFileBytes bytes
termination_by bytes => bytes.length
decreasing_by all_goals have := Utf8.length_step b bytes; grind

/-- The text that a name has once it has been given to the file system. -/
def asFileName? (t : Text) : Option Text := t.fileBytes?.map ofFileBytes

end Text
end TagsFile
