import TagsFile.Text.CodePoint
import TagsFile.Text.Printable

/-!
# Quoted texts

How a message shows a text: between single quotes, or between double quotes when the text holds
single quotes only, with escapes for the backslash, the quote, the controls and everything that does
not print.
-/

namespace TagsFile.Text

/-- `n` in lower-case hexadecimal with `width` digits. -/
def hex (width n : Nat) : List Char :=
  let digits := Nat.toDigits 16 n
  List.replicate (width - digits.length) '0' ++ digits

/-- A character between quotes of the kind `quote`. -/
def quoteChar (quote c : Char) : List Char :=
  if c = quote || c = '\\' then ['\\', c]
  else if c = '\t' then ['\\', 't']
  else if c = '\n' then ['\\', 'n']
  else if c = '\r' then ['\\', 'r']
  else if isPrintable c then [c]
  else if c.toNat < 0x100 then '\\' :: 'x' :: hex 2 c.toNat
  else if c.toNat < 0x10000 then '\\' :: 'u' :: hex 4 c.toNat
  else '\\' :: 'U' :: hex 8 c.toNat

/-- A code point between quotes of the kind `quote`. -/
def quotePoint (quote : Char) : CodePoint → List Char
  | .char c => quoteChar quote c
  | .surrogate n => '\\' :: 'u' :: hex 4 (CodePoint.surrogate n).toNat

/-- A text between quotes. -/
def quoted (t : Text) : String :=
  let quote := if t.contains (.char '\'') && !t.contains (.char '"') then '"' else '\''
  String.ofList (quote :: t.flatMap (quotePoint quote) ++ [quote])

end TagsFile.Text
