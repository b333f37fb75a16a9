import TagsFile.Text.CodePoint
import TagsFile.Text.Ranges

/-!
# Blank characters

White space in the sense of Unicode 14, and the collapsing of its runs.
-/

namespace TagsFile.Text

def blankRanges : Ranges :=
  [(0x9, 0xD), (0x1C, 0x20), (0x85, 0x85), (0xA0, 0xA0), (0x1680, 0x1680), (0x2000, 0x200A),
   (0x2028, 0x2029), (0x202F, 0x202F), (0x205F, 0x205F), (0x3000, 0x3000)]

/-- Holds of white space, the four information separators included. -/
def isBlank (c : Char) : Bool := blankRanges.contains c

/-- Replaces every maximal run of blanks by one space; `inRun` says that the previous code point was
one. -/
def collapse (inRun : Bool) : Text → Text
  | [] => []
  | c :: rest =>
    if c.satisfies isBlank then
      if inRun then collapse true rest else .char ' ' :: collapse true rest
    else c :: collapse false rest

/-- Replaces every maximal run of blanks by one space. -/
def collapseBlanks (t : Text) : Text := collapse false t

end TagsFile.Text
