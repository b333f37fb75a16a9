import TagsFile.Text.Case
import TagsFile.Text.CodePoint

/-!
# Lower-casing

Full Unicode lower-casing of a text. It works character by character, with two exceptions: the
capital I with a dot becomes two characters, and a capital sigma that ends a word becomes the final
small sigma.
-/

namespace TagsFile.Text

/-- The small letter of a capital, and any other character itself. -/
def smallLetter (c : Char) : Char :=
  let n := c.toNat
  match capitalRuns.find? fun r => r.first ≤ n && n ≤ r.last && (n - r.first) % r.step == 0 with
  | some r => Char.ofNat (n + r.offset).toNat
  | none => c

/-- Whether the first character that counts for case is cased. -/
def startsCased (cs : List Char) : Bool :=
  (cs.find? fun c => !isCaseIgnorable c).any isCased

/-- The lower case of some characters that have `before`, last one first, in front of them. -/
def lowerFrom (before : List Char) : List Char → List Char
  | [] => []
  | c :: rest =>
    let small :=
      if c = 'Σ' then
        [if startsCased before && !startsCased rest then 'ς' else 'σ']
      else if c = 'İ' then ['i', '\u0307']
      else [smallLetter c]
    small ++ lowerFrom (c :: before) rest

/-- The lower case of a text that follows the characters in `run`, last one first. Half of a
surrogate pair has no case and ends a word. -/
def lowerRun (run : List Char) : Text → Text
  | [] => (lowerFrom [] run.reverse).map .char
  | .char c :: rest => lowerRun (c :: run) rest
  | .surrogate n :: rest =>
    (lowerFrom [] run.reverse).map .char ++ .surrogate n :: lowerRun [] rest

/-- The lower case of a text. -/
def lower (t : Text) : Text := lowerRun [] t

end TagsFile.Text
