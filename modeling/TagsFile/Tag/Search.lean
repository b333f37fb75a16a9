import TagsFile.Text.CodePoint

/-!
# Search commands

A tag locates its declaration by an editor command that searches for a pattern and leaves the
editor's own search pattern as it was.
-/

namespace TagsFile

/-- Puts `replacement` for every `c`. -/
def replacePoint (c : CodePoint) (replacement t : Text) : Text :=
  t.flatMap fun d => if d = c then replacement else [d]

/-- What is replaced in a pattern, one after the other. The backslash comes first, or it would
double those of the later ones. -/
def patternEscapes : List (CodePoint × Text) :=
  [(.char '\\', "\\\\"), (.char '$', "\\$"), (.char '^', "\\^"), (.char '\n', ";")]

/-- Escapes a pattern; line breaks become semicolons. -/
def escapePattern (pattern : Text) : Text :=
  patternEscapes.foldl (fun t (c, replacement) => replacePoint c replacement t) pattern

/-- The command that finds the pattern. -/
def searchCommand (pattern : Text) : Text :=
  "let _s=@/ | /" ++ escapePattern pattern ++ "/; | let @/=_s\";\""

end TagsFile
