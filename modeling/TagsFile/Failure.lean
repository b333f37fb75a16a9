import TagsFile.Json.Writer

/-!
# Failures

The failures that a run reports to its caller: each has a code, a message and details that a program
can read. What a failure is about is told by values that nobody has checked; a message shows them as
literals.

## Main definitions

* `Failure`: what can go wrong.
* `Report`: how it is told, with `Report.toJson` for machines.
-/

namespace TagsFile

/-- An account of a failure. -/
structure Report where
  code : Json
  message : Json
  details : List (Text × Json) := []

/-- The code of a failure that has none of its own. -/
def Report.internalCode : Text := "PTAGS_ERR_INTERNAL"

def Report.toJson (r : Report) : Json :=
  .object [("error", .bool true), ("code", r.code), ("message", r.message),
    ("details", .object r.details)]

inductive Failure where
  /-- A source cannot be read. -/
  | unreadableSource (path reason : Json)
  /-- A cache entry, or the directory that it belongs to, cannot be written. -/
  | unwritableEntry (path reason : Json)
  /-- A directory is given where a file is expected. -/
  | directoryGiven (path : Json)
  /-- There is no grammar to read sources with. -/
  | noGrammar (reason : Json)

namespace Failure

/-- The failure when no grammar is installed. -/
def grammarMissing : Failure := .noGrammar (.string "tree-sitter PHP grammar is not installed")

/-- The path that a failure is about. -/
def path? : Failure → Option Json
  | .unreadableSource path _ | .unwritableEntry path _ | .directoryGiven path => some path
  | .noGrammar _ => none

def message : Failure → Json
  | .unreadableSource path reason =>
    .string ("cannot read " ++ path.literal ++ ": " ++ reason.literal)
  | .unwritableEntry path reason =>
    .string ("cannot write cache entry " ++ path.literal ++ ": " ++ reason.literal)
  | .directoryGiven path => .string (path.literal ++ " is a directory, maybe try -R?")
  | .noGrammar reason => reason

def code : Failure → Text
  | .unreadableSource _ _ => "PTAGS_ERR_SOURCE"
  | .unwritableEntry _ _ => "PTAGS_ERR_CACHE"
  | .directoryGiven _ => "PTAGS_ERR_DIRECTORY"
  | .noGrammar _ => "PTAGS_ERR_LEXER"

/-- What to do about a failure. -/
def hint? : Failure → Option Text
  | .directoryGiven _ => some "-R"
  | .noGrammar _ => some "pip install tree-sitter tree-sitter-php"
  | _ => none

def report (f : Failure) : Report where
  code := .string f.code
  message := f.message
  details :=
    (f.path?.map fun path => (Text.ofString "file", path)).toList ++
      (f.hint?.map fun hint => (Text.ofString "hint", Json.string hint)).toList

end Failure
end TagsFile
