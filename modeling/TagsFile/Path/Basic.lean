import TagsFile.Text.CodePoint

/-!
# Paths as texts

A path is read off its text without looking at any file: empty components and `.` vanish, `..`
stays, and the empty text is the path `.`. Exactly two slashes at the front are kept apart from one.

## Main definitions

* `Path.ofText`, `Path.text`: between a path and its text.
* `Path.join`, `Path.parent`, `Path.name`, `suffixOf`.
* `Path.absolute`: the path from the root, with every `..` taken back by the component before it.
-/

namespace TagsFile

/-- Splits at every `mark`; the pieces between marks may be empty. -/
def splitAtEach [DecidableEq α] (mark : α) : List α → List (List α)
  | [] => [[]]
  | c :: cs =>
    if c = mark then [] :: splitAtEach mark cs
    else
      match splitAtEach mark cs with
      | [] => [[c]]
      | piece :: rest => (c :: piece) :: rest

/-- The pieces of a text between its slashes. -/
def pieces (t : Text) : List Text := splitAtEach (.char '/') t

/-- Whether the path in a text starts at the root. -/
def startsAtRoot (t : Text) : Bool := t.head? = some (.char '/')

/-- Drops the slashes at the end. -/
def dropSlashes (t : Text) : Text := (t.reverse.dropWhile (· = .char '/')).reverse

/-- What a path starts from. -/
inductive Anchor where
  | here
  | root
  | twoSlashes
deriving DecidableEq, Repr

structure Path where
  anchor : Anchor
  parts : List Text
deriving DecidableEq, Repr

namespace Path

/-- The anchor that the slashes at the front of a text give it. -/
def anchorOf (t : Text) : Anchor :=
  match (t.takeWhile (· = .char '/')).length with
  | 0 => .here
  | 2 => .twoSlashes
  | _ => .root

def ofText (t : Text) : Path where
  anchor := anchorOf t
  parts := (pieces t).filter fun p => p ≠ "" && p ≠ "."

/-- The slashes at the front of a path's text. -/
def anchorText : Anchor → Text
  | .here => ""
  | .root => "/"
  | .twoSlashes => "//"

def text (p : Path) : Text :=
  let t := anchorText p.anchor ++ Text.join "/" p.parts
  if t = "" then "." else t

def isAbsolute (p : Path) : Bool := p.anchor ≠ .here

/-- The path `q` seen from `p`. -/
def join (p q : Path) : Path :=
  if q.isAbsolute then q else ⟨p.anchor, p.parts ++ q.parts⟩

/-- The path of the entry `name` below `p`. -/
def child (p : Path) (name : Text) : Path := p.join (ofText name)

def parent (p : Path) : Path := ⟨p.anchor, p.parts.dropLast⟩

/-- The last component, empty if there is none. -/
def name (p : Path) : Text := p.parts.getLast?.getD ""

/-- The path without its anchor. -/
def relative (p : Path) : Path := ⟨.here, p.parts⟩

/-- One component of a path that is being made absolute, on the components so far, last one first.
-/
def pushPart (above : List Text) (part : Text) : List Text :=
  if part = ".." then above.tail else part :: above

/-- The path from the root, seen from the directory with the components `here`. -/
def absolute (here : List Text) (p : Path) : Path :=
  let start := if p.isAbsolute then [] else here
  ⟨if p.isAbsolute then p.anchor else .root, (p.parts.foldl pushPart start.reverse).reverse⟩

end Path

/-- The last dot of a name with what follows it, unless the dot is the first or the last code point.
-/
def suffixOf (name : Text) : Text :=
  let tail := (name.reverse.takeWhile (· ≠ .char '.')).reverse
  if tail = [] || name.length ≤ tail.length + 1 then "" else .char '.' :: tail

end TagsFile
