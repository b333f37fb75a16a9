import TagsFile.Json.Writer
import TagsFile.Path.Relative

/-!
# Tags

A tag describes one declaration. What its texts and its line are is left open: the tags of a source
have texts and a number, while nobody has checked those of a cache entry or of a caller, which are
any values.

## Main definitions

* `Tag`, `TagKind`, with `SourceTag` and `RawTag`.
* `Tag.fields`: the columns of a tag's line.
* `Tag.lineFrom`: the line of a tag in a tags file.
-/

namespace TagsFile

inductive TagKind where
  | namespaceDecl
  | interfaceDecl
  | classDecl
  | functionDecl
  | constantDecl
  | propertyDecl
deriving DecidableEq, Repr

namespace TagKind

def letter : TagKind → String
  | .namespaceDecl => "n"
  | .interfaceDecl => "i"
  | .classDecl => "c"
  | .functionDecl => "f"
  | .constantDecl => "d"
  | .propertyDecl => "v"

def ofLetter? : String → Option TagKind
  | "n" => some .namespaceDecl
  | "i" => some .interfaceDecl
  | "c" => some .classDecl
  | "f" => some .functionDecl
  | "d" => some .constantDecl
  | "v" => some .propertyDecl
  | _ => none

@[simp] theorem ofLetter?_letter (k : TagKind) : ofLetter? k.letter = some k := by
  cases k <;> rfl

end TagKind

/-- A tag with texts in `α` and a line in `ν`. -/
structure Tag (α ν : Type) where
  name : α
  path : α
  pattern : α
  kind : TagKind
  line : ν
  scope : Option α
  extras : List α
  access : Option α
deriving DecidableEq, Repr

/-- A tag of a source. -/
abbrev SourceTag := Tag Text Int

/-- A tag that nobody has checked. -/
abbrev RawTag := Tag Json Json

/-- Why a tag cannot be printed. -/
inductive PrintFault where
  | pathNotText
  | columnNotText
deriving DecidableEq, Repr

namespace Tag

/-- The same tag with other texts and another line. -/
def map (f : α → β) (g : ν → μ) (t : Tag α ν) : Tag β μ where
  name := f t.name
  path := f t.path
  pattern := f t.pattern
  kind := t.kind
  line := g t.line
  scope := t.scope.map f
  extras := t.extras.map f
  access := t.access.map f

/-- The tag of a source as an unchecked one. -/
def raw (t : SourceTag) : RawTag := t.map .string .ofInt

/-- The columns of a tag's line, with `path` for the path of its file. The line and the access are
written as literals whatever they are; the other columns are taken as they are. -/
def fields (t : RawTag) (path : Json) : List Json :=
  [t.name, path, t.pattern, .string t.kind.letter, .string ("lineno:" ++ t.line.literal)] ++
    t.scope.toList ++ t.extras ++ (t.access.map fun a => .string ("access:" ++ a.literal)).toList

/-- Columns as one line. -/
def joinColumns (columns : List Json) : Except PrintFault Text :=
  match columns.mapM Json.string? with
  | some texts => .ok (Text.join "\t" texts)
  | none => .error .columnNotText

/-- The line of a tag in a file whose paths are seen from `base`. The path is looked at before the
other columns. -/
def lineFrom (base : Text) (t : RawTag) : Except PrintFault Text :=
  match t.path with
  | .string path => joinColumns (t.fields (.string (relativePath base path)))
  | _ => .error .pathNotText

end Tag
end TagsFile
