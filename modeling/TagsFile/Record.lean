import TagsFile.Number.Integer
import TagsFile.Tag.Basic

/-!
# Records

The tags of one source as a cache entry holds them: an object with a format, a version, the path of
the source and its tags. Reading checks the shape, the kinds and the lines; all texts are taken as
they are.

## Main definitions

* `Record`, `Record.toJson`.
* `Record.ofJson`: the record that a value stands for, or the first fault.
-/

namespace TagsFile

/-- The tags of a source. A record is valid when its tags are those of an entry. -/
structure Record where
  path : Json
  valid : Bool := false
  tags : List RawTag := []

/-- Why a value is no record. -/
inductive RecordFault where
  | notObject
  | unsupported (format version : Json)
  | missing (key : String)
  | tagsNotSequence
  | tagNotObject
  | unknownKind
  /-- The line is a text or a number that is no integer. -/
  | lineNotInteger
  | lineInfinite
  /-- The line is neither a text nor a number. -/
  | lineNotNumber
  | extrasNotSequence

namespace Record

def format : String := "ptags-cache"

def version : Int := 1

/-! ## Writing -/

def tagToJson (t : RawTag) : Json :=
  .object [("name", t.name), ("path", t.path), ("pattern", t.pattern),
    ("kind", .string t.kind.letter), ("line", t.line), ("scope", t.scope.getD .null),
    ("extras", .array t.extras), ("access", t.access.getD .null)]

def toJson (r : Record) : Json :=
  .object [("format", .string format), ("version", .ofInt version), ("file_path", r.path),
    ("tags", .array (r.tags.map tagToJson))]

/-! ## Reading -/

def require (key : String) (members : List (Text × Json)) : Except RecordFault Json :=
  match Json.lookup key members with
  | some v => .ok v
  | none => .error (.missing key)

/-- A member, none if it is missing or null. -/
def optional (key : String) (members : List (Text × Json)) : Option Json :=
  match Json.lookup key members with
  | some .null => none
  | v => v

def kind : Json → Except RecordFault TagKind
  | .string s =>
    match s.toString?.bind TagKind.ofLetter? with
    | some k => .ok k
    | none => .error .unknownKind
  | _ => .error .unknownKind

/-- The line that a value stands for: numbers lose their fraction, and texts are read as integers.
-/
def line : Json → Except RecordFault Int
  | .bool b => .ok (if b then 1 else 0)
  | .number (.integer n) => .ok n
  | .number (.decimal d) =>
    match d.nearest? with
    | some x => .ok x.truncate
    | none => .error .lineInfinite
  | .number (.infinity _) => .error .lineInfinite
  | .number .notANumber => .error .lineNotInteger
  | .string s =>
    match s.toString?.bind Integer.read? with
    | some n => .ok n
    | none => .error .lineNotInteger
  | _ => .error .lineNotNumber

def extras (members : List (Text × Json)) : Except RecordFault (List Json) :=
  match Json.lookup "extras" members with
  | none => .ok []
  | some v =>
    match v.items? with
    | some items => .ok items
    | none => .error .extrasNotSequence

def tagOfMembers (members : List (Text × Json)) : Except RecordFault RawTag := do
  let name ← require "name" members
  let path ← require "path" members
  let pattern ← require "pattern" members
  let kind ← kind (← require "kind" members)
  let line ← line (← require "line" members)
  let scope := optional "scope" members
  let extras ← extras members
  return { name, path, pattern, kind, line := .ofInt line, scope, extras,
           access := optional "access" members }

def tagOfJson : Json → Except RecordFault RawTag
  | .object members => tagOfMembers members
  | _ => .error .tagNotObject

def tagsOfMembers (members : List (Text × Json)) : Except RecordFault (List RawTag) :=
  match Json.lookup "tags" members with
  | none => .ok []
  | some v =>
    match v.items? with
    | some items => items.mapM tagOfJson
    | none => .error .tagsNotSequence

/-- Whether the members tell the format and the version that are supported. -/
def isSupported (members : List (Text × Json)) : Bool :=
  ((Json.lookup "format" members).bind Json.string?) = some (Text.ofString format) &&
    (Json.lookup "version" members).any Json.isOne

/-- The record that a value stands for. -/
def ofJson : Json → Except RecordFault Record
  | .object members =>
    if isSupported members then do
      let path ← require "file_path" members
      return { path, valid := true, tags := ← tagsOfMembers members }
    else
      .error (.unsupported ((Json.lookup "format" members).getD .null)
        ((Json.lookup "version" members).getD .null))
  | _ => .error .notObject

end Record
end TagsFile
