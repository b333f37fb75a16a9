import TagsFile.Json.Basic
import TagsFile.Number.Shortest
import TagsFile.Text.Quoted

/-!
# Writing JSON

Two ways to write a value. `Json.render` is the compact document form: ASCII only, no blanks,
members in their order, and everything outside ASCII as `\uXXXX`, above U+FFFF as a surrogate pair.
`Json.literal` is the form in which a value stands in the middle of a line of text.
-/

namespace TagsFile

namespace Number

/-- A number in a document. -/
def render : Number → String
  | .integer n => toString n
  | .decimal d =>
    match d.nearest? with
    | some x => x.text
    | none => if d.negative then "-Infinity" else "Infinity"
  | .infinity negative => if negative then "-Infinity" else "Infinity"
  | .notANumber => "NaN"

/-- A number in the middle of a line of text. -/
def literal : Number → String
  | .integer n => toString n
  | .decimal d =>
    match d.nearest? with
    | some x => x.text
    | none => if d.negative then "-inf" else "inf"
  | .infinity negative => if negative then "-inf" else "inf"
  | .notANumber => "nan"

end Number

namespace Json

/-- The escape of one code unit. -/
def unit (n : Nat) : List Char := '\\' :: 'u' :: Text.hex 4 n

/-- A character inside a string of a document. -/
def escapeChar (c : Char) : List Char :=
  if c = '"' then ['\\', '"']
  else if c = '\\' then ['\\', '\\']
  else if c = '\n' then ['\\', 'n']
  else if c = '\r' then ['\\', 'r']
  else if c = '\t' then ['\\', 't']
  else if c = '\x08' then ['\\', 'b']
  else if c = '\x0c' then ['\\', 'f']
  else if 0x20 ≤ c.toNat && c.toNat < 0x7f then [c]
  else if c.toNat < 0x10000 then unit c.toNat
  else
    let n := c.toNat - 0x10000
    unit (0xD800 + n / 0x400) ++ unit (0xDC00 + n % 0x400)

/-- A code point inside a string of a document. -/
def escapePoint : CodePoint → List Char
  | .char c => escapeChar c
  | .surrogate n => unit (CodePoint.surrogate n).toNat

/-- A string of a document. -/
def renderString (s : Text) : List Char :=
  '"' :: s.flatMap escapePoint ++ ['"']

mutual

/-- A value as the characters of a document. -/
def renderValue : Json → List Char
  | .null => "null".toList
  | .bool true => "true".toList
  | .bool false => "false".toList
  | .number n => n.render.toList
  | .string s => renderString s
  | .array items => '[' :: renderItems items ++ [']']
  | .object members => '\x7b' :: renderMembers members ++ ['\x7d']

def renderItems : List Json → List Char
  | [] => []
  | [v] => renderValue v
  | v :: rest => renderValue v ++ ',' :: renderItems rest

def renderMembers : List (Text × Json) → List Char
  | [] => []
  | [(k, v)] => renderString k ++ ':' :: renderValue v
  | (k, v) :: rest => renderString k ++ ':' :: renderValue v ++ ',' :: renderMembers rest

end

/-- A value as a compact document. -/
def render (v : Json) : String := String.ofList v.renderValue

mutual

/-- A value as an item of a literal: strings are quoted. -/
def literalItem : Json → String
  | .null => "None"
  | .bool true => "True"
  | .bool false => "False"
  | .number n => n.literal
  | .string s => Text.quoted s
  | .array items => "[" ++ ", ".intercalate (literalItems items) ++ "]"
  | .object members => "\x7b" ++ ", ".intercalate (literalMembers members) ++ "\x7d"

def literalItems : List Json → List String
  | [] => []
  | v :: rest => literalItem v :: literalItems rest

def literalMembers : List (Text × Json) → List String
  | [] => []
  | (k, v) :: rest => (Text.quoted k ++ ": " ++ literalItem v) :: literalMembers rest

end

/-- A value in the middle of a line of text: a string as it is, anything else as a literal. -/
def literal : Json → Text
  | .string s => s
  | v => literalItem v

end Json
end TagsFile
