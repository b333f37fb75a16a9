import TagsFile.Number.Decimal
import TagsFile.Text.CodePoint

/-!
# JSON values

JSON documents as they are read: the members of an object keep the order of the document, integers
are unbounded, and a number with a point or an exponent keeps its decimal form. Besides the numbers
of the standard there are the two infinities and the value that is no number.

## Main definitions

* `Json`: the values, with `Json.get?` for the members of an object.
* `Json.items?`: the sequence that a value stands for where one is asked for.
-/

namespace TagsFile

inductive Number where
  | integer (n : Int)
  | decimal (d : Decimal)
  | infinity (negative : Bool)
  | notANumber
deriving DecidableEq, Repr

inductive Json where
  | null
  | bool (b : Bool)
  | number (n : Number)
  | string (s : Text)
  | array (items : List Json)
  | object (members : List (Text × Json))
deriving Repr

namespace Json

instance : Inhabited Json := ⟨.null⟩

/-- The integer `n` as a value. -/
def ofInt (n : Int) : Json := .number (.integer n)

/-- The text, or null if there is none. -/
def ofText? : Option Text → Json
  | none => .null
  | some t => .string t

/-- The value of a member in a list of members. -/
def lookup (key : Text) : List (Text × Json) → Option Json
  | [] => none
  | (k, v) :: rest => if k = key then some v else lookup key rest

/-- The value of a member; values other than objects have none. -/
def get? (key : Text) : Json → Option Json
  | .object members => lookup key members
  | _ => none

/-- Gives a member a value: in place if it is there, else at the end. -/
def put (key : Text) (value : Json) : List (Text × Json) → List (Text × Json)
  | [] => [(key, value)]
  | (k, v) :: rest => if k = key then (k, value) :: rest else (k, v) :: put key value rest

/-- An object from the members of a document: a repeated key keeps its first place and takes its
last value. -/
def ofMembers (members : List (Text × Json)) : Json :=
  .object (members.foldl (fun acc (k, v) => put k v acc) [])

/-- The sequence that a value stands for: the items of an array, the code points of a string, the
keys of an object. -/
def items? : Json → Option (List Json)
  | .array items => some items
  | .string s => some (s.map fun c => .string [c])
  | .object members => some (members.map fun m => .string m.1)
  | _ => none

/-- The text of a string. -/
def string? : Json → Option Text
  | .string s => some s
  | _ => none

/-- Whether a value counts as the number one: an integer, a decimal that stands for one, or true. -/
def isOne : Json → Bool
  | .bool b => b
  | .number (.integer n) => n == 1
  | .number (.decimal d) => d.nearest?.any Binary64.isOne
  | _ => false

end Json
end TagsFile
