import TagsFile.Json.Basic
import TagsFile.Number.Integer

/-!
# Reading JSON

The reader takes the standard's documents and the three words `NaN`, `Infinity` and `-Infinity`. It
refuses what the standard refuses, integers of more than `Integer.maxDigits` digits, and more arrays
and objects inside each other than it is given a depth for.

## Main definitions

* `Json.readWithin`: the value of a document, or the first fault in it.
-/

namespace TagsFile.Json

/-- What stops the reader. -/
inductive ReadFault where
  | malformed
  | integerTooLong
  | tooDeep
deriving DecidableEq, Repr

/-- A value with the rest of the document. -/
abbrev Reading (α : Type) := Except ReadFault (α × List Char)

def isSpace (c : Char) : Bool := c = ' ' || c = '\t' || c = '\n' || c = '\r'

def isAsciiDigit (c : Char) : Bool := '0' ≤ c && c ≤ '9'

/-- Drops blanks. -/
def skipSpace (cs : List Char) : List Char := cs.dropWhile isSpace

/-! ## Strings -/

def hexValue? (c : Char) : Option Nat :=
  if '0' ≤ c && c ≤ '9' then some (c.toNat - '0'.toNat)
  else if 'a' ≤ c && c ≤ 'f' then some (c.toNat - 'a'.toNat + 10)
  else if 'A' ≤ c && c ≤ 'F' then some (c.toNat - 'A'.toNat + 10)
  else none

/-- The code unit of four hexadecimal digits. -/
def unit? (a b c d : Char) : Option Nat :=
  match hexValue? a, hexValue? b, hexValue? c, hexValue? d with
  | some a, some b, some c, some d => some (((a * 16 + b) * 16 + c) * 16 + d)
  | _, _, _, _ => none

/-- The character of an escape by one letter. -/
def escaped? : Char → Option Char
  | '"' => some '"'
  | '\\' => some '\\'
  | '/' => some '/'
  | 'b' => some '\x08'
  | 'f' => some '\x0c'
  | 'n' => some '\n'
  | 'r' => some '\r'
  | 't' => some '\t'
  | _ => none

/-- The units of a string up to its closing quote: code points, and the halves of surrogate pairs
that are written as escapes. -/
def readUnits : List Char → Reading (List Nat)
  | [] => .error .malformed
  | '"' :: rest => .ok ([], rest)
  | '\\' :: 'u' :: a :: b :: c :: d :: rest =>
    match unit? a b c d with
    | none => .error .malformed
    | some n => (readUnits rest).map fun (units, rest) => (n :: units, rest)
  | '\\' :: c :: rest =>
    match escaped? c with
    | none => .error .malformed
    | some c => (readUnits rest).map fun (units, rest) => (c.toNat :: units, rest)
  | c :: rest =>
    if c = '\\' || c.toNat < 0x20 then .error .malformed
    else (readUnits rest).map fun (units, rest) => (c.toNat :: units, rest)

def isHighSurrogate (n : Nat) : Bool := 0xD800 ≤ n && n < 0xDC00
def isLowSurrogate (n : Nat) : Bool := 0xDC00 ≤ n && n < 0xE000

/-- The code points of some units, with the halves of pairs joined. -/
def joinUnits : List Nat → Text
  | [] => []
  | [n] => [.ofNat n]
  | n :: m :: rest =>
    if isHighSurrogate n && isLowSurrogate m then
      .ofNat (0x10000 + (n - 0xD800) * 0x400 + (m - 0xDC00)) :: joinUnits rest
    else .ofNat n :: joinUnits (m :: rest)

/-- A string after its opening quote. -/
def readString (cs : List Char) : Reading Text :=
  (readUnits cs).map fun (units, rest) => (joinUnits units, rest)

/-! ## Numbers -/

/-- The value of a run of ASCII digits. -/
def digitsValue (cs : List Char) : Nat := Integer.ofDigits (cs.map fun c => c.toNat - '0'.toNat)

/-- Digits without a leading zero, or a single zero. -/
def integerDigits? : List Char → Option (List Char × List Char)
  | '0' :: rest => some (['0'], rest)
  | cs =>
    let digits := cs.takeWhile isAsciiDigit
    if digits = [] then none else some (digits, cs.dropWhile isAsciiDigit)

/-- The digits after a point; none if no digit follows it. -/
def fractionDigits? : List Char → Option (List Char × List Char)
  | '.' :: cs =>
    let digits := cs.takeWhile isAsciiDigit
    if digits = [] then none else some (digits, cs.dropWhile isAsciiDigit)
  | _ => none

/-- The sign of an exponent. -/
def exponentSign : List Char → Bool × List Char
  | '-' :: cs => (true, cs)
  | '+' :: cs => (false, cs)
  | cs => (false, cs)

/-- An exponent; none if no digit follows the mark. -/
def exponent? : List Char → Option (Int × List Char)
  | c :: cs =>
    if c = 'e' || c = 'E' then
      let (negative, cs) := exponentSign cs
      let digits := cs.takeWhile isAsciiDigit
      if digits = [] then none
      else
        let n : Int := digitsValue digits
        some (if negative then -n else n, cs.dropWhile isAsciiDigit)
    else none
  | [] => none

/-- A number after its sign. -/
def readNumber (negative : Bool) (cs : List Char) : Reading Json :=
  match integerDigits? cs with
  | none => .error .malformed
  | some (whole, rest) =>
    let fraction := fractionDigits? rest
    let (places, rest) := fraction.getD ([], rest)
    let power := exponent? rest
    let (e, rest) := power.getD (0, rest)
    if fraction.isNone && power.isNone then
      if Integer.maxDigits < whole.length then .error .integerTooLong
      else
        let n : Int := digitsValue whole
        .ok (.ofInt (if negative then -n else n), rest)
    else
      .ok (.number (.decimal ⟨negative, digitsValue (whole ++ places), e - places.length⟩), rest)

/-! ## Values -/

/-- The rest of the document after `word`. -/
def afterWord? : (word : List Char) → List Char → Option (List Char)
  | [], cs => some cs
  | w :: word, c :: cs => if w = c then afterWord? word cs else none
  | _ :: _, [] => none

/-- A word that stands for a value. -/
def readWord (word : String) (value : Json) (cs : List Char) : Reading Json :=
  match afterWord? word.toList cs with
  | some rest => .ok (value, rest)
  | none => .error .malformed

/-- A number, an infinity or the value that is no number, at the front of `c :: cs`. -/
def readNumeric (c : Char) (cs : List Char) : Reading Json :=
  if c = '-' then
    match afterWord? "Infinity".toList cs with
    | some rest => .ok (.number (.infinity true), rest)
    | none => readNumber true cs
  else if c = 'I' then readWord "Infinity" (.number (.infinity false)) (c :: cs)
  else if c = 'N' then readWord "NaN" (.number .notANumber) (c :: cs)
  else readNumber false (c :: cs)

/-- The items of an array up to its closing bracket, at least one and at most `size`; each of them
is read by `item`. -/
def readItems (item : List Char → Reading Json) : (size : Nat) → List Char → Reading (List Json)
  | 0, _ => .error .malformed
  | size + 1, cs =>
    match item cs with
    | .error e => .error e
    | .ok (v, rest) =>
      match skipSpace rest with
      | ']' :: rest => .ok ([v], rest)
      | ',' :: rest =>
        match readItems item size (skipSpace rest) with
        | .error e => .error e
        | .ok (items, rest) => .ok (v :: items, rest)
      | _ => .error .malformed

/-- An array after its opening bracket. -/
def readArray (item : List Char → Reading Json) (size : Nat) (cs : List Char) : Reading Json :=
  match skipSpace cs with
  | ']' :: rest => .ok (.array [], rest)
  | cs =>
    match readItems item size cs with
    | .error e => .error e
    | .ok (items, rest) => .ok (.array items, rest)

/-- The key of a member with the colon after it. -/
def readKey : List Char → Reading Text
  | '"' :: cs =>
    match readString cs with
    | .error e => .error e
    | .ok (key, rest) =>
      match skipSpace rest with
      | ':' :: rest => .ok (key, skipSpace rest)
      | _ => .error .malformed
  | _ => .error .malformed

/-- The members of an object up to its closing brace, at least one and at most `size`; the value of
each of them is read by `item`. -/
def readMembers (item : List Char → Reading Json) :
    (size : Nat) → List Char → Reading (List (Text × Json))
  | 0, _ => .error .malformed
  | size + 1, cs =>
    match readKey cs with
    | .error e => .error e
    | .ok (key, rest) =>
      match item rest with
      | .error e => .error e
      | .ok (v, rest) =>
        match skipSpace rest with
        | '\x7d' :: rest => .ok ([(key, v)], rest)
        | ',' :: rest =>
          match readMembers item size (skipSpace rest) with
          | .error e => .error e
          | .ok (members, rest) => .ok ((key, v) :: members, rest)
        | _ => .error .malformed

/-- An object after its opening brace. -/
def readObject (item : List Char → Reading Json) (size : Nat) (cs : List Char) : Reading Json :=
  match skipSpace cs with
  | '\x7d' :: rest => .ok (.object [], rest)
  | cs =>
    match readMembers item size cs with
    | .error e => .error e
    | .ok (members, rest) => .ok (ofMembers members, rest)

/-- A value that is neither an array nor an object, at the front of `c :: cs`. -/
def readScalar (c : Char) (cs : List Char) : Reading Json :=
  if c = '"' then
    match readString cs with
    | .error e => .error e
    | .ok (s, rest) => .ok (.string s, rest)
  else if c = 'n' then readWord "null" .null (c :: cs)
  else if c = 't' then readWord "true" (.bool true) (c :: cs)
  else if c = 'f' then readWord "false" (.bool false) (c :: cs)
  else readNumeric c cs

/-- A value at the front of a document of at most `size` characters, with at most `depth` arrays and
objects inside each other. -/
def readValue (size : Nat) : (depth : Nat) → List Char → Reading Json
  | _, [] => .error .malformed
  | 0, c :: cs => if c = '[' || c = '\x7b' then .error .tooDeep else readScalar c cs
  | depth + 1, c :: cs =>
    if c = '[' then readArray (readValue size depth) size cs
    else if c = '\x7b' then readObject (readValue size depth) size cs
    else readScalar c cs

/-- The value of a document with at most `depth` arrays and objects inside each other. -/
def readWithin (depth : Nat) (cs : List Char) : Except ReadFault Json :=
  match readValue cs.length depth (skipSpace cs) with
  | .error e => .error e
  | .ok (v, rest) => if skipSpace rest = [] then .ok v else .error .malformed

end TagsFile.Json
