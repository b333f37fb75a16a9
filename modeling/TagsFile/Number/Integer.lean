import TagsFile.Text.Blank
import TagsFile.Text.Digit

/-!
# Integers in texts

The integer that a text stands for: blanks around it, a sign, and decimal digits of any script with
single underscores between them. More than `maxDigits` digits are refused.
-/

namespace TagsFile.Integer

/-- The longest integer that is read, in digits. -/
def maxDigits : Nat := 4300

/-- Blanks around an integer: the six ASCII ones and those beyond ASCII. -/
def isPadding (c : Char) : Bool :=
  c = ' ' || ('\t' ≤ c && c ≤ '\r') || (127 < c.toNat && Text.isBlank c)

/-- Digits with single underscores between them, most significant first. -/
def digits? : List Char → Option (List Nat)
  | [] => none
  | c :: rest =>
    match Text.digitValue? c with
    | none => none
    | some d =>
      match rest with
      | [] => some [d]
      | '_' :: more => (digits? more).map (d :: ·)
      | more => (digits? more).map (d :: ·)
termination_by cs => cs.length

/-- The number with the given digits, most significant first. -/
def ofDigits (ds : List Nat) : Nat := ds.foldl (fun n d => 10 * n + d) 0

/-- Drops the padding on both sides. -/
def trim (cs : List Char) : List Char :=
  ((cs.dropWhile isPadding).reverse.dropWhile isPadding).reverse

/-- The natural number that the digits in `cs` stand for. -/
def readNat? (cs : List Char) : Option Nat :=
  (digits? cs).bind fun ds => if ds.length ≤ maxDigits then some (ofDigits ds) else none

/-- The integer that a text stands for. -/
def read? (s : String) : Option Int :=
  match trim s.toList with
  | '-' :: cs => (readNat? cs).map fun n => -(n : Int)
  | '+' :: cs => (readNat? cs).map Int.ofNat
  | cs => (readNat? cs).map Int.ofNat

end TagsFile.Integer
