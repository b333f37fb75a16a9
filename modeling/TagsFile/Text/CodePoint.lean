/-!
# Texts

A JSON document can hold one half of a surrogate pair without the other half, and so can the text of
a file's name. Such a half stands for no character, so a text is a list of code points rather than a
string.

## Main definitions

* `CodePoint`, `Text`.
* `Text.ofString`, `Text.toString?`: between texts and strings.
* `Text.join`: texts with another one between them.
* `Text.le`: the order of the code points.
-/

namespace TagsFile

inductive CodePoint where
  | char (c : Char)
  /-- Half of a surrogate pair, counted from U+D800. -/
  | surrogate (n : Fin 0x800)
deriving DecidableEq, Repr

namespace CodePoint

def toNat : CodePoint → Nat
  | .char c => c.toNat
  | .surrogate n => 0xD800 + n

/-- The code point of a number below 0x110000. -/
def ofNat (n : Nat) : CodePoint :=
  if h : 0xD800 ≤ n ∧ n < 0xE000 then .surrogate ⟨n - 0xD800, by omega⟩ else .char (Char.ofNat n)

/-- The character that a code point is. -/
def char? : CodePoint → Option Char
  | .char c => some c
  | .surrogate _ => none

/-- Whether a code point is a character that passes a test. -/
def satisfies (test : Char → Bool) (c : CodePoint) : Bool := c.char?.any test

/-- The order of the numbers. -/
def le (a b : CodePoint) : Bool := a.toNat ≤ b.toNat

end CodePoint

abbrev Text := List CodePoint

namespace Text

def ofString (s : String) : Text := s.toList.map .char

instance : Coe String Text := ⟨ofString⟩

/-- The string that a text is, if all of it are characters. -/
def toString? (t : Text) : Option String := (t.mapM CodePoint.char?).map String.ofList

/-- Texts one after the other, with `separator` between each two. -/
def join (separator : Text) (texts : List Text) : Text := separator.intercalate texts

/-- Texts in the order of the first code points in which they differ; the front of a text comes
before it. -/
def le : Text → Text → Bool
  | [], _ => true
  | _ :: _, [] => false
  | a :: as, b :: bs => if a = b then le as bs else a.le b

@[simp] theorem ofString_append (s t : String) : ofString (s ++ t) = ofString s ++ ofString t := by
  simp [ofString]

theorem mapM_char? (cs : List Char) :
    (cs.map CodePoint.char).mapM CodePoint.char? = some cs := by
  induction cs with
  | nil => rfl
  | cons c cs ih => simp [CodePoint.char?, ih]

@[simp] theorem toString?_ofString (s : String) : (ofString s).toString? = some s := by
  rw [toString?, ofString, mapM_char?]
  simp

end Text
end TagsFile
