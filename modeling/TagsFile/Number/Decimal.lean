/-!
# Decimal numbers and their nearest binary64

A number that is written with a point or an exponent is kept exactly as a `Decimal`. Where its value
is asked for, it stands for the nearest binary64 number, ties going to the even one, and from half a
unit above the largest of these on it is infinite.

## Main definitions

* `Decimal.nearest?`: the binary64 number that a decimal stands for.
* `Binary64.truncate`: its integer part.
-/

namespace TagsFile

/-- The number `± digits · 10 ^ exponent`. -/
structure Decimal where
  negative : Bool
  digits : Nat
  exponent : Int
deriving DecidableEq, Repr

/-- The number `± mantissa · 2 ^ exponent`. -/
structure Binary64 where
  negative : Bool
  mantissa : Nat
  exponent : Int
deriving DecidableEq, Repr

/-- `n / d` rounded to an integer, a half to the even one. -/
def divideToEven (n d : Nat) : Nat :=
  let q := n / d
  let r := n % d
  if d < 2 * r || (2 * r == d && q % 2 == 1) then q + 1 else q

/-- `n · b ^ e` as a fraction. -/
def scaled (n b : Nat) (e : Int) : Nat × Nat :=
  if 0 ≤ e then (n * b.pow e.toNat, 1) else (n, b.pow (-e).toNat)

/-- The largest `k` with `2 ^ k ≤ n / d`, for positive `n` and `d`. -/
def floorLog2 (n d : Nat) : Int :=
  let k : Int := Nat.log2 n - Nat.log2 d
  let (p, q) := scaled 1 2 k
  if d * p ≤ n * q then k else k - 1

/-- The number `± mantissa · 2 ^ exponent` with a mantissa below `2 ^ 53`, when rounding has brought
it up to there. -/
def Binary64.normal (negative : Bool) (mantissa : Nat) (exponent : Int) : Binary64 :=
  if mantissa = Nat.pow 2 53 then ⟨negative, Nat.pow 2 52, exponent + 1⟩
  else ⟨negative, mantissa, exponent⟩

namespace Decimal

/-- How many decimal digits `n` has. -/
def width (n : Nat) : Nat := (Nat.toDigits 10 n).length

/-- The nearest binary64 number, none beyond their range. Numbers that are far out of the range on
either side are told by their width alone. -/
def nearest? (d : Decimal) : Option Binary64 :=
  let zero : Binary64 := ⟨d.negative, 0, 0⟩
  let top : Int := width d.digits + d.exponent
  if d.digits = 0 || top < -330 then some zero
  else if 310 < top then none
  else
    let (n, m) := scaled d.digits 10 d.exponent
    let e := max (floorLog2 n m - 52) (-1074)
    let (p, q) := scaled 1 2 e
    let mantissa := divideToEven (n * q) (m * p)
    if mantissa ≠ 0 && 1024 ≤ Nat.log2 mantissa + e then none
    else some (Binary64.normal d.negative mantissa e)

end Decimal

namespace Binary64

/-- The integer part, toward zero. -/
def truncate (x : Binary64) : Int :=
  let (n, d) := scaled x.mantissa 2 x.exponent
  if x.negative then -(n / d : Nat) else (n / d : Nat)

/-- Whether the number is one. -/
def isOne (x : Binary64) : Bool :=
  let (n, d) := scaled x.mantissa 2 x.exponent
  !x.negative && n == d

end Binary64
end TagsFile
