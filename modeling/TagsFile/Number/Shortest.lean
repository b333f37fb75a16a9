import TagsFile.Number.Decimal

/-!
# Shortest decimal digits

The fewest decimal digits that still read back as a given binary64 number, and of these the ones
nearest to it. They are found grid by grid: with one digit, with two, and so on, the two neighbours
of the number on the grid are tried.

## Main definitions

* `Binary64.shortest`: digits and the power of ten of their last place.
* `Binary64.text`: the digits as a message shows them.
-/

namespace TagsFile.Binary64

/-- The exact bounds of what rounds to a positive number, as numerators over one denominator: the
lower bound, the number and the upper bound. -/
def bounds (x : Binary64) : Nat × Nat × Nat × Nat :=
  let (n, d) := scaled x.mantissa 2 x.exponent
  let (p, q) := scaled 1 2 x.exponent
  -- in units of a quarter of the last place, over the denominator 4 * d * q
  let middle := 4 * n * q
  let unit := p * d
  let lower :=
    if x.mantissa = Nat.pow 2 52 && -1074 < x.exponent then middle - unit else middle - 2 * unit
  (lower, middle, middle + 2 * unit, 4 * d * q)

/-- The power of ten just above `n / d`: the least `k` with `n / d < 10 ^ k`, looked for upward from
`k` in at most `fuel` steps. -/
def decimalTop (n d : Nat) : (fuel : Nat) → (k : Int) → Int
  | 0, k => k
  | fuel + 1, k =>
    let (p, q) := scaled 1 10 k
    if n * q < d * p then k else decimalTop n d fuel (k + 1)

/-- The nearest of the neighbours on the grid of `10 ^ place` that read back as the number. -/
def onGrid? (x : Binary64) (place : Int) : Option Nat :=
  let (lower, middle, upper, d) := x.bounds
  let (p, q) := scaled 1 10 place
  let value (c : Nat) := c * p * d
  let even := x.mantissa % 2 == 0
  let fits (c : Nat) :=
    if even then lower * q ≤ value c && value c ≤ upper * q
    else lower * q < value c && value c < upper * q
  let below := middle * q / (d * p)
  let above := below + 1
  match fits below, fits above with
  | true, true =>
    let toBelow := middle * q - value below
    let toAbove := value above - middle * q
    some (if toAbove < toBelow || (toAbove == toBelow && below % 2 == 1) then above else below)
  | true, false => some below
  | false, true => some above
  | false, false => none

/-- Tries the grids with `count` digits and more, `fuel` of them. -/
def tryGrids (x : Binary64) (top : Int) : (fuel count : Nat) → Nat × Int
  | 0, _ => (x.mantissa, 0)
  | fuel + 1, count =>
    match x.onGrid? (top - count) with
    | some c => (c, top - count)
    | none => tryGrids x top fuel (count + 1)

/-- The shortest digits that read back as a positive number, with the power of ten of the last. -/
def shortest (x : Binary64) : Nat × Int :=
  let (_, middle, _, d) := x.bounds
  tryGrids x (decimalTop middle d 700 (-340)) 17 1

/-- Drops the zeros at the end of the digits, last digit first. -/
def dropZeros (digits : List Char) : List Char := digits.dropWhile (· == '0')

/-- A finite number as messages show it: positional from a ten-thousandth up to 10^16, with an
exponent of at least two digits elsewhere, and a point with at least one place after it in a
positional number. -/
def text (x : Binary64) : String :=
  let sign := if x.negative then "-" else ""
  if x.mantissa = 0 then sign ++ "0.0"
  else
    let (n, place) := x.shortest
    let all := Nat.toDigits 10 n
    let digits := (dropZeros all.reverse).reverse
    let point : Int := all.length + place
    if -4 < point && point ≤ 16 then
      if point ≤ 0 then
        sign ++ "0." ++ String.ofList (List.replicate (-point).toNat '0' ++ digits)
      else
        let k := point.toNat
        let whole := digits.take k ++ List.replicate (k - digits.length) '0'
        let fraction := if digits.drop k = [] then ['0'] else digits.drop k
        sign ++ String.ofList (whole ++ '.' :: fraction)
    else
      let e := point - 1
      let power := Nat.toDigits 10 e.natAbs
      let padded := if power.length < 2 then '0' :: power else power
      let mantissa :=
        match digits with
        | [] => []
        | c :: [] => [c]
        | c :: rest => c :: '.' :: rest
      sign ++ String.ofList (mantissa ++ 'e' :: (if e < 0 then '-' else '+') :: padded)

end TagsFile.Binary64
