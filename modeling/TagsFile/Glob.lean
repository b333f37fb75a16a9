import TagsFile.Text.CodePoint

/-!
# Globs

Patterns for whole paths. A star stands for any text, slashes and line breaks included; a question
mark for one code point; a set in brackets for one of its code points. All else stands for itself.

## Main definitions

* `GlobPiece`, `Glob`: a pattern taken apart.
* `Glob.ofText`: reads a pattern.
* `Glob.accepts`: whether a text as a whole fits.

Whether a text fits is told for all ends of the text at once, piece by piece from the end of the
pattern, so that many stars cost no more than many other pieces. The laws that start with `accepts_`
say what comes out.
-/

namespace TagsFile

inductive GlobPiece where
  /-- Any text. -/
  | star
  /-- Any one code point. -/
  | any
  | point (c : CodePoint)
  /-- One code point from (or, if negated, outside of) some ranges. -/
  | set (negated : Bool) (ranges : List (CodePoint × CodePoint))
deriving DecidableEq, Repr

abbrev Glob := List GlobPiece

/-! ## Sets -/

namespace GlobSet

/-- Takes the code point `c` off the front if it is there. -/
def leading (c : CodePoint) : Text → Text × Text
  | [] => ([], [])
  | d :: cs => if d = c then ([d], cs) else ([], d :: cs)

theorem length_leading (c : CodePoint) (cs : Text) : (leading c cs).2.length ≤ cs.length := by
  fun_cases leading c cs <;> grind

/-- The text between the brackets of a set, behind the opening one, and what follows the set. A
closing bracket that comes first, or right after an exclamation mark, belongs to the text. -/
def split? (cs : Text) : Option (Text × Text) :=
  let (mark, cs) := leading (.char '!') cs
  let (bracket, cs) := leading (.char ']') cs
  match cs.dropWhile (· ≠ .char ']') with
  | [] => none
  | _ :: rest => some (mark ++ bracket ++ cs.takeWhile (· ≠ .char ']'), rest)

theorem length_of_split? {cs body rest : Text} (h : split? cs = some (body, rest)) :
    rest.length < cs.length := by
  have mark := length_leading (.char '!') cs
  have bracket := length_leading (.char ']') (leading (.char '!') cs).2
  have body := (List.dropWhile_suffix (l := (leading (.char ']') (leading (.char '!') cs).2).2)
    (· ≠ .char ']')).length_le
  grind [split?]

/-- Cuts the text of a set at the dashes that stand for ranges. No dash is looked for among the next
`skip` code points, nor among the two behind a cut. -/
def chunks (skip : Nat) (chunk : Text) : Text → List Text
  | [] => [chunk]
  | c :: cs =>
    if skip = 0 && c = .char '-' then chunk :: chunks 2 [] cs
    else chunks (skip - 1) (chunk ++ [c]) cs

/-- A dash at the end stands for itself. -/
def closeTrailing : List Text → List Text
  | [] => []
  | [chunk] => [chunk]
  | chunk :: next :: more =>
    if next = [] && more = [] then [chunk ++ [.char '-']]
    else chunk :: closeTrailing (next :: more)

/-- Drops the ranges that end before they start. -/
def dropInverted : List Text → List Text
  | [] => []
  | chunk :: more =>
    match dropInverted more with
    | [] => [chunk]
    | next :: rest =>
      match chunk.getLast?, next.head? with
      | some low, some high =>
        if low.le high then chunk :: next :: rest else (chunk.dropLast ++ next.tail) :: rest
      | _, _ => chunk :: next :: rest

/-- The ranges of a set: one between each two chunks, and one of its own for every other code point.
-/
def ranges : List Text → List (CodePoint × CodePoint)
  | [] => []
  | [chunk] => chunk.map fun c => (c, c)
  | chunk :: next :: more =>
    match chunk.getLast?, next with
    | some low, high :: next =>
      chunk.dropLast.map (fun c => (c, c)) ++ (low, high) :: ranges (next :: more)
    | _, next => (.char '-', .char '-') :: ranges (next :: more)

/-- The piece that a set stands for. An exclamation mark that is first when inverted ranges are gone
negates it. -/
def piece (body : Text) : GlobPiece :=
  let skip := if body.head? = some (.char '!') then 2 else 1
  match dropInverted (closeTrailing (chunks skip [] body)) with
  | [[.char '!']] => .any
  | (.char '!' :: chunk) :: more => .set true (ranges (chunk :: more))
  | all => .set false (ranges all)

end GlobSet

/-! ## Patterns -/

namespace Glob

/-- Puts a star in front; two in a row are one. -/
def consStar : Glob → Glob
  | .star :: g => .star :: g
  | g => .star :: g

/-- Reads a pattern. A bracket that opens no set stands for itself. -/
def ofText : Text → Glob
  | [] => []
  | .char '*' :: cs => consStar (ofText cs)
  | .char '?' :: cs => .any :: ofText cs
  | .char '[' :: cs =>
    match _h : GlobSet.split? cs with
    | some (body, rest) => GlobSet.piece body :: ofText rest
    | none => .point (.char '[') :: ofText cs
  | c :: cs => .point c :: ofText cs
termination_by cs => cs.length
decreasing_by
  all_goals grind [→ GlobSet.length_of_split?]

end Glob

/-- Whether a piece other than a star accepts a code point. -/
def GlobPiece.accepts (c : CodePoint) : GlobPiece → Bool
  | .star | .any => true
  | .point d => c = d
  | .set negated ranges => ranges.any (fun r => r.1.le c && c.le r.2) != negated

/-! ## Matching -/

namespace Glob

/-- Of each end of a text, the whole first and the empty one last, whether it is empty. -/
def emptyEnds : Text → List Bool
  | [] => [true]
  | _ :: cs => false :: emptyEnds cs

/-- Of each end of a list, whether `true` is in it. -/
def someFrom : List Bool → List Bool
  | [] => []
  | b :: bs =>
    let rest := someFrom bs
    (b || rest.headD false) :: rest

/-- Of each end of a text, whether a piece accepts its first code point and the end behind that
passes, which `ends` tells of all ends. -/
def oneThen (piece : GlobPiece) : Text → (ends : List Bool) → List Bool
  | c :: cs, _ :: ends => (piece.accepts c && ends.headD false) :: oneThen piece cs ends
  | _, _ => [false]

/-- Of each end of a text, the whole first and the empty one last, whether it fits. Once no end
fits, no piece in front changes that. -/
def fittingEnds : Glob → Text → List Bool
  | [], cs => emptyEnds cs
  | .star :: g, cs => someFrom (fittingEnds g cs)
  | piece :: g, cs =>
    let ends := fittingEnds g cs
    if ends.any id then oneThen piece cs ends else ends

/-- Whether the whole text fits. -/
def accepts : Glob → Text → Bool
  | [], cs => cs.isEmpty
  | .star :: g, cs => (fittingEnds g cs).any id
  | _ :: _, [] => false
  | piece :: g, c :: cs => piece.accepts c && accepts g cs

/-- Whether a text fits a pattern. -/
def fits (pattern text : Text) : Bool := (ofText pattern).accepts text

/-! ### Laws -/

theorem headD_someFrom (bs : List Bool) : (someFrom bs).headD false = bs.any id := by
  induction bs with
  | nil => rfl
  | cons b bs ih => simpa [someFrom] using congrArg (b || ·) ih

theorem oneThen_of_none (piece : GlobPiece) {cs : Text} {ends : List Bool}
    (h : ends.any id = false) (hl : ends.length = cs.length + 1) :
    oneThen piece cs ends = ends := by
  induction cs generalizing ends with
  | nil =>
    match ends with
    | [b] => simp_all [oneThen]
  | cons c cs ih =>
    match ends with
    | b :: b' :: ends => simp_all [oneThen]

theorem length_someFrom (bs : List Bool) : (someFrom bs).length = bs.length := by
  induction bs with
  | nil => rfl
  | cons b bs ih => simp [someFrom, ih]

theorem length_oneThen (piece : GlobPiece) {cs : Text} {ends : List Bool}
    (h : ends.length = cs.length + 1) : (oneThen piece cs ends).length = cs.length + 1 := by
  induction cs generalizing ends with
  | nil => cases ends <;> simp [oneThen]
  | cons c cs ih =>
    match ends with
    | b :: ends => simp [oneThen, ih (by simpa using h)]

theorem length_fittingEnds (g : Glob) (cs : Text) :
    (g.fittingEnds cs).length = cs.length + 1 := by
  induction g with
  | nil => induction cs <;> simp_all [fittingEnds, emptyEnds]
  | cons piece g ih =>
    cases piece <;> simp only [fittingEnds, length_someFrom, ih] <;> split <;>
      simp [length_oneThen, ih]

theorem fittingEnds_nil (g : Glob) : fittingEnds g [] = [accepts g []] := by
  induction g with
  | nil => rfl
  | cons piece g ih =>
    cases piece <;> simp only [fittingEnds, accepts, ih] <;> cases accepts g [] <;> rfl

/-- What is told of the ends of a text is what `accepts` tells of each. -/
theorem fittingEnds_cons (g : Glob) (c : CodePoint) (cs : Text) :
    fittingEnds g (c :: cs) = accepts g (c :: cs) :: fittingEnds g cs := by
  induction g generalizing c cs with
  | nil => rfl
  | cons piece g ih =>
    have hhead : (fittingEnds g cs).headD false = accepts g cs := by
      cases cs <;> simp [fittingEnds_nil, ih]
    have hlength := length_fittingEnds g cs
    have hany : accepts g cs = true → (fittingEnds g cs).any id = true := by
      cases cs <;> simp_all [fittingEnds_nil]
    cases piece with
    | star => simp only [fittingEnds, accepts, ih c cs, someFrom, headD_someFrom, List.any_cons, id]
    | any | point | set =>
      simp only [fittingEnds, accepts, ih c cs, List.any_cons, id]
      by_cases hsome : (fittingEnds g cs).any id
      · simp only [hsome, Bool.or_true, if_true, oneThen, hhead]
      · have hnone : accepts g cs = false := by cases h : accepts g cs <;> simp_all
        have hthen := oneThen_of_none
        cases accepts g (c :: cs) <;> simp_all [oneThen]

theorem accepts_nil (cs : Text) : accepts [] cs = cs.isEmpty := rfl

theorem accepts_star_nil (g : Glob) : accepts (.star :: g) [] = accepts g [] := by
  simp [accepts, fittingEnds_nil]

/-- A star takes nothing, or one more code point. -/
theorem accepts_star_cons (g : Glob) (c : CodePoint) (cs : Text) :
    accepts (.star :: g) (c :: cs) = (accepts g (c :: cs) || accepts (.star :: g) cs) := by
  simp [accepts, fittingEnds_cons]

theorem accepts_one_nil {piece : GlobPiece} (h : piece ≠ .star) (g : Glob) :
    accepts (piece :: g) [] = false := by
  cases piece <;> simp_all [accepts]

/-- Any other piece takes one code point. -/
theorem accepts_one_cons {piece : GlobPiece} (h : piece ≠ .star) (g : Glob) (c : CodePoint)
    (cs : Text) : accepts (piece :: g) (c :: cs) = (piece.accepts c && accepts g cs) := by
  cases piece <;> simp_all [accepts]

end Glob
end TagsFile
