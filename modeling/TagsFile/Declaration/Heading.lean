import TagsFile.Text.Blank
import TagsFile.Token.Cursor

/-!
# Headings of declarations

How far a cursor goes to read the heading of a declaration: to the name of a constant or a type,
over a list of parameters, and over a whole function.

## Main definitions

* `Cursor.toName`: forward to the name that a heading gives.
* `Cursor.parameters`: the text of a list of parameters.
* `Cursor.functionParts`: name, pattern and signature of a function, with the cursor at its end.
-/

namespace TagsFile

/-- Whether a token ends the search for a name. -/
def Token.endsHeading (t : Token) : Bool :=
  t.isSymbol "\x7b" || t.isSymbol "(" || t.isSymbol ";"

namespace Cursor

/-- Forward to the first name, unless a delimiter or the end comes first. -/
def toName (c : Cursor) : Option Text × Cursor :=
  match _h : c.advance.rest with
  | [] => (none, c.advance)
  | t :: _ =>
    if t.kind = .name then (some t.text, c.advance)
    else if t.endsHeading then (none, c.advance)
    else toName c.advance
termination_by c.remaining
decreasing_by exact remaining_advance_lt _h

/-- The texts from the current token to the parenthesis that closes the outermost of `depth` groups,
or to the end. -/
def group (depth : Int) (c : Cursor) : Text × Cursor :=
  match _h : c.rest with
  | [] => ("", c)
  | t :: _ =>
    if t.isSymbol ")" && depth = 1 then (t.text, c)
    else
      let inner :=
        if t.isSymbol "(" then depth + 1 else if t.isSymbol ")" then depth - 1 else depth
      let (texts, c') := group inner c.advance
      (t.text ++ texts, c')
termination_by c.remaining
decreasing_by simp [remaining, _h]

/-- The group of parentheses at the cursor as one line, with the cursor at its end. -/
def parameters (c : Cursor) : Text × Cursor :=
  let (text, c) := c.group 0
  (Text.collapseBlanks text, c)

theorem remaining_toName (c : Cursor) : c.toName.2.remaining ≤ c.remaining := by
  fun_induction toName c <;> grind

theorem remaining_group (depth : Int) (c : Cursor) : (c.group depth).2.remaining ≤ c.remaining := by
  fun_induction group depth c <;> grind

theorem remaining_parameters (c : Cursor) : c.parameters.2.remaining ≤ c.remaining :=
  remaining_group 0 c

end Cursor

/-- What is known of a function before its end is reached. -/
structure FunctionParts where
  name : Option Text := none
  /-- The text of the heading through the token after the name. -/
  pattern : Option Text := none
  signature : Option Text := none
  /-- The last token was the name. -/
  afterName : Bool := false
  /-- A body or a semicolon has ended the function. -/
  ended : Bool := false

namespace FunctionParts

/-- Takes the pattern if the token after the name has just been recorded. -/
def takePattern (p : FunctionParts) (snippet : Text) : FunctionParts :=
  if p.afterName then { p with pattern := some snippet, afterName := false } else p

/-- Takes a name if there is none yet and no list of parameters has come before it. -/
def takeName (p : FunctionParts) (text : Text) : FunctionParts :=
  if p.name.isNone && p.signature.isNone then { p with name := some text, afterName := true } else p

/-- Takes the first list of parameters. -/
def takeSignature (p : FunctionParts) (text : Text) : FunctionParts :=
  if p.signature.isNone then { p with signature := some text } else p

end FunctionParts

namespace Cursor

/-- Forward over a function from its keyword or from inside its heading: to the semicolon or the
closing brace that ends it, or to the end of the tokens. -/
def functionParts (p : FunctionParts) (c : Cursor) : FunctionParts × Cursor :=
  match _h : c.advance.rest with
  | [] => (p, c.advance)
  | t :: _ =>
    let next := if p.afterName then c.advance.stopCollect else c.advance
    let q := p.takePattern c.advance.snippet
    if t.kind = .name then functionParts (q.takeName t.text) next
    else if t.isSymbol "(" then functionParts (q.takeSignature next.parameters.1) next.parameters.2
    else if t.isSymbol "\x7b" then ({ q with ended := true }, next.skipBlock)
    else if t.isSymbol ";" then ({ q with ended := true }, next)
    else functionParts q next
termination_by c.remaining
decreasing_by
  all_goals
    have step := remaining_advance_lt _h
    have group := remaining_parameters next
    grind

theorem remaining_functionParts (p : FunctionParts) (c : Cursor) :
    (c.functionParts p).2.remaining ≤ c.remaining := by
  fun_induction functionParts p c <;> grind [remaining_parameters, remaining_skipBlock]

end Cursor
end TagsFile
