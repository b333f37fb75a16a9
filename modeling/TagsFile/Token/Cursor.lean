import TagsFile.Token.Basic

/-!
# Cursors over tokens

A cursor walks forward over a token list, one token at a time. While it collects, the texts that it
comes to are joined to a snippet; it stops collecting by itself at the first token with a line break
after the one it started at.

## Main definitions

* `Cursor.advance`, `Cursor.startCollect`, `Cursor.stopCollect`.
* `Cursor.skipTo`: forward to a token with one of some texts.
* `Cursor.skipBlock`: forward to the brace that closes the block already opened.
-/

namespace TagsFile

structure Cursor where
  /-- The tokens from the current one on. -/
  rest : List Token
  /-- How many tokens lie before. -/
  position : Nat := 0
  collecting : Bool := false
  snippet : Text := ""

namespace Cursor

def current? (c : Cursor) : Option Token := c.rest.head?

/-- How many tokens there are from the current one on. -/
def remaining (c : Cursor) : Nat := c.rest.length

/-- Joins the text of the token that the cursor has come to. -/
def record (c : Cursor) : Cursor :=
  match c.rest with
  | [] => c
  | t :: _ =>
    if c.collecting then
      { c with snippet := c.snippet ++ t.text, collecting := !t.text.contains (.char '\n') }
    else c

/-- One token forward; at the end the cursor stays. -/
def advance (c : Cursor) : Cursor :=
  match c.rest with
  | [] => c
  | _ :: rest => { c with rest, position := c.position + 1 }.record

/-- Starts a snippet with the current token. -/
def startCollect (c : Cursor) : Cursor :=
  { c with snippet := (c.current?.map Token.text).getD "", collecting := true }

/-- Ends the snippet. -/
def stopCollect (c : Cursor) : Cursor := { c with collecting := false }

@[simp, grind =] theorem rest_record (c : Cursor) : c.record.rest = c.rest := by
  unfold record; split
  · rfl
  · split <;> rfl

@[simp, grind =] theorem rest_advance (c : Cursor) : c.advance.rest = c.rest.tail := by
  unfold advance; split <;> simp_all

@[simp, grind =] theorem rest_startCollect (c : Cursor) : c.startCollect.rest = c.rest := rfl

@[simp, grind =] theorem rest_stopCollect (c : Cursor) : c.stopCollect.rest = c.rest := rfl

theorem remaining_eq (c : Cursor) : c.remaining = c.rest.length := rfl

@[grind =] theorem remaining_advance (c : Cursor) : c.advance.remaining = c.remaining - 1 := by
  simp [remaining]

@[grind =] theorem remaining_startCollect (c : Cursor) :
    c.startCollect.remaining = c.remaining := rfl

@[grind =] theorem remaining_stopCollect (c : Cursor) :
    c.stopCollect.remaining = c.remaining := rfl

/-- A step that comes to a token leaves fewer of them. -/
theorem remaining_advance_lt {c : Cursor} {t : Token} {ts : List Token}
    (h : c.advance.rest = t :: ts) : c.advance.remaining < c.remaining := by
  have : c.rest ≠ [] := by intro h'; simp [h'] at h
  have : 0 < c.rest.length := List.length_pos_iff.2 this
  simp [remaining]
  omega

/-- Forward to the next token whose text is one of `texts`, or to the end; says whether there is
one. -/
def skipTo (texts : List Text) (c : Cursor) : Bool × Cursor :=
  match _h : c.advance.rest with
  | [] => (false, c.advance)
  | t :: _ => if texts.contains t.text then (true, c.advance) else skipTo texts c.advance
termination_by c.remaining
decreasing_by exact remaining_advance_lt _h

/-- Forward to the brace that closes the innermost of `depth` blocks and the ones around it, or to
the end. -/
def skipBlocks (depth : Nat) (c : Cursor) : Cursor :=
  match h : c.advance.rest with
  | [] => c.advance
  | t :: _ =>
    if t.opensBlock then skipBlocks (depth + 1) c.advance
    else if t.closesBlock then
      if depth ≤ 1 then c.advance else skipBlocks (depth - 1) c.advance
    else skipBlocks depth c.advance
termination_by c.remaining
decreasing_by all_goals exact remaining_advance_lt h

/-- Forward to the brace that closes the block already opened, or to the end. -/
def skipBlock (c : Cursor) : Cursor := c.skipBlocks 1

theorem remaining_skipTo (texts : List Text) (c : Cursor) :
    (c.skipTo texts).2.remaining ≤ c.remaining := by
  fun_induction skipTo texts c <;> grind

theorem remaining_skipBlocks (depth : Nat) (c : Cursor) :
    (c.skipBlocks depth).remaining ≤ c.remaining := by
  fun_induction skipBlocks depth c <;> grind

theorem remaining_skipBlock (c : Cursor) : c.skipBlock.remaining ≤ c.remaining :=
  remaining_skipBlocks 1 c

end Cursor
end TagsFile
