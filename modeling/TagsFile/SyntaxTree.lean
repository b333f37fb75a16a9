/-!
# Syntax trees

What the grammar makes of a source: nodes with a type, a stretch of bytes and children. Nothing is
promised about the offsets: they may overlap, run backwards or lie outside of the source.
-/

namespace TagsFile

inductive SyntaxTree where
  | node (type : String) (named : Bool) (start stop : Int) (children : List SyntaxTree)
deriving Repr

namespace SyntaxTree

def type : SyntaxTree → String
  | .node type _ _ _ _ => type

def named : SyntaxTree → Bool
  | .node _ named _ _ _ => named

def start : SyntaxTree → Int
  | .node _ _ start _ _ => start

def stop : SyntaxTree → Int
  | .node _ _ _ stop _ => stop

def children : SyntaxTree → List SyntaxTree
  | .node _ _ _ _ children => children

mutual

/-- The number of nodes. -/
def size : SyntaxTree → Nat
  | .node _ _ _ _ children => 1 + sizeAll children

def sizeAll : List SyntaxTree → Nat
  | [] => 0
  | t :: ts => t.size + sizeAll ts

end

theorem size_eq (t : SyntaxTree) : t.size = 1 + sizeAll t.children := by
  cases t; simp [size, children]

theorem sizeAll_append (ts us : List SyntaxTree) :
    sizeAll (ts ++ us) = sizeAll ts + sizeAll us := by
  induction ts with
  | nil => simp [sizeAll]
  | cons t ts ih => simp [sizeAll, ih]; omega

/-- The tree of a source that nothing is known about: one node over all of its bytes. -/
def whole (source : List UInt8) : SyntaxTree := .node "program" true 0 source.length []

end SyntaxTree

/-- A grammar finds the syntax tree of a source. -/
abbrev Grammar := List UInt8 → SyntaxTree

end TagsFile
