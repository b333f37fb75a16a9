import TagsFile.SyntaxTree
import TagsFile.Token.Basic
import TagsFile.Text.Alphanumeric
import TagsFile.Text.Lowercase
import TagsFile.Text.Utf8

/-!
# The tokens of a syntax tree

A tree is flattened into the tokens of its leaves, in the order of the source. What lies between two
leaves becomes a token of its own, so that the tokens cover every byte. A node that starts before
the end of what is already covered, or that covers nothing, is passed over with all below it.

## Main definitions

* `classify`: the kind of a leaf.
* `Flattening`: the tokens so far and the bytes that are still to come.
* `tokenize`: the tokens of a source.
-/

namespace TagsFile

/-! ## Kinds of leaves -/

/-- The kind of a node that is one token whatever it contains. -/
def atomicKind? : String → Option TokenKind
  | "name" => some .name
  | "variable_name" => some .variableName
  | "comment" => some .comment
  | _ => none

/-- The kind of a word that can introduce a declaration. -/
def wordKind? (text : Text) : Option TokenKind :=
  match text.toString? with
  | some "namespace" => some .namespaceWord
  | some "class" => some .classWord
  | some "interface" => some .interfaceWord
  | some "function" => some .functionWord
  | some "const" => some .constWord
  | some "public" => some .publicWord
  | some "protected" => some .protectedWord
  | some "private" => some .privateWord
  | some "var" => some .varWord
  | _ => none

/-- Named nodes that hold such a word. -/
def isModifier (type : String) : Bool := type = "visibility_modifier" || type = "var_modifier"

/-- Nodes inside of which a brace opens an interpolation. -/
def isStringNode (type : String) : Bool :=
  type = "encapsed_string" || type = "heredoc" || type = "heredoc_body" ||
    type = "shell_command_expression"

/-- Nodes that import what they name. -/
def isImport (type : String) : Bool :=
  type = "namespace_use_declaration" || type = "namespace_use_clause" ||
    type = "namespace_use_group_clause" || type = "namespace_function_or_const"

/-- Whether a word of the given kind declares nothing under a node of type `parent`. -/
def declaresNothing (kind : TokenKind) (parent : String) : Bool :=
  match kind with
  | .namespaceWord => parent = "relative_name" || parent = "namespace_name_as_prefix"
  | .functionWord | .constWord => isImport parent
  | _ => false

/-- Whether a member name follows the token. -/
def Token.accessesMember (t : Token) : Bool :=
  t.isSymbol "::" || t.isSymbol "->" || t.isSymbol "?->"

/-- Letters, numbers and underscores, at least one. -/
def isWord (text : Text) : Bool :=
  text ≠ "" && text.all (CodePoint.satisfies fun c => c = '_' || Text.isAlphanumeric c)

/-- What is known of a leaf apart from its text. -/
structure Leaf where
  type : String
  named : Bool
  inString : Bool
  parent : Option String

/-- The kind of a leaf that holds none of the declaring words. -/
def Leaf.plainKind (leaf : Leaf) (text : Text) : TokenKind :=
  if leaf.named then .literal
  else if text = "\\" then .nsSeparator
  else if text = "$\x7b" || (text = "\x7b" && leaf.inString) then .curlyOpen
  else if isWord text then .keyword
  else .symbol

/-- The kind of a leaf with the given text; `previous` is the last token before it that is not
layout. -/
def classify (leaf : Leaf) (text : Text) (previous : Option Token) : TokenKind :=
  match atomicKind? leaf.type with
  | some kind => kind
  | none =>
    if !leaf.named || isModifier leaf.type then
      match wordKind? (Text.lower text) with
      | some kind =>
        if previous.any Token.accessesMember then .name
        else if leaf.parent.any (declaresNothing kind) then .keyword
        else kind
      | none => leaf.plainKind text
    else leaf.plainKind text

/-! ## Flattening -/

/-- A walk over a tree: the tokens so far, the line and the offset of what comes next, the bytes
from there on, and the last token that is not layout. -/
structure Flattening where
  tokens : Array Token := #[]
  line : Int := 1
  position : Nat := 0
  rest : List UInt8
  previous : Option Token := none

/-- The line breaks in some bytes. -/
def lineBreaks (bytes : List UInt8) : Nat := bytes.count 10

/-- Blank bytes: the space and the five controls that move the print position. -/
def isBlankByte (b : UInt8) : Bool := b = 32 || (9 ≤ b && b ≤ 13)

namespace Flattening

/-- The text of the next `n` bytes. -/
def peek (f : Flattening) (n : Nat) : Text :=
  (Text.Utf8.decodeLossy (f.rest.take n)).map .char

/-- Makes the next `n` bytes one token. -/
def emit (f : Flattening) (kind : TokenKind) (n : Nat) : Flattening :=
  { f with
    tokens := f.tokens.push ⟨kind, f.peek n, f.line⟩
    line := f.line + lineBreaks (f.rest.take n)
    position := f.position + n
    rest := f.rest.drop n }

/-- Makes the bytes before the offset `start` one token, if there are any. -/
def emitGap (f : Flattening) (start : Nat) : Flattening :=
  let gap := f.rest.take (start - f.position)
  if gap = [] then { f with position := start }
  else f.emit (if gap.all isBlankByte then .blank else .literal) (start - f.position)

/-- Makes the stretch from `start` to `stop` the token of a leaf. -/
def emitLeaf (f : Flattening) (leaf : Leaf) (start stop : Nat) : Flattening :=
  let f := f.emitGap start
  let text := f.peek (stop - start)
  let kind := classify leaf text f.previous
  let token : Token := ⟨kind, text, f.line⟩
  { f.emit kind (stop - start) with
    previous := if kind.isLayout then f.previous else some token }

/-- Makes what is left one token, if there is anything. -/
def finish (f : Flattening) : Flattening := f.emitGap (f.position + f.rest.length)

end Flattening

/-- A node to be visited, with what is known from the nodes around it. -/
structure Visit where
  tree : SyntaxTree
  inString : Bool
  parent : Option String

namespace Visit

/-- Whether a node is passed over when `position` bytes are covered. -/
def isSkipped (v : Visit) (position : Nat) : Bool :=
  v.tree.stop ≤ v.tree.start || v.tree.start < position

/-- Whether a node is taken apart. -/
def isInner (v : Visit) : Bool := v.tree.children ≠ [] && (atomicKind? v.tree.type).isNone

def leaf (v : Visit) : Leaf := ⟨v.tree.type, v.tree.named, v.inString, v.parent⟩

/-- The visits of a node's children. -/
def inside (v : Visit) : List Visit :=
  v.tree.children.map fun t => ⟨t, v.inString || isStringNode v.tree.type, some v.tree.type⟩

end Visit

/-- The number of nodes that are still to be visited. -/
def pendingSize (pending : List Visit) : Nat := SyntaxTree.sizeAll (pending.map Visit.tree)

theorem pendingSize_cons (v : Visit) (pending : List Visit) :
    pendingSize (v :: pending) = 1 + pendingSize v.inside + pendingSize pending := by
  simp [pendingSize, SyntaxTree.sizeAll, SyntaxTree.size_eq, Visit.inside, Function.comp_def]

theorem pendingSize_append (vs ws : List Visit) :
    pendingSize (vs ++ ws) = pendingSize vs + pendingSize ws := by
  simp [pendingSize, SyntaxTree.sizeAll_append]

/-- Visits nodes from a stack, first one first, until none is left. -/
def flatten (pending : List Visit) (f : Flattening) : Flattening :=
  match pending with
  | [] => f
  | v :: pending =>
    if v.isSkipped f.position then flatten pending f
    else if v.isInner then flatten (v.inside ++ pending) f
    else flatten pending (f.emitLeaf v.leaf v.tree.start.toNat v.tree.stop.toNat)
termination_by pendingSize pending
decreasing_by
  all_goals
    simp only [pendingSize_cons, pendingSize_append]
    omega

/-- The tokens of a source with the given syntax tree. -/
def tokenize (source : List UInt8) (tree : SyntaxTree) : List Token :=
  (flatten [⟨tree, false, none⟩] { rest := source }).finish.tokens.toList

end TagsFile
