import TagsFile.Text.CodePoint

/-!
# Tokens

The pieces of a source: their kind, their text and the line where they start.
-/

namespace TagsFile

/-- Kinds of tokens. The first nine are the words that can introduce a declaration. -/
inductive TokenKind where
  | namespaceWord
  | classWord
  | interfaceWord
  | functionWord
  | constWord
  | publicWord
  | protectedWord
  | privateWord
  | varWord
  | name
  | variableName
  | nsSeparator
  /-- A brace that opens an interpolation inside a string. -/
  | curlyOpen
  | symbol
  | keyword
  | literal
  | comment
  | blank
deriving DecidableEq, Repr

namespace TokenKind

/-- Holds of the kinds that only lay out a source. -/
def isLayout : TokenKind → Bool
  | .comment | .blank => true
  | _ => false

end TokenKind

structure Token where
  kind : TokenKind
  text : Text
  line : Int
deriving DecidableEq, Repr

namespace Token

/-- Whether the token is the punctuation `text`. -/
def isSymbol (t : Token) (text : Text) : Bool := t.kind = .symbol && t.text = text

/-- Whether the token opens a block that a closing brace ends. -/
def opensBlock (t : Token) : Bool := t.isSymbol "\x7b" || t.kind = .curlyOpen

/-- Whether the token closes a block. -/
def closesBlock (t : Token) : Bool := t.isSymbol "\x7d"

end Token
end TagsFile
