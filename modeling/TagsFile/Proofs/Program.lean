import Mathlib
import TagsFile.Declaration.Extraction

/-!
# Well-formed programs

Programs as their parts, with two readings of each part: the tokens that it is written with, and the
declarations that it makes inside some scopes. Every part carries the conditions under which it is
well formed; beyond these, tokens are free.

## Main definitions

* `Nested`, `Group`: tokens in which openers and closers match.
* `Constant`, `Function`, `Visible`, `Member`, `TypeDecl`: declarations and what they consist of.
* `Element`: what stands between the braces of a namespace.
* `Item`, `Program`: what stands outside of all braces, and a whole file.
-/

namespace TagsFile

/-! ## Snippets and groups -/

/-- Whether the text of a token goes on on another line. -/
def Token.breaksLine (t : Token) : Bool := t.text.contains (.char '\n')

/-- The tokens through the first one that breaks the line. -/
def throughBreak : List Token → List Token
  | [] => []
  | t :: ts => if t.breaksLine then [t] else t :: throughBreak ts

/-- The text of some tokens through the first one after the head that breaks the line. -/
def snippetOf : List Token → Text
  | [] => []
  | t :: ts => t.text ++ (throughBreak ts).flatMap Token.text

/-- Tokens in which every opener has its closer. -/
inductive Nested (opens closes : Token → Bool) : List Token → Prop where
  | nil : Nested opens closes []
  | other {t : Token} {ts : List Token} : opens t = false → closes t = false →
      Nested opens closes ts → Nested opens closes (t :: ts)
  | group {opening closing : Token} {body ts : List Token} : opens opening = true →
      Nested opens closes body → closes closing = true → Nested opens closes ts →
      Nested opens closes (opening :: (body ++ closing :: ts))

/-- An opener and its closer with what is nested between them. -/
structure Group (opens closes : Token → Bool) where
  opening : Token
  body : List Token
  closing : Token
  opens_opening : opens opening = true
  nested : Nested opens closes body
  closes_closing : closes closing = true

def Group.tokens {opens closes : Token → Bool} (g : Group opens closes) : List Token :=
  g.opening :: (g.body ++ [g.closing])

/-- A block: from a brace that opens it to the one that closes it. -/
abbrev Block := Group Token.opensBlock Token.closesBlock

/-- A list of parameters with its parentheses. -/
abbrev Parameters := Group (·.isSymbol "(") (·.isSymbol ")")

/-- Whether a token can stand between a keyword and the name that it declares. -/
def Token.isGap (t : Token) : Bool := t.kind ≠ .name && !t.endsHeading

/-! ## Constants and functions -/

/-- `const … NAME`. -/
structure Constant where
  word : Token
  gap : List Token
  name : Token
  word_kind : word.kind = .constWord
  gap_isGap : ∀ t ∈ gap, t.isGap = true
  name_kind : name.kind = .name

namespace Constant

def tokens (c : Constant) : List Token := c.word :: (c.gap ++ [c.name])

def declaration (c : Constant) (scopes : ScopeStack) : Declaration where
  name := c.name.text
  kind := .constantDecl
  line := c.word.line
  snippet := snippetOf c.tokens
  scopes

end Constant

/-- What ends a function. -/
inductive FunctionEnd where
  | semicolon (t : Token) (isSemicolon : t.isSymbol ";" = true)
  | body (b : Block) (isBrace : b.opening.isSymbol "\x7b" = true)

def FunctionEnd.tokens : FunctionEnd → List Token
  | .semicolon t _ => [t]
  | .body b _ => b.tokens

/-- `function … NAME … ( … ) …`, and a semicolon or a body. -/
structure Function where
  word : Token
  gap : List Token
  name : Token
  beforeParameters : List Token
  parameters : Parameters
  afterParameters : List Token
  ending : FunctionEnd
  word_kind : word.kind = .functionWord
  gap_isGap : ∀ t ∈ gap, t.isGap = true
  name_kind : name.kind = .name
  before_plain : ∀ t ∈ beforeParameters, t.endsHeading = false
  after_plain : ∀ t ∈ afterParameters, t.endsHeading = false

namespace Function

/-- What follows the name up to the end of the parameters. -/
def signatureTokens (f : Function) : List Token := f.beforeParameters ++ f.parameters.tokens

def tokens (f : Function) : List Token :=
  f.word :: (f.gap ++ f.name ::
    (f.signatureTokens ++ (f.afterParameters ++ f.ending.tokens)))

/-- The snippet of a function goes on through the token after its name. -/
def declaration (f : Function) (access : Option Text) (scopes : ScopeStack) : Declaration where
  name := f.name.text
  kind := .functionDecl
  line := f.word.line
  snippet := snippetOf (f.word :: (f.gap ++ f.name :: f.signatureTokens.take 1))
  scopes
  signature := some (Text.collapseBlanks (f.parameters.tokens.flatMap Token.text))
  access

end Function

/-! ## Members -/

/-- The access that the last visibility word among some tokens gives. -/
def accessAfter (before : List Token) : Option Text :=
  (before.filterMap fun t => Extraction.accessOf? t.kind).getLast?

/-- The properties among some tokens: the variables. The tokens `before` lead from the visibility
word to there; the first property has the snippet from the visibility word on, the others have their
own text. -/
def propertiesIn (scopes : ScopeStack) (before : List Token) : List Token → List Declaration
  | [] => []
  | t :: ts =>
    (if t.kind = .variableName then
      [{ name := t.text, kind := .propertyDecl, line := t.line,
         snippet :=
           if before.any (·.kind = .variableName) then t.text else snippetOf (before ++ [t]),
         scopes, access := accessAfter before }]
    else []) ++ propertiesIn scopes (before ++ [t]) ts

/-- What ends a visibility statement. -/
inductive VisibleEnd where
  | semicolon (t : Token) (isSemicolon : t.isSymbol ";" = true)
  | constant (c : Constant)
  | function (f : Function)
  | block (b : Block)

/-- Whether a token can stand in a visibility statement before its end. -/
def Token.staysVisible (t : Token) : Bool :=
  t.kind ≠ .functionWord && t.kind ≠ .constWord && !t.isSymbol ";" && !t.opensBlock

/-- A visibility statement: a visibility word with what follows it, and its end. -/
structure Visible where
  word : Token
  span : List Token
  ending : VisibleEnd
  word_visibility : (Extraction.accessOf? word.kind).isSome = true
  span_stays : ∀ t ∈ span, t.staysVisible = true

namespace Visible

def endTokens : VisibleEnd → List Token
  | .semicolon t _ => [t]
  | .constant c => c.tokens
  | .function f => f.tokens
  | .block b => b.tokens

def tokens (v : Visible) : List Token := v.word :: (v.span ++ endTokens v.ending)

/-- What the end of a visibility statement declares. -/
def endDeclarations (access : Option Text) (scopes : ScopeStack) : VisibleEnd → List Declaration
  | .constant c => [c.declaration scopes]
  | .function f => [f.declaration access scopes]
  | .semicolon _ _ | .block _ => []

def declarations (v : Visible) (scopes : ScopeStack) : List Declaration :=
  propertiesIn scopes [v.word] v.span ++
    endDeclarations (accessAfter (v.word :: v.span)) scopes v.ending

end Visible

/-- Whether a token means nothing among the members of a type. -/
def Token.isMemberFiller (t : Token) : Bool :=
  (Extraction.accessOf? t.kind).isNone && t.kind ≠ .constWord && t.kind ≠ .functionWord &&
    !t.opensBlock && !t.closesBlock

inductive Member where
  | filler (t : Token) (isFiller : t.isMemberFiller = true)
  | constant (c : Constant)
  | function (f : Function)
  | block (b : Block)
  | visible (v : Visible)

namespace Member

def isBlock : Member → Bool
  | .block _ => true
  | _ => false

def tokens : Member → List Token
  | .filler t _ => [t]
  | .constant c => c.tokens
  | .function f => f.tokens
  | .block b => b.tokens
  | .visible v => v.tokens

def declarations (scopes : ScopeStack) : Member → List Declaration
  | .constant c => [c.declaration scopes]
  | .function f => [f.declaration (some "public") scopes]
  | .visible v => v.declarations scopes
  | .filler _ _ | .block _ => []

end Member

/-! ## Types -/

/-- `class … NAME … { members }`, or the same of an interface, which has no blocks of its own. -/
structure TypeDecl where
  isClass : Bool
  word : Token
  gap : List Token
  name : Token
  heading : List Token
  opening : Token
  members : List Member
  closing : Token
  word_kind : word.kind = if isClass then .classWord else .interfaceWord
  gap_isGap : ∀ t ∈ gap, t.isGap = true
  name_kind : name.kind = .name
  heading_text : ∀ t ∈ heading, t.text ≠ "\x7b"
  opening_isBrace : opening.isSymbol "\x7b" = true
  members_fit : isClass = false → ∀ m ∈ members, m.isBlock = false
  closes_closing : closing.closesBlock = true

namespace TypeDecl

def kind (d : TypeDecl) : TagKind := if d.isClass then .classDecl else .interfaceDecl

def scopeKind (d : TypeDecl) : ScopeKind := if d.isClass then .classScope else .interfaceScope

def tokens (d : TypeDecl) : List Token :=
  d.word :: (d.gap ++ d.name :: (d.heading ++ d.opening ::
    (d.members.flatMap Member.tokens ++ [d.closing])))

def snippet (d : TypeDecl) : Text := snippetOf (d.word :: (d.gap ++ [d.name]))

/-- The scope that a type is for its members. -/
def frame (d : TypeDecl) : ScopeFrame := ⟨d.scopeKind, d.name.text, some d.snippet⟩

def declarations (d : TypeDecl) (scopes : ScopeStack) : List Declaration :=
  { name := d.name.text, kind := d.kind, line := d.word.line, snippet := d.snippet, scopes } ::
    d.members.flatMap (Member.declarations (scopes.push d.frame))

end TypeDecl

/-- A declaration that can stand outside of types. -/
inductive Entry where
  | constant (c : Constant)
  | function (f : Function)
  | type (d : TypeDecl)

namespace Entry

def tokens : Entry → List Token
  | .constant c => c.tokens
  | .function f => f.tokens
  | .type d => d.tokens

def declarations (scopes : ScopeStack) : Entry → List Declaration
  | .constant c => [c.declaration scopes]
  | .function f => [f.declaration none scopes]
  | .type d => d.declarations scopes

end Entry

/-! ## Namespaces -/

/-- Whether a token introduces a declaration outside of types. -/
def Token.isDeclaring (t : Token) : Bool :=
  t.kind = .namespaceWord || t.kind = .classWord || t.kind = .interfaceWord ||
    t.kind = .functionWord || t.kind = .constWord

/-- What stands between the braces of a namespace: declarations, tokens that mean nothing, and
blocks that again hold such elements. -/
inductive Element where
  | filler (t : Token) (isFiller : t.isDeclaring = false ∧ t.opensBlock = false ∧
      t.closesBlock = false)
  | entry (e : Entry)
  | block (opening : Token) (body : List Element) (closing : Token)
      (isBlock : opening.opensBlock = true ∧ closing.closesBlock = true)

namespace Element

mutual

def tokens : Element → List Token
  | .filler t _ => [t]
  | .entry e => e.tokens
  | .block opening body closing _ => opening :: (tokensAll body ++ [closing])

def tokensAll : List Element → List Token
  | [] => []
  | e :: es => e.tokens ++ tokensAll es

end

mutual

def declarations (scopes : ScopeStack) : Element → List Declaration
  | .filler _ _ => []
  | .entry e => e.declarations scopes
  | .block _ body _ _ => declarationsAll scopes body

def declarationsAll (scopes : ScopeStack) : List Element → List Declaration
  | [] => []
  | e :: es => e.declarations scopes ++ declarationsAll scopes es

end

end Element

/-- A name in the heading of a namespace, with the layout before it. -/
structure Segment where
  layout : List Token
  name : Token
  layout_isLayout : ∀ t ∈ layout, t.kind.isLayout = true
  name_kind : name.kind = .name

/-- A separator in the heading of a namespace, with the layout before it and the name after it. -/
structure NextSegment extends Segment where
  before : List Token
  separator : Token
  before_isLayout : ∀ t ∈ before, t.kind.isLayout = true
  separator_kind : separator.kind = .nsSeparator

/-- The scope of a name before a separator, which has no pattern. -/
def segmentScope (name : Token) : ScopeFrame := ⟨.namespaceScope, name.text, none⟩

def Segment.tokens (s : Segment) : List Token := s.layout ++ [s.name]

def NextSegment.tokens (s : NextSegment) : List Token :=
  s.before ++ s.separator :: s.toSegment.tokens

/-- What follows the name of a namespace: a semicolon, or elements in braces. -/
inductive NamespaceEnd where
  | semicolon (t : Token) (isSemicolon : t.isSymbol ";" = true)
  | body (opening : Token) (elements : List Element) (closing : Token)
      (isBlock : opening.isSymbol "\x7b" = true ∧ closing.closesBlock = true)

/-- The token that ends the heading of a namespace. -/
def NamespaceEnd.mark : NamespaceEnd → Token
  | .semicolon t _ => t
  | .body opening _ _ _ => opening

/-- The tokens behind the heading of a namespace. -/
def NamespaceEnd.bodyTokens : NamespaceEnd → List Token
  | .semicolon _ _ => []
  | .body _ elements closing _ => Element.tokensAll elements ++ [closing]

/-- `namespace NAME \ NAME …`, with layout anywhere between, and its end. -/
structure NamespaceDecl where
  word : Token
  first : Segment
  more : List NextSegment
  layout : List Token
  ending : NamespaceEnd
  word_kind : word.kind = .namespaceWord
  layout_isLayout : ∀ t ∈ layout, t.kind.isLayout = true

namespace NamespaceDecl

/-- The names of a namespace, outermost first. -/
def names (n : NamespaceDecl) : List Token := n.first.name :: n.more.map (·.name)

/-- The innermost name. -/
def last (n : NamespaceDecl) : Token := (n.more.map (·.name)).getLast?.getD n.first.name

def headingTokens (n : NamespaceDecl) : List Token :=
  n.word :: (n.first.tokens ++ (n.more.flatMap NextSegment.tokens ++
    (n.layout ++ [n.ending.mark])))

def tokens (n : NamespaceDecl) : List Token := n.headingTokens ++ n.ending.bodyTokens

/-- The scopes of the names before the innermost one. -/
def outerScopes (n : NamespaceDecl) : ScopeStack := n.names.dropLast.map segmentScope

def declaration (n : NamespaceDecl) : Declaration where
  name := n.last.text
  kind := .namespaceDecl
  line := n.last.line
  snippet := snippetOf n.headingTokens
  scopes := n.outerScopes

/-- The scopes inside of a namespace. -/
def innerScopes (n : NamespaceDecl) : ScopeStack :=
  n.outerScopes ++ [⟨.namespaceScope, n.last.text, some (snippetOf n.headingTokens)⟩]

def declarations (n : NamespaceDecl) : List Declaration :=
  n.declaration ::
    match n.ending with
    | .semicolon _ _ => []
    | .body _ elements _ _ => Element.declarationsAll n.innerScopes elements

/-- The scopes behind a namespace: a body is left again, a semicolon is not. -/
def scopesAfter (n : NamespaceDecl) : ScopeStack :=
  match n.ending with
  | .semicolon _ _ => n.innerScopes
  | .body _ _ _ _ => []

end NamespaceDecl

/-! ## Programs -/

inductive Item where
  | filler (t : Token) (isFiller : t.isDeclaring = false)
  | entry (e : Entry)
  | namespaceDecl (n : NamespaceDecl)

namespace Item

def tokens : Item → List Token
  | .filler t _ => [t]
  | .entry e => e.tokens
  | .namespaceDecl n => n.tokens

def declarations (scopes : ScopeStack) : Item → List Declaration
  | .filler _ _ => []
  | .entry e => e.declarations scopes
  | .namespaceDecl n => n.declarations

/-- The scopes behind an item. -/
def scopesAfter (scopes : ScopeStack) : Item → ScopeStack
  | .filler _ _ | .entry _ => scopes
  | .namespaceDecl n => n.scopesAfter

end Item

abbrev Program := List Item

namespace Program

def tokens (p : Program) : List Token := p.flatMap Item.tokens

/-- What a program declares when it starts inside some scopes. -/
def declarations (scopes : ScopeStack) : Program → List Declaration
  | [] => []
  | i :: is => i.declarations scopes ++ declarations (i.scopesAfter scopes) is

/-- The scopes at the end of a program that starts inside some. -/
def scopesAfter (scopes : ScopeStack) : Program → ScopeStack
  | [] => scopes
  | i :: is => scopesAfter (i.scopesAfter scopes) is

end Program
end TagsFile
