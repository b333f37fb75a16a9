import TagsFile.Declaration.Basic
import TagsFile.Declaration.Heading

/-!
# Extraction of declarations

One pass over the tokens of a source finds its declarations and keeps the scopes around them. Bodies
of functions and other blocks are skipped by counting braces.

## Main definitions

* `Extraction`: cursor, scopes and declarations so far.
* `Extraction.function`, `constant`, `visible`, `type`, `namespaceDeclaration`: one declaration
  each, from its keyword on.
* `Extraction.run`: the whole list of tokens.
* `Extraction.tags`: the tags of what was found.
-/

namespace TagsFile

/-- What an extraction could come upon if it lost its place. -/
inductive ExtractionFault where
  /-- There is no token where the line of one is needed. -/
  | noToken
  /-- There is no scope to leave. -/
  | noScope
deriving DecidableEq, Repr

structure Extraction where
  cursor : Cursor
  scopes : ScopeStack := []
  declarations : List Declaration := []
  /-- The first fault. -/
  fault : Option ExtractionFault := none

namespace Extraction

/-- How many tokens there are from the current one on. -/
def remaining (e : Extraction) : Nat := e.cursor.remaining

def advance (e : Extraction) : Extraction := { e with cursor := e.cursor.advance }

def startCollect (e : Extraction) : Extraction := { e with cursor := e.cursor.startCollect }

def stopCollect (e : Extraction) : Extraction := { e with cursor := e.cursor.stopCollect }

def skipBlock (e : Extraction) : Extraction := { e with cursor := e.cursor.skipBlock }

def fail (fault : ExtractionFault) (e : Extraction) : Extraction :=
  { e with fault := e.fault.or (some fault) }

/-- The line of the current token. -/
def line (e : Extraction) : Int × Extraction :=
  match e.cursor.current? with
  | some t => (t.line, e)
  | none => (0, e.fail .noToken)

def enter (frame : ScopeFrame) (e : Extraction) : Extraction :=
  { e with scopes := e.scopes.push frame }

/-- Leaves the innermost scope. -/
def leave (e : Extraction) : Extraction :=
  match e.scopes.pop? with
  | some (_, scopes) => { e with scopes }
  | none => e.fail .noScope

theorem scopes_leave (e : Extraction) : e.leave.scopes = e.scopes.dropLast := by
  rcases List.eq_nil_or_concat e.scopes with hempty | ⟨outer, frame, hscopes⟩
  · simp [leave, ScopeStack.pop?, hempty, fail]
  · simp [leave, ScopeStack.pop?, hscopes]

/-- Leaves scopes until no more than `outer` are left. -/
def leaveTo (outer : Nat) (e : Extraction) : Extraction :=
  if outer < e.scopes.length then leaveTo outer e.leave else e
termination_by e.scopes.length
decreasing_by simp only [scopes_leave, List.length_dropLast]; omega

/-- There is a scope to leave each time. -/
theorem leaveTo_eq (outer : Nat) (e : Extraction) :
    e.leaveTo outer = { e with scopes := e.scopes.take outer } := by
  fun_induction leaveTo outer e with
  | case1 e h ih =>
    obtain ⟨scopes, frame, hscopes⟩ : ∃ scopes frame, e.scopes = scopes ++ [frame] := by
      rcases List.eq_nil_or_concat e.scopes with hempty | ⟨scopes, frame, hscopes⟩
      · simp [hempty] at h
      · exact ⟨scopes, frame, by simpa using hscopes⟩
    have hleave : e.leave = { e with scopes } := by
      simp [leave, ScopeStack.pop?, hscopes]
    have hlength : outer ≤ scopes.length := by
      rw [hscopes, List.length_append, List.length_singleton] at h
      omega
    rw [ih, hleave, hscopes, List.take_append_of_le_length hlength]
  | case2 e h => rw [List.take_of_length_le (by omega)]

/-- Adds a declaration inside the current scopes. -/
def declare (e : Extraction) (name : Text) (kind : TagKind) (line : Int) (snippet : Text)
    (signature access : Option Text) : Extraction :=
  { e with
    declarations := e.declarations ++
      [{ name, kind, line, snippet, scopes := e.scopes, signature, access }] }

/-! ## Measure -/

@[grind =] theorem remaining_advance (e : Extraction) : e.advance.remaining = e.remaining - 1 :=
  e.cursor.remaining_advance

@[grind =] theorem remaining_startCollect (e : Extraction) :
    e.startCollect.remaining = e.remaining := rfl

@[grind =] theorem remaining_stopCollect (e : Extraction) :
    e.stopCollect.remaining = e.remaining := rfl

theorem remaining_skipBlock (e : Extraction) : e.skipBlock.remaining ≤ e.remaining :=
  e.cursor.remaining_skipBlock

@[grind =] theorem remaining_line (e : Extraction) : e.line.2.remaining = e.remaining := by
  unfold line; split <;> rfl

@[grind =] theorem remaining_enter (frame : ScopeFrame) (e : Extraction) :
    (e.enter frame).remaining = e.remaining := rfl

@[grind =] theorem remaining_leave (e : Extraction) : e.leave.remaining = e.remaining := by
  unfold leave; split <;> rfl

@[grind =] theorem remaining_declare (e : Extraction) (name : Text) (kind : TagKind) (line : Int)
    (snippet : Text) (signature access : Option Text) :
    (e.declare name kind line snippet signature access).remaining = e.remaining := rfl

@[grind →] theorem remaining_of_rest {e : Extraction} {t : Token} {ts : List Token}
    (h : e.cursor.rest = t :: ts) : e.remaining = ts.length + 1 := by
  simp [remaining, Cursor.remaining, h]

/-! ## Functions and constants -/

/-- A function from its keyword on. It is declared if it has a name and an end. -/
def function (access : Option Text) (e : Extraction) : Extraction :=
  let (line, e) := e.line
  let (parts, cursor) := e.cursor.startCollect.functionParts {}
  let e := { e with cursor := cursor.stopCollect }
  match parts.ended, parts.name, parts.pattern with
  | true, some name, some pattern =>
    e.declare name .functionDecl line pattern parts.signature access
  | _, _, _ => e

/-- A heading from its keyword to its name: the name and the snippet, with the name declared. -/
def named (kind : TagKind) (e : Extraction) : Option Text × Text × Extraction :=
  let (line, e) := e.line
  let (name?, cursor) := e.cursor.startCollect.toName
  let e := { e with cursor := cursor.stopCollect }
  match name? with
  | some name => (some name, cursor.snippet, e.declare name kind line cursor.snippet none none)
  | none => (none, cursor.snippet, e)

/-- A constant from its keyword on. -/
def constant (e : Extraction) : Extraction := (e.named .constantDecl).2.2

theorem remaining_function (access : Option Text) (e : Extraction) :
    (e.function access).remaining ≤ e.remaining := by
  have := Cursor.remaining_functionParts {} e.line.2.cursor.startCollect
  have := remaining_line e
  unfold function
  grind [remaining]

theorem remaining_named (kind : TagKind) (e : Extraction) :
    (e.named kind).2.2.remaining ≤ e.remaining := by
  have := Cursor.remaining_toName e.line.2.cursor.startCollect
  have := remaining_line e
  unfold named
  grind [remaining]

theorem remaining_constant (e : Extraction) : e.constant.remaining ≤ e.remaining :=
  remaining_named .constantDecl e

/-! ## Members -/

/-- The access that a visibility word gives. -/
def accessOf? : TokenKind → Option Text
  | .privateWord => some "private"
  | .protectedWord => some "protected"
  | .publicWord | .varWord => some "public"
  | _ => none

/-- Members behind a visibility word, from the current token on. Every variable is a property: the
first with the snippet from the visibility word, the later ones with their own text. -/
def properties (access : Option Text) (first : Bool) (e : Extraction) : Extraction :=
  match _h : e.cursor.rest with
  | [] => e.stopCollect
  | t :: _ =>
    if (accessOf? t.kind).isSome then properties (accessOf? t.kind) first e.advance
    else if t.kind = .variableName then
      let e' := (if first then e else e.startCollect).stopCollect
      properties access false
        (e'.declare t.text .propertyDecl t.line e'.cursor.snippet none access).advance
    else if t.kind = .functionWord then e.function access
    else if t.kind = .constWord then e.stopCollect.constant
    else if t.isSymbol ";" then e.stopCollect
    else if t.opensBlock then e.stopCollect.skipBlock
    else properties access first e.advance
termination_by e.remaining
decreasing_by all_goals grind

/-- Members from their visibility word on. -/
def visible (e : Extraction) : Extraction := e.startCollect.properties none true

theorem remaining_properties (access : Option Text) (first : Bool) (e : Extraction) :
    (e.properties access first).remaining ≤ e.remaining := by
  fun_induction properties access first e <;>
    grind [remaining_function, remaining_constant, remaining_skipBlock]

theorem remaining_visible (e : Extraction) : e.visible.remaining ≤ e.remaining :=
  remaining_properties none true e.startCollect

/-- Members behind the current token, to the brace that ends them. -/
def members (skipsBlocks : Bool) (e : Extraction) : Extraction :=
  match _h : e.advance.cursor.rest with
  | [] => e.advance
  | t :: _ =>
    if (accessOf? t.kind).isSome then members skipsBlocks e.advance.visible
    else if t.kind = .constWord then members skipsBlocks e.advance.constant
    else if t.kind = .functionWord then members skipsBlocks (e.advance.function (some "public"))
    else if skipsBlocks && t.opensBlock then members skipsBlocks e.advance.skipBlock
    else if t.closesBlock then e.advance
    else members skipsBlocks e.advance
termination_by e.remaining
decreasing_by
  all_goals grind [remaining_visible, remaining_constant, remaining_function, remaining_skipBlock]

theorem remaining_members (skipsBlocks : Bool) (e : Extraction) :
    (e.members skipsBlocks).remaining ≤ e.remaining := by
  fun_induction members skipsBlocks e <;>
    grind [remaining_visible, remaining_constant, remaining_function, remaining_skipBlock]

/-! ## Types -/

/-- Forward to the next opening brace; says whether there is one. -/
def toBody (e : Extraction) : Bool × Extraction :=
  let (found, cursor) := e.cursor.skipTo ["\x7b"]
  (found, { e with cursor })

theorem remaining_toBody (e : Extraction) : e.toBody.2.remaining ≤ e.remaining :=
  e.cursor.remaining_skipTo _

/-- Skips the body of a type without a name from the token that ended the search for one. -/
def anonymousBody (e : Extraction) : Extraction :=
  match e.cursor.rest with
  | [] => e
  | t :: _ =>
    if t.isSymbol ";" then e
    else if t.isSymbol "\x7b" then e.skipBlock
    else if e.toBody.1 then e.toBody.2.skipBlock else e.toBody.2

/-- A type from its keyword on. -/
def type (kind : TagKind) (scope : ScopeKind) (skipsBlocks : Bool) (e : Extraction) : Extraction :=
  let (name?, pattern, e) := e.named kind
  match name? with
  | none => e.anonymousBody
  | some name =>
    let (found, e) := (e.enter ⟨scope, name, some pattern⟩).toBody
    (if found then e.members skipsBlocks else e).leave

theorem remaining_anonymousBody (e : Extraction) :
    e.anonymousBody.remaining ≤ e.remaining := by
  unfold anonymousBody; grind [remaining_skipBlock, remaining_toBody]

theorem remaining_type (kind : TagKind) (scope : ScopeKind) (skipsBlocks : Bool)
    (e : Extraction) : (e.type kind scope skipsBlocks).remaining ≤ e.remaining := by
  unfold type
  grind [remaining_named, remaining_anonymousBody, remaining_toBody, remaining_members]

/-- The declaration that the token introduces, if it introduces one. -/
def declaration (t : Token) (e : Extraction) : Extraction :=
  match t.kind with
  | .interfaceWord => e.type .interfaceDecl .interfaceScope false
  | .classWord => e.type .classDecl .classScope true
  | .functionWord => e.function none
  | .constWord => e.constant
  | _ => e

theorem remaining_declaration (t : Token) (e : Extraction) :
    (e.declaration t).remaining ≤ e.remaining := by
  unfold declaration; grind [remaining_type, remaining_function, remaining_constant]

/-! ## Namespaces -/

/-- What stands between the braces of a namespace, with `depth` inner blocks open. -/
def namespaceBody (depth : Nat) (e : Extraction) : Extraction :=
  match _h : e.advance.cursor.rest with
  | [] => e.advance
  | t :: _ =>
    if t.closesBlock then
      if depth = 0 then e.advance else namespaceBody (depth - 1) e.advance
    else if t.opensBlock then namespaceBody (depth + 1) e.advance
    else namespaceBody depth (e.advance.declaration t)
termination_by e.remaining
decreasing_by all_goals grind [remaining_declaration]

theorem remaining_namespaceBody (depth : Nat) (e : Extraction) :
    (e.namespaceBody depth).remaining ≤ e.remaining := by
  fun_induction namespaceBody depth e <;> grind [remaining_declaration]

/-- Declares a namespace by its last name, if it has one, and enters it. -/
def enterNamespace (last? : Option (Text × Int)) (e : Extraction) : Extraction :=
  let pattern := e.cursor.snippet
  let e := e.stopCollect
  match last? with
  | none => e
  | some (name, line) =>
    (e.declare name .namespaceDecl line pattern none none).enter
      ⟨.namespaceScope, name, some pattern⟩

/-- Enters the part of a namespace's name before a separator. -/
def enterSegment (last? : Option (Text × Int)) (e : Extraction) : Extraction :=
  match last? with
  | none => e
  | some (name, _) => e.enter ⟨.namespaceScope, name, none⟩

@[grind =] theorem remaining_enterNamespace (last? : Option (Text × Int)) (e : Extraction) :
    (e.enterNamespace last?).remaining = e.remaining := by
  unfold enterNamespace; grind

@[grind =] theorem remaining_enterSegment (last? : Option (Text × Int)) (e : Extraction) :
    (e.enterSegment last?).remaining = e.remaining := by
  unfold enterSegment; grind

/-- The heading of a namespace behind the current token, and its body if braces hold it. A body is
left with the `outer` scopes that were there before. -/
def namespaceHeading (outer : Nat) (last? : Option (Text × Int)) (e : Extraction) : Extraction :=
  match _h : e.advance.cursor.rest with
  | [] => e.advance.stopCollect
  | t :: _ =>
    if t.kind = .name then namespaceHeading outer (some (t.text, t.line)) e.advance
    else if t.kind = .nsSeparator then namespaceHeading outer last? (e.advance.enterSegment last?)
    else if t.isSymbol "\x7b" then
      ((e.advance.enterNamespace last?).namespaceBody 0).leaveTo outer
    else if t.isSymbol ";" then e.advance.enterNamespace last?
    else namespaceHeading outer last? e.advance
termination_by e.remaining
decreasing_by all_goals grind

/-- A namespace from its keyword on. -/
def namespaceDeclaration (e : Extraction) : Extraction :=
  e.startCollect.namespaceHeading e.scopes.length none

theorem remaining_namespaceHeading (outer : Nat) (last? : Option (Text × Int))
    (e : Extraction) : (e.namespaceHeading outer last?).remaining ≤ e.remaining := by
  fun_induction namespaceHeading outer last? e <;>
    grind [remaining, remaining_namespaceBody, leaveTo_eq]

theorem remaining_namespaceDeclaration (e : Extraction) :
    e.namespaceDeclaration.remaining ≤ e.remaining :=
  remaining_namespaceHeading e.scopes.length none e.startCollect

/-! ## Whole sources -/

/-- What the current token introduces outside of all braces. A namespace leaves all scopes. -/
def item (t : Token) (e : Extraction) : Extraction :=
  if t.kind = .namespaceWord then { e with scopes := [] }.namespaceDeclaration
  else e.declaration t

theorem remaining_item (t : Token) (e : Extraction) :
    (e.item t).remaining ≤ e.remaining := by
  have := remaining_namespaceDeclaration { e with scopes := [] }
  unfold item; grind [remaining, remaining_declaration]

/-- All declarations from the current token on. -/
def items (e : Extraction) : Extraction :=
  match _h : e.cursor.rest with
  | [] => e
  | t :: _ => items (e.item t).advance
termination_by e.remaining
decreasing_by grind [remaining_item]

/-- Goes through a list of tokens inside some scopes. -/
def run (tokens : List Token) (scopes : ScopeStack) : Extraction :=
  items { cursor := { rest := tokens }, scopes }

/-- The tags of the declarations found, unless there was a fault. -/
def tags (path : Text) (e : Extraction) : Except ExtractionFault (List SourceTag) :=
  match e.fault with
  | some fault => .error fault
  | none => .ok (e.declarations.map (Declaration.tag path))

end Extraction
end TagsFile
