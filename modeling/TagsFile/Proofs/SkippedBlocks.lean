import TagsFile.Proofs.BlockEnds
import TagsFile.Proofs.Locality

/-!
# Skipped blocks do not matter

What stands in a block that is skipped has no effect on the tags and the scopes of a source, as long
as its braces match. A block is skipped if the routines of an extraction, on their way from one to
another, come to it and skip it. So the calls of each routine are told here; two runs that differ in
the block make the same calls up to it and find the same behind it.

## Main definitions

* `Extraction.Routine`, `Extraction.Call`: the routines of an extraction and their calls.
* `Extraction.Routine.calls`: the calls that a routine makes.
* `Extraction.Skips`: whether a routine comes to skip a block.

## Main statements

* `Extraction.isMadeBy_of_mem_calls`: a routine ends as its calls do.
* `Extraction.localCalls_calls`: the calls up to some tokens are the same whatever they are.
* `skipped_block_irrelevant`: counting is skipping one by one, and what is skipped does not matter.
-/

namespace TagsFile
namespace Extraction

/-! ## Routines and their calls -/

/-- Declares a function of which the parts are known, if it has a name and an end. -/
def declareFunction (access : Option Text) (line : Int) (parts : FunctionParts) (e : Extraction) :
    Extraction :=
  match parts.ended, parts.name, parts.pattern with
  | true, some name, some pattern =>
    e.declare name .functionDecl line pattern parts.signature access
  | _, _, _ => e

/-- A function from inside its heading on. -/
def functionBehind (access : Option Text) (line : Int) (p : FunctionParts) (e : Extraction) :
    Extraction :=
  let found := e.cursor.functionParts p
  declareFunction access line found.1 { e with cursor := found.2.stopCollect }

/-- The routines of an extraction on the way to a block, each with what it is told. -/
inductive Routine where
  | items
  | item (t : Token)
  | namespaceDeclaration
  | namespaceHeading (outer : Nat) (last? : Option (Text × Int))
  | namespaceBody (depth : Nat)
  | declaration (t : Token)
  | type (kind : TagKind) (scope : ScopeKind) (skipsBlocks : Bool)
  | anonymousBody
  | members (skipsBlocks : Bool)
  | visible
  | properties (access : Option Text) (first : Bool)
  | function (access : Option Text)
  | functionBehind (access : Option Text) (line : Int) (parts : FunctionParts)
  | skipBlock

def Routine.run : Routine → Extraction → Extraction
  | .items, e => e.items
  | .item t, e => e.item t
  | .namespaceDeclaration, e => e.namespaceDeclaration
  | .namespaceHeading outer last?, e => e.namespaceHeading outer last?
  | .namespaceBody depth, e => e.namespaceBody depth
  | .declaration t, e => e.declaration t
  | .type kind scope skipsBlocks, e => e.type kind scope skipsBlocks
  | .anonymousBody, e => e.anonymousBody
  | .members skipsBlocks, e => e.members skipsBlocks
  | .visible, e => e.visible
  | .properties access first, e => e.properties access first
  | .function access, e => e.function access
  | .functionBehind access line parts, e => e.functionBehind access line parts
  | .skipBlock, e => e.skipBlock

/-- A call of a routine, and what the caller makes of its result. -/
structure Call where
  routine : Routine
  start : Extraction
  resume : Extraction → Extraction

/-- A routine as the last thing that the caller does. -/
def goOn (r : Routine) (e : Extraction) : List Call := [⟨r, e, id⟩]

/-- One routine, and another as the last thing that the caller does. -/
def inTurn (first second : Routine) (e : Extraction) : List Call :=
  ⟨first, e, second.run⟩ :: goOn second (first.run e)

/-- A routine from the next opening brace on, if there is one. -/
def intoBody (r : Routine) (resume : Extraction → Extraction) (e : Extraction) : List Call :=
  if e.toBody.1 then [⟨r, e.toBody.2, resume⟩] else []

/-- The calls that depend on the current token. -/
def atToken (calls : Token → Extraction → List Call) (e : Extraction) : List Call :=
  match e.cursor.rest with
  | [] => []
  | t :: _ => calls t e

/-- The token behind the name of a function ends the snippet. -/
def endPattern (p : FunctionParts) (e : Extraction) : Extraction :=
  if p.afterName then e.stopCollect else e

def headingCalls (access : Option Text) (line : Int) (p : FunctionParts) (t : Token) :
    Extraction → List Call :=
  if t.kind = .name then fun e =>
    goOn (.functionBehind access line ((p.takePattern e.cursor.snippet).takeName t.text))
      (e.endPattern p)
  else if t.isSymbol "(" then fun e =>
    let found := (e.endPattern p).cursor.parameters
    goOn (.functionBehind access line ((p.takePattern e.cursor.snippet).takeSignature found.1))
      { e with cursor := found.2 }
  else if t.isSymbol "\x7b" then fun e =>
    let parts := { p.takePattern e.cursor.snippet with ended := true }
    [⟨.skipBlock, e.endPattern p, fun e => e.stopCollect.declareFunction access line parts⟩]
  else if t.isSymbol ";" then fun _ => []
  else fun e =>
    goOn (.functionBehind access line (p.takePattern e.cursor.snippet)) (e.endPattern p)

/-- Declares the property that the current token is. -/
def declareProperty (access : Option Text) (first : Bool) (t : Token) (e : Extraction) :
    Extraction :=
  let e' := (if first then e else e.startCollect).stopCollect
  e'.declare t.text .propertyDecl t.line e'.cursor.snippet none access

def propertyCalls (access : Option Text) (first : Bool) (t : Token) : Extraction → List Call :=
  if (accessOf? t.kind).isSome then goOn (.properties (accessOf? t.kind) first) ∘ advance
  else if t.kind = .variableName then
    goOn (.properties access false) ∘ advance ∘ declareProperty access first t
  else if t.kind = .functionWord then goOn (.function access)
  else if t.kind = .constWord then fun _ => []
  else if t.isSymbol ";" then fun _ => []
  else if t.opensBlock then goOn .skipBlock ∘ stopCollect
  else goOn (.properties access first) ∘ advance

def memberCalls (skipsBlocks : Bool) (t : Token) : Extraction → List Call :=
  if (accessOf? t.kind).isSome then inTurn .visible (.members skipsBlocks)
  else if t.kind = .constWord then goOn (.members skipsBlocks) ∘ constant
  else if t.kind = .functionWord then inTurn (.function (some "public")) (.members skipsBlocks)
  else if skipsBlocks && t.opensBlock then inTurn .skipBlock (.members skipsBlocks)
  else if t.closesBlock then fun _ => []
  else goOn (.members skipsBlocks)

def anonymousCalls (t : Token) : Extraction → List Call :=
  if t.isSymbol ";" then fun _ => []
  else if t.isSymbol "\x7b" then goOn .skipBlock
  else intoBody .skipBlock id

/-- The calls of a type behind the search for its name. -/
def typeCalls (scope : ScopeKind) (skipsBlocks : Bool) (name? : Option Text) (pattern : Text) :
    Extraction → List Call :=
  match name? with
  | none => goOn .anonymousBody
  | some name => intoBody (.members skipsBlocks) leave ∘ enter ⟨scope, name, some pattern⟩

def declarationCalls (t : Token) : Extraction → List Call :=
  match t.kind with
  | .interfaceWord => goOn (.type .interfaceDecl .interfaceScope false)
  | .classWord => goOn (.type .classDecl .classScope true)
  | .functionWord => goOn (.function none)
  | _ => fun _ => []

def namespaceCalls (depth : Nat) (t : Token) : Extraction → List Call :=
  if t.closesBlock then
    if depth = 0 then fun _ => [] else goOn (.namespaceBody (depth - 1))
  else if t.opensBlock then goOn (.namespaceBody (depth + 1))
  else inTurn (.declaration t) (.namespaceBody depth)

def namespaceHeadingCalls (outer : Nat) (last? : Option (Text × Int)) (t : Token) :
    Extraction → List Call :=
  if t.kind = .name then goOn (.namespaceHeading outer (some (t.text, t.line)))
  else if t.kind = .nsSeparator then goOn (.namespaceHeading outer last?) ∘ enterSegment last?
  else if t.isSymbol "\x7b" then fun e =>
    [⟨.namespaceBody 0, e.enterNamespace last?, leaveTo outer⟩]
  else if t.isSymbol ";" then fun _ => []
  else goOn (.namespaceHeading outer last?)

/-- The calls that a routine makes. -/
def Routine.calls : Routine → Extraction → List Call
  | .items => atToken fun t e =>
    ⟨.item t, e, fun e => e.advance.items⟩ :: goOn .items (e.item t).advance
  | .item t =>
    if t.kind = .namespaceWord then fun e => goOn .namespaceDeclaration { e with scopes := [] }
    else goOn (.declaration t)
  | .namespaceDeclaration => fun e => goOn (.namespaceHeading e.scopes.length none) e.startCollect
  | .namespaceHeading outer last? => atToken (namespaceHeadingCalls outer last?) ∘ advance
  | .namespaceBody depth => atToken (namespaceCalls depth) ∘ advance
  | .declaration t => declarationCalls t
  | .type kind scope skipsBlocks => fun e =>
    let found := e.named kind
    typeCalls scope skipsBlocks found.1 found.2.1 found.2.2
  | .anonymousBody => atToken anonymousCalls
  | .members skipsBlocks => atToken (memberCalls skipsBlocks) ∘ advance
  | .visible => goOn (.properties none true) ∘ startCollect
  | .properties access first => atToken (propertyCalls access first)
  | .function access => fun e => goOn (.functionBehind access e.line.1 {}) e.line.2.startCollect
  | .functionBehind access line parts => atToken (headingCalls access line parts) ∘ advance
  | .skipBlock => fun _ => []

variable {e e' : Extraction} {t : Token} {ts : List Token} {call : Call}

theorem mem_atToken {calls : Token → Extraction → List Call} :
    call ∈ e.atToken calls ↔ ∃ t ts, e.cursor.rest = t :: ts ∧ call ∈ calls t e := by
  unfold atToken
  split <;> simp_all

/-! ## What is done with a result -/

theorem Agrees.skipBlock (h : Agrees e e') : Agrees e.skipBlock e'.skipBlock where
  rest := by
    have hend := Cursor.blocksEnd_skipBlocks 0 e.cursor
    rw [h.rest] at hend
    exact hend.unique (Cursor.blocksEnd_skipBlocks 0 e'.cursor)
  scopes := h.scopes
  declarations := h.declarations
  fault := h.fault

theorem Agrees.function (h : Agrees e e') (access : Option Text) :
    Agrees (e.function access) (e'.function access) :=
  h.step (function_within access) fun e => by
    rw [function_startCollect]
    exact .refl _

theorem Agrees.constant (h : Agrees e e') : Agrees e.constant e'.constant :=
  h.step constant_within fun e => by
    rw [Extraction.constant, named_startCollect]
    exact .refl _

theorem Agrees.visible (h : Agrees e e') : Agrees e.visible e'.visible :=
  h.step visible_within fun _ => .refl _

theorem Agrees.members (h : Agrees e.advance e'.advance) (skipsBlocks : Bool) :
    Agrees (e.members skipsBlocks) (e'.members skipsBlocks) := by
  fun_induction Extraction.members skipsBlocks e generalizing e' with
  | case1 e hrest =>
    rw [members_end skipsBlocks (h.tail_eq hrest)]
    exact h
  | case2 e t ts hrest haccess ih =>
    rw [members_next skipsBlocks (h.tail_eq hrest), if_pos haccess]
    exact ih h.visible.advance
  | case3 e t ts hrest haccess hconst ih =>
    rw [members_next skipsBlocks (h.tail_eq hrest), if_neg haccess, if_pos hconst]
    exact ih h.constant.advance
  | case4 e t ts hrest haccess hconst hfunction ih =>
    rw [members_next skipsBlocks (h.tail_eq hrest), if_neg haccess, if_neg hconst,
      if_pos hfunction]
    exact ih (h.function _).advance
  | case5 e t ts hrest haccess hconst hfunction hopens ih =>
    rw [members_next skipsBlocks (h.tail_eq hrest), if_neg haccess, if_neg hconst,
      if_neg hfunction, if_pos hopens]
    exact ih h.skipBlock.advance
  | case6 e t ts hrest haccess hconst hfunction hopens hcloses =>
    rw [members_next skipsBlocks (h.tail_eq hrest), if_neg haccess, if_neg hconst,
      if_neg hfunction, if_neg hopens, if_pos hcloses]
    exact h
  | case7 e t ts hrest haccess hconst hfunction hopens hcloses ih =>
    rw [members_next skipsBlocks (h.tail_eq hrest), if_neg haccess, if_neg hconst,
      if_neg hfunction, if_neg hopens, if_neg hcloses]
    exact ih h.advance

theorem Agrees.leaveTo (h : Agrees e e') (outer : Nat) :
    Agrees (e.leaveTo outer) (e'.leaveTo outer) := by
  rw [leaveTo_eq, leaveTo_eq, h.scopes]
  exact ⟨h.rest, rfl, h.declarations, h.fault⟩

theorem Agrees.leave (h : Agrees e e') : Agrees e.leave e'.leave := by
  unfold Extraction.leave fail
  rw [h.scopes]
  split
  · exact ⟨h.rest, rfl, h.declarations, h.fault⟩
  · exact ⟨h.rest, rfl, h.declarations, by rw [h.fault]⟩

theorem Agrees.declareFunction (h : Agrees e e') (access : Option Text) (line : Int)
    (parts : FunctionParts) : Agrees (e.stopCollect.declareFunction access line parts)
      (e'.stopCollect.declareFunction access line parts) := by
  unfold Extraction.declareFunction
  split
  · exact ⟨h.rest, h.scopes, by simp [declare, stopCollect, h.declarations, h.scopes], h.fault⟩
  · exact ⟨h.rest, h.scopes, h.declarations, h.fault⟩

/-! ## Calls are parts of their callers -/

/-- Whether a caller ends as its call does, up to what it makes of the result. -/
structure Call.IsMadeBy (call : Call) (r : Routine) (e : Extraction) : Prop where
  run_eq : r.run e = call.resume (call.routine.run call.start)
  agrees {x y : Extraction} : Agrees x y → Agrees (call.resume x) (call.resume y)

namespace Call.IsMadeBy

variable {r first second : Routine}

theorem goOn (hcall : call ∈ goOn first e') (hrun : r.run e = first.run e') :
    call.IsMadeBy r e := by
  obtain rfl := List.mem_singleton.1 hcall
  exact ⟨hrun, id⟩

theorem inTurn (hcall : call ∈ inTurn first second e')
    (hrun : r.run e = second.run (first.run e'))
    (hagrees : ∀ {x y}, Agrees x y → Agrees (second.run x) (second.run y)) :
    call.IsMadeBy r e := by
  obtain rfl | hcall := List.mem_cons.1 hcall
  · exact ⟨hrun, hagrees⟩
  · exact .goOn hcall hrun

theorem intoBody {resume : Extraction → Extraction} (hcall : call ∈ intoBody first resume e')
    (hrun : e'.toBody.1 = true → r.run e = resume (first.run e'.toBody.2))
    (hagrees : ∀ {x y}, Agrees x y → Agrees (resume x) (resume y)) : call.IsMadeBy r e := by
  unfold Extraction.intoBody at hcall
  split_ifs at hcall with hfound
  · obtain rfl := List.mem_singleton.1 hcall
    exact ⟨hrun hfound, hagrees⟩
  · cases hcall

end Call.IsMadeBy

theorem isMadeBy_of_mem_namespaceHeadingCalls {outer : Nat} {last? : Option (Text × Int)}
    (hrest : e.advance.cursor.rest = t :: ts)
    (hcall : call ∈ namespaceHeadingCalls outer last? t e.advance) :
    call.IsMadeBy (.namespaceHeading outer last?) e := by
  have hrun := namespaceHeading_next outer last? (e.cursor.rest_advance ▸ hrest)
  unfold namespaceHeadingCalls at hcall
  split_ifs at hcall hrun
  · exact .goOn hcall hrun
  · exact .goOn hcall hrun
  · obtain rfl := List.mem_singleton.1 hcall
    exact ⟨hrun.trans (leaveTo_eq outer _).symm, fun h => h.leaveTo outer⟩
  · cases hcall
  · exact .goOn hcall hrun

theorem isMadeBy_of_mem_namespaceCalls {depth : Nat} (hrest : e.advance.cursor.rest = t :: ts)
    (hcall : call ∈ namespaceCalls depth t e.advance) :
    call.IsMadeBy (.namespaceBody depth) e := by
  have hrun := namespaceBody_next depth (e.cursor.rest_advance ▸ hrest)
  unfold namespaceCalls at hcall
  split_ifs at hcall hrun
  · cases hcall
  · exact .goOn hcall hrun
  · exact .goOn hcall hrun
  · exact .inTurn hcall hrun fun h => h.advance.namespaceBody depth

theorem isMadeBy_of_mem_memberCalls {skipsBlocks : Bool} (hrest : e.advance.cursor.rest = t :: ts)
    (hcall : call ∈ memberCalls skipsBlocks t e.advance) :
    call.IsMadeBy (.members skipsBlocks) e := by
  have hrun := members_next skipsBlocks (e.cursor.rest_advance ▸ hrest)
  have hagrees {x y : Extraction} (h : Agrees x y) :
      Agrees (x.members skipsBlocks) (y.members skipsBlocks) := h.advance.members skipsBlocks
  unfold memberCalls at hcall
  split_ifs at hcall hrun
  · exact .inTurn hcall hrun hagrees
  · exact .goOn hcall hrun
  · exact .inTurn hcall hrun hagrees
  · exact .inTurn hcall hrun hagrees
  · cases hcall
  · exact .goOn hcall hrun

theorem isMadeBy_of_mem_propertyCalls {access : Option Text} {first : Bool}
    (hrest : e.cursor.rest = t :: ts) (hcall : call ∈ propertyCalls access first t e) :
    call.IsMadeBy (.properties access first) e := by
  have hrun := properties_cons access first hrest
  unfold propertyCalls at hcall
  split_ifs at hcall with haccess hvariable hfunction hconst hends hopens
  · exact .goOn hcall (hrun.trans (if_pos haccess))
  · rw [if_neg haccess, if_pos hvariable] at hrun
    exact .goOn hcall hrun
  · rw [if_neg haccess, if_neg hvariable, if_pos hfunction] at hrun
    exact .goOn hcall hrun
  · cases hcall
  · cases hcall
  · rw [if_neg haccess, if_neg hvariable, if_neg hfunction, if_neg hconst, if_neg hends,
      if_pos hopens] at hrun
    exact .goOn hcall hrun
  · rw [if_neg haccess, if_neg hvariable, if_neg hfunction, if_neg hconst, if_neg hends,
      if_neg hopens] at hrun
    exact .goOn hcall hrun

theorem isMadeBy_of_mem_anonymousCalls (hrest : e.cursor.rest = t :: ts)
    (hcall : call ∈ anonymousCalls t e) : call.IsMadeBy .anonymousBody e := by
  have hrun := anonymousBody_cons hrest
  unfold anonymousCalls at hcall
  split_ifs at hcall hrun
  · cases hcall
  · exact .goOn hcall hrun
  · exact .intoBody hcall (fun _ => hrun) id
  · exact .intoBody hcall (fun hfound => absurd hfound ‹_›) id

theorem functionBehind_next (access : Option Text) (line : Int) (p : FunctionParts)
    (hrest : e.cursor.rest.tail = t :: ts) : e.functionBehind access line p =
      let next := e.advance.endPattern p
      let q := p.takePattern e.advance.cursor.snippet
      if t.kind = .name then next.functionBehind access line (q.takeName t.text)
      else if t.isSymbol "(" then
        functionBehind access line (q.takeSignature next.cursor.parameters.1)
          { e with cursor := next.cursor.parameters.2 }
      else if t.isSymbol "\x7b" then
        next.skipBlock.stopCollect.declareFunction access line { q with ended := true }
      else if t.isSymbol ";" then
        next.stopCollect.declareFunction access line { q with ended := true }
      else next.functionBehind access line q := by
  have hnext : e.advance.endPattern p = { e with
      cursor := if p.afterName then e.cursor.advance.stopCollect else e.cursor.advance } := by
    unfold endPattern
    split <;> rfl
  rw [functionBehind, Cursor.functionParts_next p hrest, hnext]
  generalize (if p.afterName then e.cursor.advance.stopCollect else e.cursor.advance) = next
  dsimp only
  split_ifs <;> rfl

theorem isMadeBy_of_mem_headingCalls {access : Option Text} {line : Int} {p : FunctionParts}
    (hrest : e.advance.cursor.rest = t :: ts)
    (hcall : call ∈ headingCalls access line p t e.advance) :
    call.IsMadeBy (.functionBehind access line p) e := by
  have hrun := functionBehind_next access line p (e.cursor.rest_advance ▸ hrest)
  unfold headingCalls at hcall
  split_ifs at hcall hrun
  · exact .goOn hcall hrun
  · exact .goOn hcall hrun
  · obtain rfl := List.mem_singleton.1 hcall
    exact ⟨hrun, fun h => h.declareFunction access line _⟩
  · cases hcall
  · exact .goOn hcall hrun

theorem isMadeBy_of_mem_declarationCalls (hcall : call ∈ declarationCalls t e) :
    call.IsMadeBy (.declaration t) e := by
  have hrun : (Routine.declaration t).run e = e.declaration t := rfl
  generalize hcalls : declarationCalls t = calls at hcall
  unfold declarationCalls at hcalls
  unfold declaration at hrun
  split at hcalls <;> subst hcalls
  next hword =>
    rw [hword] at hrun
    exact .goOn hcall hrun
  next hword =>
    rw [hword] at hrun
    exact .goOn hcall hrun
  next hword =>
    rw [hword] at hrun
    exact .goOn hcall hrun
  next => cases hcall

/-- A routine ends as each of its calls does, up to what it makes of the result. -/
theorem isMadeBy_of_mem_calls {r : Routine} (hcall : call ∈ r.calls e) : call.IsMadeBy r e := by
  cases r with
  | items =>
    rw [Routine.calls] at hcall
    obtain ⟨t, ts, hrest, hcall⟩ := mem_atToken.1 hcall
    have hrun := items_cons hrest
    obtain rfl | hcall := List.mem_cons.1 hcall
    · exact ⟨hrun, fun h => h.advance.items⟩
    · exact .goOn hcall hrun
  | item t =>
    rw [Routine.calls] at hcall
    split_ifs at hcall with hword
    · exact .goOn hcall (if_pos hword)
    · exact .goOn hcall (if_neg hword)
  | namespaceDeclaration => exact .goOn hcall rfl
  | namespaceHeading outer last? =>
    rw [Routine.calls] at hcall
    obtain ⟨t, ts, hrest, hcall⟩ := mem_atToken.1 hcall
    exact isMadeBy_of_mem_namespaceHeadingCalls hrest hcall
  | namespaceBody depth =>
    rw [Routine.calls] at hcall
    obtain ⟨t, ts, hrest, hcall⟩ := mem_atToken.1 hcall
    exact isMadeBy_of_mem_namespaceCalls hrest hcall
  | declaration t =>
    exact isMadeBy_of_mem_declarationCalls hcall
  | type kind scope skipsBlocks =>
    rw [Routine.calls] at hcall
    dsimp only at hcall
    cases hname : (e.named kind).1 with
    | none =>
      rw [hname] at hcall
      exact .goOn hcall (type_of_none kind scope skipsBlocks hname)
    | some name =>
      rw [hname] at hcall
      refine .intoBody hcall (fun hfound => ?_) Agrees.leave
      have hrun := type_of_some kind scope skipsBlocks hname rfl
      exact hrun.trans (by rw [if_pos hfound]; rfl)
  | anonymousBody =>
    rw [Routine.calls] at hcall
    obtain ⟨t, ts, hrest, hcall⟩ := mem_atToken.1 hcall
    exact isMadeBy_of_mem_anonymousCalls hrest hcall
  | members skipsBlocks =>
    rw [Routine.calls] at hcall
    obtain ⟨t, ts, hrest, hcall⟩ := mem_atToken.1 hcall
    exact isMadeBy_of_mem_memberCalls hrest hcall
  | visible => exact .goOn hcall rfl
  | properties access first =>
    rw [Routine.calls] at hcall
    obtain ⟨t, ts, hrest, hcall⟩ := mem_atToken.1 hcall
    exact isMadeBy_of_mem_propertyCalls hrest hcall
  | function access =>
    have hcursor : e.line.2.startCollect.cursor = e.cursor.startCollect := by
      rw [startCollect, cursor_line]
    refine .goOn hcall ((function_eq access e).trans ?_)
    rw [Routine.run, functionBehind, hcursor]
    rfl
  | functionBehind access line parts =>
    rw [Routine.calls] at hcall
    obtain ⟨t, ts, hrest, hcall⟩ := mem_atToken.1 hcall
    exact isMadeBy_of_mem_headingCalls hrest hcall
  | skipBlock => cases hcall

/-! ## Calls look no further than they go -/

def Call.within (passed : Nat) (more : List Token) (call : Call) : Call :=
  { call with start := call.start.within passed more }

/-- Whether calls that start before some tokens are the same whatever those are. -/
structure LocalCalls (calls : Extraction → List Call) : Prop where
  remaining_le {e : Extraction} {call : Call} : call ∈ calls e → call.start.remaining ≤ e.remaining
  exists_within {passed : Nat} {more : List Token} {e : Extraction} {call : Call} :
    call ∈ calls (e.within passed more) → more.length < call.start.remaining →
      ∃ base : Call, call = base.within passed more ∧
        ∀ more', base.within passed more' ∈ calls (e.within passed more')

section Steps

variable {step : Extraction → Extraction} {passed : Nat} {more : List Token}

theorem remaining_within (e : Extraction) :
    (e.within passed more).remaining = e.remaining + more.length :=
  Cursor.remaining_within e.cursor

theorem remaining_pos_of_within (h : e' = e.within passed more)
    (hlong : more.length < e'.remaining) : 0 < e.remaining := by
  rw [h, remaining_within] at hlong
  omega

/-- A step that ends before some tokens is the same whatever they are. -/
theorem IsLocal.eq_within (hlocal : IsLocal step)
    (hlong : more.length < (step (e.within passed more)).remaining) (more' : List Token) :
    step (e.within passed more') = (step e).within passed more' :=
  hlocal (.inr (.inl (remaining_pos_of_within (hlocal (.inr (.inr hlong))) hlong)))

theorem isLocal_advance : IsLocal advance := fun h =>
  advance_within (Cursor.Inside.advance h (Nat.le_refl _) (Nat.le_refl _))

theorem isLocal_startCollect : IsLocal startCollect := by
  intro passed more e h
  have hle : (e.within passed more).startCollect.cursor.remaining ≤
      (e.cursor.within passed more).remaining := Nat.le_refl _
  exact startCollect_within (h.current (Nat.le_refl _) hle)

theorem isLocal_declareProperty (access : Option Text) (first : Bool) (t : Token) :
    IsLocal (declareProperty access first t) := by
  intro passed more e h
  cases first with
  | true => rfl
  | false =>
    have hstart : (e.within passed more).startCollect = e.startCollect.within passed more :=
      isLocal_startCollect h
    simp only [declareProperty, Bool.false_eq_true, if_false, hstart]
    rfl

end Steps

namespace LocalCalls

variable {calls calls' : Extraction → List Call} {step : Extraction → Extraction}

theorem nil : LocalCalls fun _ => [] where
  remaining_le h := absurd h List.not_mem_nil
  exists_within h := absurd h List.not_mem_nil

theorem single {made : Extraction → Call} (hle : ∀ e, (made e).start.remaining ≤ e.remaining)
    (hlocal : ∀ {passed more e}, Inside more (made e).start (made (e.within passed more)).start →
      made (e.within passed more) = (made e).within passed more) :
    LocalCalls fun e => [made e] where
  remaining_le h := by
    obtain rfl := List.mem_singleton.1 h
    exact hle _
  exists_within {passed more e call} h hlong := by
    obtain rfl := List.mem_singleton.1 h
    have hsame := hlocal (.inr (.inr hlong))
    have hpos := remaining_pos_of_within (congrArg Call.start hsame) hlong
    exact ⟨made e, hsame, fun more' => List.mem_singleton.2 (hlocal (.inr (.inl hpos))).symm⟩

theorem append (h : LocalCalls calls) (h' : LocalCalls calls') :
    LocalCalls fun e => calls e ++ calls' e where
  remaining_le hcall := (List.mem_append.1 hcall).elim h.remaining_le h'.remaining_le
  exists_within hcall hlong := by
    obtain hcall | hcall := List.mem_append.1 hcall
    · obtain ⟨base, hbase, hmem⟩ := h.exists_within hcall hlong
      exact ⟨base, hbase, fun more' => List.mem_append_left _ (hmem more')⟩
    · obtain ⟨base, hbase, hmem⟩ := h'.exists_within hcall hlong
      exact ⟨base, hbase, fun more' => List.mem_append_right _ (hmem more')⟩

theorem comp (h : LocalCalls calls) (hlocal : IsLocal step)
    (hle : ∀ e, (step e).remaining ≤ e.remaining) : LocalCalls (calls ∘ step) where
  remaining_le hcall := (h.remaining_le hcall).trans (hle _)
  exists_within {passed more e call} hcall hlong := by
    have hstep := hlocal.eq_within (hlong.trans_le (h.remaining_le hcall))
    rw [Function.comp_apply, hstep more] at hcall
    obtain ⟨base, hbase, hmem⟩ := h.exists_within hcall hlong
    refine ⟨base, hbase, fun more' => ?_⟩
    rw [Function.comp_apply, hstep more']
    exact hmem more'

theorem here (r : Routine) (resume : Extraction → Extraction) :
    LocalCalls fun e => [⟨r, e, resume⟩] :=
  single (fun _ => Nat.le_refl _) fun _ => rfl

theorem behind (h : LocalCalls calls) : LocalCalls (calls ∘ advance) :=
  h.comp isLocal_advance fun e => by
    rw [remaining_advance]
    exact Nat.sub_le _ _

theorem goOn (r : Routine) : LocalCalls (goOn r) := here r id

theorem inTurn {first : Routine} (second : Routine) (hlocal : IsLocal first.run)
    (hle : ∀ e, (first.run e).remaining ≤ e.remaining) : LocalCalls (inTurn first second) :=
  (here first second.run).append ((goOn second).comp hlocal hle)

theorem atToken {calls : Token → Extraction → List Call} (h : ∀ t, LocalCalls (calls t)) :
    LocalCalls (atToken calls) where
  remaining_le hcall := by
    obtain ⟨t, ts, -, hcall⟩ := mem_atToken.1 hcall
    exact (h t).remaining_le hcall
  exists_within {passed more e call} hcall hlong := by
    obtain ⟨t, ts, hrest, hcall⟩ := mem_atToken.1 hcall
    have hlength := hlong.trans_le ((h t).remaining_le hcall)
    obtain ⟨s, ss, hbase⟩ : ∃ s ss, e.cursor.rest = s :: ss :=
      List.exists_cons_of_ne_nil (List.length_pos_iff.1 (remaining_pos_of_within rfl hlength))
    have hrest' (more' : List Token) :
        (e.within passed more').cursor.rest = s :: (ss ++ more') := by
      rw [cursor_within, Cursor.rest_within, hbase, List.cons_append]
    obtain rfl : s = t := (List.cons.inj ((hrest' more).symm.trans hrest)).1
    obtain ⟨base, hcall, hmem⟩ := (h s).exists_within hcall hlong
    exact ⟨base, hcall, fun more' => mem_atToken.2 ⟨s, _, hrest' more', hmem more'⟩⟩

theorem intoBody (r : Routine) (resume : Extraction → Extraction) :
    LocalCalls (intoBody r resume) where
  remaining_le {e call} hcall := by
    unfold Extraction.intoBody at hcall
    split_ifs at hcall
    · obtain rfl := List.mem_singleton.1 hcall
      exact remaining_toBody e
    · cases hcall
  exists_within {passed more e call} hcall hlong := by
    unfold Extraction.intoBody at hcall
    split_ifs at hcall with hfound
    · obtain rfl := List.mem_singleton.1 hcall
      have hsame := toBody_within (.inr (.inr hlong))
      have hpos := remaining_pos_of_within (congrArg Prod.snd hsame) hlong
      refine ⟨⟨r, e.toBody.2, resume⟩, by rw [hsame]; rfl, fun more' => ?_⟩
      rw [hsame] at hfound
      have hbody : (e.within passed more').toBody = _ := toBody_within (.inr (.inl hpos))
      rw [Extraction.intoBody, hbody, if_pos hfound]
      exact List.mem_singleton.2 rfl
    · cases hcall

end LocalCalls

theorem localCalls_namespaceHeadingCalls (outer : Nat) (last? : Option (Text × Int)) (t : Token) :
    LocalCalls (namespaceHeadingCalls outer last? t) := by
  unfold namespaceHeadingCalls
  split_ifs
  · exact .goOn _
  · exact (LocalCalls.goOn _).comp (fun _ => enterSegment_within last? _)
      fun e => (remaining_enterSegment last? e).le
  · exact (LocalCalls.here _ _).comp (fun _ => enterNamespace_within last? _)
      fun e => (remaining_enterNamespace last? e).le
  · exact .nil
  · exact .goOn _

theorem localCalls_namespaceCalls (depth : Nat) (t : Token) :
    LocalCalls (namespaceCalls depth t) := by
  unfold namespaceCalls
  split_ifs
  · exact .nil
  · exact .goOn _
  · exact .goOn _
  · exact .inTurn _ (declaration_within t) (remaining_declaration t)

theorem localCalls_declarationCalls (t : Token) : LocalCalls (declarationCalls t) := by
  unfold declarationCalls
  split
  · exact .goOn _
  · exact .goOn _
  · exact .goOn _
  · exact .nil

theorem localCalls_typeCalls (scope : ScopeKind) (skipsBlocks : Bool) (name? : Option Text)
    (pattern : Text) : LocalCalls (typeCalls scope skipsBlocks name? pattern) := by
  cases name? with
  | none => exact .goOn _
  | some name => exact (LocalCalls.intoBody _ _).comp (fun _ => rfl) fun _ => Nat.le_refl _

theorem localCalls_anonymousCalls (t : Token) : LocalCalls (anonymousCalls t) := by
  unfold anonymousCalls
  split_ifs
  · exact .nil
  · exact .goOn _
  · exact .intoBody _ _

theorem localCalls_memberCalls (skipsBlocks : Bool) (t : Token) :
    LocalCalls (memberCalls skipsBlocks t) := by
  unfold memberCalls
  split_ifs
  · exact .inTurn _ visible_within remaining_visible
  · exact (LocalCalls.goOn _).comp constant_within remaining_constant
  · exact .inTurn _ (function_within _) (remaining_function _)
  · exact .inTurn _ skipBlock_within remaining_skipBlock
  · exact .nil
  · exact .goOn _

theorem localCalls_propertyCalls (access : Option Text) (first : Bool) (t : Token) :
    LocalCalls (propertyCalls access first t) := by
  unfold propertyCalls
  split_ifs
  · exact (LocalCalls.goOn _).behind
  · refine (LocalCalls.goOn _).behind.comp (isLocal_declareProperty access first t) fun e => ?_
    cases first <;> exact Nat.le_refl _
  · exact .goOn _
  · exact .nil
  · exact .nil
  · exact (LocalCalls.goOn _).comp (fun _ => rfl) fun _ => Nat.le_refl _
  · exact (LocalCalls.goOn _).behind

theorem endPattern_within (p : FunctionParts) (passed : Nat) (more : List Token) (e : Extraction) :
    (e.within passed more).endPattern p = (e.endPattern p).within passed more := by
  unfold endPattern
  split <;> rfl

theorem remaining_endPattern (p : FunctionParts) (e : Extraction) :
    (e.endPattern p).remaining = e.remaining := by
  unfold endPattern
  split <;> rfl

theorem localCalls_headingCalls (access : Option Text) (line : Int) (p : FunctionParts)
    (t : Token) : LocalCalls (headingCalls access line p t) := by
  have hnext {r : Extraction → Routine} {resume : Extraction → Extraction → Extraction}
      (hr : ∀ passed more e, r (e.within passed more) = r e)
      (hresume : ∀ passed more e, resume (e.within passed more) = resume e) :
      LocalCalls fun e => [⟨r e, e.endPattern p, resume e⟩] := by
    refine .single (fun e => (remaining_endPattern p e).le) fun {passed more e} _ => ?_
    rw [hr, hresume, endPattern_within]
    rfl
  unfold headingCalls
  split_ifs
  · exact hnext (fun _ _ _ => rfl) fun _ _ _ => rfl
  · refine .single (fun e => ?_) fun {passed more e} h => ?_
    · exact (Cursor.remaining_parameters _).trans (remaining_endPattern p e).le
    · dsimp only at h ⊢
      rw [endPattern_within] at h ⊢
      have hfound : ((e.endPattern p).within passed more).cursor.parameters =
          ((e.endPattern p).cursor.parameters.1,
            (e.endPattern p).cursor.parameters.2.within passed more) := Cursor.parameters_within h
      rw [hfound]
      rfl
  · exact hnext (fun _ _ _ => rfl) fun _ _ _ => rfl
  · exact .nil
  · exact hnext (fun _ _ _ => rfl) fun _ _ _ => rfl

/-- The calls that a routine makes before it comes to some tokens are the same whatever they are. -/
theorem localCalls_calls (r : Routine) : LocalCalls r.calls := by
  cases r with
  | items =>
    refine .atToken fun t => (LocalCalls.here _ _).append ?_
    exact (LocalCalls.goOn _).behind.comp (item_within t) (remaining_item t)
  | item t =>
    unfold Routine.calls
    dsimp only
    split_ifs
    · exact (LocalCalls.goOn _).comp (fun _ => rfl) fun _ => Nat.le_refl _
    · exact .goOn _
  | namespaceDeclaration =>
    refine .single (fun _ => Nat.le_refl _) fun {passed more e} h => ?_
    have hstart : (e.within passed more).startCollect = e.startCollect.within passed more :=
      isLocal_startCollect h
    rw [hstart]
    rfl
  | namespaceHeading outer last? =>
    exact (LocalCalls.atToken (localCalls_namespaceHeadingCalls outer last?)).behind
  | namespaceBody depth => exact (LocalCalls.atToken (localCalls_namespaceCalls depth)).behind
  | declaration t => exact localCalls_declarationCalls t
  | type kind scope skipsBlocks =>
    have hcalls (e : Extraction) :=
      localCalls_typeCalls scope skipsBlocks (e.named kind).1 (e.named kind).2.1
    refine ⟨fun hcall => ((hcalls _).remaining_le hcall).trans (remaining_named kind _), ?_⟩
    intro passed more e call hcall hlong
    have hlength : more.length < ((e.within passed more).named kind).2.2.remaining :=
      hlong.trans_le ((hcalls _).remaining_le hcall)
    have hsame := named_within kind (.inr (.inr hlength))
    have hpos : 0 < (e.named kind).2.2.remaining :=
      remaining_pos_of_within (congrArg (·.2.2) hsame) hlength
    simp only [Routine.calls, hsame] at hcall
    obtain ⟨base, hbase, hmem⟩ := (hcalls e).exists_within hcall hlong
    refine ⟨base, hbase, fun more' => ?_⟩
    have hnamed : (e.within passed more').named kind = _ := named_within kind (.inr (.inl hpos))
    simp only [Routine.calls, hnamed]
    exact hmem more'
  | anonymousBody => exact .atToken localCalls_anonymousCalls
  | members skipsBlocks => exact (LocalCalls.atToken (localCalls_memberCalls skipsBlocks)).behind
  | visible => exact (LocalCalls.goOn _).comp isLocal_startCollect fun _ => Nat.le_refl _
  | properties access first => exact .atToken (localCalls_propertyCalls access first)
  | function access =>
    refine .single (fun e => (remaining_line e).le) fun {passed more e} h => ?_
    have hle : (e.within passed more).line.2.startCollect.cursor.remaining ≤
        (e.cursor.within passed more).remaining := (remaining_line (e.within passed more)).le
    have hne : more = [] ∨ e.cursor.rest ≠ [] := h.current (remaining_line e).le hle
    rw [line_within hne, startCollect_within (by rwa [cursor_line])]
    rfl
  | functionBehind access line parts =>
    exact (LocalCalls.atToken (localCalls_headingCalls access line parts)).behind
  | skipBlock => exact .nil

/-! ## Blocks that are skipped -/

/-- Whether a routine, by itself or through its calls, skips the block that the first of these
tokens opens. -/
inductive Skips (block : List Token) : Routine → Extraction → Prop where
  | here {e : Extraction} (hrest : e.cursor.rest = block) : Skips block .skipBlock e
  | call {r : Routine} {e : Extraction} {call : Call} (hcall : call ∈ r.calls e)
      (h : Skips block call.routine call.start) : Skips block r e

theorem Skips.length_le {block : List Token} {r : Routine} (h : Skips block r e) :
    block.length ≤ e.remaining := by
  induction h with
  | here hrest =>
    rw [← hrest]
    exact Nat.le_refl _
  | @call r e call hcall _ ih => exact ih.trans ((localCalls_calls r).remaining_le hcall)

/-- Behind matching braces the end of a block is the same. -/
theorem agrees_skipBlock_within {opening : Token} {body body' after : List Token} {passed : Nat}
    (hbody : Nested Token.opensBlock Token.closesBlock body)
    (hbody' : Nested Token.opensBlock Token.closesBlock body') (hrest : e.cursor.rest = [opening]) :
    Agrees (e.within passed (body ++ after)).skipBlock
      (e.within passed (body' ++ after)).skipBlock := by
  have htail (more : List Token) : (e.cursor.within passed more).rest.tail = more := by
    rw [Cursor.rest_within, hrest, List.singleton_append, List.tail_cons]
  obtain ⟨c, hc, heq⟩ := Cursor.skipBlocks_nested hbody Nat.one_pos (htail (body ++ after))
  obtain ⟨c', hc', heq'⟩ := Cursor.skipBlocks_nested hbody' Nat.one_pos (htail (body' ++ after))
  have hend := Cursor.blocksEnd_skipBlocks 0 c
  rw [hc, ← hc'] at hend
  refine ⟨?_, rfl, rfl, rfl⟩
  change (Cursor.skipBlocks 1 _).rest = (Cursor.skipBlocks 1 _).rest
  rw [cursor_within, cursor_within, heq, heq']
  exact hend.unique (Cursor.blocksEnd_skipBlocks 0 c')

/-- Two extractions that differ in a block that is skipped agree behind it. -/
theorem Skips.agrees {opening : Token} {body body' after : List Token} {passed : Nat} {r : Routine}
    (hbody : Nested Token.opensBlock Token.closesBlock body)
    (hbody' : Nested Token.opensBlock Token.closesBlock body')
    (h : Skips (opening :: (body ++ after)) r (e.within passed (body ++ after))) :
    Agrees (r.run (e.within passed (body ++ after)))
      (r.run (e.within passed (body' ++ after))) := by
  -- A call on the way starts before the block, so the other run makes it too; the induction is on
  -- the way, and only what a caller does with a result lies behind the block.
  generalize hstart : e.within passed (body ++ after) = e₁ at h
  induction h generalizing e with
  | here hrest =>
    subst hstart
    have hopening : e.cursor.rest ++ (body ++ after) = [opening] ++ (body ++ after) := hrest
    exact agrees_skipBlock_within hbody hbody' (List.append_cancel_right hopening)
  | @call r e₁ call hcall hskips ih =>
    subst hstart
    have hlong : (body ++ after).length < call.start.remaining := hskips.length_le
    obtain ⟨base, rfl, hmem⟩ := (localCalls_calls r).exists_within hcall hlong
    have hmade := isMadeBy_of_mem_calls hcall
    rw [hmade.run_eq, (isMadeBy_of_mem_calls (hmem (body' ++ after))).run_eq]
    exact hmade.agrees (ih rfl)

end Extraction

open Extraction in
/-- Skipping a block by counting is skipping its inner blocks one by one, and it ends where the
closers first outnumber the openers. So what stands in a skipped block does not matter: with any
other body whose braces match, the tags and the scopes are the same. -/
theorem skipped_block_irrelevant :
    (∀ c d : Cursor, c.SkipsTo d ↔ d = c.skipBlock) ∧
    (∀ c : Cursor, BlocksEnd 1 c.rest.tail c.skipBlock.rest) ∧
    ∀ (before : List Token) (opening : Token) (body body' after : List Token)
      (scopes : ScopeStack) (path : Text),
      Nested Token.opensBlock Token.closesBlock body →
      Nested Token.opensBlock Token.closesBlock body' →
      Skips (opening :: (body ++ after)) .items
        { cursor := { rest := before ++ opening :: (body ++ after) }, scopes } →
      (run (before ++ opening :: (body ++ after)) scopes).tags path =
        (run (before ++ opening :: (body' ++ after)) scopes).tags path ∧
      (run (before ++ opening :: (body ++ after)) scopes).scopes =
        (run (before ++ opening :: (body' ++ after)) scopes).scopes := by
  refine ⟨fun c d => Cursor.skipsTo_iff, Cursor.blocksEnd_skipBlocks 0, ?_⟩
  intro before opening body body' after scopes path hbody hbody' hskips
  have hstart (more : List Token) :
      ({ cursor := { rest := before ++ opening :: more }, scopes } : Extraction) =
        Extraction.within 0 more { cursor := { rest := before ++ [opening] }, scopes } := by
    simp [Extraction.within, Cursor.within]
  rw [hstart] at hskips
  have hagrees := hskips.agrees hbody hbody'
  rw [← hstart, ← hstart] at hagrees
  exact ⟨hagrees.tags path, hagrees.scopes⟩

/-- A function up to its body. -/
def functionHeading : List Token :=
  [⟨.functionWord, "function", 1⟩, ⟨.blank, " ", 1⟩, ⟨.name, "f", 1⟩, ⟨.symbol, "(", 1⟩,
    ⟨.symbol, ")", 1⟩]

/-- A variable in a text, behind a brace of another kind. -/
def interpolation : List Token :=
  [⟨.curlyOpen, "\x7b", 2⟩, ⟨.variableName, "$x", 2⟩, ⟨.symbol, "\x7d", 2⟩]

/-- The end of a function and a constant behind it. -/
def behindBody : List Token :=
  [⟨.symbol, "\x7d", 3⟩, ⟨.constWord, "const", 4⟩, ⟨.name, "A", 4⟩, ⟨.symbol, ";", 4⟩]

open Extraction in
theorem skipped_block_irrelevant_interpolation :
    Nested Token.opensBlock Token.closesBlock interpolation ∧
    Skips (⟨.symbol, "\x7b", 1⟩ :: (interpolation ++ behindBody)) .items { cursor :=
      { rest := functionHeading ++ ⟨.symbol, "\x7b", 1⟩ :: (interpolation ++ behindBody) } } ∧
    (run (functionHeading ++ ⟨.symbol, "\x7b", 1⟩ :: (interpolation ++ behindBody)) []).tags "/a" =
      (run (functionHeading ++ ⟨.symbol, "\x7b", 1⟩ :: ([] ++ behindBody)) []).tags "/a" := by
  have hbody : Nested Token.opensBlock Token.closesBlock interpolation := by
    have hvariable : Nested Token.opensBlock Token.closesBlock [⟨.variableName, "$x", 2⟩] :=
      .other (by decide) (by decide) .nil
    exact .group (by decide) hvariable (by decide) .nil
  have hskips : Skips (⟨.symbol, "\x7b", 1⟩ :: (interpolation ++ behindBody)) .items { cursor :=
      { rest := functionHeading ++ ⟨.symbol, "\x7b", 1⟩ :: (interpolation ++ behindBody) } } := by
    -- From the items to the function, and over its heading to the parameters.
    refine .call (List.Mem.head _) (.call (List.Mem.head _) (.call (List.Mem.head _) ?_))
    refine .call (List.Mem.head _) (.call (List.Mem.head _) (.call (List.Mem.head _) ?_))
    refine .call (List.Mem.head _) ?_
    refine .call (mem_atToken.2 ⟨⟨.symbol, "\x7b", 1⟩, interpolation ++ behindBody, ?_,
      List.Mem.head _⟩) (.here ?_)
    · cbv
    · cbv
  obtain ⟨-, -, hsame⟩ := skipped_block_irrelevant
  exact ⟨hbody, hskips, (hsame _ _ _ _ _ _ "/a" hbody .nil hskips).1⟩

end TagsFile
