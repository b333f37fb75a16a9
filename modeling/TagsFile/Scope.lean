import TagsFile.Text.CodePoint

/-!
# Scopes

The declarations around a place in a source, outermost first. A frame may carry the pattern that
finds its declaration; the patterns of all frames stand in front of the pattern of what is declared
inside.

## Main definitions

* `ScopeFrame`, `ScopeStack` with `push` and `pop?`.
* `ScopeStack.label?`: the kind and the joined names of the innermost scope.
* `ScopeStack.scopedPattern`: a pattern behind those of the frames around it.
-/

namespace TagsFile

inductive ScopeKind where
  | namespaceScope
  | classScope
  | interfaceScope
deriving DecidableEq, Repr

namespace ScopeKind

def text : ScopeKind → Text
  | .namespaceScope => "namespace"
  | .classScope => "class"
  | .interfaceScope => "interface"

def ofText? (t : Text) : Option ScopeKind :=
  [namespaceScope, classScope, interfaceScope].find? (·.text = t)

end ScopeKind

structure ScopeFrame where
  kind : ScopeKind
  name : Text
  pattern : Option Text
deriving DecidableEq, Repr

/-- Frames, outermost first. -/
abbrev ScopeStack := List ScopeFrame

namespace ScopeStack

def push (s : ScopeStack) (frame : ScopeFrame) : ScopeStack := s ++ [frame]

/-- The innermost frame with what is left; none on an empty stack. -/
def pop? (s : ScopeStack) : Option (ScopeFrame × ScopeStack) :=
  s.getLast?.map fun frame => (frame, s.dropLast)

@[simp] theorem pop?_push (s : ScopeStack) (frame : ScopeFrame) :
    pop? (push s frame) = some (frame, s) := by
  simp [pop?, push]

/-- The kind of the innermost scope and the names of all; none outside of any scope. -/
def label? (s : ScopeStack) : Option Text :=
  s.getLast?.map fun frame => frame.kind.text ++ ":" ++ Text.join "::" (s.map ScopeFrame.name)

/-- The patterns of the frames that have one, and then `pattern`. -/
def scopedPattern (s : ScopeStack) (pattern : Text) : Text :=
  Text.join "/;/" (s.filterMap ScopeFrame.pattern ++ [pattern])

end ScopeStack
end TagsFile
