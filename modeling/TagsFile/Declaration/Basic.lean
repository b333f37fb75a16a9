import TagsFile.Scope
import TagsFile.Tag.Basic
import TagsFile.Tag.Search

/-!
# Declarations

What a source declares, with the scopes around it. The tag of a declaration is read off it.
-/

namespace TagsFile

structure Declaration where
  name : Text
  kind : TagKind
  line : Int
  /-- The start of the declaration's text, up to its first line break. -/
  snippet : Text
  /-- The scopes around the declaration. -/
  scopes : ScopeStack
  /-- The list of parameters of a function. -/
  signature : Option Text := none
  access : Option Text := none
deriving DecidableEq, Repr

namespace Declaration

/-- The tag of a declaration in the file `path`. -/
def tag (path : Text) (d : Declaration) : SourceTag where
  name := d.name
  path
  pattern := searchCommand (d.scopes.scopedPattern d.snippet)
  kind := d.kind
  line := d.line
  scope := d.scopes.label?
  extras := (d.signature.map fun s : Text => "signature:" ++ s).toList
  access := d.access

end Declaration
end TagsFile
