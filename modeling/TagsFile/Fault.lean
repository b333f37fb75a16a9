import TagsFile.Config.Load
import TagsFile.Declaration.Extraction
import TagsFile.Failure
import TagsFile.FileSystem.Change
import TagsFile.FileSystem.Resolve

/-!
# Faults

Everything that can end an operation before its result is there.

## Main definitions

* `Fault`.
* `Outcome`: a result or a fault, with the state that is left.
-/

namespace TagsFile

inductive Fault where
  /-- A failure that is reported with a code. -/
  | failure (f : Failure)
  /-- An error of the file system about some paths. -/
  | system (e : SystemError) (paths : List Text)
  /-- A text that is no path is given for one. -/
  | badPath (f : PathFault)
  | linkLoop
  /-- Something is nested deeper than the program goes. -/
  | tooDeep
  /-- A home directory is asked for that is not known. -/
  | noHome
  | setting (f : SettingFault)
  /-- The project file is not encoded as it should be. -/
  | projectNotUtf8
  /-- The project file holds an integer with too many digits. -/
  | projectInteger
  /-- The line of a cached tag is infinite. -/
  | infiniteLine
  | extraction (f : ExtractionFault)
  | print (f : PrintFault)
  /-- The name of the output file is no text. -/
  | noOutputName
  /-- The tags file would hold half of a surrogate pair, which has no bytes. -/
  | unencodable

namespace Fault

/-- An error about some paths. -/
def ofFile (paths : List Text) : FileError → Fault
  | .system e => .system e paths
  | .badPath f => .badPath f

def ofPathError (e : FileSystem.PathError) : Fault := ofFile e.paths e.error

def ofResolve : ResolveError → Fault
  | .file e => ofFile [] e
  | .loop => .linkLoop
  | .tooDeep => .tooDeep

def ofLoad : Config.LoadFault → Fault
  | .file e path => ofFile [path] e
  | .notUtf8 => .projectNotUtf8
  | .integerTooLong => .projectInteger
  | .tooDeep => .tooDeep
  | .setting f => .setting f

end Fault

/-- What comes of an operation: its result or a fault, and in either case what is left behind. -/
abbrev Outcome (σ α : Type) := Except Fault α × σ

end TagsFile
