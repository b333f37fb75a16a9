import TagsFile.Environment
import TagsFile.FileSystem.Change

/-!
# The world around a run

All that a run sees and changes: the files, the working directory, the clock, the environment, and
the log.

## Main definitions

* `World`, with `World.addLog` and `World.withFiles`.
* `World.enter`, `World.touch`, `World.removeTree`: changes that concern the working directory too.
-/

namespace TagsFile

/-- One line of the log, with the part of the program that it comes from. -/
structure LogLine where
  source : Text
  message : Text
deriving DecidableEq, Repr

def LogLine.text (l : LogLine) : Text := l.source ++ ": " ++ l.message

structure World where
  files : FileSystem := {}
  /-- The process, with its working directory. -/
  here : Here := Here.root
  /-- The time of the next change. -/
  now : Int := 0
  environment : Environment := {}
  /-- What has been logged, oldest line first. -/
  log : List LogLine := []

namespace World

def addLog (lines : List LogLine) (w : World) : World := { w with log := w.log ++ lines }

/-- The world after a change of its files; what is changed next is later. -/
def withFiles (files : FileSystem) (w : World) : World := { w with files, now := w.now + 1 }

/-- The world with the directory at the end of a path as working directory. -/
def enter (path : Text) (w : World) : Except FileError World :=
  match w.files.locate w.here .target path with
  | .error e => .error e
  | .ok (.present loc (.directory _ _)) =>
    .ok { w with here := { w.here with location := loc, lost := [] } }
  | .ok (.lost here) => .ok { w with here }
  | .ok (.present _ _) => .error (.system .notDirectory)
  | .ok (.vacant _) => .error (.system .noEntry)

/-- The world with another time for what is at the end of a path. -/
def touch (path : Text) (modified : Int) (w : World) : Except FileError World :=
  match w.files.locate w.here .target path with
  | .ok (.lost here) => .ok { w with here := w.here.touchLost modified here.lost }
  | _ => (w.files.touch w.here path modified).map w.withFiles

/-- The world without what is at `loc` and all below it. -/
def without (loc : Location) (w : World) : World :=
  { w.withFiles (w.files.remove w.now loc) with here := w.here.without w.now w.files loc }

/-- The world without what is in the directory `tree` at `loc`. -/
def emptied (loc : Location) (tree : Tree) (w : World) : World :=
  tree.entries.foldl (fun w (name, _) => w.without (loc ++ [name])) w

/-- Why the directory at the end of a path stays, if the path does not end in a name. -/
def unremovable (p : Path) (w : World) : FileError :=
  match w.files.locate w.here .entry p.text with
  | .error e => e
  | .ok _ => .system (if p.parts ≠ [] then .notEmpty else if p.isAbsolute then .busy else .invalid)

/-- Takes away what is at the end of a path and all below it. Under a path that does not end in a
name, a directory is emptied but stays. -/
def removeTree (p : Path) (w : World) : Except NestedError Unit × World :=
  match w.files.locate w.here .entry p.text with
  | .error e => (.error (.file e), w)
  | .ok (.vacant _) => (.error (.file (.system .noEntry)), w)
  | .ok (.lost _) => (.error (.file (w.unremovable p)), w)
  | .ok (.present loc tree) =>
    if w.here.depths.removal < tree.depth then (.error .tooDeep, w)
    else if FileSystem.endsAtDirectory p then
      let w := w.emptied loc tree
      (.error (.file (w.unremovable p)), w)
    else (.ok (), w.without loc)

end World
end TagsFile
