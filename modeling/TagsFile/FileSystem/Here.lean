import TagsFile.Depth
import TagsFile.FileSystem.Basic
import TagsFile.FileSystem.Error

/-!
# Processes and their working directories

A process stays in its working directory even when the directory is taken away. Nothing is left in
such a directory but the way up, and it still tells when it was last modified. How deep a process
can go, and what the system denies it, is not a matter of the files.

## Main definitions

* `Denials`: what the system denies a process.
* `Here`: a process, with its working directory, which may be gone.
* `Here.without`: the working directory after a directory has been taken away.
* `Here.leave?`: the way up from a working directory that is gone.
-/

namespace TagsFile

/-- What the system denies a process, for want of rights or because a device fails. -/
structure Denials where
  /-- The places that get no other time, each with the reason. -/
  times : Table Location SystemError := []
  /-- The directories that a scan cannot list. -/
  listings : List Location := []
deriving DecidableEq, Repr

/-- A process as files are seen from it. Its working directory is the directory at `location`, or,
if that has been taken away, one that was below there. -/
structure Here where
  location : Location
  /-- The directories from the working directory up to the location that have been taken away, each
  by the time when it was last modified. -/
  lost : List Int := []
  depths : Depths := .usual
  denied : Denials := {}
deriving DecidableEq, Repr

namespace Here

/-- A process in the root, which is denied nothing. -/
def root : Here := { location := [] }

/-- The location of a working directory that is still there. -/
def location? (here : Here) : Option Location := if here.lost = [] then some here.location else none

/-- The absolute path of `p`, which for a relative path needs the working directory to be there. -/
def absolute? (here : Here) (p : Path) : Option Path :=
  if p.isAbsolute then some (p.absolute []) else here.location?.map (Path.absolute · p)

/-- When a tree that is being taken away is last modified: a directory that is not empty loses its
entries first. -/
def lastModified (now : Int) (t : Tree) : Int := if t.entries.isEmpty then t.modified else now

/-- The times of the directories from `loc` up to `gone` when they are taken away. -/
def lostTimes (now : Int) (fs : FileSystem) (gone loc : Location) : List Int :=
  (List.range (loc.length + 1 - gone.length)).map fun k =>
    ((fs.tree? (loc.take (loc.length - k))).map (lastModified now)).getD now

/-- The working directory after the directory at `gone` has been taken away from `fs`. -/
def without (now : Int) (fs : FileSystem) (gone : Location) (here : Here) : Here :=
  if gone.isPrefixOf here.location then
    { here with location := gone.dropLast
                lost := here.lost ++ lostTimes now fs gone here.location }
  else here

/-- The lost directories that are left on the way along some names, and the names that lead on from
there. -/
def leave? : (lost : List Int) → List Text → Option (List Int × List Text)
  | [], names => some ([], names)
  | time :: lost, [] => some (time :: lost, [])
  | time :: lost, name :: rest =>
    if name = "" || name = "." then leave? (time :: lost) rest
    else if name = ".." then leave? lost rest
    else none

/-- Gives another time to the lost directory from which `above` lead up. -/
def touchLost (modified : Int) (above : List Int) (here : Here) : Here :=
  { here with lost := here.lost.take (here.lost.length - above.length) ++ modified :: above.tail }

end Here
end TagsFile
