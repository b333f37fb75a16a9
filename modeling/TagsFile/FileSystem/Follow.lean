import TagsFile.FileSystem.Here
import TagsFile.Text.FileName

/-!
# Following paths

Where a path leads in a file system, through symbolic links.

## Main definitions

* `FileSystem.follow`: follows names from a place.
* `FileSystem.locate`: where a text leads as a path.
* `FileSystem.find`, `modifiedAt`, `hasEntry`, `isDirectory`, `read`: what is found there.
-/

namespace TagsFile

/-- A place in a file system: a tree and the directories above it, the nearest one first, each with
the name by which the way down leaves it. -/
structure Place where
  tree : Tree
  above : List (Text × Tree) := []

namespace Place

def location (p : Place) : Location := (p.above.map Prod.fst).reverse

/-- The place of an entry. -/
def down (p : Place) (name : Text) (entry : Tree) : Place := ⟨entry, (name, p.tree) :: p.above⟩

/-- One level up; the root is above itself. -/
def up (p : Place) : Place :=
  match p.above with
  | [] => p
  | (_, tree) :: above => ⟨tree, above⟩

end Place

/-- What a path is followed for. -/
inductive Purpose where
  /-- The entry itself, be it a link. -/
  | entry
  /-- What the entry leads to. -/
  | target
  /-- A file to be written, which need not be there. -/
  | output
deriving DecidableEq, Repr

/-- Where a path leads. -/
inductive Target where
  | present (loc : Location) (tree : Tree)
  /-- Nothing is there, but its directory is. -/
  | vacant (loc : Location)
  /-- A directory that has been taken away. -/
  | lost (here : Here)

namespace FileSystem

/-- How many symbolic links a path may lead through. -/
def maxLinks : Nat := 40

/-- How many bytes a name may have. -/
def maxName : Nat := 255

/-- How many bytes a path must not reach. -/
def maxPath : Nat := 4096

/-- Whether only slashes follow, at least one. -/
def onlySlashes (rest : List Text) : Bool := rest ≠ [] && rest.all (· = "")

/-- Follows names from a place through at most `budget` links. A link that comes last is not
followed for an entry, and no file to be written may have a slash behind it. -/
def follow (fs : FileSystem) (purpose : Purpose) (budget : Nat) (place : Place)
    (names : List Text) : Except SystemError Target :=
  match names with
  | [] => .ok (.present place.location place.tree)
  | name :: rest =>
    match place.tree with
    | .directory _ entries =>
      if name = "" || name = "." then fs.follow purpose budget place rest
      else if name = ".." then fs.follow purpose budget place.up rest
      else if purpose = .output && onlySlashes rest then .error .isDirectory
      else if maxName < name.fileLength then .error .nameTooLong
      else
        match Table.get? entries name with
        | none => if rest = [] then .ok (.vacant (place.location ++ [name])) else .error .noEntry
        | some (.link target) =>
          if rest = [] && purpose = .entry then
            .ok (.present (place.location ++ [name]) (.link target))
          else
            match budget with
            | 0 => .error .tooManyLinks
            | budget + 1 =>
              fs.follow purpose budget (if startsAtRoot target then ⟨fs.root, []⟩ else place)
                (pieces target ++ rest)
        | some entry => fs.follow purpose budget (place.down name entry) rest
    | _ => .error .notDirectory
termination_by (budget, names.length)

/-- Follows names from a working directory. -/
def followFrom (fs : FileSystem) (here : Here) (purpose : Purpose) (names : List Text) :
    Except SystemError Target :=
  match Here.leave? here.lost names with
  | none => .error .noEntry
  | some ([], names) => fs.follow purpose maxLinks ⟨fs.root, []⟩ (here.location ++ names)
  | some (lost, _) => .ok (.lost { here with lost })

/-- Where a text leads as a path from the directory `here`. -/
def locate (fs : FileSystem) (here : Here) (purpose : Purpose) (text : Text) :
    Except FileError Target :=
  match text.fileBytes? with
  | none => .error (.badPath .unencodable)
  | some bytes =>
    if bytes.contains 0 then .error (.badPath .embeddedNul)
    else if bytes = [] then .error (.system .noEntry)
    else if maxPath ≤ bytes.length then .error (.system .nameTooLong)
    else
      let start := if startsAtRoot text then Here.root else here
      (fs.followFrom start purpose (pieces (Text.ofFileBytes bytes))).mapError .system

/-- What is there at the end of a path, in a place that has a location. -/
def find (fs : FileSystem) (here : Here) (purpose : Purpose) (text : Text) :
    Except FileError (Location × Tree) :=
  match fs.locate here purpose text with
  | .error e => .error e
  | .ok (.present loc tree) => .ok (loc, tree)
  | .ok _ => .error (.system .noEntry)

/-- When what is at the end of a path was last modified. -/
def modifiedAt (fs : FileSystem) (here : Here) (text : Text) : Except FileError Int :=
  match fs.locate here .target text with
  | .error e => .error e
  | .ok (.present _ tree) => .ok tree.modified
  | .ok (.vacant _) => .error (.system .noEntry)
  | .ok (.lost here) => .ok (here.lost.headD 0)

/-- Whether a path leads to anything. -/
def hasEntry (fs : FileSystem) (here : Here) (text : Text) : Except FileError Bool :=
  match fs.locate here .target text with
  | .ok (.vacant _) => .ok false
  | .ok _ => .ok true
  | .error e => if e.meansAbsent then .ok false else .error e

/-- Whether a path leads to a directory. -/
def isDirectory (fs : FileSystem) (here : Here) (text : Text) : Except FileError Bool :=
  match fs.locate here .target text with
  | .ok (.present _ tree) => .ok (tree.node = .directory)
  | .ok (.vacant _) => .ok false
  | .ok (.lost _) => .ok true
  | .error e => if e.meansAbsent then .ok false else .error e

/-- The bytes of the file at the end of a path. -/
def read (fs : FileSystem) (here : Here) (text : Text) : Except FileError (List UInt8) :=
  match fs.locate here .target text with
  | .ok (.present _ (.file content _)) => .ok content
  | .ok (.vacant _) => .error (.system .noEntry)
  | .ok _ => .error (.system .isDirectory)
  | .error e => .error e

end FileSystem
end TagsFile
