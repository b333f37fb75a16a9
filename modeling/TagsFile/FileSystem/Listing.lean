import TagsFile.FileSystem.Follow

/-!
# Listings

What lies below a directory, as a walk sees it. Walks do not enter links to directories, nor
directories that are shut, be it that their path is too long.

## Main definitions

* `Listing`, `FileSystem.listing`.
* `Listing.sorted`: entries in the order of their names, on every level.
-/

namespace TagsFile

inductive Listing where
  /-- Anything but a directory; a link that leads to none counts too. -/
  | file
  /-- A link that cannot be followed because a name or a path on its way is too long. -/
  | overlongLink
  | linkedDirectory
  /-- A directory that cannot be looked into. -/
  | closedDirectory
  | directory (entries : List (Text × Listing))
deriving Repr

namespace Listing

/-- Whether an entry counts as a file. -/
def isFile : Listing → Bool
  | .file | .overlongLink => true
  | _ => false

/-- Entries in the order of their names. -/
def sortEntries (entries : List (Text × Listing)) : List (Text × Listing) :=
  entries.mergeSort fun a b => Text.le a.1 b.1

mutual

/-- A listing with every directory in the order of the names. -/
def sort : Listing → Listing
  | .directory entries => .directory (sortEntries (sortAll entries))
  | other => other

def sortAll : List (Text × Listing) → List (Text × Listing)
  | [] => []
  | (name, l) :: rest => (name, l.sort) :: sortAll rest

end

/-- Entries in the order of their names, on every level. -/
def sorted (entries : List (Text × Listing)) : List (Text × Listing) :=
  sortEntries (sortAll entries)

end Listing

namespace FileSystem

/-- What the link at the end of a path counts as. -/
def linkListing (fs : FileSystem) (here : Here) (text : Text) : Listing :=
  match fs.find here .target text with
  | .ok (_, .directory _ _) => .linkedDirectory
  | .error (.system .nameTooLong) => .overlongLink
  | _ => .file

mutual

/-- What a tree counts as that a walk has come to by `names`; `text` is how the walk writes them,
and `shut` tells which directories it cannot look into. -/
def listTree (fs : FileSystem) (here : Here) (text : List Text → Text) (shut : List Text → Bool)
    (names : List Text) : Tree → Listing
  | .file _ _ => .file
  | .link _ => fs.linkListing here (text names)
  | .directory _ entries =>
    if shut names then .closedDirectory
    else .directory (listEntries fs here text shut names entries)

/-- The entries of a directory that a walk has come to by `names`. -/
def listEntries (fs : FileSystem) (here : Here) (text : List Text → Text) (shut : List Text → Bool)
    (names : List Text) : List (Text × Tree) → List (Text × Listing)
  | [] => []
  | (name, t) :: rest =>
    (name, listTree fs here text shut (names ++ [name]) t) ::
      listEntries fs here text shut names rest

end

/-- Everything below a directory, for a walk that writes paths as `text` does and cannot look into
the directories that are `shut`. -/
def listing (fs : FileSystem) (here : Here) (text : List Text → Text) (shut : List Text → Bool)
    (directory : Tree) : List (Text × Listing) :=
  fs.listEntries here text shut [] directory.entries

/-- Whether the path that `text` writes is too long to be looked into. -/
def isOverlong (text : List Text → Text) (names : List Text) : Bool :=
  maxPath ≤ (text names).fileLength

end FileSystem
end TagsFile
