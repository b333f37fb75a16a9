import TagsFile.FileSystem.Follow

/-!
# Resolving paths

The absolute path that is left of a path when all its symbolic links are followed. A `..` takes back
the component before it, whatever that is. A strict resolution needs every component to be there;
one that is not strict passes over what is missing, as long as the outcome is a path.

Links are told apart by the paths that lead to them, as these are written: a link that is met again
under another path is followed once more. A link that leads back to itself ends a resolution. One
that is not strict then keeps what it has, with the names that were still to come behind it as they
stand.

## Main definitions

* `FileSystem.resolve`: the path, or why there is none.
-/

namespace TagsFile

/-- Why a path cannot be resolved. -/
inductive ResolveError where
  | file (e : FileError)
  /-- A link leads back to itself. -/
  | loop
  /-- Links lead to links for too long. -/
  | tooDeep
deriving DecidableEq, Repr

/-- An error on the way to a file, with loops told apart. -/
def ResolveError.ofFile : FileError → ResolveError
  | .system .tooManyLinks => .loop
  | e => .file e

/-- What a link has been found to lead to; none while it is being followed. -/
abbrev KnownLinks := Table Text (Option Path)

/-- How far a resolution came: the path so far, and whether that is all of it. -/
structure Resolved where
  path : Path
  complete : Bool
  links : KnownLinks

namespace FileSystem

/-- One level up from a path without links. -/
def levelUp (p : Path) : Path :=
  if p.anchor = .here && p.parts.getLast?.all (fun part : Text => part = "..") then
    ⟨.here, p.parts ++ [(".." : Text)]⟩
  else p.parent

/-- A path that the resolution gives up, with the names behind it as they stand. -/
def withRest (p : Path) (rest : List Text) : Path := p.join (Path.ofText (Text.join "/" rest))

/-- Follows names from the path `p`, which is free of links, through at most `depth` links inside
each other. -/
def resolveFrom (fs : FileSystem) (here : Here) (strict : Bool) (depth : Nat) (links : KnownLinks)
    (p : Path) (names : List Text) : Except ResolveError Resolved :=
  match names with
  | [] => .ok ⟨p, true, links⟩
  | name :: rest =>
    if name = "" || name = "." then fs.resolveFrom here strict depth links p rest
    else if name = ".." then fs.resolveFrom here strict depth links (levelUp p) rest
    else
      let next : Path := ⟨p.anchor, p.parts ++ [name]⟩
      match fs.find here .entry next.text with
      | .error (.badPath f) => .error (.file (.badPath f))
      | .error e =>
        if strict then .error (.ofFile e) else fs.resolveFrom here strict depth links next rest
      | .ok (_, .link target) =>
        match links.get? next.text with
        | some (some known) => fs.resolveFrom here strict depth links known rest
        | some none =>
          if strict then
            match fs.find here .target next.text with
            | .error e => .error (.ofFile e)
            | .ok _ => .error .loop
          else .ok ⟨withRest next rest, false, links⟩
        | none =>
          match depth with
          | 0 => .error .tooDeep
          | depth + 1 =>
            let start := if startsAtRoot target then ⟨.root, []⟩ else p
            match fs.resolveFrom here strict depth (links.put next.text none) start
              (pieces target) with
            | .error e => .error e
            | .ok ⟨q, false, links⟩ => .ok ⟨withRest q rest, false, links⟩
            | .ok ⟨q, true, links⟩ =>
              fs.resolveFrom here strict (depth + 1) (links.put next.text (some q)) q rest
      | .ok _ => fs.resolveFrom here strict depth links next rest
termination_by (depth, names.length)

/-- The absolute path without links that a path stands for. -/
def resolve (fs : FileSystem) (here : Here) (strict : Bool) (p : Path) :
    Except ResolveError Path :=
  let start : Path := ⟨if p.isAbsolute then .root else .here, []⟩
  match fs.resolveFrom here strict here.depths.links [] start p.parts with
  | .error e => .error e
  | .ok r =>
    match here.absolute? r.path with
    | none => .error (.file (.system .noEntry))
    | some q =>
      if strict then .ok q
      else
        match fs.find here .target q.text with
        | .error (.system .tooManyLinks) => .error .loop
        | .error (.badPath f) => .error (.file (.badPath f))
        | _ => .ok q

end FileSystem
end TagsFile
