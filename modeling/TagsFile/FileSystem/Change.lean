import TagsFile.FileSystem.Follow

/-!
# Changes of a file system

The operations that change a file system, each at a time `now` and seen from a process `here`. One
that fails leaves the file system as it is, unless its type says otherwise.

## Main definitions

* `FileSystem.makeDirectories`: a directory and those above it.
* `FileSystem.writeFile`, `touch`, `makeLink`, `unlink`.
* `FileSystem.replaceFile`: a file whose content changes as a whole or not at all.
-/

namespace TagsFile

/-- Why something nested cannot be made or taken away. -/
inductive NestedError where
  | file (e : FileError)
  /-- Too many directories lie inside each other. -/
  | tooDeep
deriving DecidableEq, Repr

namespace FileSystem

/-! ## Directories -/

def makeDirectory (now : Int) (here : Here) (text : Text) (fs : FileSystem) :
    Except FileError FileSystem :=
  match fs.locate here .entry text with
  | .error e => .error e
  | .ok (.vacant loc) => .ok (fs.create now loc (.directory now []))
  | .ok _ => .error (.system .alreadyExists)

/-- Forgives an error of the file system if the directory is there. -/
def orDirectory (e : FileError) (here : Here) (text : Text) (fs : FileSystem) :
    Except FileError Unit :=
  match e, fs.isDirectory here text with
  | .badPath _, _ => .error e
  | _, .ok true => .ok ()
  | _, .ok false => .error e
  | _, .error e' => .error e'

/-- Makes a directory, if need be with at most `depth` above it, unless it is there. What has been
made stays when a later step fails. -/
def makeWithin (now : Int) (here : Here) :
    (depth : Nat) → (p : Path) → FileSystem → Except NestedError Unit × FileSystem
  | 0, _, fs => (.error .tooDeep, fs)
  | depth + 1, p, fs =>
    match fs.makeDirectory now here p.text with
    | .ok fs => (.ok (), fs)
    | .error e =>
      if e = .system .noEntry then
        if p.parts = [] then (.error (.file e), fs)
        else
          match makeWithin now here depth p.parent fs with
          | (.error e, fs) => (.error e, fs)
          | (.ok (), fs) =>
            match fs.makeDirectory now here p.text with
            | .ok fs => (.ok (), fs)
            | .error e =>
              if e = .system .noEntry then (.error (.file e), fs)
              else ((fs.orDirectory e here p.text).mapError .file, fs)
      else ((fs.orDirectory e here p.text).mapError .file, fs)

/-- Makes a directory, if need be with those above it, unless it is there. -/
def makeDirectories (now : Int) (here : Here) (p : Path) (fs : FileSystem) :
    Except NestedError Unit × FileSystem :=
  fs.makeWithin now here here.depths.parents p

/-! ## Files and links -/

/-- Writes a file, through links, with a time of its own. -/
def writeFile (now : Int) (here : Here) (text : Text) (content : List UInt8) (modified : Int)
    (fs : FileSystem) : Except FileError FileSystem :=
  match fs.locate here .output text with
  | .error e => .error e
  | .ok (.present loc (.file _ _)) => .ok (fs.overwrite loc content modified)
  | .ok (.vacant loc) => .ok (fs.create now loc (.file content modified))
  | .ok _ => .error (.system .isDirectory)

/-- Gives a file or a directory that has a location another time, unless the system denies it. -/
def touch (here : Here) (text : Text) (modified : Int) (fs : FileSystem) :
    Except FileError FileSystem :=
  match fs.find here .target text with
  | .error e => .error e
  | .ok (loc, _) =>
    match here.denied.times.get? loc with
    | some e => .error (.system e)
    | none => .ok (fs.retime loc modified)

/-- Makes a symbolic link to `target`, which need not lead anywhere. -/
def makeLink (now : Int) (here : Here) (text target : Text) (fs : FileSystem) :
    Except FileError FileSystem :=
  match target.fileBytes? with
  | none => .error (.badPath .unencodable)
  | some bytes =>
    if bytes.contains 0 then .error (.badPath .embeddedNul)
    else
      match fs.locate here .entry text with
      | .error (.badPath f) => .error (.badPath f)
      | place =>
        if bytes = [] then .error (.system .noEntry)
        else if maxPath ≤ bytes.length then .error (.system .nameTooLong)
        else
          match place with
          | .error e => .error e
          | .ok (.vacant loc) => .ok (fs.create now loc (.link (Text.ofFileBytes bytes)))
          | .ok _ => .error (.system .alreadyExists)

/-- Takes a file or a link away. -/
def unlink (now : Int) (here : Here) (text : Text) (fs : FileSystem) :
    Except FileError FileSystem :=
  match fs.locate here .entry text with
  | .error e => .error e
  | .ok (.vacant _) => .error (.system .noEntry)
  | .ok (.lost _) | .ok (.present _ (.directory _ _)) => .error (.system .isDirectory)
  | .ok (.present loc _) => .ok (fs.remove now loc)

/-! ## Replacing a file -/

/-- An error together with the paths that it is about. -/
structure PathError where
  error : FileError
  paths : List Text

/-- The name of the `n`th temporary file beside a file called `name`. -/
def temporaryName (name : Text) (n : Nat) : Text :=
  let digits := if n = 0 then [] else Nat.toDigits 10 n
  let mark := String.ofList (digits ++ List.replicate (8 - digits.length) 'X')
  "." ++ name ++ "." ++ mark ++ ".tmp"

/-- Makes a temporary file in a directory under the first name from the `n`th on that is not taken.
-/
def makeTemporary (now : Int) (directory : Path) (name : Text) (content : List UInt8)
    (fs : FileSystem) : (fuel n : Nat) → Except PathError (Location × Text × FileSystem)
  | 0, n => .error ⟨.system .alreadyExists, [(directory.child (temporaryName name n)).text]⟩
  | fuel + 1, n =>
    let text := (directory.child (temporaryName name n)).text
    match fs.locate Here.root .entry text with
    | .error e => .error ⟨e, [text]⟩
    | .ok (.vacant loc) => .ok (loc, text, fs.create now loc (.file content now))
    | .ok _ => makeTemporary now directory name content fs fuel (n + 1)

/-- How many names are tried for a temporary file. -/
def maxTemporaries : Nat := 10000

/-- Makes the temporary file that is to take the name of `p`. -/
def startFile (now : Int) (here : Here) (p : Path) (content : List UInt8) (fs : FileSystem) :
    Except PathError (Location × Text × FileSystem) :=
  match here.absolute? p.parent with
  | none => .error ⟨.system .noEntry, []⟩
  | some directory => fs.makeTemporary now directory p.name content maxTemporaries 0

/-- Whether a path ends in a component that is no name of its own. -/
def endsAtDirectory (p : Path) : Bool := p.parts.getLast?.all fun part : Text => part = ".."

/-- The location that a file moved onto a path will have. -/
def moveTarget (here : Here) (p : Path) (fs : FileSystem) : Except FileError Location :=
  match fs.locate here .entry p.text with
  | .error e => .error e
  | .ok (.vacant loc) => .ok loc
  | .ok (.lost _) => .error (.system .busy)
  | .ok (.present loc tree) =>
    if endsAtDirectory p then .error (.system .busy)
    else if tree.node = .directory then .error (.system .isDirectory)
    else .ok loc

/-- Writes a file as a whole: into a temporary file beside it, which then takes its name. If that
fails the temporary file is taken away. -/
def replaceFile (now : Int) (here : Here) (p : Path) (content : List UInt8) (fs : FileSystem) :
    Except PathError Unit × FileSystem :=
  match fs.startFile now here p content with
  | .error e => (.error e, fs)
  | .ok (loc, text, made) =>
    match made.moveTarget here p with
    | .error e => (.error ⟨e, [text, p.text]⟩, made.remove now loc)
    | .ok target => (.ok (), (made.remove now loc).create now target (.file content now))

end FileSystem
end TagsFile
