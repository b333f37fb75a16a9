import TagsFile.Fault
import TagsFile.FileSystem.Listing
import TagsFile.Json.Reader
import TagsFile.Json.Writer
import TagsFile.Record
import TagsFile.Text.Utf8

/-!
# The store of entries

A store keeps the tags of sources in entry files, one for each source, below a root directory and
under the path of the source. An entry is fresh while it is not older than its source.

## Main definitions

* `Store`, `Store.entryPath`.
* `Store.load`: the tags of a source if its entry is fresh.
* `Store.save`, `Store.invalidate`, `Store.clear`.
-/

namespace TagsFile

structure Store where
  root : Path
  /-- A store that is not enabled has no entries and keeps none. -/
  enabled : Bool := true
  hits : Nat := 0
  misses : Nat := 0

/-- Why an entry holds no record. -/
inductive EntryFault where
  | unreadable (e : SystemError)
  | notUtf8
  | notJson
  | tooDeep
  | notRecord (f : RecordFault)

/-- Why there are no tags for a source. -/
inductive MissReason where
  | disabled
  | noEntry
  | noSource (e : SystemError)
  | stale
  | corrupt (f : EntryFault)

/-- What a store has for a source. -/
inductive Lookup where
  | hit (tags : List RawTag)
  | miss (reason : MissReason)

namespace Lookup

/-- The record of the source at `path`: with tags and valid after a hit, else without. -/
def record (path : Text) : Lookup → Record
  | .hit tags => { path := .string path, valid := true, tags }
  | .miss _ => { path := .string path }

end Lookup

namespace Store

/-- The path of the entry of a source: its path from the root, below the root of the store. -/
def entryPath (s : Store) (path : Text) : Path :=
  let relative := (Path.ofText path).relative
  (s.root.join relative.parent).child (relative.name ++ ".json")

/-! ## Loading -/

/-- The tags in the bytes of an entry, for a reader that goes `depth` levels deep. -/
def decodeEntry (depth : Nat) (bytes : List UInt8) : Except EntryFault (List RawTag) :=
  match Text.Utf8.decode? bytes with
  | none => .error .notUtf8
  | some cs =>
    match Json.readWithin depth cs with
    | .error .tooDeep => .error .tooDeep
    | .error _ => .error .notJson
    | .ok v =>
      match Record.ofJson v with
      | .error f => .error (.notRecord f)
      | .ok r => .ok r.tags

/-- What the bytes of a fresh entry give. An infinite line and values too deep inside each other are
the two faults that are not taken for a miss. -/
def readEntry (files : FileSystem) (here : Here) (entry : Text) : Except Fault Lookup :=
  match files.read here entry with
  | .error (.badPath f) => .error (.badPath f)
  | .error (.system e) => .ok (.miss (.corrupt (.unreadable e)))
  | .ok bytes =>
    match decodeEntry here.depths.values bytes with
    | .error (.notRecord .lineInfinite) => .error .infiniteLine
    | .error .tooDeep => .error .tooDeep
    | .error f => .ok (.miss (.corrupt f))
    | .ok tags => .ok (.hit tags)

/-- What the store has for the source at `path`. -/
def load (s : Store) (files : FileSystem) (here : Here) (path : Text) : Except Fault Lookup :=
  if s.enabled then
    let entry := (s.entryPath path).text
    match files.modifiedAt here entry with
    | .error (.badPath f) => .error (.badPath f)
    | .error (.system _) => .ok (.miss .noEntry)
    | .ok entryTime =>
      match files.modifiedAt here path with
      | .error (.badPath f) => .error (.badPath f)
      | .error (.system e) => .ok (.miss (.noSource e))
      | .ok sourceTime =>
        if entryTime < sourceTime then .ok (.miss .stale) else readEntry files here entry
  else .ok (.miss .disabled)

/-- The store after a lookup has been counted. -/
def counted (s : Store) : Lookup → Store
  | .hit _ => { s with hits := s.hits + 1 }
  | .miss _ => { s with misses := s.misses + 1 }

/-! ## Saving -/

/-- The bytes of the entry of a source. -/
def encodeEntry (path : Text) (tags : List RawTag) : List UInt8 :=
  Text.Utf8.encode ({ path := .string path, tags : Record }.toJson.render)

/-- The fault of an entry, or a directory for it, that cannot be written. -/
def unwritable (path : Text) : FileError → Fault
  | .system e => .failure (.unwritableEntry (.string path) (.string e.text))
  | .badPath f => .badPath f

/-- Makes an entry at least as late as its source. -/
def stamp (here : Here) (entry path : Text) (files : FileSystem) :
    Outcome FileSystem Unit :=
  match files.modifiedAt here path with
  | .error (.badPath f) => (.error (.badPath f), files)
  | .error (.system _) => (.ok (), files)
  | .ok sourceTime =>
    match files.modifiedAt here entry with
    | .error e => (.error (unwritable entry e), files)
    | .ok entryTime =>
      if entryTime < sourceTime then
        match files.touch here entry sourceTime with
        | .error e => (.error (unwritable entry e), files)
        | .ok files => (.ok (), files)
      else (.ok (), files)

/-- Writes the entry of the source at `path`, with the directories above it. -/
def putEntry (s : Store) (now : Int) (here : Here) (path : Text) (tags : List RawTag)
    (files : FileSystem) : Outcome FileSystem Unit :=
  let entry := s.entryPath path
  match files.makeDirectories now here entry.parent with
  | (.error .tooDeep, files) => (.error .tooDeep, files)
  | (.error (.file e), files) => (.error (unwritable entry.parent.text e), files)
  | (.ok (), files) =>
    match files.replaceFile now here entry (encodeEntry path tags) with
    | (.error e, files) => (.error (unwritable entry.text e.error), files)
    | (.ok (), files) => (.ok (), files)

/-- Keeps the tags of the source at `path`. An entry that cannot be stamped stays as it is
written. -/
def save (s : Store) (now : Int) (here : Here) (path : Text) (tags : List RawTag)
    (files : FileSystem) : Outcome FileSystem Unit :=
  if s.enabled then
    match s.putEntry now here path tags files with
    | (.error e, files) => (.error e, files)
    | (.ok (), files) => stamp here (s.entryPath path).text path files
  else (.ok (), files)

/-! ## Removing -/

/-- Takes away the entry of the source at `path`, if there is one. -/
def invalidate (s : Store) (now : Int) (here : Here) (path : Text) (files : FileSystem) :
    Outcome FileSystem Unit :=
  let entry := (s.entryPath path).text
  match files.unlink now here entry with
  | .ok files => (.ok (), files)
  | .error (.system .noEntry) => (.ok (), files)
  | .error e => (.error (.ofFile [entry] e), files)

/-- Whether a name is one that entries have. -/
def isEntryName (name : Text) : Bool := (Text.ofString ".json").isSuffixOf name

/-- How `clear` writes what it comes to by some names below the root. -/
def clearText (root : Path) (names : List Text) : Text :=
  (Path.mk root.anchor (root.parts ++ names)).text

/-- Takes away the entries of the directory at `loc`, which lies at `names` below the root. A
directory with the name of an entry stops it, and so does a path that is too long. -/
def clearEntries (now : Int) (root : Path) (names : List Text) (loc : Location) :
    List (Text × Listing) → FileSystem → Outcome FileSystem Unit
  | [], files => (.ok (), files)
  | (name, entry) :: rest, files =>
    if isEntryName name then
      let path := clearText root (names ++ [name])
      if FileSystem.maxPath ≤ path.fileLength then (.error (.system .nameTooLong [path]), files)
      else
        match entry with
        | .directory _ => (.error (.system .isDirectory [path]), files)
        | _ => clearEntries now root names loc rest (files.remove now (loc ++ [name]))
    else clearEntries now root names loc rest files

mutual

/-- Takes away the entries in a directory and below it, from the top down and at most `depth` levels
deep. A link that cannot be followed stops it, unless it has been taken away for an entry. -/
def clearDirectory (now : Int) (root : Path) (depth : Nat) (names : List Text) (loc : Location) :
    Listing → FileSystem → Outcome FileSystem Unit
  | .directory entries, files =>
    if depth = 0 then (.error .tooDeep, files)
    else
      match clearEntries now root names loc entries files with
      | (.error e, files) => (.error e, files)
      | (.ok (), files) => clearBelow now root (depth - 1) names loc entries files
  | .closedDirectory, files => (.error (.system .nameTooLong [clearText root names]), files)
  | .overlongLink, files =>
    if isEntryName (names.getLast?.getD "") then (.ok (), files)
    else (.error (.system .nameTooLong [clearText root names]), files)
  | _, files => (.ok (), files)

/-- Takes away the entries below the directories among `entries`. -/
def clearBelow (now : Int) (root : Path) (depth : Nat) (names : List Text) (loc : Location) :
    List (Text × Listing) → FileSystem → Outcome FileSystem Unit
  | [], files => (.ok (), files)
  | (name, entry) :: rest, files =>
    match clearDirectory now root depth (names ++ [name]) (loc ++ [name]) entry files with
    | (.error e, files) => (.error e, files)
    | (.ok (), files) => clearBelow now root depth names loc rest files

end

/-- Takes away all entries. -/
def clear (s : Store) (now : Int) (here : Here) (files : FileSystem) :
    Outcome FileSystem Unit :=
  match files.isDirectory here s.root.text, files.find here .target s.root.text with
  | .error e, _ => (.error (.ofFile [s.root.text] e), files)
  | .ok true, .ok (loc, tree) =>
    let text := clearText s.root
    let entries := Listing.sorted (files.listing here text (FileSystem.isOverlong text) tree)
    clearDirectory now s.root (here.depths.clear + 1) [] loc (.directory entries) files
  | _, _ => (.ok (), files)

end Store
end TagsFile
