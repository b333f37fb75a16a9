import TagsFile.Config.Basic
import TagsFile.FileSystem.Listing
import TagsFile.Found

/-!
# Scans

A scan goes through a directory from the top down and picks the files with one of the extensions.
What an exclude pattern fits is left out, a directory with all that is below it. Of each directory
come first the files and then the subdirectories, both in the order of their names. A scan that
comes to directories too deep inside each other ends there, with what it has found.

## Main definitions

* `Config.scan`: the files that a scan picks, as names from its root.
-/

namespace TagsFile

/-- What ends a scan. -/
inductive ScanFault where
  | setting (f : SettingFault)
  | tooDeep
deriving DecidableEq, Repr

namespace Config

/-- Whether a scan takes in what it has come to by some names. -/
def scans (config : Config) (names : List Text) : Except ScanFault Bool :=
  (config.includes (Text.join "/" names)).mapError .setting

/-- Whether the name of a file ends in one of the extensions. -/
def hasExtension (extensions : List Text) (name : Text) : Bool :=
  extensions.contains (Text.lower (suffixOf name))

/-- The files of one directory, which lies at `above`. -/
def scanFiles (config : Config) (extensions : List Text) (above : List Text) :
    List (Text × Listing) → Found ScanFault (List Text)
  | [] => {}
  | (name, entry) :: rest =>
    if entry.isFile && hasExtension extensions name then
      .when (config.scans (above ++ [name])) { items := [above ++ [name]] } ++
        scanFiles config extensions above rest
    else scanFiles config extensions above rest

mutual

/-- The files below an entry, at most `depth` levels down. Links to directories are not entered, but
they count for the depth. -/
def scanEntry (config : Config) (extensions : List Text) (depth : Nat) (above : List Text) :
    Listing → Found ScanFault (List Text)
  | .file | .overlongLink => {}
  | .linkedDirectory | .closedDirectory =>
    .when (config.scans above) (if depth = 0 then { fault := some .tooDeep } else {})
  | .directory entries =>
    .when (config.scans above)
      (if depth = 0 then { fault := some .tooDeep }
      else
        scanFiles config extensions above entries ++
          scanBelow config extensions (depth - 1) above entries)

/-- The files below the directories among some entries. -/
def scanBelow (config : Config) (extensions : List Text) (depth : Nat) (above : List Text) :
    List (Text × Listing) → Found ScanFault (List Text)
  | [] => {}
  | (name, entry) :: rest =>
    scanEntry config extensions depth (above ++ [name]) entry ++
      scanBelow config extensions depth above rest

end

/-- The files that a scan picks from a directory with some entries, as names from there. -/
def scan (config : Config) (depth : Nat) (entries : List (Text × Listing)) :
    Found ScanFault (List Text) :=
  match config.extensionTexts with
  | .error f => { fault := some (.setting f) }
  | .ok extensions =>
    let entries := Listing.sorted entries
    scanFiles config extensions [] entries ++ scanBelow config extensions depth [] entries

end Config
end TagsFile
