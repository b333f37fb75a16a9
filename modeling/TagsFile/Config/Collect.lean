import TagsFile.Config.Scan
import TagsFile.Fault

/-!
# The sources of a run

Inputs are files, which are taken as they are, or directories, which are scanned.

## Main definitions

* `Config.sourcesBelow`: the files that a scan of a path picks.
* `Config.collect`: the sources that some inputs stand for.
-/

namespace TagsFile
namespace Config

/-- How a scan of the path `p` writes what it comes to by some names. -/
def scanText (p : Path) (names : List Text) : Text :=
  if p.isAbsolute && p.parts = [] then Path.anchorText p.anchor ++ Text.join "/" names
  else Text.join "/" (p.text :: names)

/-- Whether a scan of `p`, which is at `top`, cannot look into the directory that it comes to by
some names: because of its path, or because the system denies it. -/
def isShut (here : Here) (p : Path) (top : Location) (names : List Text) : Bool :=
  FileSystem.isOverlong (scanText p) names || here.denied.listings.contains (top ++ names)

/-- The files that a scan of a path picks; none if the path is no directory. A relative path needs
the working directory to be there. -/
def sourcesBelow (config : Config) (files : FileSystem) (here : Here) (p : Path) :
    Found Fault Text :=
  match config.extensionTexts with
  | .error f => { fault := some (.setting f) }
  | .ok _ =>
    match files.locate here .target p.text with
    | .error (.badPath f) => { fault := some (.badPath f) }
    | .error (.system _) => {}
    | .ok (.lost _) => { fault := some (.system .noEntry []) }
    | .ok (.present top (.directory modified entries)) =>
      if isShut here p top [] then {}
      else
        match here.absolute? p with
        | none => { fault := some (.system .noEntry []) }
        | some _ =>
          let listing :=
            files.listing here (scanText p) (isShut here p top) (.directory modified entries)
          ((config.scan here.depths.scan listing).mapFault ofScan).map fun names =>
            (Path.mk p.anchor (p.parts ++ names)).text
    | .ok _ => {}
where
  ofScan : ScanFault → Fault
    | .setting f => .setting f
    | .tooDeep => .tooDeep

/-- The sources that one input stands for. -/
def collectOne (config : Config) (files : FileSystem) (here : Here) (recurse : Bool)
    (input : Text) : Except Fault (List Text) := do
  let p := Path.ofText input
  if ← (files.isDirectory here p.text).mapError (Fault.ofFile [p.text]) then
    if recurse then (config.sourcesBelow files here p).toExcept
    else .error (.failure (.directoryGiven (.string input)))
  else return [p.text]

/-- The sources that some inputs stand for, in the order of the inputs. -/
def collect (config : Config) (files : FileSystem) (here : Here) (recurse : Bool)
    (inputs : List Text) : Except Fault (List Text) := do
  return (← inputs.mapM (config.collectOne files here recurse)).flatten

end Config
end TagsFile
