import TagsFile.CommandLine.Run

/-!
# The program

The outer layer: it takes a picture of the files that a run can reach, runs the command line on it,
and makes the changes of the run on the disk. No grammar is linked, so only sources with a fresh
entry have tags.
-/

namespace TagsFile
namespace Disk

/-- A text as the disk and the streams take it, with U+FFFD for what is no character. -/
def plain (t : Text) : String := String.ofList (t.map fun c => c.char?.getD '�')

/-- The path of a location on the disk. -/
def pathOf (loc : Location) : String := plain (Location.path loc).text

/-- The time of a change in nanoseconds. -/
def nanoseconds (t : IO.FS.SystemTime) : Int := t.sec * 1000000000 + t.nsec.toNat

/-- The target that is given to a link that leads nowhere. -/
def nowhere : String := "/dev/null/none"

/-- Where a link leads in the end. -/
def linkTarget (path : String) : IO String := do
  try
    let target := toString (← IO.FS.realPath path)
    return if target = path then nowhere else target
  catch _ => return nowhere

/-- The tree at a location, if anything can be read there. -/
partial def treeAt (loc : Location) : IO (Option Tree) := do
  let path := pathOf loc
  let entry : IO.FS.DirEntry := ⟨path, "."⟩
  let own : IO.FS.DirEntry := ⟨pathOf loc.dropLast, plain (loc.getLast?.getD ".")⟩
  try
    let info ← own.path.symlinkMetadata
    match info.type with
    | .dir =>
      let mut entries : Table Text Tree := []
      for e in ← entry.path.readDir do
        if let some t ← treeAt (loc ++ [Text.ofString e.fileName]) then
          entries := entries.put e.fileName t
      return some (.directory (nanoseconds info.modified) entries)
    | .symlink => return some (.link (← linkTarget path))
    | _ =>
      let content ← IO.FS.readBinFile path
      return some (.file content.toList (nanoseconds info.modified))
  catch _ => return none

/-- The files with a tree at a location and the directories on the way to it. -/
def withTree (files : FileSystem) (loc : Location) (t : Tree) : FileSystem :=
  let ways := (List.range loc.length).map loc.take
  let made := ways.foldl (fun files way =>
    if (files.get? way).isNone then files.create 0 way (.directory 0 []) else files) files
  made.create 0 loc t

/-- The files that lie at or below some locations. -/
def picture (locations : List Location) : IO FileSystem := do
  let mut files : FileSystem := {}
  for loc in locations do
    if let some t ← treeAt loc then
      files := withTree files loc t
  return files

/-- The latest time in a tree. -/
partial def latest (t : Tree) : Int :=
  t.entries.foldl (fun time (_, t) => max time (latest t)) t.modified

/-- Takes away what is at a location of the disk. -/
def discard (loc : Location) : IO Unit := IO.FS.removeFile (pathOf loc)

/-- Makes the disk, which looks like `before` at a location, look like `after` there. -/
partial def commit (loc : Location) (before : Option Tree) (after : Tree) : IO Unit := do
  match after with
  | .file content _ =>
    if before.map Tree.node ≠ some after.node then
      IO.FS.writeBinFile (pathOf loc) ⟨content.toArray⟩
  | .link _ => pure ()
  | .directory _ entries =>
    if before.map Tree.node ≠ some .directory then IO.FS.createDirAll (pathOf loc)
    let old := (before.map Tree.entries).getD []
    for (name, t) in entries do commit (loc ++ [name]) (old.get? name) t
    for (name, _) in old do
      if (Table.get? entries name).isNone then discard (loc ++ [name])

/-- The homes in a list of accounts. -/
def homes (text : String) : Table Text Text :=
  (text.splitOn "\n").filterMap fun line =>
    match line.splitOn ":" with
    | [name, _, _, _, _, home, _] => some (Text.ofString name, Text.ofString home)
    | _ => none

def environment : IO Environment := do
  let accounts ← try homes <$> IO.FS.readFile "/etc/passwd" catch _ => pure []
  let user := (← IO.getEnv "USER").getD "root"
  return { home := (← IO.getEnv "HOME").map Text.ofString,
           cacheDirectory := (← IO.getEnv "PTAGS_CACHE_DIR").map Text.ofString, accounts,
           accountHome := (accounts.get? user).getD "/" }

/-- The locations that a run can reach: its inputs, its output and its cache. -/
def reach (here : Location) (env : Environment) (arguments : List Text) : List Location :=
  let texts :=
    match Options.ofArguments arguments with
    | .ok o => o.paths ++ o.outfile.toList ++ o.base.toList ++ o.cacheDir.toList
    | .error _ => []
  let paths := texts.map Path.ofText ++ env.cacheRoot.toList
  here :: paths.map fun p => (p.absolute here).parts

end Disk
end TagsFile

open TagsFile in
def main (arguments : List String) : IO UInt32 := do
  let arguments := arguments.map Text.ofString
  let here := (Path.ofText (toString (← IO.currentDir))).parts
  let env ← Disk.environment
  let files ← Disk.picture (Disk.reach here env arguments)
  let world : World :=
    { files, here := { location := here }, now := Disk.latest files.root + 1, environment := env }
  let (result, after) := CommandLine.run none arguments world
  Disk.commit [] (some files.root) after.files.root
  match result with
  | .ok r =>
    IO.print (Disk.plain r.output)
    IO.eprint (Disk.plain r.errors)
    return UInt32.ofNat r.status
  | .error _ =>
    IO.eprintln "Error: the run could not be finished"
    return 1
