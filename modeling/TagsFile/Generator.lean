import TagsFile.Cache.Log
import TagsFile.Tag.Index
import TagsFile.Token.OfTree

/-!
# Generators

A generator collects the tags of sources, one source after the other. The tags of a source come from
the store if it has them fresh, else from the source itself, and are then kept in the store.

## Main definitions

* `Generator`: the index, the store and the counts so far.
* `resolveSource`: the one path that stands for a source.
* `Generator.process`, `Generator.processAll`.
-/

namespace TagsFile

structure Generator where
  store : Store
  index : TagIndex := {}
  /-- How many sources have been parsed. -/
  parsed : Nat := 0
  /-- How many sources have been taken from the store. -/
  cached : Nat := 0

/-- The fault of a source that cannot be read. -/
def unreadable (path : Text) (e : SystemError) : Fault :=
  .failure (.unreadableSource (.string path) (.string e.text))

/-- The absolute path of an existing source without symbolic links. -/
def resolveSource (files : FileSystem) (here : Here) (path : Text) : Except Fault Text :=
  match files.resolve here true (Path.ofText path) with
  | .ok p => .ok p.text
  | .error (.file (.system e)) => .error (unreadable path e)
  | .error e => .error (.ofResolve e)

namespace Generator

def logSource : Text := "ptags.modules.core.driver"

/-- Parses the bytes of the source at `path`. -/
def extract (grammar : Option Grammar) (path : Text) (content : List UInt8) :
    Except Fault (List LogLine × List SourceTag) :=
  match grammar with
  | none => .error (.failure Failure.grammarMissing)
  | some grammar => do
    let tokens := tokenize content (grammar content)
    let tags ← ((Extraction.run tokens []).tags path).mapError Fault.extraction
    return ([⟨"ptags.modules.core.lexer", "tokenize: " ++ toString content.length ++ " bytes -> " ++
      toString tokens.length ++ " tokens"⟩], tags)

/-- Parses the source at a resolved path and keeps its tags in the store. -/
def parse (grammar : Option Grammar) (path : Text) (g : Generator) (w : World) :
    Outcome (Generator × World) (List RawTag) :=
  match w.files.read w.here path with
  | .error (.badPath f) => (.error (.badPath f), g, w)
  | .error (.system e) => (.error (unreadable path e), g, w)
  | .ok content =>
    match extract grammar path content with
    | .error f => (.error f, g, w)
    | .ok (lines, tags) =>
      let tags := tags.map Tag.raw
      let g := { g with index := g.index.add tags }
      let w := w.addLog lines
      match g.store.save w.now w.here path tags w.files with
      | (.error f, files) => (.error f, g, w.withFiles files)
      | (.ok (), files) =>
        let line : LogLine :=
          ⟨logSource, "driver: parsed " ++ path ++ " (" ++ toString tags.length ++ " tags)"⟩
        (.ok tags, { g with parsed := g.parsed + 1 }, (w.withFiles files).addLog [line])

/-- The tags of the source at a resolved path, from the store or from the source. -/
def processResolved (grammar : Option Grammar) (path : Text) (g : Generator) (w : World) :
    Outcome (Generator × World) (List RawTag) :=
  match g.store.load w.files w.here path with
  | .error f => (.error f, g, w)
  | .ok found =>
    let w := w.addLog (found.logLines path (g.store.entryPath path).text)
    let g := { g with store := g.store.counted found }
    match found with
    | .hit tags => (.ok tags, { g with index := g.index.add tags, cached := g.cached + 1 }, w)
    | .miss _ => g.parse grammar path w

/-- Adds the tags of a source to the index. -/
def process (grammar : Option Grammar) (path : Text) (g : Generator) (w : World) :
    Outcome (Generator × World) (List RawTag) :=
  match resolveSource w.files w.here path with
  | .error f => (.error f, g, w)
  | .ok path => g.processResolved grammar path w

/-- Adds the tags of sources to the index until one fails. -/
def processEach (grammar : Option Grammar) :
    List Text → Generator → World → Outcome (Generator × World) Unit
  | [], g, w => (.ok (), g, w)
  | path :: paths, g, w =>
    match g.process grammar path w with
    | (.error f, g, w) => (.error f, g, w)
    | (.ok _, g, w) => processEach grammar paths g w

/-- Adds the tags of all sources to the index. -/
def processAll (grammar : Option Grammar) (paths : List Text) (g : Generator) (w : World) :
    Outcome (Generator × World) Unit :=
  match processEach grammar paths g w with
  | (.error f, g, w) => (.error f, g, w)
  | (.ok (), g, w) =>
    let line : LogLine :=
      ⟨logSource, "driver: " ++ toString g.parsed ++ " parsed, " ++ toString g.cached ++
        " from cache, " ++ toString g.index.size ++ " tags"⟩
    (.ok (), g, w.addLog [line])

/-- The tags file of the index, with paths seen from `base`. -/
def render (base : Path) (g : Generator) : Except Fault Text :=
  (g.index.render base.text).mapError Fault.print

end Generator
end TagsFile
