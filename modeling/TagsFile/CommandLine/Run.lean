import TagsFile.CommandLine.Options
import TagsFile.CommandLine.Usage
import TagsFile.Config.Collect
import TagsFile.Generator

/-!
# Runs of the command line

A run collects its sources, makes their tags and writes the tags file. Its failures are reported on
the error stream, as text or as JSON.

## Main definitions

* `CommandLine.execute`: what the options ask for.
* `CommandLine.run`: a whole run, from its arguments to its exit status.
-/

namespace TagsFile

/-- How a run ends. -/
structure RunResult where
  status : Nat
  output : Text := []
  errors : Text := []
deriving DecidableEq, Repr

/-- The report of a fault that a run catches. -/
def Fault.report? : Fault → Option Report
  | .failure f => some f.report
  | .system e paths =>
    some { code := .string Report.internalCode, message := .string (e.message paths) }
  | _ => none

namespace CommandLine

/-- The result of a call that asks for no run. -/
def stopped : Stop → RunResult
  | .help => { status := 0, output := Usage.help }
  | .version => { status := 0, output := Usage.programName ++ " " ++ Usage.version ++ "\n" }
  | .usage e =>
    { status := 2,
      errors := Usage.lines (Usage.synopsis ++ [Usage.programName ++ ": error: " ++ e.message]) }

/-- A value that is given and not empty. -/
def nonempty (value : Option Text) : Option Text := value.filter fun t : Text => t ≠ ""

/-- The store that the options ask for. -/
def storeFor (o : Options) (env : Environment) : Except Fault Store :=
  let root :=
    match nonempty o.cacheDir with
    | some directory => some (Path.ofText directory)
    | none => env.cacheRoot
  match root with
  | some root => .ok { root, enabled := !o.noCache }
  | none => .error .noHome

/-- The path of the working directory, as long as it is there. -/
def workingDirectory (w : World) : Except Fault Path :=
  match w.here.location? with
  | some loc => .ok (Location.path loc)
  | none => .error (.system .noEntry [])

/-- The sources that the options ask for. -/
def sourcesFor (o : Options) (w : World) : Except Fault (List Text) := do
  let config ← (Config.load w.files w.here (← workingDirectory w)).mapError Fault.ofLoad
  let inputs := if o.paths = [] then [Text.ofString "."] else o.paths
  config.collect w.files w.here o.recurse inputs

/-- The directory that the paths of the tags file are seen from. -/
def baseFor (o : Options) (w : World) : Except Fault Path :=
  match nonempty o.base, o.outfile with
  | some base, _ => resolve (Path.ofText base)
  | none, some outfile =>
    if outfile = "-" then workingDirectory w >>= resolve
    else (resolve (Path.ofText outfile)).map Path.parent
  | none, none => .error .noOutputName
where
  resolve (p : Path) : Except Fault Path :=
    (w.files.resolve w.here false p).mapError Fault.ofResolve

/-- Writes the tags file; gives what goes to the output stream. A text that has no bytes is noticed
only when the temporary file is there, and that file stays. -/
def writeOutput (o : Options) (text : Text) (w : World) : Outcome World Text :=
  match o.outfile with
  | none => (.error .noOutputName, w)
  | some outfile =>
    if outfile = "-" then (.ok text, w)
    else
      let p := Path.ofText outfile
      match text.toString? with
      | none =>
        match w.files.startFile w.now w.here p [] with
        | .error e => (.error (.ofPathError e), w)
        | .ok (_, _, files) => (.error .unencodable, w.withFiles files)
      | some text =>
        match w.files.replaceFile w.now w.here p (Text.Utf8.encode text) with
        | (.error e, files) => (.error (.ofPathError e), w.withFiles files)
        | (.ok (), files) => (.ok [], w.withFiles files)

/-- The line that a run logs before it writes. -/
def summary (g : Generator) : LogLine :=
  ⟨"ptags.cli", "cli: " ++ toString g.index.size ++ " tags, cache \x7b'hits': " ++
    toString g.store.hits ++ ", 'misses': " ++ toString g.store.misses ++ "\x7d"⟩

/-- The text of the tags file of a generator. -/
def tagsText (o : Options) (g : Generator) (w : World) : Except Fault Text := do
  g.render (← baseFor o w)

/-- Does what the options ask for; gives what goes to the output stream. -/
def execute (grammar : Option Grammar) (o : Options) (w : World) : Outcome World Text :=
  match sourcesFor o w with
  | .error f => (.error f, w)
  | .ok sources =>
    match storeFor o w.environment with
    | .error f => (.error f, w)
    | .ok store =>
      match { store : Generator }.processAll grammar sources w with
      | (.error f, _, w) => (.error f, w)
      | (.ok (), g, w) =>
        match tagsText o g w with
        | .error f => (.error f, w)
        | .ok text => writeOutput o text (w.addLog [summary g])

/-- The line that tells a failure. -/
def failureLine (o : Options) (r : Report) : Text :=
  if o.jsonErrors then r.toJson.render else "Error: " ++ r.message.literal

/-- A run with the given arguments. Faults that are no failures of the run itself end it without a
result. -/
def run (grammar : Option Grammar) (arguments : List Text) (w : World) :
    Outcome World RunResult :=
  match Options.ofArguments arguments with
  | .error stop => (.ok (stopped stop), w)
  | .ok o =>
    let (result, after) := execute grammar o w
    let log := if o.verbose then (after.log.drop w.log.length).map LogLine.text else []
    match result with
    | .ok output => (.ok { status := 0, output, errors := Usage.lines log }, after)
    | .error f =>
      match f.report? with
      | some r => (.ok { status := 1, errors := Usage.lines (log ++ [failureLine o r]) }, after)
      | none => (.error f, after)

end CommandLine
end TagsFile
