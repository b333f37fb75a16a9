import TagsFile.Text.Digit
import TagsFile.Text.Quoted

/-!
# Options

The options of the command line, and how a list of arguments is taken apart. A long option may be
cut short as long as one option remains that it can mean; short ones that take no value may be
joined. All paths have to stand together.

## Main definitions

* `Switch`: the options.
* `Options`: what the arguments ask for.
* `Options.ofArguments`: reads the arguments.
-/

namespace TagsFile

inductive Switch where
  | help
  | version
  | outfile
  | recurse
  | base
  | cacheDir
  | noCache
  | verbose
  | errorFormat
deriving DecidableEq, Repr

namespace Switch

/-- How the options are written, in the order in which they are listed. -/
def spellings : List (String × Switch) :=
  [("-h", .help), ("--help", .help), ("-v", .version), ("--version", .version), ("-f", .outfile),
   ("--file", .outfile), ("-R", .recurse), ("--recurse", .recurse), ("--base", .base),
   ("--cache-dir", .cacheDir), ("--no-cache", .noCache), ("--verbose", .verbose),
   ("--error-format", .errorFormat)]

def ofSpelling? (text : Text) : Option Switch := text.toString?.bind fun s => spellings.lookup s

/-- All spellings of an option, as messages name it. -/
def title (s : Switch) : String :=
  "/".intercalate ((spellings.filter (·.2 = s)).map Prod.fst)

def takesValue : Switch → Bool
  | .outfile | .base | .cacheDir | .errorFormat => true
  | _ => false

end Switch

/-- What is wrong with the arguments. -/
inductive UsageError where
  | ambiguous (given : Text) (candidates : List String)
  | ignoredValue (s : Switch) (value : Text)
  | noValue (s : Switch)
  | invalidFormat (value : Text)
  | unrecognized (arguments : List Text)
  | noInputs
deriving DecidableEq, Repr

def UsageError.message : UsageError → Text
  | .ambiguous given candidates =>
    "ambiguous option: " ++ given ++ " could match " ++ ", ".intercalate candidates
  | .ignoredValue s value =>
    "argument " ++ s.title ++ ": ignored explicit argument " ++ Text.quoted value
  | .noValue s => "argument " ++ s.title ++ ": expected one argument"
  | .invalidFormat value =>
    "argument --error-format: invalid choice: " ++ Text.quoted value ++
      " (choose from 'text', 'json')"
  | .unrecognized arguments => "unrecognized arguments: " ++ Text.join " " arguments
  | .noInputs => "no input files (pass files, or -R to scan directories)"

/-- Why the arguments ask for no run. -/
inductive Stop where
  | help
  | version
  | usage (e : UsageError)
deriving DecidableEq, Repr

structure Options where
  /-- The output file; a value that was given and dropped leaves none. -/
  outfile : Option Text := some "tags"
  recurse : Bool := false
  base : Option Text := none
  cacheDir : Option Text := none
  noCache : Bool := false
  verbose : Bool := false
  /-- Failures are reported as JSON. -/
  jsonErrors : Bool := false
  paths : List Text := []

/-! ## Arguments -/

/-- What an argument is. -/
inductive Argument where
  | value (text : Text)
  /-- The mark after which there are values only. -/
  | separator
  /-- An option as it is spelt in full, with a value from the same argument. -/
  | option (s : Switch) (spelling : Text) (value : Option Text)
  | unknown (text : Text)
deriving DecidableEq, Repr

namespace Argument

/-- Splits at the first equals sign. -/
def splitEquals : Text → Text × Option Text
  | [] => ([], none)
  | c :: cs =>
    if c = .char '=' then ([], some cs)
    else
      let (before, after) := splitEquals cs
      (c :: before, after)

/-- Whether a code point is a digit. -/
def isDigit : CodePoint → Bool := CodePoint.satisfies Text.isDigit

/-- Digits, at least one. -/
def isDigits (cs : Text) : Bool := cs ≠ [] && cs.all isDigit

/-- Digits with a point before or among them. -/
def isFraction (cs : Text) : Bool :=
  match cs.dropWhile isDigit with
  | .char '.' :: digits => isDigits digits
  | _ => false

/-- A negative number, with or without a line break behind it. -/
def isNegativeNumber : Text → Bool
  | .char '-' :: cs =>
    let cs := if cs.getLast? = some (.char '\n') then cs.dropLast else cs
    isDigits cs || isFraction cs
  | _ => false

/-- The spellings that an option cut short can mean. -/
def candidates (start : Text) : List (String × Switch) :=
  Switch.spellings.filter fun p => start.isPrefixOf (Text.ofString p.1)

/-- An argument that starts with a dash and is no option as it stands. -/
def guess (text : Text) : Argument :=
  if isNegativeNumber text || text.contains (.char ' ') then .value text else .unknown text

/-- An argument that starts with two dashes and is not spelt in full. -/
def ofLong (text : Text) : Except UsageError Argument :=
  let (start, given) := splitEquals text
  match candidates start with
  | [] => .ok (guess text)
  | [(spelling, s)] => .ok (.option s spelling given)
  | many => .error (.ambiguous text (many.map Prod.fst))

/-- An argument that starts with one dash: a short option with what is joined to it. -/
def ofShort (text : Text) : Argument :=
  match Switch.ofSpelling? (text.take 2) with
  | some s => .option s (text.take 2) (some (text.drop 2))
  | none => guess text

/-- An argument before the separator. -/
def ofText (text : Text) : Except UsageError Argument :=
  match text with
  | .char '-' :: more =>
    match Switch.ofSpelling? text with
    | some s => .ok (.option s text none)
    | none =>
      if more = [] then .ok (.value text)
      else
        let (before, given) := splitEquals text
        match given, Switch.ofSpelling? before with
        | some given, some s => .ok (.option s before (some given))
        | _, _ => if more.head? = some (.char '-') then ofLong text else .ok (ofShort text)
  | _ => .ok (.value text)

/-- All arguments of a command line. -/
def ofTexts : List Text → Except UsageError (List Argument)
  | [] => .ok []
  | text :: rest =>
    if text = "--" then .ok (.separator :: rest.map .value)
    else do
      let a ← ofText text
      return a :: (← ofTexts rest)

def isPath : Argument → Bool
  | .value _ | .separator => true
  | _ => false

def text : Argument → Text
  | .value text | .unknown text => text
  | .separator => "--"
  | .option _ spelling _ => spelling

end Argument

/-! ## Reading -/

/-- Options that one argument asks for, each with its value, and whether that is still to come. -/
structure Joined where
  done : List (Switch × Option Text)
  /-- The option that takes the next argument for its value. -/
  pending : Option Switch

/-- Takes apart the options joined in one argument. -/
def Joined.ofOption (s : Switch) (short : Bool) : Option Text → Except UsageError Joined
  | none => .ok (if s.takesValue then ⟨[], some s⟩ else ⟨[(s, none)], none⟩)
  | some [] =>
    if s.takesValue then .ok ⟨[(s, some "")], none⟩ else .error (.ignoredValue s "")
  | some (c :: cs) =>
    if s.takesValue then .ok ⟨[(s, some (c :: cs))], none⟩
    else if short then
      match Switch.ofSpelling? [.char '-', c] with
      | none => .error (.ignoredValue s (c :: cs))
      | some next => do
        let more ← if cs = [] then ofOption next true none else ofOption next true (some cs)
        return { more with done := (s, none) :: more.done }
    else .error (.ignoredValue s (c :: cs))
termination_by value => (value.map List.length).elim 0 (· + 1)

namespace Options

/-- A value; the separator is none. -/
def plainValue (value : Text) : Option Text := if value = "--" then none else some value

/-- Does what an option asks for. -/
def apply (o : Options) : Switch × Option Text → Except Stop Options
  | (.help, _) => .error .help
  | (.version, _) => .error .version
  | (.recurse, _) => .ok { o with recurse := true }
  | (.noCache, _) => .ok { o with noCache := true }
  | (.verbose, _) => .ok { o with verbose := true }
  | (.outfile, value) => .ok { o with outfile := value.bind plainValue }
  | (.base, value) => .ok { o with base := value.bind plainValue }
  | (.cacheDir, value) => .ok { o with cacheDir := value.bind plainValue }
  | (.errorFormat, value) =>
    match value.bind plainValue with
    | none => .ok { o with jsonErrors := false }
    | some format =>
      if format = "text" then .ok { o with jsonErrors := false }
      else if format = "json" then .ok { o with jsonErrors := true }
      else .error (.usage (.invalidFormat format))

/-- Does what an argument and, if need be, the one behind it ask for; gives what is left. -/
def takeOption (o : Options) (s : Switch) (spelling : Text) (value : Option Text)
    (rest : List Argument) : Except Stop (Options × List Argument) := do
  let short := !(Text.ofString "--").isPrefixOf spelling
  let joined ← (Joined.ofOption s short value).mapError Stop.usage
  match joined.pending, rest with
  | none, rest => return (← joined.done.foldlM apply o, rest)
  | some s, .value v :: rest => return (← (joined.done ++ [(s, some v)]).foldlM apply o, rest)
  | some s, _ => .error (.usage (.noValue s))

/-- The paths in a run of values. -/
def pathsOf (run : List Argument) : List Text := (run.erase .separator).map Argument.text

/-- Reads arguments, `fuel` of them at most. The first run of values are the paths, if they have not
been `found`; all others go to `extras`. -/
def read : (fuel : Nat) → Options → (found : Bool) → (extras : List Text) → List Argument →
    Except Stop (Options × List Text)
  | 0, o, _, extras, _ => .ok (o, extras)
  | _ + 1, o, _, extras, [] => .ok (o, extras)
  | fuel + 1, o, found, extras, .option s spelling value :: rest => do
    let (o, rest) ← takeOption o s spelling value rest
    read fuel o found extras rest
  | fuel + 1, o, found, extras, .unknown text :: rest => read fuel o found (extras ++ [text]) rest
  | fuel + 1, o, found, extras, first :: rest =>
    let run := first :: rest.takeWhile Argument.isPath
    let rest := rest.dropWhile Argument.isPath
    if found then read fuel o true (extras ++ run.map Argument.text) rest
    else read fuel { o with paths := pathsOf run } true extras rest

/-- What the arguments ask for. -/
def ofArguments (arguments : List Text) : Except Stop Options := do
  let words ← (Argument.ofTexts arguments).mapError Stop.usage
  let (o, extras) ← read (words.length + 1) {} false [] words
  if extras ≠ [] then .error (.usage (.unrecognized extras))
  else if o.paths = [] && !o.recurse then .error (.usage .noInputs)
  else return o

end Options
end TagsFile
