import TagsFile.Config.Basic
import TagsFile.FileSystem.Follow
import TagsFile.Json.Reader
import TagsFile.Text.Utf8

/-!
# Project files

A project may give its scan settings in a file. Without a file, or with one that is no JSON object,
the defaults hold; so does the default of a setting that is missing or null.

## Main definitions

* `Config.load`: the settings of the project in a directory.
-/

namespace TagsFile
namespace Config

/-- Why the settings of a project cannot be loaded. -/
inductive LoadFault where
  | file (e : FileError) (path : Text)
  | notUtf8
  | integerTooLong
  | tooDeep
  | setting (f : SettingFault)
deriving DecidableEq, Repr

def fileName : Text := ".ptags.json"

/-- A setting, or its default if it is missing or null. -/
def settingOr (default : Json) (key : Text) (members : List (Text × Json)) : Json :=
  match Json.lookup key members with
  | none | some .null => default
  | some v => v

/-- The settings in a document. -/
def ofJson : Json → Except SettingFault Config
  | .object members => do
    let extensions := settingOr defaultExtensions "extensions" members
    let patterns := settingOr defaultExcludePatterns "excludePatterns" members
    let texts ← (← items extensions).mapM extensionText
    return ⟨.array (texts.map .string), .array (← items patterns)⟩
  | _ => .ok default

/-- The settings in the bytes of a project file, for a reader that goes `depth` levels deep. -/
def ofBytes (depth : Nat) (bytes : List UInt8) : Except LoadFault Config :=
  match Text.Utf8.decode? bytes with
  | none => .error .notUtf8
  | some cs =>
    match Json.readWithin depth cs with
    | .error .malformed => .ok default
    | .error .integerTooLong => .error .integerTooLong
    | .error .tooDeep => .error .tooDeep
    | .ok v => (ofJson v).mapError .setting

/-- The settings of the project in a directory. -/
def load (files : FileSystem) (here : Here) (directory : Path) : Except LoadFault Config :=
  let path := (directory.child fileName).text
  match files.hasEntry here path with
  | .error e => .error (.file e path)
  | .ok false => .ok default
  | .ok true =>
    match files.read here path with
    | .error _ => .ok default
    | .ok bytes => ofBytes here.depths.values bytes

end Config
end TagsFile
