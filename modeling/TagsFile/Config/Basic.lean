import TagsFile.Glob
import TagsFile.Json.Basic
import TagsFile.Path.Basic
import TagsFile.Text.Lowercase

/-!
# Scan settings

Which files a scan of a directory picks up. The two settings are kept as the values that a project
gives; they are checked when they are used.

## Main definitions

* `Config`: the settings.
* `Config.includes`: whether no exclude pattern fits a path.
* `Config.extensionTexts`: the extensions in lower case, each with its point.
-/

namespace TagsFile

/-- Why a setting cannot be used. -/
inductive SettingFault where
  /-- The setting is no sequence. -/
  | notSequence
  /-- An item of the setting is no text. -/
  | notText
deriving DecidableEq, Repr

structure Config where
  extensions : Json
  excludePatterns : Json

namespace Config

def defaultExtensions : Json := .array [.string ".php"]

def defaultExcludePatterns : Json :=
  .array [.string "**/.git/**", .string "app/cache/**", .string "**/node_modules/**"]

/-- The settings of a project that gives none. -/
def default : Config := ⟨defaultExtensions, defaultExcludePatterns⟩

/-- The items of a setting. -/
def items (setting : Json) : Except SettingFault (List Json) :=
  match setting.items? with
  | some items => .ok items
  | none => .error .notSequence

/-! ## Extensions -/

/-- An extension in lower case, with a point in front. -/
def normalizeExtension (ext : Text) : Text :=
  let ext := Text.lower ext
  if ext.head? = some (.char '.') then ext else .char '.' :: ext

/-- The normalized text of an item. -/
def extensionText : Json → Except SettingFault Text
  | .string s => .ok (normalizeExtension s)
  | _ => .error .notText

/-- The normalized extensions. -/
def extensionTexts (config : Config) : Except SettingFault (List Text) := do
  (← items config.extensions).mapM extensionText

/-! ## Exclude patterns -/

/-- A path as patterns see it: with slashes only, without a leading `./` and without slashes at the
end. -/
def normalizePath (path : Text) : Text :=
  let t := path.map fun c => if c = .char '\\' then .char '/' else c
  dropSlashes (if (Text.ofString "./").isPrefixOf t then t.drop 2 else t)

/-- The pattern, and the pattern without a leading `**/`. -/
def withoutLead (pattern : Text) : List Text :=
  if (Text.ofString "**/").isPrefixOf pattern then [pattern, pattern.drop 3] else [pattern]

/-- The pattern without a `/**` at its end, if it has one. -/
def withoutTail (pattern : Text) : Option Text :=
  if (Text.ofString "/**").isSuffixOf pattern then some (pattern.take (pattern.length - 3))
  else none

/-- The globs that a pattern stands for: what may stand at any depth may stand at the top, and what
excludes everything below a directory excludes the directory. -/
def variants (pattern : Text) : List Text :=
  let leads := withoutLead pattern
  leads ++ leads.filterMap withoutTail

/-- Whether a pattern fits a normalized path. -/
def excludedBy (path pattern : Text) : Bool := (variants pattern).any (Glob.fits · path)

/-- Whether one of the patterns fits a normalized path; patterns behind one that fits are not looked
at. -/
def excludedByAny (path : Text) : List Json → Except SettingFault Bool
  | [] => .ok false
  | .string pattern :: more => if excludedBy path pattern then .ok true else excludedByAny path more
  | _ :: _ => .error .notText

/-- Whether no exclude pattern fits a path. -/
def includes (config : Config) (path : Text) : Except SettingFault Bool := do
  return !(← excludedByAny (normalizePath path) (← items config.excludePatterns))

end Config
end TagsFile
