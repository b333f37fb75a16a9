import TagsFile.Cache.Store
import TagsFile.World

/-!
# The log of a store

What a store logs about a lookup.
-/

namespace TagsFile

namespace RecordFault

def message : RecordFault → Text
  | .notObject => "cache entry is not an object"
  | .unsupported format version =>
    "unsupported cache format " ++ format.literalItem ++ " v" ++ version.literalItem
  | .missing key => Text.quoted key
  | .tagsNotSequence => "tags are not a sequence"
  | .tagNotObject => "a tag is not an object"
  | .unknownKind => "a tag has an unknown kind"
  | .lineNotInteger | .lineNotNumber => "a line is not an integer"
  | .lineInfinite => "a line is infinite"
  | .extrasNotSequence => "extras are not a sequence"

end RecordFault

namespace EntryFault

def message (entry : Text) : EntryFault → Text
  | .unreadable e => e.message [entry]
  | .notUtf8 => "invalid UTF-8"
  | .notJson | .tooDeep => "invalid JSON"
  | .notRecord f => f.message

end EntryFault

namespace MissReason

def text (path : Text) : MissReason → Text
  | .disabled => "disabled"
  | .noEntry => "no entry"
  | .noSource e => "source stat failed: " ++ e.message [path]
  | .stale => "stale"
  | .corrupt _ => "corrupt"

end MissReason

namespace Lookup

/-- Where lines about lookups come from. -/
def logSource : Text := "ptags.modules.core.cache"

/-- The lines about a lookup of the source at `path` with the entry `entry`. -/
def logLines (path entry : Text) : Lookup → List LogLine
  | .hit tags =>
    [⟨logSource, "cache: hit for " ++ path ++ " (" ++ toString tags.length ++ " tags)"⟩]
  | .miss reason =>
    let miss : Text := "cache: miss for " ++ path ++ " (" ++ reason.text path ++ ")"
    match reason with
    | .corrupt f =>
      [⟨logSource, "cache: corrupt entry for " ++ path ++ ": " ++ f.message entry⟩,
        ⟨logSource, miss⟩]
    | _ => [⟨logSource, miss⟩]

end Lookup
end TagsFile
