import TagsFile.Path.Basic

/-!
# Relative paths

How to get from one absolute path to another: up from the components that only the base has, then
down along those of the destination. Slashes at the end do not count.
-/

namespace TagsFile

/-- The pieces of a path text without the slashes at its end. -/
def segments (path : Text) : List Text := pieces (dropSlashes path)

/-- Drops the longest common front of two lists. -/
def dropCommon [DecidableEq α] : List α → List α → List α × List α
  | a :: as, b :: bs => if a = b then dropCommon as bs else (a :: as, b :: bs)
  | as, bs => (as, bs)

/-- The path of `dest` as seen from the directory `base`. -/
def relativePath (base dest : Text) : Text :=
  let (ups, downs) := dropCommon (segments base) (segments dest)
  Text.join "/" (ups.map (fun _ => (".." : Text)) ++ downs)

end TagsFile
