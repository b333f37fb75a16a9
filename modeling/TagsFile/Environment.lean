import TagsFile.Path.Basic
import TagsFile.Table

/-!
# The environment of a run

The settings that a run takes from outside of its arguments: where the user's home is, and where the
cache is kept.

## Main definitions

* `Environment.expandHome`: a path with `~` replaced by a home.
* `Environment.cacheRoot`: where the cache is kept unless an argument says otherwise.
-/

namespace TagsFile

structure Environment where
  /-- The home that the environment gives. -/
  home : Option Text := none
  /-- The cache directory that the environment gives. -/
  cacheDirectory : Option Text := none
  /-- The home of the account that runs the program. -/
  accountHome : Text := "/"
  /-- The homes of accounts by their names. -/
  accounts : Table Text Text := []

namespace Environment

/-- The home that `~` and a name stand for; without a name it is the user's own. -/
def homeOf (env : Environment) (name : Text) : Option Text :=
  if name = "" then some (env.home.getD env.accountHome) else env.accounts.get? name

/-- A home without the slashes at its end. -/
def trimHome (home : Text) : Text :=
  let trimmed := dropSlashes home
  if trimmed = "" then "/" else trimmed

/-- A path with a first component `~` or `~name` replaced by the home that it stands for; none if
there is no such home. -/
def expandHome (env : Environment) (p : Path) : Option Path :=
  match p.isAbsolute, p.parts with
  | false, (.char '~' :: name) :: rest =>
    match (env.homeOf name).map trimHome with
    | some home =>
      if home.head? = some (.char '~') then none
      else some ((Path.ofText home).join ⟨.here, rest⟩)
    | none => none
  | _, _ => some p

/-- Where the cache is kept; none if it would be in a home that is not known. -/
def cacheRoot (env : Environment) : Option Path :=
  match env.cacheDirectory with
  | some directory =>
    if directory = "" then fallback else env.expandHome (Path.ofText directory)
  | none => fallback
where
  fallback := (env.expandHome (Path.ofText "~")).map (Path.child · ".ptags")

end Environment
end TagsFile
