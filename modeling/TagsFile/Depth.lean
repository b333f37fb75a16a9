/-!
# The depth of nested things

Values inside values, links that lead to links, and directories inside directories are gone into by
calls inside calls, and these come to an end when the stack of the process is used up. The program
sets no limits of its own.
-/

namespace TagsFile

/-- How many levels of nested things a process can go into, for each way to do so. None of these
numbers belongs to the program: they come from the machine that runs it, and from how much of the
stack is in use when it is called. So all is stated for any such numbers, and no limit is one that
is not reached. The values that are given here serve the outer layer and examples. -/
structure Depths where
  /-- Arrays and objects inside each other, where a document is read. -/
  values : Nat := 1000
  /-- Missing directories above each other, where one is made. -/
  parents : Nat := 1000
  /-- Links that lead to links, where a path is resolved. -/
  links : Nat := 1000
  /-- Directories inside each other, where sources are looked for. -/
  scan : Nat := 1000
  /-- Directories inside each other, where a store is cleared. -/
  clear : Nat := 1000
  /-- Directories inside each other, where they are taken away. -/
  removal : Nat := 1000
  /-- The entries of a store can be read. -/
  four_le_values : 4 ≤ values := by decide
  /-- A directory can be made in one that is there. -/
  parents_pos : 0 < parents := by decide
deriving DecidableEq, Repr

/-- The values for a process of which nothing else is known. -/
def Depths.usual : Depths := {}

end TagsFile
