import TagsFile.Path.Basic
import TagsFile.Table

/-!
# Trees of files

A directory holds entries under their names, and each of them is a file, a symbolic link or again a
directory. The location of a node is the list of the names on the way to it.

## Main definitions

* `Tree`, `Tree.get?`: a directory with all that is below it.
* `Node`, `Tree.nodeAt?`: the view of a tree that leaves out the times of its directories.
* `Tree.adjust`: changes the tree at a location.
* `Tree.put`, `Tree.erase`: change the entries of a directory.

The law `nodeAt?_adjust` says that a change is seen at its location and below, and nowhere else.
-/

namespace TagsFile

/-- The names on the way from the root. -/
abbrev Location := List Text

/-- The absolute path of a location. -/
def Location.path (loc : Location) : Path := ⟨.root, loc⟩

inductive Tree where
  | file (content : List UInt8) (modified : Int)
  | link (target : Text)
  /-- A directory with the time when it last gained or lost an entry. -/
  | directory (modified : Int) (entries : List (Text × Tree))
deriving Repr

/-- A node without what is below it. -/
inductive Node where
  | file (content : List UInt8) (modified : Int)
  | link (target : Text)
  | directory
deriving DecidableEq, Repr

namespace Tree

def node : Tree → Node
  | .file content modified => .file content modified
  | .link target => .link target
  | .directory _ _ => .directory

/-- What a directory holds; nothing is in any other tree. -/
def entries : Tree → Table Text Tree
  | .directory _ entries => entries
  | _ => []

/-- When a tree was last modified. -/
def modified : Tree → Int
  | .file _ modified | .directory modified _ => modified
  | .link _ => 0

/-- The tree at a location. -/
def get? (t : Tree) : Location → Option Tree
  | [] => some t
  | name :: rest => (t.entries.get? name).bind (get? · rest)

/-- The node at a location. -/
def nodeAt? (t : Tree) (loc : Location) : Option Node := (t.get? loc).map node

mutual

/-- How many directories lie inside each other. -/
def depth : Tree → Nat
  | .directory _ entries => 1 + depthBelow entries
  | _ => 0

def depthBelow : List (Text × Tree) → Nat
  | [] => 0
  | (_, t) :: rest => max t.depth (depthBelow rest)

end

/-! ## Changes -/

/-- Puts a tree into a directory, in place of what has its name there. -/
def put (t : Tree) (now : Int) (name : Text) (entry : Tree) : Tree :=
  match t with
  | .directory _ entries => .directory now (Table.put entries name entry)
  | t => t

/-- Takes an entry out of a directory. -/
def erase (t : Tree) (now : Int) (name : Text) : Tree :=
  match t with
  | .directory _ entries => .directory now (Table.erase entries name)
  | t => t

/-- Gives a tree another time. Links have none. -/
def retime (t : Tree) (modified : Int) : Tree :=
  match t with
  | .file content _ => .file content modified
  | .directory _ entries => .directory modified entries
  | .link target => .link target

/-- Changes the tree at a location, if there is one. -/
def adjust (f : Tree → Tree) : Location → Tree → Tree
  | [], t => f t
  | name :: rest, .directory modified entries =>
    .directory modified (Table.adjust entries name (adjust f rest))
  | _ :: _, t => t

/-! ## Laws -/

@[simp, grind =] theorem nodeAt?_nil (t : Tree) : t.nodeAt? [] = some t.node := rfl

@[grind =] theorem nodeAt?_cons (t : Tree) (name : Text) (rest : Location) :
    t.nodeAt? (name :: rest) = (t.entries.get? name).bind (nodeAt? · rest) := by
  rw [nodeAt?, get?]
  cases t.entries.get? name <;> rfl

theorem nodeAt?_append (t : Tree) (loc rest : Location) :
    t.nodeAt? (loc ++ rest) = (t.get? loc).bind (nodeAt? · rest) := by
  induction loc generalizing t with
  | nil => simp [get?]
  | cons name loc ih => simp [nodeAt?_cons, get?, ih, Option.bind_assoc]

theorem nodeAt?_adjust (f : Tree → Tree) (loc other : Location) (t : Tree) :
    (t.adjust f loc).nodeAt? other =
      if loc.isPrefixOf other then
        (t.get? loc).bind fun s => (f s).nodeAt? (other.drop loc.length)
      else t.nodeAt? other := by
  induction loc generalizing t other with
  | nil => simp [adjust, get?]
  | cons name rest ih =>
    cases t with
    | file content modified => cases other <;> simp [adjust, get?, entries, nodeAt?]
    | link target => cases other <;> simp [adjust, get?, entries, nodeAt?]
    | directory modified entries =>
      cases other with
      | nil => simp [adjust, node]
      | cons name' rest' =>
        rw [nodeAt?_cons, nodeAt?_cons]
        simp only [adjust, Tree.entries, Table.get?_adjust, get?]
        by_cases h : name' = name
        · subst h
          cases Table.get? entries name' with
          | none => simp
          | some s => simp [ih]
        · simp [h, Ne.symm h]

/-- What is seen after an entry has been put into a directory. -/
theorem nodeAt?_put {t : Tree} (h : t.node = .directory) (now : Int) (name : Text) (entry : Tree)
    (loc : Location) : (t.put now name entry).nodeAt? loc =
      match loc with
      | [] => some .directory
      | name' :: rest => if name' = name then entry.nodeAt? rest else t.nodeAt? loc := by
  cases t with
  | directory modified entries =>
    cases loc with
    | nil => simp [put, node]
    | cons name' rest =>
      by_cases hn : name' = name <;>
        simp [put, nodeAt?_cons, Tree.entries, Table.get?_put, hn]
  | file | link => simp [node] at h

/-- What is seen after an entry has been taken out of a directory. -/
theorem nodeAt?_erase {t : Tree} (h : t.node = .directory) (now : Int) (name : Text)
    (loc : Location) : (t.erase now name).nodeAt? loc =
      match loc with
      | [] => some .directory
      | name' :: _ => if name' = name then none else t.nodeAt? loc := by
  cases t with
  | directory modified entries =>
    cases loc with
    | nil => simp [erase, node]
    | cons name' rest =>
      by_cases hn : name' = name <;>
        simp [erase, nodeAt?_cons, Tree.entries, Table.get?_erase, hn]
  | file | link => simp [node] at h

end Tree
end TagsFile
