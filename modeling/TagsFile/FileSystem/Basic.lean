import TagsFile.FileSystem.Tree

/-!
# File systems

A file system is a tree whose root is a directory, whatever is done to it.

## Main definitions

* `FileSystem`, `FileSystem.get?`: the node at a location.
* `FileSystem.create`, `FileSystem.overwrite`, `FileSystem.remove`: change one node.

The laws that start with `get?_` say what each change does to the nodes.
-/

namespace TagsFile

/-- The entries of the root, and when it last gained or lost one. -/
structure FileSystem where
  modified : Int := 0
  entries : Table Text Tree := []

namespace FileSystem

def root (fs : FileSystem) : Tree := .directory fs.modified fs.entries

/-- The file system whose root is the given directory. -/
def ofRoot (t : Tree) : FileSystem := ⟨t.modified, t.entries⟩

/-- The tree at a location. -/
def tree? (fs : FileSystem) (loc : Location) : Option Tree := fs.root.get? loc

/-- The node at a location. -/
def get? (fs : FileSystem) (loc : Location) : Option Node := fs.root.nodeAt? loc

/-- Changes the tree at a location. -/
def adjust (f : Tree → Tree) (loc : Location) (fs : FileSystem) : FileSystem :=
  ofRoot (fs.root.adjust f loc)

/-- Puts a tree at a location, in place of what is there. -/
def create (now : Int) (loc : Location) (t : Tree) (fs : FileSystem) : FileSystem :=
  match loc.getLast? with
  | some name => fs.adjust (·.put now name t) loc.dropLast
  | none => fs

/-- Takes away what is at a location. -/
def remove (now : Int) (loc : Location) (fs : FileSystem) : FileSystem :=
  match loc.getLast? with
  | some name => fs.adjust (·.erase now name) loc.dropLast
  | none => fs

/-- Gives what is at a location another time. -/
def retime (loc : Location) (modified : Int) (fs : FileSystem) : FileSystem :=
  fs.adjust (·.retime modified) loc

/-- Gives a file another content and another time. -/
def overwrite (loc : Location) (content : List UInt8) (modified : Int) (fs : FileSystem) :
    FileSystem :=
  fs.adjust (fun t => if t.node = .directory then t else .file content modified) loc

/-! ## Laws -/

@[simp, grind =] theorem get?_root (fs : FileSystem) : fs.get? [] = some .directory := rfl

/-- A change that leaves directories directories is seen at its location and below. -/
theorem get?_adjust {f : Tree → Tree} (h : ∀ t, t.node = .directory → (f t).node = .directory)
    (loc other : Location) (fs : FileSystem) : (fs.adjust f loc).get? other =
      if loc.isPrefixOf other then
        (fs.tree? loc).bind fun t => (f t).nodeAt? (other.drop loc.length)
      else fs.get? other := by
  have hroot : (fs.adjust f loc).root = fs.root.adjust f loc := by
    have : (fs.root.adjust f loc).node = .directory := by
      cases loc with
      | nil => exact h _ rfl
      | cons name rest => rfl
    cases ht : fs.root.adjust f loc <;> simp_all [adjust, ofRoot, root, Tree.node, Tree.modified,
      Tree.entries]
  rw [get?, hroot, Tree.nodeAt?_adjust]
  rfl

theorem get?_append (fs : FileSystem) (loc rest : Location) :
    fs.get? (loc ++ rest) = (fs.tree? loc).bind (·.nodeAt? rest) :=
  fs.root.nodeAt?_append loc rest

/-- What is seen after the entries of one directory have changed. -/
theorem get?_adjust_directory {f : Tree → Tree} {directory : Location} {fs : FileSystem}
    (hf : ∀ t, t.node = .directory → (f t).node = .directory)
    (h : fs.get? directory = some .directory) :
    ∃ t, t.node = .directory ∧ (∀ rest, fs.get? (directory ++ rest) = t.nodeAt? rest) ∧
      (∀ rest, (fs.adjust f directory).get? (directory ++ rest) = (f t).nodeAt? rest) ∧
      ∀ other, ¬directory <+: other → (fs.adjust f directory).get? other = fs.get? other := by
  obtain ⟨t, ht, hnode⟩ := Option.map_eq_some_iff.1 h
  refine ⟨t, hnode, fun rest => ?_, fun rest => ?_, fun other hother => ?_⟩
  · rw [get?_append, tree?, ht]; rfl
  · rw [get?_adjust hf, tree?, ht]; simp
  · rw [get?_adjust hf]; simp [hother]

/-- At and below a new node is the tree that has been put there; all else stays. -/
theorem get?_create (now : Int) {directory : Location} (name : Text) (t : Tree) {fs : FileSystem}
    (h : fs.get? directory = some .directory) (other : Location) :
    (fs.create now (directory ++ [name]) t).get? other =
      if directory ++ [name] <+: other then t.nodeAt? (other.drop (directory.length + 1))
      else fs.get? other := by
  have hf : ∀ s : Tree, s.node = .directory → (s.put now name t).node = .directory := by
    intro s hs; cases s <;> simp_all [Tree.node, Tree.put]
  obtain ⟨s, hs, before, after, elsewhere⟩ := get?_adjust_directory hf h
  simp only [create, List.getLast?_concat, List.dropLast_concat]
  by_cases hp : directory <+: other
  · obtain ⟨rest, rfl⟩ := hp
    rw [after, before, Tree.nodeAt?_put hs]
    simp only [List.prefix_append_right_inj]
    cases rest with
    | nil => simp [hs]
    | cons name' rest =>
      by_cases hn : name' = name
      · simp [hn]
      · simp [hn, Ne.symm hn]
  · rw [elsewhere other hp, if_neg]
    exact fun hp' => hp ((List.prefix_append directory [name]).trans hp')

/-- At and below a removed node nothing is left; all else stays. -/
theorem get?_remove (now : Int) {directory : Location} (name : Text) {fs : FileSystem}
    (h : fs.get? directory = some .directory) (other : Location) :
    (fs.remove now (directory ++ [name])).get? other =
      if directory ++ [name] <+: other then none else fs.get? other := by
  have hf : ∀ s : Tree, s.node = .directory → (s.erase now name).node = .directory := by
    intro s hs; cases s <;> simp_all [Tree.node, Tree.erase]
  obtain ⟨s, hs, before, after, elsewhere⟩ := get?_adjust_directory hf h
  simp only [remove, List.getLast?_concat, List.dropLast_concat]
  by_cases hp : directory <+: other
  · obtain ⟨rest, rfl⟩ := hp
    rw [after, before, Tree.nodeAt?_erase hs]
    simp only [List.prefix_append_right_inj]
    cases rest with
    | nil => simp [hs]
    | cons name' rest =>
      by_cases hn : name' = name
      · simp [hn]
      · simp [hn, Ne.symm hn]
  · rw [elsewhere other hp, if_neg]
    exact fun hp' => hp ((List.prefix_append directory [name]).trans hp')

/-- Only the file itself changes when it is overwritten. -/
theorem get?_overwrite {loc : Location} {fs : FileSystem} {old : List UInt8} {time : Int}
    (h : fs.get? loc = some (.file old time)) (content : List UInt8) (modified : Int)
    (other : Location) : (fs.overwrite loc content modified).get? other =
      if other = loc then some (.file content modified) else fs.get? other := by
  obtain ⟨t, ht, hnode⟩ := Option.map_eq_some_iff.1 h
  rw [overwrite, get?_adjust (by intro t hd; simp [hd])]
  simp only [List.isPrefixOf_iff_prefix]
  by_cases hp : loc <+: other
  · obtain ⟨rest, rfl⟩ := hp
    rw [get?_append, tree?, ht]
    cases t with
    | file | link => cases rest <;> simp [Tree.node, Tree.nodeAt?, Tree.get?, Tree.entries]
    | directory => simp [Tree.node] at hnode
  · have hne : other ≠ loc := fun he => hp (he ▸ List.prefix_refl _)
    simp [hp, hne]

end FileSystem
end TagsFile
