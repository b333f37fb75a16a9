import TagsFile.Proofs.FileName
import TagsFile.Proofs.ListingWalk

/-!
# Walks through file systems

Walks go through listings, which leave out what is behind a link or below a directory that is
shut. What a walk comes to is told here by the nodes of the file system.

## Main definitions

* `Tree.WellFormed`: trees as file systems have them.
* `FileSystem.LeadsToDirectory`: paths at the end of which there is a directory.

## Main statements

* `FileSystem.finds_listing`, `FileSystem.meets_listing`: the files and the directories that a walk
  comes to.
* `FileSystem.unrepeated_listEntries`: no name is twice in a directory of a listing.
-/

namespace TagsFile

open Listing

/-! ## Trees as file systems have them -/

/-- Trees as file systems have them: no name is twice in a directory, and each is the name of an
entry. -/
inductive Tree.WellFormed : Tree → Prop where
  | file (content : List UInt8) (modified : Int) : WellFormed (.file content modified)
  | link (target : Text) : WellFormed (.link target)
  | directory {modified : Int} {entries : List (Text × Tree)}
      (hunrepeated : (entries.map Prod.fst).Nodup)
      (hnames : ∀ name t, (name, t) ∈ entries → name.IsName)
      (hbelow : ∀ name t, (name, t) ∈ entries → WellFormed t) :
      WellFormed (.directory modified entries)

theorem Tree.WellFormed.of_entry {modified : Int} {entries : List (Text × Tree)}
    (h : (Tree.directory modified entries).WellFormed) : (entries.map Prod.fst).Nodup ∧
      ∀ name t, (name, t) ∈ entries → name.IsName ∧ t.WellFormed := by
  cases h with
  | directory hunrepeated hnames hbelow =>
    exact ⟨hunrepeated, fun name t ht => ⟨hnames name t ht, hbelow name t ht⟩⟩

theorem Table.get?_eq_some_iff {entries : List (Text × β)} (h : (entries.map Prod.fst).Nodup)
    {name : Text} {value : β} : Table.get? entries name = some value ↔ (name, value) ∈ entries := by
  refine ⟨Table.mem_of_get?, fun hmem => ?_⟩
  induction entries with
  | nil => simp at hmem
  | cons pair entries ih =>
    obtain ⟨key, first⟩ := pair
    rw [List.map_cons, List.nodup_cons] at h
    rw [Table.get?]
    obtain heq | hmem := List.mem_cons.1 hmem
    · cases heq
      rw [if_pos rfl]
    · have hkey : key ≠ name := by
        rintro rfl
        exact h.1 (List.mem_map.2 ⟨_, hmem, rfl⟩)
      rw [if_neg hkey, ih h.2 hmem]

theorem Tree.WellFormed.get? {t found : Tree} (h : t.WellFormed) {loc : Location}
    (hfound : t.get? loc = some found) : found.WellFormed ∧ ∀ name ∈ loc, name.IsName := by
  induction loc generalizing t with
  | nil =>
    cases hfound
    exact ⟨h, by simp⟩
  | cons name rest ih =>
    obtain ⟨entry, hentry, hrest⟩ := Option.bind_eq_some_iff.1 hfound
    cases h with
    | file | link => simp [Tree.entries] at hentry
    | directory _ hnames hbelow =>
      have hmem := Table.mem_of_get? hentry
      obtain ⟨hwell, hloc⟩ := ih (hbelow name entry hmem) hrest
      refine ⟨hwell, fun other hother => ?_⟩
      obtain rfl | hother := List.mem_cons.1 hother
      · exact hnames other entry hmem
      · exact hloc other hother

namespace FileSystem

/-- File systems in which no name is twice in a directory, and each is the name of an entry. -/
def WellFormed (fs : FileSystem) : Prop := fs.root.WellFormed

/-- Whether a path leads to a directory. -/
def LeadsToDirectory (fs : FileSystem) (here : Here) (text : Text) : Prop :=
  ∃ loc t, fs.find here .target text = .ok (loc, t) ∧ t.node = .directory

variable {fs : FileSystem} {here : Here} {text : List Text → Text} {shut : List Text → Bool}

/-- A link is a file to a walk unless it leads to a directory. -/
theorem isFile_linkListing {path : Text} :
    (fs.linkListing here path).isFile = true ↔ ¬fs.LeadsToDirectory here path := by
  rw [linkListing, LeadsToDirectory]
  split
  · rename_i loc modified entries hfind
    simp [hfind, isFile, Tree.node]
  · rename_i hfind
    simp [hfind, isFile]
  · rename_i hdirectory _
    refine iff_of_true rfl ?_
    rintro ⟨loc, t, hfind, hnode⟩
    cases t with
    | directory modified entries => exact hdirectory loc modified entries hfind
    | file | link => simp [Tree.node] at hnode

theorem linkListing_ne_directory {path : Text} {inner : List (Text × Listing)} :
    fs.linkListing here path ≠ .directory inner := by
  rw [linkListing]
  split <;> simp

theorem isFile_listTree {names : List Text} {t : Tree} :
    (fs.listTree here text shut names t).isFile = true ↔ t.node ≠ .directory ∧
      ∀ target, t.node = .link target → ¬fs.LeadsToDirectory here (text names) := by
  cases t with
  | file => simp [listTree, isFile, Tree.node]
  | link target => simp [listTree, isFile_linkListing, Tree.node]
  | directory modified entries =>
    rw [listTree]
    split <;> simp [isFile, Tree.node]

theorem listTree_eq_directory {names : List Text} {t : Tree} {inner : List (Text × Listing)} :
    fs.listTree here text shut names t = .directory inner ↔
      ∃ modified entries, t = .directory modified entries ∧ shut names = false ∧
        inner = fs.listEntries here text shut names entries := by
  cases t with
  | file => simp [listTree]
  | link target => simp [listTree, linkListing_ne_directory]
  | directory modified entries =>
    rw [listTree]
    split <;> grind

theorem mem_listEntries {names : List Text} {entries : List (Text × Tree)} {name : Text}
    {l : Listing} : (name, l) ∈ fs.listEntries here text shut names entries ↔
      ∃ t, (name, t) ∈ entries ∧ l = fs.listTree here text shut (names ++ [name]) t := by
  rw [listEntries_eq_map]
  simp only [List.mem_map, Prod.exists, Prod.mk.injEq]
  grind

/-- A listing holds the trees below a directory, behind open directories. -/
theorem holds_listEntries {modified : Int} {entries : List (Text × Tree)}
    (h : (Tree.directory modified entries).WellFormed) {above names : List Text} {l : Listing} :
    Holds (fs.listEntries here text shut above entries) names l ↔
      names ≠ [] ∧ Passes (!shut ·) above names ∧
        ∃ t, (Tree.directory modified entries).get? names = some t ∧
          l = fs.listTree here text shut (above ++ names) t := by
  induction names generalizing above modified entries with
  | nil => simpa using fun h : Holds _ [] _ => h.ne_nil rfl
  | cons name names ih =>
    obtain ⟨hunrepeated, hentries⟩ := h.of_entry
    by_cases hempty : names = []
    · subst hempty
      have hget (t : Tree) : (Tree.directory modified entries).get? [name] = some t ↔
          (name, t) ∈ entries := by
        rw [Tree.get?, Tree.entries, ← Table.get?_eq_some_iff hunrepeated]
        cases Table.get? entries name <;> simp [Tree.get?]
      have hnone (inner : List (Text × Listing)) : ¬Holds inner [] l := fun h => h.ne_nil rfl
      simp [holds_cons_iff, hnone, hget, mem_listEntries, passes_singleton]
    · rw [holds_cons_iff, passes_cons_iff hempty]
      constructor
      · rintro (⟨hnil, -⟩ | ⟨inner, hinner, hrest⟩)
        · exact absurd hnil hempty
        · obtain ⟨t, ht, hdirectory⟩ := mem_listEntries.1 hinner
          obtain ⟨modified', entries', rfl, hopen, rfl⟩ := listTree_eq_directory.1 hdirectory.symm
          obtain ⟨-, hpasses, t, hget, rfl⟩ := (ih (hentries _ _ ht).2).1 hrest
          refine ⟨by simp, ⟨by simp [hopen], hpasses⟩, t, ?_, by simp⟩
          rw [Tree.get?, Tree.entries, (Table.get?_eq_some_iff hunrepeated).2 ht]
          exact hget
      · rintro ⟨-, ⟨hopen, hpasses⟩, t, hget, rfl⟩
        obtain ⟨entry, hentry, hget⟩ := Option.bind_eq_some_iff.1 hget
        have hmem := (Table.get?_eq_some_iff hunrepeated).1 hentry
        obtain ⟨next, names, rfl⟩ := List.exists_cons_of_ne_nil hempty
        cases entry with
        | file | link => simp [Tree.get?, Tree.entries] at hget
        | directory modified' entries' =>
          refine .inr ⟨fs.listEntries here text shut (above ++ [name]) entries', ?_, ?_⟩
          · exact mem_listEntries.2
              ⟨_, hmem, (listTree_eq_directory.2 ⟨_, _, rfl, by simpa using hopen, rfl⟩).symm⟩
          · exact (ih (hentries _ _ hmem).2).2 ⟨hempty, hpasses, t, hget, by simp⟩

/-- No name is twice in a directory of a listing. -/
theorem unrepeated_listEntries {modified : Int} {entries : List (Text × Tree)}
    (h : (Tree.directory modified entries).WellFormed) (above : List Text) :
    Unrepeated (fs.listEntries here text shut above entries) := by
  generalize ht : Tree.directory modified entries = t at h
  induction h generalizing modified entries above with
  | file | link => cases ht
  | directory hunrepeated _ _ ih =>
    cases ht
    refine .intro ?_ fun name inner hinner => ?_
    · rw [listEntries_eq_map, List.map_map]
      exact hunrepeated
    · obtain ⟨t, ht, hdirectory⟩ := mem_listEntries.1 hinner
      obtain ⟨modified, entries, rfl, -, rfl⟩ := listTree_eq_directory.1 hdirectory.symm
      exact ih name _ ht (above ++ [name]) rfl

variable {directory : Tree} {top : Location}

theorem get?_below (htop : fs.tree? top = some directory) (names : List Text) :
    fs.get? (top ++ names) = (directory.get? names).map Tree.node := by
  rw [get?_append, htop]
  rfl

section Walks

variable {enters : List Text → Bool} {modified : Int} {entries : List (Text × Tree)}
  {names : List Text}

theorem holds_sorted_listing (hwell : (Tree.directory modified entries).WellFormed) {l : Listing} :
    Holds (sorted (fs.listing here text shut (.directory modified entries))) names l ↔
      names ≠ [] ∧ Passes (!shut ·) [] names ∧
        ∃ t, (Tree.directory modified entries).get? names = some t ∧
          l = (fs.listTree here text shut names t).sort := by
  simp only [holds_sorted_iff, listing, Tree.entries, holds_listEntries hwell, List.nil_append]
  grind

/-- A walk through a listing comes to whatever is no directory, behind open directories
that it goes into. -/
theorem finds_listing (hwell : (Tree.directory modified entries).WellFormed) :
    Finds enters [] (sorted (fs.listing here text shut (.directory modified entries))) names ↔
      names ≠ [] ∧ Passes (!shut ·) [] names ∧ Passes enters [] names ∧
        ∃ t, (Tree.directory modified entries).get? names = some t ∧ t.node ≠ .directory ∧
          ∀ target, t.node = .link target → ¬fs.LeadsToDirectory here (text names) := by
  simp only [Finds, holds_sorted_listing hwell]
  constructor
  · rintro ⟨_, ⟨hne, hopen, t, ht, rfl⟩, hfile, hpasses⟩
    rw [isFile_sort, isFile_listTree] at hfile
    exact ⟨hne, hopen, hpasses, t, ht, hfile⟩
  · rintro ⟨hne, hopen, hpasses, t, ht, hfile⟩
    refine ⟨_, ⟨hne, hopen, t, ht, rfl⟩, ?_, hpasses⟩
    rw [isFile_sort, isFile_listTree]
    exact hfile

/-- And it comes to the directories there, and to the links that lead to one. -/
theorem meets_listing (hwell : (Tree.directory modified entries).WellFormed) :
    Meets enters [] (sorted (fs.listing here text shut (.directory modified entries))) names ↔
      names ≠ [] ∧ Passes (!shut ·) [] names ∧ (Passes enters [] names ∧ enters names = true) ∧
        ∃ t, (Tree.directory modified entries).get? names = some t ∧ (t.node = .directory ∨
          ∃ target, t.node = .link target ∧ fs.LeadsToDirectory here (text names)) := by
  have hfile (t : Tree) : (fs.listTree here text shut names t).sort.isFile = false ↔
      t.node = .directory ∨
        ∃ target, t.node = .link target ∧ fs.LeadsToDirectory here (text names) := by
    rw [isFile_sort, Bool.eq_false_iff, ne_eq, isFile_listTree]
    grind
  simp only [Meets, holds_sorted_listing hwell, List.nil_append]
  constructor
  · rintro ⟨_, ⟨hne, hopen, t, ht, rfl⟩, hnode, henters⟩
    exact ⟨hne, hopen, henters, t, ht, (hfile t).1 hnode⟩
  · rintro ⟨hne, hopen, henters, t, ht, hnode⟩
    exact ⟨_, ⟨hne, hopen, t, ht, rfl⟩, (hfile t).2 hnode, henters⟩

end Walks

end FileSystem

end TagsFile
