import TagsFile.FileSystem.Listing
import TagsFile.Proofs.Walk

/-!
# Listings and the nodes they are of

Where each name stands once in its directory and no links are about, a listing tells just the nodes
below a directory, in whatever order they come.

## Main definitions

* `Tree.Distinct`: trees in which each name stands once in its directory.
* `Listing.Lists`: listings that tell what is at a location and below.
-/

namespace TagsFile

/-! ## Names that stand once -/

/-- Whether each name stands once in its directory. -/
inductive Tree.Distinct : Tree → Prop where
  | file (content : List UInt8) (modified : Int) : Distinct (.file content modified)
  | link (target : Text) : Distinct (.link target)
  | directory {modified : Int} {entries : List (Text × Tree)}
      (hget : ∀ name t, (name, t) ∈ entries → Table.get? entries name = some t)
      (hbelow : ∀ name t, (name, t) ∈ entries → Distinct t) :
      Distinct (.directory modified entries)

theorem Table.mem_of_get? {entries : Table Text β} {name : Text} {value : β}
    (h : entries.get? name = some value) : (name, value) ∈ entries := by
  induction entries with
  | nil => simp at h
  | cons pair entries ih =>
    obtain ⟨key, first⟩ := pair
    rw [Table.get?] at h
    split at h
    · rename_i heq
      cases h
      simp [heq]
    · exact List.mem_cons_of_mem _ (ih h)

namespace Tree

variable {t entry : Tree} {now : Int} {name : Text}

theorem Distinct.put (h : t.Distinct) (hentry : entry.Distinct) :
    (t.put now name entry).Distinct := by
  cases h with
  | file | link => constructor
  | directory hget hbelow =>
    refine .directory ?_ ?_
    · intro other t ht
      rw [Table.get?_put]
      obtain heq | ht := List.mem_cons.1 ht
      · cases heq
        rw [if_pos rfl]
      · obtain ⟨ht, hother⟩ := List.mem_filter.1 ht
        rw [if_neg (by simpa using hother), hget other t ht]
    · intro other t ht
      obtain heq | ht := List.mem_cons.1 ht
      · cases heq
        exact hentry
      · exact hbelow other t (List.mem_filter.1 ht).1

theorem Distinct.erase (h : t.Distinct) : (t.erase now name).Distinct := by
  cases h with
  | file | link => constructor
  | directory hget hbelow =>
    refine .directory ?_ fun other t ht => hbelow other t (List.mem_filter.1 ht).1
    intro other t ht
    obtain ⟨ht, hother⟩ := List.mem_filter.1 ht
    rw [Table.get?_erase, if_neg (by simpa using hother), hget other t ht]

theorem Distinct.retime (h : t.Distinct) : (t.retime now).Distinct := by
  cases h with
  | file | link => constructor
  | directory hget hbelow => exact .directory hget hbelow

theorem Distinct.adjust {f : Tree → Tree} (hf : ∀ t, t.Distinct → (f t).Distinct)
    (loc : Location) (h : t.Distinct) : (t.adjust f loc).Distinct := by
  induction loc generalizing t with
  | nil => exact hf t h
  | cons name rest ih =>
    cases h with
    | file | link => constructor
    | @directory _ entries hget hbelow =>
      have hmem : ∀ other t', (other, t') ∈ Table.adjust entries name (Tree.adjust f rest) →
          ∃ t, (other, t) ∈ entries ∧ t' = if other = name then t.adjust f rest else t := by
        intro other t' ht'
        obtain ⟨⟨other, t⟩, ht, heq⟩ := List.mem_map.1 ht'
        cases heq
        exact ⟨t, ht, rfl⟩
      refine .directory ?_ ?_
      · intro other t' ht'
        obtain ⟨t, ht, rfl⟩ := hmem other t' ht'
        rw [Table.get?_adjust]
        split
        · rename_i heq
          subst heq
          rw [hget other t ht, Option.map_some]
        · exact hget other t ht
      · intro other t' ht'
        obtain ⟨t, ht, rfl⟩ := hmem other t' ht'
        split
        · exact ih (hbelow other t ht)
        · exact hbelow other t ht

theorem Distinct.get? (h : t.Distinct) {loc : Location} {found : Tree}
    (hfound : t.get? loc = some found) : found.Distinct := by
  induction loc generalizing t with
  | nil =>
    cases hfound
    exact h
  | cons name rest ih =>
    obtain ⟨entry, hentry, hrest⟩ := Option.bind_eq_some_iff.1 hfound
    cases h with
    | file | link => simp [Tree.entries] at hentry
    | directory hget hbelow =>
      exact ih (hbelow name entry (Table.mem_of_get? hentry)) hrest

end Tree

namespace FileSystem

/-- Whether each name stands once in its directory. -/
def Distinct (fs : FileSystem) : Prop := fs.root.Distinct

variable {fs : FileSystem} {now : Int} {loc : Location}

theorem Distinct.adjust {f : Tree → Tree} (hf : ∀ t, t.Distinct → (f t).Distinct)
    (h : fs.Distinct) : (fs.adjust f loc).Distinct := by
  have hroot := Tree.Distinct.adjust hf loc h
  rw [Distinct, FileSystem.adjust, ofRoot]
  cases hadjusted : fs.root.adjust f loc with
  | file | link => exact .directory (by simp [Tree.entries]) (by simp [Tree.entries])
  | directory modified entries =>
    rw [hadjusted] at hroot
    exact hroot

theorem Distinct.create {t : Tree} (h : fs.Distinct) (ht : t.Distinct) :
    (fs.create now loc t).Distinct := by
  rw [FileSystem.create]
  split
  · exact h.adjust fun _ hs => hs.put ht
  · exact h

theorem Distinct.remove (h : fs.Distinct) : (fs.remove now loc).Distinct := by
  rw [FileSystem.remove]
  split
  · exact h.adjust fun _ hs => hs.erase
  · exact h

theorem Distinct.retime (h : fs.Distinct) : (fs.retime loc now).Distinct :=
  h.adjust fun _ hs => hs.retime

theorem Distinct.tree? {t : Tree} (h : fs.Distinct) (ht : fs.tree? loc = some t) : t.Distinct :=
  h.get? ht

end FileSystem

/-! ## Listings -/

/-- A listing that tells what is at a location and below it. -/
inductive Listing.Lists (node : Location → Option Node) : Location → Listing → Prop where
  | file {loc : Location} {content : List UInt8} {modified : Int}
      (hnode : node loc = some (.file content modified)) : Lists node loc .file
  | directory {loc : Location} {entries : List (Text × Listing)}
      (hnode : node loc = some .directory)
      (hentries : ∀ name l, (name, l) ∈ entries → Lists node (loc ++ [name]) l)
      (hall : ∀ name, node (loc ++ [name]) ≠ none → ∃ l, (name, l) ∈ entries) :
      Lists node loc (.directory entries)

namespace Listing

theorem sortAll_eq_map (entries : List (Text × Listing)) :
    sortAll entries = entries.map fun (name, l) => (name, l.sort) := by
  induction entries with
  | nil => rfl
  | cons pair entries ih => simp [sortAll, ih]

theorem mem_sorted {entries : List (Text × Listing)} {name : Text} {l : Listing} :
    (name, l) ∈ sorted entries ↔ ∃ l', (name, l') ∈ entries ∧ l'.sort = l := by
  simp only [sorted, sortEntries, sortAll_eq_map, List.mem_mergeSort, List.mem_map, Prod.exists,
    Prod.mk.injEq]
  constructor
  · rintro ⟨_, l', hl', rfl, hsort⟩
    exact ⟨l', hl', hsort⟩
  · rintro ⟨l', hl', hsort⟩
    exact ⟨name, l', hl', rfl, hsort⟩

/-- The order of the entries does not matter. -/
theorem Lists.sort {node : Location → Option Node} {loc : Location} {l : Listing}
    (h : Lists node loc l) : Lists node loc l.sort := by
  induction h with
  | file hnode => exact .file hnode
  | directory hnode hentries hall ih =>
    refine .directory hnode ?_ ?_
    · intro name l hl
      obtain ⟨l', hl', rfl⟩ := mem_sorted.1 hl
      exact ih name l' hl'
    · intro name hname
      obtain ⟨l, hl⟩ := hall name hname
      exact ⟨l.sort, mem_sorted.2 ⟨l, hl, rfl⟩⟩

/-- Whatever lies below a directory lies at or below one of its entries. -/
theorem Lists.exists_mem {fs : FileSystem} {loc : Location} {entries : List (Text × Listing)}
    (h : Lists fs.get? loc (.directory entries)) {name : Text} {rest : List Text}
    (hbelow : fs.get? (loc ++ [name] ++ rest) ≠ none) : ∃ l, (name, l) ∈ entries := by
  cases h with
  | directory _ _ hall =>
    apply hall
    by_cases hrest : rest = []
    · simpa [hrest] using hbelow
    · simp [FileSystem.get?_eq_directory_of_append hrest hbelow]

end Listing

namespace FileSystem

variable {fs : FileSystem} {here : Here} {text : List Text → Text} {shut : List Text → Bool}
  {top : Location}

theorem listEntries_eq_map (names : List Text) (entries : List (Text × Tree)) :
    fs.listEntries here text shut names entries =
      entries.map fun (name, t) => (name, fs.listTree here text shut (names ++ [name]) t) := by
  induction entries with
  | nil => rfl
  | cons pair entries ih => simp [listEntries, ih]

/-- The listing of what is below a location, where no links are and no directory is shut. -/
theorem lists_listTree (here : Here) (text : List Text → Text)
    (hlinks : ∀ names target, fs.get? (top ++ names) ≠ some (.link target))
    (hopen : ∀ names, fs.get? (top ++ names) = some .directory → shut names = false) {t : Tree}
    (ht : t.Distinct) {names : List Text} (hat : fs.tree? (top ++ names) = some t) :
    Listing.Lists fs.get? (top ++ names) (fs.listTree here text shut names t) := by
  have hnode : fs.get? (top ++ names) = some t.node := by rw [get?_eq_map, hat, Option.map_some]
  induction ht generalizing names with
  | file content modified =>
    rw [listTree]
    exact .file hnode
  | link target => exact absurd hnode (hlinks names target)
  | @directory modified entries hget hbelow ih =>
    have hentry (name : Text) : fs.tree? (top ++ (names ++ [name])) = Table.get? entries name := by
      rw [← List.append_assoc, tree?_concat, hat]
      rfl
    rw [listTree, if_neg (by simp [hopen names hnode]), listEntries_eq_map]
    refine .directory hnode ?_ ?_
    · intro name l hl
      obtain ⟨⟨name, t⟩, ht, heq⟩ := List.mem_map.1 hl
      cases heq
      have hat' : fs.tree? (top ++ (names ++ [name])) = some t := by rw [hentry, hget name t ht]
      rw [List.append_assoc]
      exact ih name t ht hat' (by rw [get?_eq_map, hat', Option.map_some])
    · intro name hname
      rw [List.append_assoc] at hname
      obtain ⟨t, ht⟩ := exists_tree?_eq_some hname
      rw [hentry] at ht
      exact ⟨_, List.mem_map.2 ⟨(name, t), Table.mem_of_get? ht, rfl⟩⟩

end FileSystem
end TagsFile
