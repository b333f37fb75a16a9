import TagsFile.Proofs.EntryText
import TagsFile.Proofs.Listing
import TagsFile.Proofs.Lookup
import TagsFile.Proofs.Saving

/-!
# A store is a map from sources to tags

What a store has for a source is told by a map that knows nothing of files: for the location of a
source, the tags in its entry and the time of the entry. Saving puts tags into the map and looking
up reads it, as long as nobody else writes below the root.

## Main definitions

* `Shelf`: the map.
* `FileSystem.Steady`: changes that make no links and keep all links and directories.
* `FileSystem.SourceChange`: changes of files outside a store.
* `FreshRoot`: a root without entries.
* `Store.Spells`: how the files below the root spell the map.
-/

namespace TagsFile

/-! ## The map -/

/-- What a store is to have: for the location of a source, its tags and the time of their entry. -/
abbrev Shelf := Location → Option (List SourceTag × Int)

namespace Shelf

def empty : Shelf := fun _ => none

def put (m : Shelf) (loc : Location) (tags : List SourceTag) (time : Int) : Shelf :=
  fun other => if other = loc then some (tags, time) else m other

def erase (m : Shelf) (loc : Location) : Shelf := fun other => if other = loc then none else m other

/-- The record of a source: valid if there are tags that are not older than the source. -/
def record (m : Shelf) (loc : Location) (sourceTime : Except FileError Int) : Record :=
  match m loc, sourceTime with
  | some (tags, time), .ok sourceTime =>
    if sourceTime ≤ time then
      { path := .string loc.text, valid := true, tags := tags.map Tag.raw }
    else { path := .string loc.text }
  | _, _ => { path := .string loc.text }

end Shelf

/-! ## Steady changes -/

namespace FileSystem

/-- A change that keeps all directories and links, and makes no links. -/
structure Steady (fs fs' : FileSystem) : Prop where
  keeps : Keeps fs.get? fs'.get?
  links : ∀ loc target, fs'.get? loc = some (.link target) → fs.get? loc = some (.link target)

variable {fs fs' : FileSystem} {here : Here} {base : Path} {dest : Location} {names : List Text}

theorem Steady.of_eq (h : ∀ loc, fs'.get? loc = fs.get? loc) : Steady fs fs' where
  keeps loc := by
    rw [h]
    exact ⟨id, fun _ => id⟩
  links loc target hlink := by rwa [← h]

theorem Steady.trans {fs'' : FileSystem} (h : Steady fs fs') (h' : Steady fs' fs'') :
    Steady fs fs'' where
  keeps loc := ⟨fun hdir => (h'.keeps loc).1 ((h.keeps loc).1 hdir),
    fun target hlink => (h'.keeps loc).2 target ((h.keeps loc).2 target hlink)⟩
  links loc target hlink := h.links loc target (h'.links loc target hlink)

/-- A change at one place that is no directory and no link, and does not get one. -/
theorem Steady.of_leaf {place : Location} {node : Option Node}
    (hget : ∀ loc, fs'.get? loc = if loc = place then node else fs.get? loc)
    (hdir : fs.get? place ≠ some .directory) (hlink : ∀ target, fs.get? place ≠ some (.link target))
    (hnode : ∀ target, node ≠ some (.link target)) : Steady fs fs' where
  keeps loc := by
    rw [hget]
    split
    · rename_i heq
      subst heq
      exact ⟨fun h => absurd h hdir, fun target h => absurd h (hlink target)⟩
    · exact ⟨id, fun _ => id⟩
  links loc target h := by
    rw [hget] at h
    split at h
    · exact absurd h (hnode target)
    · exact h

theorem Grows.steady (h : Grows base dest names fs fs') : Steady fs fs' where
  keeps := h.keeps
  links loc target hlink := by
    obtain hloc | ⟨-, hdir, -⟩ := h loc
    · rwa [← hloc]
    · rw [hdir] at hlink
      cases hlink

theorem Steady.unlinked (h : Steady fs fs') {loc : Location} {way : List Text}
    (hway : Unlinked fs.get? loc way) : Unlinked fs'.get? loc way :=
  fun front hfront target hlink => hway front hfront target (h.links _ _ hlink)

theorem Site.steady (h : fs.Site here base dest names) (hs : Steady fs fs') :
    fs'.Site here base dest names where
  base := h.base.keep hs.keeps
  named := h.named
  unlinked rest := hs.unlinked (h.unlinked rest)

/-! ## Sources -/

/-- A change of a file that is not at or below `top`, or a new directory there. -/
inductive SourceChange (top : Location) (fs : FileSystem) : FileSystem → Prop where
  | write {loc : Location} (now : Int) (content : List UInt8) (modified : Int)
      (hout : ¬top <+: loc) (hnone : fs.get? loc = none)
      (hdir : fs.get? loc.dropLast = some .directory) :
      SourceChange top fs (fs.create now loc (.file content modified))
  | overwrite {loc : Location} {old : List UInt8} {time : Int} (content : List UInt8)
      (modified : Int) (hout : ¬top <+: loc) (hfile : fs.get? loc = some (.file old time)) :
      SourceChange top fs (fs.overwrite loc content modified)
  | touch {loc : Location} {content : List UInt8} {time : Int} (modified : Int)
      (hout : ¬top <+: loc) (hfile : fs.get? loc = some (.file content time)) :
      SourceChange top fs (fs.retime loc modified)
  | remove {loc : Location} {content : List UInt8} {time : Int} (now : Int)
      (hout : ¬top <+: loc) (hfile : fs.get? loc = some (.file content time)) :
      SourceChange top fs (fs.remove now loc)
  | makeDirectory {loc : Location} (now : Int) (hout : ¬top <+: loc) (hnone : fs.get? loc = none)
      (hdir : fs.get? loc.dropLast = some .directory) :
      SourceChange top fs (fs.create now loc (.directory now []))

/-- A source is one node, and it is no directory and no link before. -/
theorem SourceChange.exists_leaf {top : Location} (h : SourceChange top fs fs') :
    ∃ place node, ¬top <+: place ∧
      (∀ loc, fs'.get? loc = if loc = place then node else fs.get? loc) ∧
      fs.get? place ≠ some .directory ∧ (∀ target, fs.get? place ≠ some (.link target)) ∧
      ∀ target, node ≠ some (.link target) := by
  cases h with
  | write now content modified hout hnone hdir =>
    exact ⟨_, _, hout,
      get?_create_leaf now (ne_nil_of_get?_eq_none hnone) hdir (by simp [hnone]) rfl,
      by simp [hnone], by simp [hnone], nofun⟩
  | overwrite content modified hout hfile =>
    exact ⟨_, _, hout, get?_overwrite hfile content modified, by simp [hfile], by simp [hfile],
      nofun⟩
  | touch modified hout hfile =>
    exact ⟨_, _, hout, get?_retime hfile modified, by simp [hfile], by simp [hfile], nofun⟩
  | @remove loc content time now hout hfile =>
    have hne : loc ≠ [] := by
      rintro rfl
      simp at hfile
    have hdir : fs.get? ([] ++ loc.dropLast) = some .directory := get?_dropLast_of_file hne hfile
    exact ⟨_, _, hout, get?_remove_leaf now hne hdir (by simp [hfile]), by simp [hfile],
      by simp [hfile], nofun⟩
  | makeDirectory now hout hnone hdir =>
    exact ⟨_, _, hout,
      get?_create_leaf now (ne_nil_of_get?_eq_none hnone) hdir (by simp [hnone]) rfl,
      by simp [hnone], by simp [hnone], nofun⟩

theorem SourceChange.steady {top : Location} (h : SourceChange top fs fs') : Steady fs fs' := by
  obtain ⟨place, node, -, hget, hdir, hlink, hnode⟩ := h.exists_leaf
  exact .of_leaf hget hdir hlink hnode

theorem SourceChange.get?_below {top : Location} (h : SourceChange top fs fs') (rest : List Text) :
    fs'.get? (top ++ rest) = fs.get? (top ++ rest) := by
  obtain ⟨place, node, hout, hget, -⟩ := h.exists_leaf
  rw [hget, if_neg]
  rintro rfl
  exact hout (List.prefix_append top rest)

theorem SourceChange.distinct {top : Location} (h : SourceChange top fs fs') (hfs : fs.Distinct) :
    fs'.Distinct := by
  cases h with
  | write => exact hfs.create (.file ..)
  | overwrite content modified =>
    refine hfs.adjust fun t ht => ?_
    split
    · exact ht
    · exact .file ..
  | touch => exact hfs.retime
  | remove => exact hfs.remove
  | makeDirectory => exact hfs.create (.directory nofun nofun)

end FileSystem

open FileSystem

/-! ## Roots without entries -/

/-- A root that leads to an empty directory at `top`, or that is not there yet: some path before its
end leads to a directory, and nothing is at the end of the names behind it, none of which is a link.
-/
inductive FreshRoot (fs : FileSystem) (here : Here) : (root : Path) → (top : Location) → Prop where
  | empty {root : Path} {top : Location} {time : Int} (hproper : root.IsProper)
      (hfind : fs.find here .target root.text = .ok (top, .directory time [])) :
      FreshRoot fs here root top
  | absent {base : Path} {dest : Location} {tree : Tree} {names : List Text}
      (hproper : base.IsProper) (hfind : fs.find here .target base.text = .ok (dest, tree))
      (htree : tree.node = .directory) (hnames : ∀ name ∈ names, Text.IsName name)
      (hlinks : Unlinked fs.get? dest names) (hnone : fs.get? (dest ++ names) = none) :
      FreshRoot fs here (base.below names) (dest ++ names)

/-- Below an empty directory there is nothing. -/
theorem site_of_find {fs : FileSystem} {here : Here} {root : Path} {top : Location} {time : Int}
    (hproper : root.IsProper)
    (hfind : fs.find here .target root.text = .ok (top, .directory time [])) :
    fs.Site here root top [] ∧ ∀ rest, rest ≠ [] → fs.get? (top ++ rest) = none := by
  have hbase := Base.of_find hproper hfind rfl
  have hnone : ∀ rest, rest ≠ [] → fs.get? (top ++ rest) = none := by
    intro rest hne
    rw [get?_append, tree?_of_find hfind]
    cases rest with
    | nil => exact absurd rfl hne
    | cons name rest => rfl
  refine ⟨⟨hbase, List.forall_mem_nil _, fun rest front _ target => ?_⟩, hnone⟩
  cases front with
  | nil => simp [hbase.directory]
  | cons name front => simp [hnone]

theorem FreshRoot.exists_site {fs : FileSystem} {here : Here} {root : Path} {top : Location}
    (h : FreshRoot fs here root top) : ∃ base dest names, fs.Site here base dest names ∧
      root = base.below names ∧ top = dest ++ names ∧
      (∀ content time, fs.get? top ≠ some (.file content time)) ∧
      (fs.get? top ≠ none → Fits base names) ∧
      ∀ rest, rest ≠ [] → fs.get? (top ++ rest) = none := by
  cases h with
  | @empty _ _ time hproper hfind =>
    obtain ⟨hsite, hnone⟩ := site_of_find hproper hfind
    refine ⟨root, top, [], hsite, by simp [Path.below], by simp, ?_, ?_, hnone⟩
    · simp [hsite.base.directory]
    · exact fun _ => ⟨by simpa [Path.below] using hsite.base.short, List.forall_mem_nil _⟩
  | @absent base dest tree names hproper hfind htree hnames hlinks hnone =>
    have hbase := Base.of_find hproper hfind htree
    have hbelow : ∀ rest, rest ≠ [] → fs.get? (dest ++ names ++ rest) = none :=
      fun rest hne => get?_eq_none_below (by simp [hnone]) hne
    refine ⟨base, dest, names, ⟨hbase, hnames, ?_⟩, rfl, rfl, by simp [hnone], by simp [hnone],
      hbelow⟩
    intro rest front hfront target
    obtain hfront | ⟨more, rfl⟩ :=
      List.prefix_or_prefix_of_prefix hfront (List.prefix_append names rest)
    · exact hlinks front hfront target
    · cases more with
      | nil => simp [hnone]
      | cons name more => simp [← List.append_assoc, hbelow]

namespace Store

/-! ## Entries that are there -/

section Site

variable {s : Store} {fs : FileSystem} {here : Here} {base : Path} {dest : Location}
  {names : List Text} {loc : Location}

/-- A fresh entry is a file at the place of the entry. -/
theorem hasFresh_iff (h : fs.Site here base dest names) (hroot : s.root = base.below names)
    (hloc : loc.IsNamed) {bytes : List UInt8} :
    s.HasFresh fs here loc.text bytes ↔
      s.enabled = true ∧ Fits base (names ++ entryNames loc) ∧ ∃ entryTime sourceTime,
        fs.get? (dest ++ (names ++ entryNames loc)) = some (.file bytes entryTime) ∧
        fs.modifiedAt here loc.text = .ok sourceTime ∧ sourceTime ≤ entryTime := by
  have hentry := entryPath_below hroot hloc
  have hne : names ++ entryNames loc ≠ [] := by simp [entryNames_ne_nil]
  have hnames := h.named_append (isName_entryNames hloc)
  constructor
  · rintro ⟨henabled, hbytes, entryTime, sourceTime, hentryTime, hsourceTime, hle⟩
    rw [hentry] at hbytes hentryTime
    obtain ⟨e, hlocate⟩ | ⟨hlocate, hfits, -⟩ :=
      h.base.locate_below_cases (show Purpose.target ≠ .output by decide) hne hnames (h.unlinked _)
    · simp [FileSystem.read, hlocate] at hbytes
    · refine ⟨henabled, hfits, entryTime, sourceTime, ?_, hsourceTime, hle⟩
      cases hnode : fs.get? (dest ++ (names ++ entryNames loc)) with
      | none =>
        rw [targetAt_eq_vacant hnode] at hlocate
        simp [FileSystem.read, hlocate] at hbytes
      | some n =>
        obtain ⟨tree, rfl, -, htarget⟩ := targetAt_eq_present hnode
        rw [htarget] at hlocate
        cases tree with
        | file content time =>
          simp only [FileSystem.read, modifiedAt, hlocate, Except.ok.injEq] at hbytes hentryTime
          rw [Tree.node, hbytes, ← hentryTime]
          rfl
        | link | directory => simp [FileSystem.read, hlocate] at hbytes
  · rintro ⟨henabled, hfits, entryTime, sourceTime, hfile, hsourceTime, hle⟩
    have hlocate := h.base.locate_file (show Purpose.target ≠ .output by decide) hne hnames
      (h.unlinked _) hfits hfile
    refine ⟨henabled, ?_, entryTime, sourceTime, ?_, hsourceTime, hle⟩
    · rw [hentry, FileSystem.read, hlocate]
    · rw [hentry, modifiedAt, hlocate]
      rfl

theorem isUsable_root (h : fs.Site here base dest names) (hroot : s.root = base.below names) :
    ∀ part ∈ s.root.parts, Text.IsUsable part := by
  rw [hroot]
  exact fun part hpart => (h.base.proper_below h.named part hpart).isUsable

end Site

/-! ## What saving does to files -/

section Saved

variable {s : Store} {fs files : FileSystem} {here : Here} {base : Path} {dest : Location}
  {names : List Text} {loc : Location} {now : Int} {tags : List RawTag}
  {result : Except Fault Unit}

/-- The place of an entry is not that of its source. -/
theorem entry_ne_source (dest : Location) (names : List Text) (loc : Location) :
    loc ≠ dest ++ (names ++ entryNames loc) := by
  intro heq
  rcases List.eq_nil_or_concat loc with rfl | ⟨init, last, rfl⟩
  · exact absurd heq.symm (by simp [entryNames_ne_nil])
  · have hlast : last = last ++ ".json" := by
      simpa [entryNames] using congrArg List.getLast? heq
    have hlength := congrArg List.length hlast
    rw [List.length_append] at hlength
    have hjson : (Text.ofString ".json").length = 5 := rfl
    omega

theorem save_steady (h : fs.Site here base dest names) (hroot : s.root = base.below names)
    (henabled : s.enabled = true) (hloc : loc.IsNamed)
    (hsave : s.save now here loc.text tags fs = (result, files)) : Steady fs files := by
  obtain ⟨made, hgrows, ⟨e, -, -, hget⟩ | ⟨-, -, -, hdir, time, -, hget⟩⟩ :=
    save_cases now h hroot henabled hloc tags
  · rw [hsave] at hget
    exact hgrows.steady.trans (.of_eq hget)
  · rw [hsave] at hget
    have hmade := h.steady hgrows.steady
    exact hgrows.steady.trans
      (.of_leaf hget hdir (hmade.unlinked _ _ (List.prefix_refl _)) nofun)

/-- The only file that saving writes is the entry. -/
theorem get?_save_file (h : fs.Site here base dest names) (hroot : s.root = base.below names)
    (henabled : s.enabled = true) (hloc : loc.IsNamed) {other : Location}
    (hother : other ≠ dest ++ (names ++ entryNames loc))
    (hsave : s.save now here loc.text tags fs = (result, files)) {content : List UInt8}
    {time : Int} :
    files.get? other = some (.file content time) ↔ fs.get? other = some (.file content time) := by
  obtain ⟨made, hgrows, hmade⟩ : ∃ made, Grows base dest (names ++ loc.dropLast) fs made ∧
      files.get? other = made.get? other := by
    obtain ⟨made, hgrows, ⟨e, -, -, hget⟩ | ⟨-, -, -, -, time, -, hget⟩⟩ :=
      save_cases now h hroot henabled hloc tags
    · rw [hsave] at hget
      exact ⟨made, hgrows, hget other⟩
    · rw [hsave] at hget
      exact ⟨made, hgrows, by rw [hget, if_neg hother]⟩
  rw [hmade]
  obtain hsame | ⟨hnone, hdir, -⟩ := hgrows other
  · rw [hsame]
  · simp [hnone, hdir]

/-- After a successful saving there is the entry. -/
theorem get?_save_entry (h : fs.Site here base dest names) (hroot : s.root = base.below names)
    (henabled : s.enabled = true) (hloc : loc.IsNamed)
    (hsave : s.save now here loc.text tags fs = (.ok (), files)) :
    ∃ time, files.get? (dest ++ (names ++ entryNames loc)) =
      some (.file (encodeEntry loc.text tags) time) := by
  obtain ⟨made, -, ⟨e, -, herror, -⟩ | ⟨-, -, -, -, time, -, hget⟩⟩ :=
    save_cases now h hroot henabled hloc tags
  · simp [hsave] at herror
  · rw [hsave] at hget
    exact ⟨time, by rw [hget, if_pos rfl]⟩

end Saved

/-! ## Files and the map -/

/-- How the files below the root of a store spell a map: the entries that are there are those of the
map. -/
structure Spells (here : Here) (base : Path) (dest : Location) (names : List Text)
    (fs : FileSystem) (m : Shelf) : Prop where
  site : fs.Site here base dest names
  fits : ∀ rest, fs.get? (dest ++ (names ++ rest)) ≠ none → Fits base (names ++ rest)
  entry : ∀ loc, loc.IsNamed → ∀ content time,
    fs.get? (dest ++ (names ++ entryNames loc)) = some (.file content time) ↔
      ∃ tags, m loc = some (tags, time) ∧ content = encodeEntry loc.text (tags.map Tag.raw)

variable {s : Store} {fs fs' : FileSystem} {here : Here} {base : Path} {dest : Location}
  {names : List Text} {m : Shelf} {loc : Location} {now : Int} {tags : List SourceTag}

/-- Below a fresh root there are no entries. -/
theorem Spells.of_fresh (hsite : fs.Site here base dest names)
    (hfits : fs.get? (dest ++ names) ≠ none → Fits base names)
    (hnone : ∀ rest, rest ≠ [] → fs.get? (dest ++ names ++ rest) = none) :
    Spells here base dest names fs .empty where
  site := hsite
  fits rest hnode := by
    rw [← List.append_assoc] at hnode
    by_cases hne : rest = []
    · rw [hne, List.append_nil]
      exact hfits (by simpa [hne] using hnode)
    · exact absurd (hnone rest hne) hnode
  entry loc hloc content time := by
    rw [← List.append_assoc, hnone _ (entryNames_ne_nil loc)]
    simp [Shelf.empty]

/-- New directories are no entries. -/
theorem Spells.grow {more : List Text} (h : Spells here base dest names fs m)
    (hgrows : Grows base dest more fs fs') : Spells here base dest names fs' m where
  site := h.site.steady hgrows.steady
  fits rest hnode := by
    obtain hloc | ⟨-, -, front, -, -, hfits, heq⟩ := hgrows (dest ++ (names ++ rest))
    · exact h.fits rest (hloc ▸ hnode)
    · rw [List.append_cancel_left heq]
      exact hfits
  entry loc hloc content time := by
    obtain heq | ⟨hnone, hdir, -⟩ := hgrows (dest ++ (names ++ entryNames loc))
    · rw [heq]
      exact h.entry loc hloc content time
    · rw [← h.entry loc hloc, hdir, hnone]
      simp

/-- A change elsewhere is a change of no entries. -/
theorem Spells.elsewhere (h : Spells here base dest names fs m) (hsteady : Steady fs fs')
    (hget : ∀ rest, fs'.get? (dest ++ names ++ rest) = fs.get? (dest ++ names ++ rest)) :
    Spells here base dest names fs' m where
  site := h.site.steady hsteady
  fits rest := by
    rw [← List.append_assoc, hget, List.append_assoc]
    exact h.fits rest
  entry loc hloc content time := by
    rw [← List.append_assoc, hget, List.append_assoc]
    exact h.entry loc hloc content time

/-- An entry that is put in its place. -/
theorem Spells.replace {time : Int} (h : Spells here base dest names fs m) (hloc : loc.IsNamed)
    (hdir : fs.get? (dest ++ (names ++ entryNames loc)) ≠ some .directory)
    (hfits : Fits base (names ++ entryNames loc))
    (hget : ∀ other, fs'.get? other =
      if other = dest ++ (names ++ entryNames loc) then
        some (.file (encodeEntry loc.text (tags.map Tag.raw)) time)
      else fs.get? other) :
    Spells here base dest names fs' (m.put loc tags time) where
  site := h.site.steady (.of_leaf hget hdir (h.site.unlinked _ _ (List.prefix_refl _)) nofun)
  fits rest hnode := by
    rw [hget] at hnode
    split at hnode
    · rename_i heq
      rw [List.append_cancel_left heq]
      exact hfits
    · exact h.fits rest hnode
  entry other hother content time' := by
    rw [hget, Shelf.put]
    by_cases heq : other = loc
    · subst heq
      rw [if_pos rfl, if_pos rfl, Option.some.injEq, Node.file.injEq]
      constructor
      · intro ⟨hcontent, htime⟩
        exact ⟨tags, by rw [htime], hcontent.symm⟩
      · intro ⟨tags', hentry, hcontent⟩
        rw [Option.some.injEq, Prod.mk.injEq] at hentry
        rw [hcontent, hentry.1, hentry.2]
        exact ⟨rfl, rfl⟩
    · have hplace : dest ++ (names ++ entryNames other) ≠ dest ++ (names ++ entryNames loc) := by
        intro hplace
        exact heq (entryNames_inj hother hloc
          (List.append_cancel_left (List.append_cancel_left hplace)))
      rw [if_neg hplace, if_neg heq]
      exact h.entry other hother content time'

theorem Spells.save (h : Spells here base dest names fs m) (hroot : s.root = base.below names)
    (henabled : s.enabled = true) (hloc : loc.IsNamed) {files : FileSystem}
    (hsave : s.save now here loc.text (tags.map Tag.raw) fs = (.ok (), files)) :
    Spells here base dest names files
      (m.put loc tags (stampTime now (files.modifiedAt here loc.text))) := by
  obtain ⟨made, hgrows, ⟨e, -, herror, -⟩ | ⟨-, hfits, -, hdir, time, hstamps, hget⟩⟩ :=
    save_cases now h.site hroot henabled hloc (tags.map Tag.raw)
  · simp [hsave] at herror
  · rw [hsave] at hget hstamps
    rw [← hstamps.eq_stampTime rfl]
    exact (h.grow hgrows).replace hloc hdir hfits hget

/-- An entry that has not been written. -/
theorem Spells.failToSave (h : Spells here base dest names fs m) (hroot : s.root = base.below names)
    (henabled : s.enabled = true) (hloc : loc.IsNamed) {tags : List RawTag} {fault : Fault}
    (hput : (s.putEntry now here loc.text tags fs).1 = .error fault) :
    Spells here base dest names (s.save now here loc.text tags fs).2 m := by
  obtain ⟨made, hgrows, ⟨e, -, -, hget⟩ | ⟨hok, -⟩⟩ :=
    save_cases now h.site hroot henabled hloc tags
  · exact (h.grow hgrows).elsewhere (.of_eq hget) fun rest => hget _
  · simp [hput] at hok

/-- An entry that has been written but not stamped. -/
theorem Spells.failToStamp (h : Spells here base dest names fs m)
    (hroot : s.root = base.below names) (henabled : s.enabled = true) (hloc : loc.IsNamed)
    {files : FileSystem} {fault : Fault}
    (hput : (s.putEntry now here loc.text (tags.map Tag.raw) fs).1 = .ok ())
    (hsave : s.save now here loc.text (tags.map Tag.raw) fs = (.error fault, files)) :
    Spells here base dest names files (m.put loc tags now) := by
  obtain ⟨made, hgrows, ⟨e, herror, -⟩ | ⟨-, hfits, -, hdir, time, hstamps, hget⟩⟩ :=
    save_cases now h.site hroot henabled hloc (tags.map Tag.raw)
  · simp [hput] at herror
  · rw [hsave] at hget hstamps
    cases hstamps with
    | denied => exact (h.grow hgrows).replace hloc hdir hfits hget

/-- A lookup reads what the map has for the source, if that is fresh. -/
theorem Spells.load_cases (h : Spells here base dest names fs m) (hroot : s.root = base.below names)
    (henabled : s.enabled = true) (hloc : loc.IsNamed) :
    (∃ tags time sourceTime, m loc = some (tags, time) ∧
        fs.modifiedAt here loc.text = .ok sourceTime ∧ sourceTime ≤ time ∧
        s.load fs here loc.text =
          ofBytes here.depths.values (encodeEntry loc.text (tags.map Tag.raw))) ∨
      (∀ tags time sourceTime, m loc = some (tags, time) →
        fs.modifiedAt here loc.text = .ok sourceTime → time < sourceTime) ∧
        ∃ reason, s.load fs here loc.text = .ok (.miss reason) := by
  obtain ⟨bytes, hfresh, hload⟩ | ⟨hnone, hmiss⟩ :=
    Store.load_cases fs here (isUsable_root h.site hroot) hloc
  · obtain ⟨-, -, time, sourceTime, hfile, hsource, hle⟩ :=
      (hasFresh_iff h.site hroot hloc).1 hfresh
    obtain ⟨tags, htags, hbytes⟩ := (h.entry loc hloc bytes time).1 hfile
    rw [hbytes] at hload
    exact .inl ⟨tags, time, sourceTime, htags, hsource, hle, hload⟩
  · refine .inr ⟨fun tags time sourceTime htags hsource => ?_, hmiss⟩
    have hfile := (h.entry loc hloc _ time).2 ⟨tags, htags, rfl⟩
    apply Int.not_le.1
    intro hle
    exact hnone _ <| (hasFresh_iff h.site hroot hloc).2
      ⟨henabled, h.fits _ (by simp [hfile]), time, sourceTime, hfile, hsource, hle⟩

/-! ## A store with one source -/

/-- A source, and no root of a store yet. -/
def filesWithSource (source : List UInt8) : FileSystem where
  entries := [("a.php", .file source 7)]

/-- The source after it has been saved and changed: its entry has the time that it had. -/
def filesAfterSave (source : List UInt8) (time : Int) (entry : List UInt8) : FileSystem where
  modified := 5
  entries := [("cache", .directory 5 [("a.php.json", .file entry 7)]), ("a.php", .file source time)]

theorem isNamed_source : Location.IsNamed ["a.php"] := by
  intro name hname
  obtain rfl := List.mem_singleton.1 hname
  exact Text.isName_ofString (by simp) (by decide) (by decide) (by decide)

theorem freshRoot_atCache {fs : FileSystem} (tree : Tree)
    (hfind : fs.find Here.root .target "/" = .ok ([], tree)) (htree : tree.node = .directory)
    (hnone : fs.get? ["cache"] = none) : FreshRoot fs Here.root storeAtCache.root ["cache"] := by
  show FreshRoot fs Here.root (Path.below ⟨.root, []⟩ ["cache"])
    (([] : Location) ++ [("cache" : Text)])
  refine .absent nofun hfind htree ?_ ?_ hnone
  · intro name hname
    obtain rfl := List.mem_singleton.1 hname
    exact Text.isName_ofString (by simp) (by decide) (by decide) (by decide)
  · intro front hfront target
    cases front with
    | nil => simp
    | cons first rest =>
      obtain ⟨rfl, hrest⟩ := List.cons_prefix_cons.1 hfront
      obtain rfl := List.prefix_nil.1 hrest
      simp [hnone]

theorem freshRoot_filesWithSource (source : List UInt8) :
    FreshRoot (filesWithSource source) Here.root storeAtCache.root ["cache"] :=
  freshRoot_atCache (filesWithSource source).root (by cbv) rfl (by cbv)

/-- The source is later than the clock, and its entry gets to be as late. -/
theorem save_filesWithSource (source : List UInt8) (tags : List RawTag) :
    storeAtCache.save 5 Here.root (Location.text ["a.php"]) tags (filesWithSource source) =
      (.ok (), filesAfterSave source 7 (encodeEntry (Location.text ["a.php"]) tags)) := by
  rw [Store.save, Store.putEntry]
  generalize encodeEntry (Location.text ["a.php"]) tags = content
  cbv

end Store
end TagsFile
