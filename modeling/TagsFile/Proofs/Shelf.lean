import TagsFile.Proofs.Clearing
import TagsFile.Proofs.Entries

/-!
# A store over time

A store keeps to the map that it stands for in every state that a session comes to, whatever becomes
of the sources, as long as nobody else writes below the root: saving puts tags into the map, and the
other operations take them out. Saving can fail before the entry is written, and then the map stays,
or when the entry is stamped, and then the map has the tags with the time of writing.

## Main definitions

* `Session`, `Session.Step`: a store at work, and what can happen next.
* `Session.Invariant`: what is true of every state.

## Main statements

* `Session.Invariant.clear_iff`: when a store is cleared.
* `Session.Invariant.run`: every state that a session comes to keeps to the map.
-/

namespace TagsFile

open FileSystem

/-- Tags that an entry can hold: no halves of a surrogate pair stand next to each other in their
texts, and their lines do not have more digits than are read. -/
structure Storable (tags : List SourceTag) : Prop where
  texts : ∀ t ∈ tags, ∀ text ∈ t.texts, Text.unpaired text
  lines : ∀ t ∈ tags, t.line.natAbs < 10 ^ Integer.maxDigits

/-! ## Sessions -/

/-- A store with the files it works on, and the map that it stands for. -/
structure Session where
  store : Store
  files : FileSystem
  shelf : Shelf
  /-- The sources that were to be saved, with success or without. -/
  tried : List Location := []

namespace Session

/-- The part of the map whose entries are still there, which is what a clearing that stops leaves.
-/
def left (s : Session) (here : Here) (files : FileSystem) : Shelf := fun loc =>
  match files.hasEntry here (s.store.entryPath loc.text).text with
  | .ok true => s.shelf loc
  | _ => none

/-- What can happen next in a session whose store has its root at `top`. A source is given by its
canonical path, and none of the directories on its way may have the name of an entry if it is saved.
-/
inductive Step (here : Here) (top : Location) (s : Session) : Session → Prop where
  | save {now : Int} {loc : Location} {tags : List SourceTag} {files : FileSystem}
      (hloc : loc.IsNamed) (hdirs : ∀ name ∈ loc.dropLast, Store.isEntryName name = false)
      (htags : Storable tags)
      (h : s.store.save now here loc.text (tags.map Tag.raw) s.files = (.ok (), files)) :
      Step here top s { s with
        files, tried := loc :: s.tried
        shelf := s.shelf.put loc tags (Store.stampTime now (files.modifiedAt here loc.text)) }
  | failToSave {now : Int} {loc : Location} {tags : List SourceTag} {files : FileSystem}
      {fault : Fault} (hloc : loc.IsNamed)
      (hdirs : ∀ name ∈ loc.dropLast, Store.isEntryName name = false)
      (hput : (s.store.putEntry now here loc.text (tags.map Tag.raw) s.files).1 = .error fault)
      (h : s.store.save now here loc.text (tags.map Tag.raw) s.files = (.error fault, files)) :
      Step here top s { s with files, tried := loc :: s.tried }
  | failToStamp {now : Int} {loc : Location} {tags : List SourceTag} {files : FileSystem}
      {fault : Fault} (hloc : loc.IsNamed)
      (hdirs : ∀ name ∈ loc.dropLast, Store.isEntryName name = false) (htags : Storable tags)
      (hput : (s.store.putEntry now here loc.text (tags.map Tag.raw) s.files).1 = .ok ())
      (h : s.store.save now here loc.text (tags.map Tag.raw) s.files = (.error fault, files)) :
      Step here top s { s with
        files, shelf := s.shelf.put loc tags now, tried := loc :: s.tried }
  | load {loc : Location} {found : Lookup} (hloc : loc.IsNamed)
      (h : s.store.load s.files here loc.text = .ok found) :
      Step here top s { s with store := s.store.counted found }
  | invalidate {now : Int} {loc : Location} {files : FileSystem} {result : Except Fault Unit}
      (hloc : loc.IsNamed) (h : s.store.invalidate now here loc.text s.files = (result, files)) :
      Step here top s { s with files, shelf := s.shelf.erase loc }
  | clear {now : Int} {files : FileSystem}
      (h : s.store.clear now here s.files = (.ok (), files)) :
      Step here top s { s with files, shelf := .empty }
  | failToClear {now : Int} {files : FileSystem} {fault : Fault}
      (h : s.store.clear now here s.files = (.error fault, files)) :
      Step here top s { s with files, shelf := s.left here files }
  | source {files : FileSystem} (h : SourceChange top s.files files) :
      Step here top s { s with files }

/-- The states that a session comes to. -/
inductive Run (here : Here) (top : Location) (start : Session) : Session → Prop where
  | start : Run here top start start
  | step {s s' : Session} (h : Run here top start s) (hstep : Step here top s s') :
      Run here top start s'

end Session

/-! ## Names of entries -/

namespace Store

variable {s : Store} {fs fs' : FileSystem} {here : Here} {base : Path} {dest top : Location}
  {names : List Text} {m m' : Shelf} {loc : Location} {now : Int}

theorem isEntryName_append_json (name : Text) : isEntryName (name ++ ".json") = true := by
  rw [isEntryName, List.isSuffixOf_iff_suffix]
  exact List.suffix_append name _

/-- An entry is not a directory. -/
theorem EntryNamed.entry_ne_directory (h : EntryNamed fs (dest ++ names)) (loc : Location) :
    fs.get? (dest ++ (names ++ entryNames loc)) ≠ some .directory := by
  intro hdir
  rw [← List.append_assoc] at hdir
  have hname := h.directory _ _ hdir
  rw [isEntryName_append_json] at hname
  cases hname

theorem EntryNamed.congr (h : EntryNamed fs top)
    (hget : ∀ rest, fs'.get? (top ++ rest) = fs.get? (top ++ rest)) : EntryNamed fs' top where
  noFile content time := by
    have hsame := hget []
    rw [List.append_nil] at hsame
    rw [hsame]
    exact h.noFile content time
  directory names name := by
    rw [hget]
    exact h.directory names name
  file names name content time := by
    rw [hget]
    exact h.file names name content time

/-- Directories for the entry of a source have no names of entries, if those of the source have
none. -/
theorem EntryNamed.grow (h : EntryNamed fs (dest ++ names))
    (hdirs : ∀ name ∈ loc.dropLast, isEntryName name = false)
    (hgrows : Grows base dest (names ++ loc.dropLast) fs fs') : EntryNamed fs' (dest ++ names) where
  noFile content time hfile := by
    obtain hsame | ⟨-, hdir, -⟩ := hgrows (dest ++ names)
    · exact h.noFile content time (hsame ▸ hfile)
    · rw [hdir] at hfile
      cases hfile
  directory rest name hdir := by
    obtain hsame | ⟨-, -, front, hfront, -, -, heq⟩ := hgrows (dest ++ names ++ (rest ++ [name]))
    · exact h.directory rest name (hsame ▸ hdir)
    · rw [List.append_assoc] at heq
      rw [← List.append_cancel_left heq, List.prefix_append_right_inj] at hfront
      exact hdirs name (hfront.subset (by simp))
  file rest name content time hfile := by
    obtain hsame | ⟨-, hdir, -⟩ := hgrows (dest ++ names ++ (rest ++ [name]))
    · exact h.file rest name content time (hsame ▸ hfile)
    · rw [hdir] at hfile
      cases hfile

/-- A file at the place of an entry has the name of an entry. -/
theorem EntryNamed.replace (h : EntryNamed fs (dest ++ names)) {content : List UInt8} {time : Int}
    (hget : ∀ other, fs'.get? other =
      if other = dest ++ (names ++ entryNames loc) then some (.file content time)
      else fs.get? other) : EntryNamed fs' (dest ++ names) where
  noFile content' time' := by
    rw [hget, if_neg]
    · exact h.noFile content' time'
    · simp [entryNames_ne_nil]
  directory rest name hdir := by
    rw [hget] at hdir
    split at hdir
    · cases hdir
    · exact h.directory rest name hdir
  file rest name content' time' hfile := by
    rw [hget] at hfile
    split at hfile
    · rename_i heq
      rw [List.append_assoc, List.append_cancel_left_eq, List.append_cancel_left_eq,
        entryNames] at heq
      obtain ⟨-, hname⟩ := List.append_inj' heq rfl
      rw [(List.cons.inj hname).1]
      exact isEntryName_append_json _
    · exact h.file rest name content' time' hfile

/-! ## Taking entries away -/

theorem Thins.eq_some (h : Thins top fs fs') {loc : Location} {n : Node}
    (hn : fs'.get? loc = some n) : fs.get? loc = some n := by
  rwa [← h.of_ne_none (by simp [hn])]

theorem Thins.steady (h : Thins top fs fs') : Steady fs fs' where
  keeps loc := by
    obtain hsame | ⟨-, names, content, time, -, hfile⟩ := h loc
    · rw [hsame]
      exact ⟨id, fun _ => id⟩
    · rw [hfile]
      exact ⟨nofun, fun _ => nofun⟩
  links loc target hlink := h.eq_some hlink

theorem Thins.entryNamed (h : Thins top fs fs') (hfs : EntryNamed fs top) : EntryNamed fs' top where
  noFile content time hfile := hfs.noFile content time (h.eq_some hfile)
  directory names name hdir := hfs.directory names name (h.eq_some hdir)
  file names name content time hfile := hfs.file names name content time (h.eq_some hfile)

/-- What is left when files have been taken away. -/
theorem Spells.thin (h : Spells here base dest names fs m) (hthins : Thins (dest ++ names) fs fs')
    (hleft : ∀ loc, loc.IsNamed →
      fs'.get? (dest ++ (names ++ entryNames loc)) ≠ none → m' loc = m loc)
    (hgone : ∀ loc, loc.IsNamed →
      fs'.get? (dest ++ (names ++ entryNames loc)) = none → m' loc = none) :
    Spells here base dest names fs' m' where
  site := h.site.steady hthins.steady
  fits rest hnode := h.fits rest (hthins.of_ne_none hnode ▸ hnode)
  entry loc hloc content time := by
    by_cases hnode : fs'.get? (dest ++ (names ++ entryNames loc)) = none
    · simp [hnode, hgone loc hloc hnode]
    · rw [hthins.of_ne_none hnode, hleft loc hloc hnode]
      exact h.entry loc hloc content time

theorem Spells.eq_none (h : Spells here base dest names fs m) (hloc : loc.IsNamed)
    (hnone : fs.get? (dest ++ (names ++ entryNames loc)) = none) : m loc = none := by
  cases hentry : m loc with
  | none => rfl
  | some pair =>
    have hfile := (h.entry loc hloc _ pair.2).2 ⟨pair.1, hentry, rfl⟩
    simp [hnone] at hfile

theorem hasEntry_entryPath (h : fs.Site here base dest names) (hroot : s.root = base.below names)
    (hloc : loc.IsNamed)
    (hfits : fs.get? (dest ++ (names ++ entryNames loc)) ≠ none →
      Fits base (names ++ entryNames loc)) :
    fs.hasEntry here (s.entryPath loc.text).text = .ok true ↔
      fs.get? (dest ++ (names ++ entryNames loc)) ≠ none := by
  have hne : names ++ entryNames loc ≠ [] := by simp [entryNames_ne_nil]
  have hnames := h.named_append (isName_entryNames hloc)
  rw [entryPath_below hroot hloc, hasEntry]
  cases hnode : fs.get? (dest ++ (names ++ entryNames loc)) with
  | none =>
    obtain ⟨e, hlocate⟩ | ⟨hlocate, -⟩ := h.base.locate_below_cases
      (show Purpose.target ≠ .output by decide) hne hnames (h.unlinked _)
    · rw [hlocate]
      dsimp only
      split <;> simp
    · simp [hlocate, targetAt_eq_vacant hnode]
  | some n =>
    obtain ⟨tree, -, -, htarget⟩ := targetAt_eq_present hnode
    have hlocate := h.base.locate_below (show Purpose.target ≠ .output by decide) hne hnames
      (h.unlinked _) (hfits (by simp [hnode])) (get?_dropLast_of_file hne hnode)
    simp [hlocate, htarget]

end Store

/-! ## Every state -/

namespace Session

open Store

/-- What is true of every state of a session. -/
structure Invariant (here : Here) (base : Path) (dest : Location) (names : List Text)
    (s : Session) : Prop where
  root : s.store.root = base.below names
  enabled : s.store.enabled = true
  spells : Spells here base dest names s.files s.shelf
  entryNamed : EntryNamed s.files (dest ++ names)
  distinct : s.files.Distinct
  storable : ∀ loc tags time, s.shelf loc = some (tags, time) → Storable tags
  made : ∀ rest, rest ≠ [] → s.files.get? (dest ++ names ++ rest) = some .directory →
    ∃ loc ∈ s.tried, rest <+: loc.dropLast

variable {here : Here} {base : Path} {dest top : Location} {names : List Text} {s s' : Session}
  {now : Int} {loc : Location}

theorem Invariant.tidy (h : Invariant here base dest names s) :
    Tidy s.files s.store.root (dest ++ names) where
  toEntryNamed := h.entryNamed
  unlinked rest := by
    rw [List.append_assoc]
    exact h.spells.site.unlinked rest _ (List.prefix_refl _)
  short rest hnode := by
    rw [List.append_assoc] at hnode
    rw [h.root, below_below]
    exact (h.spells.fits rest hnode).path

/-- Only a file can be at the place of an entry. -/
theorem Invariant.vacant_or_file (h : Invariant here base dest names s) (loc : Location) :
    s.files.get? (dest ++ (names ++ entryNames loc)) = none ∨
      ∃ content time,
        s.files.get? (dest ++ (names ++ entryNames loc)) = some (.file content time) := by
  cases hnode : s.files.get? (dest ++ (names ++ entryNames loc)) with
  | none => exact .inl rfl
  | some n =>
    cases n with
    | file content time => exact .inr ⟨content, time, rfl⟩
    | directory => exact absurd hnode (h.entryNamed.entry_ne_directory loc)
    | link target => exact absurd hnode (h.spells.site.unlinked _ _ (List.prefix_refl _) target)

/-- Only a directory can be at the root. -/
theorem Invariant.vacant_or_directory (h : Invariant here base dest names s) :
    s.files.get? (dest ++ names) = none ∨ s.files.get? (dest ++ names) = some .directory := by
  cases hnode : s.files.get? (dest ++ names) with
  | none => exact .inl rfl
  | some n =>
    cases n with
    | file content time => exact absurd hnode (h.entryNamed.noFile content time)
    | directory => exact .inr rfl
    | link target =>
      have hlink := h.spells.site.unlinked [] names (by simp) target
      exact absurd hnode hlink

/-! ### Clearing -/

theorem Invariant.clears (h : Invariant here base dest names s) (now : Int)
    (hdir : s.files.get? (dest ++ names) = some .directory) :
    Clears s.files (dest ++ names) (dest ++ names) (here.depths.clear + 1) s.files
      (s.store.clear now here s.files) := by
  have hfits := h.spells.fits [] (by simp [hdir])
  rw [List.append_nil] at hfits
  exact clear_of_directory now h.spells.site h.root hfits hdir h.distinct h.tidy

/-- Clearing takes files away, and if it comes to its end it leaves none. -/
theorem Invariant.clear_thins (h : Invariant here base dest names s) (now : Int) :
    Thins (dest ++ names) s.files (s.store.clear now here s.files).2 ∧
      ((s.store.clear now here s.files).1 = .ok () → ∀ rest content time, rest ≠ [] →
        (s.store.clear now here s.files).2.get? (dest ++ names ++ rest) ≠
          some (.file content time)) := by
  obtain hnone | hdir := h.vacant_or_directory
  · obtain ⟨hsame, -⟩ := clear_of_absent now h.spells.site h.root hnone
    rw [hsame]
    refine ⟨.refl _, fun _ rest content time hne => ?_⟩
    rw [get?_eq_none_below (by simp [hnone]) hne]
    nofun
  · obtain ⟨hthins, ⟨-, hfiles, -⟩ | ⟨herror, -⟩⟩ := h.clears now hdir
    · exact ⟨hthins, fun _ => hfiles⟩
    · refine ⟨hthins, fun hok => ?_⟩
      rw [herror] at hok
      cases hok

/-- Clearing comes to its end if and only if the root can be looked for and no directory lies too
deep below it. -/
theorem Invariant.clear_iff (h : Invariant here base dest names s) (now : Int) :
    (s.store.clear now here s.files).1 = .ok () ↔
      s.files.isDirectory here s.store.root.text ≠ .error (.system .nameTooLong) ∧
        ∀ rest, s.files.get? (dest ++ names ++ rest) = some .directory →
          rest.length ≤ here.depths.clear := by
  obtain hnone | hdir := h.vacant_or_directory
  · rw [(clear_of_absent now h.spells.site h.root hnone).2, and_iff_left]
    intro rest hrest
    have habove := get?_eq_directory_of_front (List.prefix_append ..) hrest
    simp [hnone] at habove
  · obtain ⟨-, ⟨hok, -, hdepth⟩ | ⟨herror, rest, hlength, hrest⟩⟩ := h.clears now hdir
    · refine iff_of_true hok ⟨isDirectory_ne_error_of_clear hok, fun rest hrest => ?_⟩
      exact Nat.le_of_lt_succ (hdepth rest hrest)
    · refine iff_of_false (by simp [herror]) fun ⟨_, hdepth⟩ => ?_
      have hle := hdepth rest hrest
      omega

/-! ### Steps -/

section Steps

variable {files : FileSystem} {tags : List SourceTag} {m : Shelf}

/-- Whatever comes of saving, if the map is right. -/
theorem Invariant.of_save (h : Invariant here base dest names s) (hloc : loc.IsNamed)
    (hdirs : ∀ name ∈ loc.dropLast, isEntryName name = false) {result : Except Fault Unit}
    (hsave : s.store.save now here loc.text (tags.map Tag.raw) s.files = (result, files))
    (hspells : Spells here base dest names files m)
    (hstorable : ∀ loc tags time, m loc = some (tags, time) → Storable tags) :
    Invariant here base dest names { s with files, shelf := m, tried := loc :: s.tried } := by
  have hdistinct := distinct_save s.store now here loc.text (tags.map Tag.raw) h.distinct
  obtain ⟨made, hgrows, hcases⟩ :=
    save_cases now h.spells.site h.root h.enabled hloc (tags.map Tag.raw)
  rw [hsave] at hcases hdistinct
  have hmade (rest : List Text) (hne : rest ≠ [])
      (hrest : made.get? (dest ++ names ++ rest) = some .directory) :
      ∃ p ∈ loc :: s.tried, rest <+: p.dropLast := by
    obtain hsame | ⟨-, -, front, hfront, -, -, heq⟩ := hgrows (dest ++ names ++ rest)
    · obtain ⟨p, hp, hprefix⟩ := h.made rest hne (hsame ▸ hrest)
      exact ⟨p, List.mem_cons_of_mem _ hp, hprefix⟩
    · rw [List.append_assoc] at heq
      rw [← List.append_cancel_left heq, List.prefix_append_right_inj] at hfront
      exact ⟨loc, List.mem_cons_self, hfront⟩
  have hnamed := h.entryNamed.grow hdirs hgrows
  obtain ⟨e, -, -, hget⟩ | ⟨-, -, -, -, time, -, hget⟩ := hcases
  · refine ⟨h.root, h.enabled, hspells, hnamed.congr fun rest => hget _, hdistinct, hstorable, ?_⟩
    intro rest hne hrest
    exact hmade rest hne ((hget _).symm.trans hrest)
  · refine ⟨h.root, h.enabled, hspells, hnamed.replace hget, hdistinct, hstorable, ?_⟩
    intro rest hne hrest
    dsimp only at hrest
    rw [hget] at hrest
    split at hrest
    · cases hrest
    · exact hmade rest hne hrest

theorem Invariant.storable_put (h : Invariant here base dest names s) (htags : Storable tags)
    (loc : Location) (time : Int) :
    ∀ other tags' time', s.shelf.put loc tags time other = some (tags', time') →
      Storable tags' := by
  intro other tags' time' hother
  rw [Shelf.put] at hother
  split at hother
  · obtain ⟨rfl, -⟩ := Prod.mk.inj (Option.some.inj hother)
    exact htags
  · exact h.storable other tags' time' hother

/-- Whatever comes of taking files away, if the map is right. -/
theorem Invariant.of_thins (h : Invariant here base dest names s)
    (hthins : Thins (dest ++ names) s.files files) (hdistinct : files.Distinct)
    (hspells : Spells here base dest names files m)
    (hstorable : ∀ loc tags time, m loc = some (tags, time) → Storable tags) :
    Invariant here base dest names { s with files, shelf := m } where
  root := h.root
  enabled := h.enabled
  spells := hspells
  entryNamed := hthins.entryNamed h.entryNamed
  distinct := hdistinct
  storable := hstorable
  made rest hne hrest := h.made rest hne (hthins.eq_some hrest)

theorem Invariant.invalidate (h : Invariant here base dest names s) (hloc : loc.IsNamed)
    {result : Except Fault Unit}
    (hinvalidate : s.store.invalidate now here loc.text s.files = (result, files)) :
    Invariant here base dest names { s with files, shelf := s.shelf.erase loc } := by
  have hget := get?_invalidate now h.spells.site h.root hloc (h.entryNamed.entry_ne_directory loc)
    (h.spells.fits _)
  have hdistinct := distinct_invalidate s.store now here loc.text h.distinct
  rw [hinvalidate] at hget hdistinct
  have hthins : Thins (dest ++ names) s.files files := by
    intro other
    rw [hget]
    split
    · rename_i heq
      rw [heq]
      obtain hnone | ⟨content, time, hfile⟩ := h.vacant_or_file loc
      · exact .inl hnone.symm
      · exact .inr ⟨rfl, entryNames loc, content, time, by rw [List.append_assoc], hfile⟩
    · exact .inl rfl
  refine h.of_thins hthins hdistinct (h.spells.thin hthins ?_ ?_) ?_
  · intro other hother hnode
    refine if_neg fun heq => hnode ?_
    rw [heq, hget, if_pos rfl]
  · intro other hother hnode
    by_cases heq : other = loc
    · exact if_pos heq
    · have hplace : dest ++ (names ++ entryNames other) ≠ dest ++ (names ++ entryNames loc) :=
        fun hplace => heq (entryNames_inj hother hloc
          (List.append_cancel_left (List.append_cancel_left hplace)))
      rw [hget, if_neg hplace] at hnode
      exact (if_neg heq).trans (h.spells.eq_none hother hnode)
  · intro other tags time hother
    dsimp only [Shelf.erase] at hother
    split at hother
    · cases hother
    · exact h.storable other tags time hother

theorem Invariant.clear (h : Invariant here base dest names s)
    (hclear : s.store.clear now here s.files = (.ok (), files)) :
    Invariant here base dest names { s with files, shelf := .empty } := by
  obtain ⟨hthins, hfiles⟩ := h.clear_thins now
  have hdistinct := distinct_clear s.store now here h.distinct
  rw [hclear] at hthins hfiles hdistinct
  refine h.of_thins hthins hdistinct (h.spells.thin hthins ?_ fun _ _ _ => rfl) nofun
  intro other hother hnode
  obtain hnone | ⟨content, time, hfile⟩ := h.vacant_or_file other
  · exact absurd (hthins.of_ne_none hnode ▸ hnone) hnode
  · rw [← hthins.of_ne_none hnode, ← List.append_assoc] at hfile
    exact absurd hfile (hfiles rfl _ content time (entryNames_ne_nil other))

theorem Invariant.failToClear (h : Invariant here base dest names s) {fault : Fault}
    (hclear : s.store.clear now here s.files = (.error fault, files)) :
    Invariant here base dest names { s with files, shelf := s.left here files } := by
  obtain ⟨hthins, -⟩ := h.clear_thins now
  have hdistinct := distinct_clear s.store now here h.distinct
  rw [hclear] at hthins hdistinct
  have hleft {loc : Location} (hloc : loc.IsNamed) :
      files.hasEntry here (s.store.entryPath loc.text).text = .ok true ↔
        files.get? (dest ++ (names ++ entryNames loc)) ≠ none :=
    hasEntry_entryPath (h.spells.site.steady hthins.steady) h.root hloc
      fun hnode => h.spells.fits _ (hthins.of_ne_none hnode ▸ hnode)
  refine h.of_thins hthins hdistinct (h.spells.thin hthins ?_ ?_) ?_
  · intro other hother hnode
    dsimp only [left]
    rw [(hleft hother).2 hnode]
  · intro other hother hnode
    have hentry := mt (hleft hother).1 (by simp [hnode])
    dsimp only [left]
    split
    · contradiction
    · rfl
  · intro other tags time hother
    dsimp only [left] at hother
    split at hother
    · exact h.storable other tags time hother
    · cases hother

end Steps

/-- Every step keeps the store to its map. -/
theorem Invariant.step (h : Invariant here base dest names s)
    (hstep : Step here (dest ++ names) s s') : Invariant here base dest names s' := by
  cases hstep with
  | save hloc hdirs htags hsave =>
    exact h.of_save hloc hdirs hsave (h.spells.save h.root h.enabled hloc hsave)
      (h.storable_put htags _ _)
  | failToSave hloc hdirs hput hsave =>
    have hspells := h.spells.failToSave h.root h.enabled hloc hput
    rw [hsave] at hspells
    exact h.of_save hloc hdirs hsave hspells h.storable
  | failToStamp hloc hdirs htags hput hsave =>
    exact h.of_save hloc hdirs hsave (h.spells.failToStamp h.root h.enabled hloc hput hsave)
      (h.storable_put htags _ _)
  | @load loc found hloc hload =>
    obtain ⟨hroot, henabled, hspells, hentryNamed, hdistinct, hstorable, hmade⟩ := h
    cases found <;> exact ⟨hroot, henabled, hspells, hentryNamed, hdistinct, hstorable, hmade⟩
  | invalidate hloc hinvalidate => exact h.invalidate hloc hinvalidate
  | clear hclear => exact h.clear hclear
  | failToClear hclear => exact h.failToClear hclear
  | source hchange =>
    have hget := hchange.get?_below
    exact ⟨h.root, h.enabled, h.spells.elsewhere hchange.steady hget, h.entryNamed.congr hget,
      hchange.distinct h.distinct, h.storable,
      fun rest hne hrest => h.made rest hne ((hget rest).symm.trans hrest)⟩

theorem Invariant.run {start : Session} (h : Invariant here base dest names start)
    (hrun : Run here (dest ++ names) start s) : Invariant here base dest names s := by
  induction hrun with
  | start => exact h
  | step _ hstep ih => exact ih.step hstep

/-- Looking up a source gives the record that the map has for it. -/
theorem Invariant.load_eq (h : Invariant here base dest names s) (hloc : loc.IsNamed) :
    ∃ found, s.store.load s.files here loc.text = .ok found ∧
      found.record loc.text = s.shelf.record loc (s.files.modifiedAt here loc.text) ∧
      s.store.counted found =
        if (s.shelf.record loc (s.files.modifiedAt here loc.text)).valid then
          { s.store with hits := s.store.hits + 1 }
        else { s.store with misses := s.store.misses + 1 } := by
  obtain ⟨tags, time, sourceTime, htags, hsource, hle, hload⟩ | ⟨hstale, reason, hload⟩ :=
    h.spells.load_cases h.root h.enabled hloc
  · have hstorable := h.storable loc tags time htags
    have hdecode := decodeEntry_encodeEntry here.depths hloc.unpaired_text hstorable.texts
      hstorable.lines
    rw [ofBytes_eq_hit.2 hdecode] at hload
    have hrecord : s.shelf.record loc (s.files.modifiedAt here loc.text) =
        { path := .string loc.text, valid := true, tags := tags.map Tag.raw } := by
      simp only [Shelf.record, htags, hsource, if_pos hle]
    exact ⟨_, hload, hrecord.symm, by rw [hrecord]; rfl⟩
  · have hrecord : s.shelf.record loc (s.files.modifiedAt here loc.text) =
        { path := .string loc.text } := by
      unfold Shelf.record
      split
      · rename_i tags time sourceTime htags hsource
        have hlate := hstale tags time sourceTime htags hsource
        exact if_neg (by omega)
      · rfl
    exact ⟨_, hload, hrecord.symm, by rw [hrecord]; rfl⟩

end Session

/-! ## The start -/

namespace Session

open Store

variable {here : Here} {top : Location} {start s : Session} {loc : Location}

theorem exists_invariant (hroot : FreshRoot start.files here start.store.root top)
    (henabled : start.store.enabled = true) (hdistinct : start.files.Distinct)
    (hempty : start.shelf = .empty) :
    ∃ base dest names, top = dest ++ names ∧ Invariant here base dest names start := by
  obtain ⟨base, dest, names, hsite, hbelow, rfl, hfile, hfits, hnone⟩ := hroot.exists_site
  refine ⟨base, dest, names, rfl, hbelow, henabled, hempty ▸ .of_fresh hsite hfits hnone,
    ⟨hfile, ?_, ?_⟩, hdistinct, ?_, ?_⟩
  · intro rest name hdir
    rw [hnone _ (by simp)] at hdir
    cases hdir
  · intro rest name content time hfile
    rw [hnone _ (by simp)] at hfile
    cases hfile
  · simp [hempty, Shelf.empty]
  · intro rest hne hdir
    rw [hnone rest hne] at hdir
    cases hdir

/-- In every state that a session comes to from a root that is empty or missing, looking up a source
gives the record that the map has for it, and is counted once. Clearing comes to its end unless the
root cannot be looked for or a directory below it lies too deep; the directories there are those of
sources that were to be saved. -/
theorem run_refines_shelf (hroot : FreshRoot start.files here start.store.root top)
    (henabled : start.store.enabled = true) (hdistinct : start.files.Distinct)
    (hempty : start.shelf = .empty) (hrun : Run here top start s) :
    (∀ loc : Location, loc.IsNamed → ∃ found, s.store.load s.files here loc.text = .ok found ∧
      found.record loc.text = s.shelf.record loc (s.files.modifiedAt here loc.text) ∧
      s.store.counted found =
        if (s.shelf.record loc (s.files.modifiedAt here loc.text)).valid then
          { s.store with hits := s.store.hits + 1 }
        else { s.store with misses := s.store.misses + 1 }) ∧
    (∀ now, (s.store.clear now here s.files).1 = .ok () ↔
      s.files.isDirectory here s.store.root.text ≠ .error (.system .nameTooLong) ∧
        ∀ rest, s.files.get? (top ++ rest) = some .directory → rest.length ≤ here.depths.clear) ∧
    ∀ rest, rest ≠ [] → s.files.get? (top ++ rest) = some .directory →
      ∃ loc ∈ s.tried, rest <+: loc.dropLast := by
  obtain ⟨base, dest, names, rfl, hstart⟩ := exists_invariant hroot henabled hdistinct hempty
  have h := hstart.run hrun
  exact ⟨fun loc hloc => h.load_eq hloc, h.clear_iff, h.made⟩

/-- A store whose root is missing, and a source. -/
def startAtCache : Session where
  store := storeAtCache
  files := { entries := [("a.php", .file [] 7)] }
  shelf := .empty

/-- A tag of the source. -/
def tagOfSource : SourceTag where
  name := "A"
  path := "/a.php"
  pattern := "class A"
  kind := .classDecl
  line := 1
  scope := none
  extras := []
  access := none

theorem storable_tagOfSource : Storable [tagOfSource] where
  texts t ht text htext := by
    obtain rfl := List.mem_singleton.1 ht
    simp [Tag.texts, tagOfSource] at htext
    rcases htext with rfl | rfl | rfl <;> decide
  lines t ht := by
    obtain rfl := List.mem_singleton.1 ht
    exact Nat.one_lt_pow (by decide) (by decide)

/-- A source is saved and found, the store is cleared, and the source is not found any more. -/
theorem run_refines_shelf_startAtCache :
    ∃ files cleared, startAtCache.store.save 5 Here.root (Location.text ["a.php"])
        [tagOfSource.raw] startAtCache.files = (.ok (), files) ∧
      (∃ found, startAtCache.store.load files Here.root (Location.text ["a.php"]) = .ok found ∧
        found.record (Location.text ["a.php"]) =
          { path := .string (Location.text ["a.php"]), valid := true,
            tags := [tagOfSource.raw] }) ∧
      startAtCache.store.clear 6 Here.root files = (.ok (), cleared) ∧
      ∃ found, startAtCache.store.load cleared Here.root (Location.text ["a.php"]) = .ok found ∧
        found.record (Location.text ["a.php"]) =
          { path := .string (Location.text ["a.php"]), valid := false, tags := [] } := by
  have hsave := save_filesWithSource [] [tagOfSource.raw]
  have hdistinct : startAtCache.files.Distinct := by
    refine .directory ?_ ?_
    · intro name t ht
      cases ht with
      | head => rfl
      | tail _ ht => cases ht
    · intro name t ht
      cases ht with
      | head => exact .file ..
      | tail _ ht => cases ht
  have hrun : Run Here.root ["cache"] startAtCache _ :=
    .step .start (.save isNamed_source nofun storable_tagOfSource hsave)
  obtain ⟨hloads, hclears, hmade⟩ :=
    run_refines_shelf (freshRoot_filesWithSource []) rfl hdistinct rfl hrun
  obtain ⟨found, hload, hrecord, -⟩ := hloads _ isNamed_source
  have htime (content : List UInt8) : (filesAfterSave [] 7 content).modifiedAt Here.root
      (Location.text ["a.php"]) = .ok 7 := by
    cbv
  have hlook (content : List UInt8) : (filesAfterSave [] 7 content).isDirectory Here.root
      storeAtCache.root.text = .ok true := by
    cbv
  have hclear := (hclears 6).2 ⟨?_, fun rest hrest => ?_⟩
  · have hrun' := hrun.step (.clear (Prod.ext hclear rfl))
    obtain ⟨found', hload', hrecord', -⟩ :=
      (run_refines_shelf (freshRoot_filesWithSource []) rfl hdistinct rfl hrun').1 _ isNamed_source
    refine ⟨_, _, hsave, ⟨found, hload, hrecord.trans ?_⟩, Prod.ext hclear rfl, found', hload',
      hrecord'⟩
    dsimp only
    rw [htime]
    rfl
  · intro hlong
    cases (hlook _).symm.trans hlong
  · by_cases hne : rest = []
    · simp [hne]
    · obtain ⟨loc, hloc, hfront⟩ := hmade rest hne hrest
      obtain rfl := List.mem_singleton.1 hloc
      exact absurd (List.prefix_nil.1 hfront) hne

/-! ### A root that is missing for other reasons -/

/-- A store whose root leads through a missing directory and back. -/
def storeBehindGap : Store where
  root := ⟨.root, ["a", "..", "cache"]⟩

/-- What a save makes of `filesWithEntry`: the directory that has been missing. -/
def filesWithoutGap (content saved : List UInt8) : FileSystem where
  modified := 5
  entries := [("a", .directory 5 []), ("a.php", .file [] 1), ("cache", .directory 5
    [("b.php.json", .file saved 5), ("a.php.json", .file content 2)])]

theorem load_hit_behindGap :
    (filesWithEntry (encodeEntry (Location.text ["a.php"]) [])).hasEntry Here.root
        storeBehindGap.root.text = .ok false ∧
      ∃ files, storeBehindGap.save 5 Here.root (Location.text ["b.php"]) []
          (filesWithEntry (encodeEntry (Location.text ["a.php"]) [])) = (.ok (), files) ∧
        storeBehindGap.load files Here.root (Location.text ["a.php"]) = .ok (.hit []) := by
  have hmissing (content : List UInt8) :
      (filesWithEntry content).hasEntry Here.root storeBehindGap.root.text = .ok false := by
    cbv
  have hsave (content : List UInt8) :
      storeBehindGap.save 5 Here.root (Location.text ["b.php"]) [] (filesWithEntry content) =
        (.ok (), filesWithoutGap content (encodeEntry (Location.text ["b.php"]) [])) := by
    rw [Store.save, Store.putEntry]
    generalize encodeEntry (Location.text ["b.php"]) [] = saved
    cbv
  have hentry (content saved : List UInt8) : (filesWithoutGap content saved).modifiedAt Here.root
      (storeBehindGap.entryPath (Location.text ["a.php"])).text = .ok 2 := by
    cbv
  have hsource (content saved : List UInt8) : (filesWithoutGap content saved).modifiedAt Here.root
      (Location.text ["a.php"]) = .ok 1 := by
    cbv
  have hread (content saved : List UInt8) : (filesWithoutGap content saved).read Here.root
      (storeBehindGap.entryPath (Location.text ["a.php"])).text = .ok content := by
    cbv
  have hdecode : decodeEntry Here.root.depths.values
      (encodeEntry (Location.text ["a.php"]) (([] : List SourceTag).map Tag.raw)) =
        .ok (([] : List SourceTag).map Tag.raw) :=
    decodeEntry_encodeEntry Here.root.depths isNamed_source.unpaired_text (List.forall_mem_nil _)
      (List.forall_mem_nil _)
  have hfresh (content saved : List UInt8) : storeBehindGap.HasFresh (filesWithoutGap content saved)
      Here.root (Location.text ["a.php"]) content :=
    ⟨rfl, hread .., 2, 1, hentry .., hsource .., by decide⟩
  exact ⟨hmissing _, _, hsave _, (hfresh ..).load_eq.trans (ofBytes_eq_hit.2 hdecode)⟩

end Session
end TagsFile
