import TagsFile.Proofs.Processing
import TagsFile.Proofs.Reach
import TagsFile.Proofs.Resolution
import TagsFile.Proofs.Saving

/-!
# What processing leaves behind

Sources are parsed and kept in the store one after the other, and each time directories are made, a
file is replaced and perhaps given another time. All that this changes in a file system is at places
to which paths below the root of the store may lead, whatever links there are.

## Main definitions

* `Store.MayHold`, `Store.MayPass`: the places of entries and of the directories on the way to them.
* `Store.Footprint`: the changes that a store may make.

## Main statements

* `Store.footprint_save`: a source that is saved.
* `Generator.footprint_processEach`: sources one after the other, with or without a fault.
-/

namespace TagsFile

open FileSystem

namespace Store

/-- A location to which the path of something below the root may lead, if the store keeps entries.
-/
def MayHold (s : Store) (fs : FileSystem) (here : Here) (loc : Location) : Prop :=
  s.enabled = true ∧ ∃ names : List Text, names ≠ [] ∧ (∀ name ∈ names, name.IsLabel) ∧
    fs.MayLead here (s.root.below names).text loc

/-- A location to which the front of such a path may lead. -/
def MayPass (s : Store) (fs : FileSystem) (here : Here) (loc : Location) : Prop :=
  s.enabled = true ∧ ∃ names front : List Text, (∀ name ∈ names, name.IsLabel) ∧
    front <+: s.root.parts ++ names ∧ fs.MayLead here (Path.mk s.root.anchor front).text loc

/-- The changes that a store may make: new directories on the way to entries, and files in the
places of entries, with contents that may be written there. The places are those that the links of
`start` allow. -/
def Footprint (s : Store) (start : FileSystem) (here : Here)
    (written : Location → List UInt8 → Prop) (fs fs' : FileSystem) : Prop :=
  ∀ loc, fs'.get? loc = fs.get? loc ∨
    fs.get? loc = none ∧ fs'.get? loc = some .directory ∧ s.MayPass start here loc ∨
    fs.get? loc ≠ some .directory ∧ s.MayHold start here loc ∧
      ∃ content time, fs'.get? loc = some (.file content time) ∧ written loc content

variable {s : Store} {start : FileSystem} {here : Here} {written : Location → List UInt8 → Prop}
  {fs fs' fs'' : FileSystem} {now : Int} {names front : List Text}

namespace Footprint

theorem refl (fs : FileSystem) : s.Footprint start here written fs fs := fun _ => .inl rfl

theorem of_same (h : ∀ loc, fs'.get? loc = fs.get? loc) : s.Footprint start here written fs fs' :=
  fun loc => .inl (h loc)

theorem trans (h : s.Footprint start here written fs fs')
    (h' : s.Footprint start here written fs' fs'') : s.Footprint start here written fs fs'' := by
  intro loc
  obtain hsame' | ⟨hnone, hdir, hpass⟩ | ⟨hold, hentry⟩ := h' loc
  · rw [hsame']
    exact h loc
  · obtain hsame | ⟨-, hdir', -⟩ | ⟨-, -, content, time, hfile, -⟩ := h loc
    · exact .inr (.inl ⟨hsame ▸ hnone, hdir, hpass⟩)
    · cases hnone.symm.trans hdir'
    · cases hnone.symm.trans hfile
  · obtain hsame | ⟨-, hdir, -⟩ | ⟨hold', -⟩ := h loc
    · exact .inr (.inr ⟨hsame ▸ hold, hentry⟩)
    · exact absurd hdir hold
    · exact .inr (.inr ⟨hold', hentry⟩)

theorem mono {written' : Location → List UInt8 → Prop} (h : s.Footprint start here written fs fs')
    (hwritten : ∀ loc content, written loc content → written' loc content) :
    s.Footprint start here written' fs fs' := by
  intro loc
  obtain hsame | hdir | ⟨hold, hhold, content, time, hfile, hcontent⟩ := h loc
  · exact .inl hsame
  · exact .inr (.inl hdir)
  · exact .inr (.inr ⟨hold, hhold, content, time, hfile, hwritten loc content hcontent⟩)

theorem keep_directory (h : s.Footprint start here written fs fs') {loc : Location}
    (hdir : fs.get? loc = some .directory) : fs'.get? loc = some .directory := by
  obtain hsame | ⟨hnone, -⟩ | ⟨hold, -⟩ := h loc
  · exact hsame.trans hdir
  · cases hdir.symm.trans hnone
  · exact absurd hdir hold

/-- Nothing is taken away. -/
theorem eq_none (h : s.Footprint start here written fs fs') {loc : Location}
    (hnone : fs'.get? loc = none) : fs.get? loc = none := by
  obtain hsame | ⟨hbefore, -⟩ | ⟨-, -, content, time, hfile, -⟩ := h loc
  · exact hsame.symm.trans hnone
  · exact hbefore
  · cases hnone.symm.trans hfile

/-- No links are made, and only files take the places of links. -/
theorem later (h : s.Footprint start here written fs fs') (hlater : Later start.get? fs.get?) :
    Later start.get? fs'.get? where
  links loc target hlink := by
    obtain hsame | ⟨-, hdir, -⟩ | ⟨-, -, content, time, hfile, -⟩ := h loc
    · exact hlater.links loc target (hsame ▸ hlink)
    · cases hlink.symm.trans hdir
    · cases hlink.symm.trans hfile
  files loc target hlink := by
    obtain hsame | ⟨hnone, -⟩ | ⟨-, -, content, time, hfile, -⟩ := h loc
    · rw [hsame]
      exact hlater.files loc target hlink
    · obtain hlink' | ⟨content, time, hfile⟩ := hlater.files loc target hlink
      · cases hnone.symm.trans hlink'
      · cases hnone.symm.trans hfile
    · exact .inr ⟨content, time, hfile⟩

end Footprint

/-! ## One step -/

section Steps

variable (hlater : Later start.get? fs.get?) (henabled : s.enabled = true)
  (hnames : ∀ name ∈ names, name.IsLabel)

include hlater henabled hnames

theorem footprint_makeDirectory (hfront : front <+: s.root.parts ++ names)
    (hmake : fs.makeDirectory now here (Path.mk s.root.anchor front).text = .ok fs') :
    s.Footprint start here written fs fs' := by
  obtain ⟨place, hlocate, hnone, hget⟩ := get?_makeDirectory hmake
  intro loc
  rw [hget]
  split
  · rename_i heq
    subst heq
    exact .inr (.inl ⟨hnone, rfl, henabled, names, front, hnames, hfront,
      hlater.mayLead hlocate rfl⟩)
  · exact .inl rfl

theorem footprint_makeWithin (hfront : front <+: s.root.parts ++ names) (depth : Nat) :
    s.Footprint start here written fs
      (fs.makeWithin now here depth ⟨s.root.anchor, front⟩).2 := by
  have hmakes := makes_makeWithin now here depth ⟨s.root.anchor, front⟩ fs
  generalize (fs.makeWithin now here depth ⟨s.root.anchor, front⟩).2 = made at hmakes ⊢
  induction hmakes with
  | nothing => exact .refl fs
  | next _ hstep hmake ih =>
    exact ih.trans (footprint_makeDirectory (ih.later hlater) henabled hnames (hstep.trans hfront)
      hmake)

theorem footprint_replaceFile (hne : names ≠ []) {content : List UInt8}
    (hwritten : ∀ loc, start.EndsAt here (s.root.below names).text loc → written loc content)
    (now : Int) : s.Footprint start here written fs
      (fs.replaceFile now here (s.root.below names) content).2 := by
  obtain ⟨-, -, hsame⟩ | ⟨target, -, hends, hold, hget⟩ :=
    hlater.replaceFile_cases now here (s.root.below names) content
  · exact .of_same hsame
  · intro loc
    rw [hget]
    split
    · rename_i heq
      subst heq
      exact .inr (.inr ⟨hold, ⟨henabled, names, hne, hnames, hends.mayLead⟩, content, now, rfl,
        hwritten loc hends⟩)
    · exact .inl rfl

/-- The file where a path ends is the one that is given another time. -/
theorem footprint_touch (hne : names ≠ []) {place : Location}
    (hends : start.EndsAt here (s.root.below names).text place) {content : List UInt8} {time : Int}
    (hfile : fs.get? place = some (.file content time)) (hwritten : written place content)
    {modified : Int} (htouch : fs.touch here (s.root.below names).text modified = .ok fs') :
    s.Footprint start here written fs fs' := by
  obtain ⟨found, tree, hfind, -, rfl⟩ := touch_eq_ok.1 htouch
  obtain rfl : found = place :=
    hlater.eq_of_endsAt hends (by simp [hfile]) (locate_of_find hfind)
  intro loc
  rw [get?_retime hfile]
  split
  · rename_i heq
    subst heq
    exact .inr (.inr ⟨by simp [hfile], ⟨henabled, names, hne, hnames, hends.mayLead⟩,
      content, modified, rfl, hwritten⟩)
  · exact .inl rfl

theorem footprint_stamp (hne : names ≠ []) {place : Location}
    (hends : start.EndsAt here (s.root.below names).text place) {content : List UInt8} {time : Int}
    (hfile : fs.get? place = some (.file content time)) (hwritten : written place content)
    (source : Text) : s.Footprint start here written fs
      (stamp here (s.root.below names).text source fs).2 := by
  obtain hsame | ⟨time, htouch⟩ := stamp_files here (s.root.below names).text source fs
  · rw [hsame]
    exact .refl fs
  · exact footprint_touch hlater henabled hnames hne hends hfile hwritten htouch

end Steps

/-- An entry that is written is where its path ends. -/
theorem footprint_putEntry (hlater : Later start.get? fs.get?) (henabled : s.enabled = true)
    {loc : Location} (hloc : ∀ name ∈ loc, Text.IsLabel name) {tags : List RawTag}
    (hwritten : ∀ place, start.EndsAt here (s.entryPath loc.text).text place →
      written place (encodeEntry loc.text tags)) (now : Int) :
    s.Footprint start here written fs (s.putEntry now here loc.text tags fs).2 ∧
      ((s.putEntry now here loc.text tags fs).1 = .ok () →
        ∃ place, start.EndsAt here (s.entryPath loc.text).text place ∧
          (s.putEntry now here loc.text tags fs).2.get? place =
            some (.file (encodeEntry loc.text tags) now)) := by
  have hentry : s.entryPath loc.text = s.root.below (entryNames loc) :=
    entryPath_text_path s (p := loc.path) hloc
  have hnames := isLabel_entryNames hloc
  have hne := entryNames_ne_nil loc
  rw [hentry] at hwritten
  have hmade : s.Footprint start here written fs
      (fs.makeDirectories now here (s.root.below (entryNames loc)).parent).2 :=
    footprint_makeWithin hlater henabled hnames (List.dropLast_prefix _) here.depths.parents
  have hreplaced := hmade.trans
    (footprint_replaceFile (hmade.later hlater) henabled hnames hne hwritten now)
  have hcases := (hmade.later hlater).replaceFile_cases now here (s.root.below (entryNames loc))
    (encodeEntry loc.text tags)
  rw [← hentry] at hmade hreplaced hcases
  have hputs := puts_putEntry s now here loc.text tags fs
  generalize s.putEntry now here loc.text tags fs = outcome at hputs ⊢
  cases hputs with
  | unmade hmake => exact ⟨by simpa [hmake] using hmade, by simp⟩
  | unplaced hmake hreplace => exact ⟨by simpa [hmake, hreplace] using hreplaced, by simp⟩
  | placed hmake hreplace =>
    rw [hmake, hreplace] at hreplaced hcases
    obtain ⟨e, herror, -⟩ | ⟨place, -, hends, -, hget⟩ := hcases
    · cases herror
    · exact ⟨hreplaced, fun _ => ⟨place, hends, (hget place).trans (if_pos rfl)⟩⟩

/-- A source that is saved leaves its directories and its entry. -/
theorem footprint_save (hlater : Later start.get? fs.get?) {loc : Location}
    (hloc : ∀ name ∈ loc, Text.IsLabel name) {tags : List RawTag}
    (hwritten : ∀ place, start.EndsAt here (s.entryPath loc.text).text place →
      written place (encodeEntry loc.text tags)) (now : Int) :
    s.Footprint start here written fs (s.save now here loc.text tags fs).2 := by
  rw [save]
  split
  · rename_i henabled
    obtain ⟨hput, hplace⟩ := footprint_putEntry hlater henabled hloc hwritten now
    split
    · rename_i heq
      rwa [heq] at hput
    · rename_i heq
      rw [heq] at hput hplace
      obtain ⟨place, hends, hfile⟩ := hplace rfl
      have hentry : s.entryPath loc.text = s.root.below (entryNames loc) :=
        entryPath_text_path s (p := loc.path) hloc
      rw [hentry] at hends hwritten ⊢
      exact hput.trans (footprint_stamp (hput.later hlater) henabled (isLabel_entryNames hloc)
        (entryNames_ne_nil loc) hends hfile (hwritten place hends) loc.text)
  · exact .refl fs

end Store

namespace Generator

variable {grammar : Option Grammar} {s : Store} {start : FileSystem}
  {written : Location → List UInt8 → Prop}

/-- What is written when a source is processed is the entry of its tags. -/
theorem footprint_process {g : Generator} {w : World} (hhere : w.here.location.IsNamed)
    (hroot : g.store.root = s.root) (henabled : g.store.enabled = s.enabled)
    (hlater : Later start.get? w.files.get?) {path : Text}
    (hwritten : ∀ q content lines tags place,
      w.files.resolve w.here true (Path.ofText path) = .ok q →
      w.files.read w.here q.text = .ok content →
        extract grammar q.text content = .ok (lines, tags) →
      start.EndsAt w.here (s.entryPath q.text).text place →
      written place (Store.encodeEntry q.text (tags.map Tag.raw))) :
    s.Footprint start w.here written w.files (g.process grammar path w).2.2.files := by
  obtain ⟨f, -, heq⟩ | ⟨q, hresolve, heq⟩ := process_cases grammar g w path
  · rw [heq]
    exact .refl w.files
  · rw [heq]
    obtain ⟨f, -, heq⟩ | ⟨reason, f, log, -, -, heq⟩ | ⟨tags, log, -, heq⟩ |
      ⟨reason, content, lines, tags, log, result, files, -, hread, hextract, hsave, heq⟩ :=
      processResolved_cases grammar q.text g w
    · rw [heq]
      exact .refl w.files
    · rw [heq]
      exact .refl w.files
    · rw [heq]
      exact .refl w.files
    · rw [heq]
      obtain ⟨loc, rfl, hloc⟩ := isLabel_of_resolve hhere (Path.isSeparate_ofText path) hresolve
      have hsaved : s.Footprint start w.here written w.files
          (s.save w.now w.here loc.text (tags.map Tag.raw) w.files).2 :=
        Store.footprint_save hlater hloc
          (hwritten _ content lines tags · hresolve hread hextract) w.now
      rw [Store.save_congr hroot henabled] at hsave
      rwa [Location.text, hsave] at hsaved

/-- Sources that are processed one after the other leave the footprint of the store, whether they
all succeed or not. -/
theorem footprint_processEach {sources : List Text} {g : Generator} {w : World}
    (hwritten : ∀ path tags place, start.EndsAt w.here (s.entryPath path).text place →
      written place (Store.encodeEntry path tags))
    (hhere : w.here.location.IsNamed) (hroot : g.store.root = s.root)
    (henabled : g.store.enabled = s.enabled) (hlater : Later start.get? w.files.get?) :
    s.Footprint start w.here written w.files (g.processEach grammar sources w).2.2.files := by
  induction sources generalizing g w with
  | nil => exact .refl w.files
  | cons path sources ih =>
    have hstep : s.Footprint start w.here written w.files (g.process grammar path w).2.2.files :=
      footprint_process hhere hroot henabled hlater fun q _ _ _ place _ _ _ =>
        hwritten q.text _ place
    have hlater' := hstep.later hlater
    obtain ⟨hroot', henabled', hhere'⟩ := process_same grammar g w path
    rw [processEach]
    split
    · rename_i heq
      rwa [heq] at hstep
    · rename_i heq
      rw [heq] at hstep hlater' hroot' henabled' hhere'
      rw [← hhere'] at hstep hhere hwritten ⊢
      exact hstep.trans (ih hwritten hhere (hroot'.trans hroot) (henabled'.trans henabled) hlater')

variable (grammar s) in
/-- The entries of a run are where their paths end. -/
theorem footprint_processAll (sources : List Text) {w : World} (hhere : w.here.location.IsNamed) :
    s.Footprint w.files w.here
      (fun loc _ => ∃ path, w.files.EndsAt w.here (s.entryPath path).text loc) w.files
      ({ store := s : Generator }.processAll grammar sources w).2.2.files := by
  rw [(processAll_same grammar { store := s } w sources).2.2.1]
  exact footprint_processEach (fun path _ _ hends => ⟨path, hends⟩) hhere rfl rfl (.refl _)

end Generator
end TagsFile
