import TagsFile.Proofs.Mirror
import TagsFile.Proofs.Shelf
import TagsFile.Proofs.Writable

/-!
# Entries in each other's way

The entry of a source has the name of the source with an ending, and the directories above it have
the names of those of the source, without one. So an entry may be where another source needs a
directory. Two sources can be saved in a store that is empty if and only if neither of their entries
is in the way of the other, as long as there is room for both.

## Main definitions

* `Store.Obstructs`: an entry that is in the way of another.
* `Store.EmptyRoot`, `Store.HasRoom`: a root that can be written to, and a source that fits.
* `Store.SavesBoth`: two sources that are saved one after the other, and are both found then.

## Main statements

* `Store.entries_apart_iff`: which sources can be saved together.
-/

namespace TagsFile.Store

open FileSystem

variable {s : Store} {fs fs' : FileSystem} {here : Here} {base root r : Path}
  {dest top loc p q : Location} {names : List Text} {now : Int} {saved : List Location}

/-! ## Places of entries -/

/-- Whether the entry of `p` is in the place of a directory above that of `q`. -/
def Obstructs (p q : Location) : Prop := entryNames p <+: q.dropLast

instance (p q : Location) : Decidable (Obstructs p q) :=
  inferInstanceAs (Decidable (entryNames p <+: q.dropLast))

theorem entryPath_below_iff (s : Store) (hp : p.IsNamed) (hq : q.IsNamed) (hne : p ≠ q) :
    (∃ rest, s.entryPath q.text = (s.entryPath p.text).below rest) ↔ Obstructs p q := by
  rw [entryPath_text s hp, entryPath_text s hq]
  constructor
  · rintro ⟨rest, heq⟩
    rw [below_below] at heq
    have hnames : entryNames q = entryNames p ++ rest :=
      List.append_cancel_left (congrArg Path.parts heq)
    rcases List.eq_nil_or_concat rest with rfl | ⟨init, last, rfl⟩
    · rw [List.append_nil] at hnames
      exact absurd (entryNames_inj hq hp hnames).symm hne
    · rw [List.concat_eq_append, ← List.append_assoc, entryNames] at hnames
      exact ⟨init, (List.append_inj' hnames rfl).1.symm⟩
  · rintro ⟨rest, hrest⟩
    refine ⟨rest ++ [q.getLast?.getD "" ++ ".json"], ?_⟩
    rw [below_below, ← List.append_assoc, hrest]
    rfl

/-! ## Saving with success -/

/-- What the entry of a source takes, with its temporary file: names and paths that are short enough
and no more directories than are made at once. A second name for the temporary file is needed if a
directory has the first one. -/
structure HasRoom (depths : Depths) (root r : Path) (p : Location) : Prop where
  entry : Fits root (entryNames p)
  temporary : ∀ n < 2, Fits r (temporaryNames (entryNames p) n)
  depth : p.dropLast.length ≤ depths.parents

theorem putEntry_eq_ok (now : Int) (h : fs.Site here s.root dest [])
    (hagrees : fs.Agrees here s.root r dest) (hloc : loc.IsNamed)
    (hroom : HasRoom here.depths s.root r loc) (hpass : Passable fs dest loc.dropLast)
    (hentry : fs.get? (dest ++ entryNames loc) ≠ some .directory) {free : Nat} (hfree : free < 2)
    (hnone : fs.get? (dest ++ temporaryNames (entryNames loc) free) = none)
    (tags : List RawTag) : (s.putEntry now here loc.text tags fs).1 = .ok () := by
  have hdropLast : (entryNames loc).dropLast = loc.dropLast := List.dropLast_concat
  have hparent : (s.root.below (entryNames loc)).parent = s.root.below loc.dropLast :=
    parent_below
  have hnames := isName_entryNames hloc
  have hdirs : ∀ name ∈ loc.dropLast, Text.IsName name :=
    fun name hname => hloc name (List.dropLast_subset _ hname)
  have hfits : Fits s.root loc.dropLast :=
    hroom.entry.of_front h.base hnames (List.prefix_append ..)
  obtain ⟨hgrows, hdir⟩ :=
    makeWithin_below now h.base hdirs hpass.unlinked here.depths.parents
  have hmakes :=
    makeWithin_eq_ok now h.base hdirs hfits hpass here.depths.parents_pos hroom.depth
  have hreplaces := replaceFile_eq_ok now (encodeEntry loc.text tags)
    (hagrees.keep hgrows.keeps) (entryNames_ne_nil loc) hnames
    (fun rest => hgrows.unlinked (h.unlinked rest)) hroom.entry
    (by rw [hdropLast]; exact hdir hmakes)
    (by rwa [hgrows.get?_of_length_lt (by simp [entryNames])])
    (hfree.trans (by decide)) (fun n hn => hroom.temporary n (by omega))
    ((hgrows.get?_of_length_lt (by simp [temporaryNames, hdropLast])).trans hnone)
  rw [← hparent, ← entryPath_text s hloc, ← makeDirectories] at hmakes hreplaces
  have hputs := puts_putEntry s now here loc.text tags fs
  generalize s.putEntry now here loc.text tags fs = outcome at hputs ⊢
  cases hputs with
  | unmade hmake =>
    rw [hmake] at hmakes
    cases hmakes
  | unplaced hmake hreplace =>
    rw [hmake, hreplace] at hreplaces
    cases hreplaces
  | placed => rfl

/-- An entry that is written is saved, unless it is denied its time. -/
theorem save_eq_ok {tags : List RawTag} (h : fs.Site here base dest names)
    (hroot : s.root = base.below names) (henabled : s.enabled = true) (hloc : loc.IsNamed)
    (hput : (s.putEntry now here loc.text tags fs).1 = .ok ())
    (hallowed : here.denied.times.get? (dest ++ (names ++ entryNames loc)) = none) :
    (s.save now here loc.text tags fs).1 = .ok () := by
  obtain ⟨made, -, ⟨e, herror, -⟩ | ⟨-, -, -, -, time, hstamps, -⟩⟩ :=
    save_cases now h hroot henabled hloc tags
  · simp [hput] at herror
  · generalize (s.save now here loc.text tags fs).1 = result at hstamps
    cases hstamps with
    | stamped => rfl
    | denied _ _ hdenied => simp [hallowed] at hdenied

/-- Where at most one source has been saved, one of two temporary names is free: the one source has
no more than one directory beside an entry. -/
theorem Mirrors.exists_free (h : Mirrors here root top [] saved fs)
    (hsaved : ∀ p ∈ saved, ∀ q ∈ saved, p = q) (loc : Location) :
    ∃ free < 2, fs.get? (top ++ temporaryNames (entryNames loc) free) = none := by
  have htaken (n : Nat) (hnode : fs.get? (top ++ temporaryNames (entryNames loc) n) ≠ none) :
      ∃ p ∈ saved, temporaryNames (entryNames loc) n <+: p.dropLast := by
    cases hget : fs.get? (top ++ temporaryNames (entryNames loc) n) with
    | none => exact absurd hget hnode
    | some node =>
      cases node with
      | directory => exact (h.directory _ (by simp [temporaryNames])).1 hget
      | link target => exact absurd hget (h.site.unlinked _ _ (List.prefix_refl _) target)
      | file content time =>
        obtain ⟨p, -, heq⟩ := (h.file _).1 ⟨content, time, hget⟩
        obtain ⟨-, hname⟩ := List.append_inj' heq rfl
        have hentry := isEntryName_append_json (p.getLast?.getD "")
        rw [← (List.cons.inj hname).1, isEntryName_temporaryName] at hentry
        cases hentry
  by_cases hzero : fs.get? (top ++ temporaryNames (entryNames loc) 0) = none
  · exact ⟨0, by decide, hzero⟩
  refine ⟨1, by decide, Decidable.byContradiction fun hone => ?_⟩
  obtain ⟨p, hp, hfirst⟩ := htaken 0 hzero
  obtain ⟨q, hq, hsecond⟩ := htaken 1 hone
  obtain rfl := hsaved p hp q hq
  have hlength : (temporaryNames (entryNames loc) 0).length =
      (temporaryNames (entryNames loc) 1).length := by
    simp [temporaryNames]
  have heq := (List.prefix_of_prefix_length_le hfirst hsecond hlength.le).eq_of_length hlength
  rw [temporaryNames, temporaryNames, List.append_cancel_left_eq, List.cons.injEq] at heq
  exact temporaryName_zero_ne_one _ heq.1

/-- A source can be saved beside others if and only if neither its entry nor one of theirs is in the
way. -/
theorem Mirrors.save_iff (now : Int) (h : Mirrors here s.root top [] saved fs)
    (hagrees : fs.Agrees here s.root r top) (henabled : s.enabled = true) (hloc : loc.IsNamed)
    (hroom : HasRoom here.depths s.root r loc) (hsaved : ∀ p ∈ saved, ∀ q ∈ saved, p = q)
    (hallowed : here.denied.times.get? (top ++ entryNames loc) = none) (tags : List RawTag) :
    (s.save now here loc.text tags fs).1 = .ok () ↔
      ∀ p ∈ saved, ¬Obstructs p loc ∧ ¬Obstructs loc p := by
  have hbelow : s.root = s.root.below [] := by simp [Path.below]
  constructor
  · intro hok
    obtain ⟨made, hgrows, ⟨e, -, herror, -⟩ | ⟨-, -, hdir, hentry, -⟩⟩ :=
      save_cases now h.site hbelow henabled hloc tags
    · cases hok.symm.trans herror
    · intro p hp
      constructor
      · intro hobstructs
        obtain ⟨content, time, hfile⟩ := (h.file _).2 ⟨p, hp, rfl⟩
        have hbelow := get?_eq_directory_of_front
          ((List.prefix_append_right_inj top).2 hobstructs) hdir
        obtain hsame | ⟨hnone, -⟩ := hgrows (top ++ entryNames p)
        · cases hfile.symm.trans (hsame.symm.trans hbelow)
        · cases hfile.symm.trans hnone
      · intro hobstructs
        have hbelow := (h.directory _ (entryNames_ne_nil loc)).2 ⟨p, hp, hobstructs⟩
        exact hentry ((hgrows.keeps _).1 hbelow)
  · intro hapart
    obtain ⟨free, hfree, hnone⟩ := h.exists_free hsaved loc
    refine save_eq_ok h.site hbelow henabled hloc
      (putEntry_eq_ok now h.site hagrees hloc hroom (fun front hfront => ?_) ?_ hfree hnone tags)
      hallowed
    · cases hnode : fs.get? (top ++ front) with
      | none => exact .inl rfl
      | some node =>
        cases node with
        | directory => exact .inr rfl
        | link target => exact absurd hnode (h.site.unlinked _ _ (List.prefix_refl _) target)
        | file content time =>
          obtain ⟨p, hp, rfl⟩ := (h.file front).1 ⟨content, time, hnode⟩
          exact absurd hfront (hapart p hp).1
    · intro hdir
      obtain ⟨p, hp, hobstructs⟩ := (h.directory _ (entryNames_ne_nil loc)).1 hdir
      exact (hapart p hp).2 hobstructs

/-! ## Two sources -/

/-- An empty root that can be written to: its path leads to an empty directory at `top`, as does the
absolute path `r` that is made of it for temporary files, and what is below can be stamped. -/
structure EmptyRoot (fs : FileSystem) (here : Here) (root r : Path) (top : Location) : Prop where
  proper : root.IsProper
  empty : ∃ time, fs.find here .target root.text = .ok (top, .directory time [])
  absolute : here.absolute? root = some r
  properAbsolute : r.IsProper
  same : ∃ tree, fs.find Here.root .target r.text = .ok (top, tree)
  allowed : ∀ rest, here.denied.times.get? (top ++ rest) = none

theorem EmptyRoot.vacant (h : EmptyRoot fs here root r top) {rest : List Text} (hne : rest ≠ []) :
    fs.get? (top ++ rest) = none := by
  obtain ⟨time, hfind⟩ := h.empty
  exact (site_of_find h.proper hfind).2 rest hne

/-- Nothing has been saved in an empty root. -/
theorem EmptyRoot.mirrors (h : EmptyRoot fs here root r top) : Mirrors here root top [] [] fs := by
  obtain ⟨time, hfind⟩ := h.empty
  obtain ⟨hsite, -⟩ := site_of_find h.proper hfind
  refine .of_site hsite ?_ (fun _ => ⟨?_, List.forall_mem_nil _⟩) fun rest hne => ?_
  · simp [hsite.base.directory]
  · simpa [Path.below] using hsite.base.short
  · rw [List.append_nil]
    exact h.vacant hne

theorem EmptyRoot.agrees (h : EmptyRoot fs here root r top) : fs.Agrees here root r top := by
  obtain ⟨time, hfind⟩ := h.empty
  obtain ⟨tree, hsame⟩ := h.same
  have htree := (tree?_of_find hsame).symm.trans (tree?_of_find hfind)
  cases htree
  exact ⟨h.absolute, .of_find h.proper hfind rfl, .of_find h.properAbsolute hsame rfl⟩

/-- Whether a canonical path leads to a regular file. -/
def IsSource (fs : FileSystem) (here : Here) (p : Location) : Prop :=
  ∃ content time, fs.find here .target p.text = .ok (p, .file content time)

theorem IsSource.exists_file (h : IsSource fs here p) (hp : p.IsNamed) :
    ∃ content time, fs.get? p = some (.file content time) ∧ Fits ⟨.root, []⟩ p := by
  obtain ⟨content, time, hfind⟩ := h
  have hfile : fs.get? p = some (.file content time) := get?_of_find hfind
  have htime : fs.modifiedAt here p.text = .ok time := by
    rw [modifiedAt, locate_of_find hfind]
    rfl
  exact ⟨content, time, hfile, ((modifiedAt_source hp hfile).1 htime).1⟩

/-- Whether two sources are saved one after the other with success, and both are then found with
their tags. -/
def SavesBoth (s : Store) (here : Here) (fs : FileSystem) (p q : Location)
    (tags tags' : List SourceTag) (now now' : Int) : Prop :=
  ∃ fs₁ fs₂, s.save now here p.text (tags.map Tag.raw) fs = (.ok (), fs₁) ∧
    s.save now' here q.text (tags'.map Tag.raw) fs₁ = (.ok (), fs₂) ∧
    s.load fs₂ here p.text = .ok (.hit (tags.map Tag.raw)) ∧
    s.load fs₂ here q.text = .ok (.hit (tags'.map Tag.raw))

/-- A source that is not later than its entry is found with its tags. -/
theorem Spells.load_eq_hit {m : Shelf} {tags : List SourceTag} {time sourceTime : Int}
    (h : Spells here base dest names fs m) (hroot : s.root = base.below names)
    (henabled : s.enabled = true) (hloc : loc.IsNamed) (hm : m loc = some (tags, time))
    (hsource : fs.modifiedAt here loc.text = .ok sourceTime) (hle : sourceTime ≤ time)
    (htags : Storable tags) : s.load fs here loc.text = .ok (.hit (tags.map Tag.raw)) := by
  obtain ⟨tags', time', -, hm', -, -, hload⟩ | ⟨hstale, -⟩ := h.load_cases hroot henabled hloc
  · cases hm.symm.trans hm'
    rw [hload]
    exact ofBytes_eq_hit.2
      (decodeEntry_encodeEntry here.depths hloc.unpaired_text htags.texts htags.lines)
  · have hlate := hstale tags time sourceTime hm hsource
    omega

/-- A source outside of the root keeps its time. -/
theorem modifiedAt_save {tags : List RawTag} {content : List UInt8} {time : Int}
    (h : fs.Site here base dest names) (hroot : s.root = base.below names)
    (henabled : s.enabled = true) (hloc : loc.IsNamed) (hp : p.IsNamed)
    (hfile : fs.get? p = some (.file content time)) (hfits : Fits ⟨.root, []⟩ p)
    (hout : p ≠ dest ++ (names ++ entryNames loc))
    (hsave : s.save now here loc.text tags fs = (.ok (), fs')) :
    fs'.get? p = some (.file content time) ∧ fs'.modifiedAt here p.text = .ok time := by
  have hfile' := (get?_save_file h hroot henabled hloc hout hsave).2 hfile
  exact ⟨hfile', (modifiedAt_source hp hfile').2 ⟨hfits, rfl⟩⟩

/-- After two successful saves into an empty root both sources are found. -/
theorem load_of_saves {fs₁ fs₂ : FileSystem} {tags tags' : List SourceTag} {now' : Int}
    (hroot : EmptyRoot fs here s.root r top) (henabled : s.enabled = true) (hp : p.IsNamed)
    (hq : q.IsNamed) (hne : p ≠ q) (hsource : IsSource fs here p) (hsource' : IsSource fs here q)
    (htags : Storable tags) (htags' : Storable tags')
    (hsave₁ : s.save now here p.text (tags.map Tag.raw) fs = (.ok (), fs₁))
    (hsave₂ : s.save now' here q.text (tags'.map Tag.raw) fs₁ = (.ok (), fs₂)) :
    s.load fs₂ here p.text = .ok (.hit (tags.map Tag.raw)) ∧
      s.load fs₂ here q.text = .ok (.hit (tags'.map Tag.raw)) := by
  have hbelow : s.root = s.root.below [] := by simp [Path.below]
  have h := hroot.mirrors
  have h₁ := h.save hbelow henabled hp hsave₁
  have hspells := Spells.of_fresh h.site (h.fits []) fun rest hne => by
    rw [List.append_nil]
    exact hroot.vacant hne
  have hspells₁ := hspells.save hbelow henabled hp hsave₁
  have hspells₂ := hspells₁.save hbelow henabled hq hsave₂
  have hout {x : Location} {content : List UInt8} {time : Int}
      (hx : fs.get? x = some (.file content time)) (loc : Location) :
      x ≠ top ++ ([] ++ entryNames loc) := by
    rintro rfl
    cases (hroot.vacant (entryNames_ne_nil loc)).symm.trans hx
  obtain ⟨content, time, hfile, hfits⟩ := hsource.exists_file hp
  obtain ⟨content', time', hfile', hfits'⟩ := hsource'.exists_file hq
  obtain ⟨hp₁, hptime₁⟩ := modifiedAt_save h.site hbelow henabled hp hp hfile hfits
    (hout hfile p) hsave₁
  obtain ⟨-, hptime₂⟩ := modifiedAt_save h₁.site hbelow henabled hq hp hp₁ hfits
    (hout hfile q) hsave₂
  obtain ⟨hq₁, -⟩ := modifiedAt_save h.site hbelow henabled hp hq hfile' hfits'
    (hout hfile' p) hsave₁
  obtain ⟨-, hqtime₂⟩ := modifiedAt_save h₁.site hbelow henabled hq hq hq₁ hfits'
    (hout hfile' q) hsave₂
  constructor
  · refine hspells₂.load_eq_hit hbelow henabled hp ?_ hptime₂ (le_max_right now time) htags
    rw [Shelf.put, if_neg hne, Shelf.put, if_pos rfl, hptime₁]
    rfl
  · refine hspells₂.load_eq_hit hbelow henabled hq ?_ hqtime₂ (le_max_right now' time') htags'
    rw [Shelf.put, if_pos rfl, hqtime₂]
    rfl

theorem savesBoth_iff {tags tags' : List SourceTag} {now' : Int}
    (hroot : EmptyRoot fs here s.root r top) (henabled : s.enabled = true) (hp : p.IsNamed)
    (hq : q.IsNamed) (hne : p ≠ q) (hsource : IsSource fs here p) (hsource' : IsSource fs here q)
    (hroom : HasRoom here.depths s.root r p) (hroom' : HasRoom here.depths s.root r q)
    (htags : Storable tags) (htags' : Storable tags') :
    SavesBoth s here fs p q tags tags' now now' ↔ ¬Obstructs p q ∧ ¬Obstructs q p := by
  have hbelow : s.root = s.root.below [] := by simp [Path.below]
  have h := hroot.mirrors
  have hfirst := (h.save_iff now hroot.agrees henabled hp hroom (by simp) (hroot.allowed _)
    (tags.map Tag.raw)).2 (by simp)
  obtain ⟨fs₁, hsave₁⟩ : ∃ fs₁, s.save now here p.text (tags.map Tag.raw) fs = (.ok (), fs₁) :=
    ⟨_, Prod.ext hfirst rfl⟩
  have hkeeps := (save_steady h.site hbelow henabled hp hsave₁).keeps
  have hsecond := (h.save hbelow henabled hp hsave₁).save_iff now' (hroot.agrees.keep hkeeps)
    henabled hq hroom' (by simp) (hroot.allowed _) (tags'.map Tag.raw)
  rw [List.forall_mem_singleton] at hsecond
  constructor
  · rintro ⟨_, fs₂, hsave, hsave', -⟩
    cases hsave₁.symm.trans hsave
    exact hsecond.1 (by rw [hsave'])
  · intro hapart
    obtain ⟨fs₂, hsave₂⟩ :
        ∃ fs₂, s.save now' here q.text (tags'.map Tag.raw) fs₁ = (.ok (), fs₂) :=
      ⟨_, Prod.ext (hsecond.2 hapart) rfl⟩
    exact ⟨fs₁, fs₂, hsave₁, hsave₂, load_of_saves hroot henabled hp hq hne hsource hsource' htags
      htags' hsave₁ hsave₂⟩

/-- Different sources have different entries, but one of these lies below the other where the names
say so. In an empty root both sources can be saved, in either order, if and only if that is not the
case. -/
theorem entries_apart_iff (s : Store) (hp : p.IsNamed) (hq : q.IsNamed) (hne : p ≠ q) :
    s.entryPath p.text ≠ s.entryPath q.text ∧
      ((∃ rest, s.entryPath q.text = (s.entryPath p.text).below rest) ↔ Obstructs p q) ∧
      ((∃ rest, s.entryPath p.text = (s.entryPath q.text).below rest) ↔ Obstructs q p) ∧
      ∀ (fs : FileSystem) (here : Here) (r : Path) (top : Location) (tags tags' : List SourceTag)
        (now now' : Int), s.enabled = true → EmptyRoot fs here s.root r top →
        IsSource fs here p → IsSource fs here q → HasRoom here.depths s.root r p →
        HasRoom here.depths s.root r q →
        Storable tags → Storable tags' →
        (SavesBoth s here fs p q tags tags' now now' ↔ ¬Obstructs p q ∧ ¬Obstructs q p) ∧
        (SavesBoth s here fs q p tags' tags now' now ↔ ¬Obstructs p q ∧ ¬Obstructs q p) := by
  refine ⟨fun heq => ?_, entryPath_below_iff s hp hq hne, entryPath_below_iff s hq hp hne.symm, ?_⟩
  · rw [entryPath_text s hp, entryPath_text s hq] at heq
    exact hne (entryNames_inj hp hq (List.append_cancel_left (congrArg Path.parts heq)))
  · intro fs here r top tags tags' now now' henabled hroot hsource hsource' hroom hroom' htags
      htags'
    exact ⟨savesBoth_iff hroot henabled hp hq hne hsource hsource' hroom hroom' htags htags',
      (savesBoth_iff hroot henabled hq hp hne.symm hsource' hsource hroom' hroom htags'
        htags).trans and_comm⟩

/-- A source whose entry has the name of a directory with another source, a third source, and an
empty root. -/
def filesWithNeighbours : FileSystem where
  entries := [("b", .file [] 1), ("b.json", .directory 1 [("c.php", .file [] 1)]),
    ("cache", .directory 1 []), ("d.php", .file [] 1)]

theorem entries_apart_iff_atCache :
    SavesBoth storeAtCache Here.root filesWithNeighbours ["b.json", "c.php"] ["d.php"]
        [Session.tagOfSource] [] 5 6 ∧
      ¬SavesBoth storeAtCache Here.root filesWithNeighbours ["b"] ["b.json", "c.php"] [] [] 5 6 ∧
      ¬SavesBoth storeAtCache Here.root filesWithNeighbours ["b.json", "c.php"] ["b"] [] [] 6
        5 := by
  have hnamed {p : Location} (h : ∀ name ∈ p, ∃ s ∈ ["b", "b.json", "c.php", "d.php"],
      name = Text.ofString s) : p.IsNamed := by
    intro name hname
    obtain ⟨s, hs, rfl⟩ := h name hname
    simp only [List.mem_cons, List.not_mem_nil, or_false] at hs
    rcases hs with rfl | rfl | rfl | rfl <;>
      exact Text.isName_ofString (by simp) (by decide) (by decide) (by decide)
  have hroot : EmptyRoot filesWithNeighbours Here.root storeAtCache.root storeAtCache.root
      ["cache"] := by
    have hproper : storeAtCache.root.IsProper := by
      intro part hpart
      obtain rfl := List.mem_singleton.1 hpart
      exact (Text.isName_ofString (by simp) (by decide) (by decide) (by decide)).toIsPart
    have hfind : filesWithNeighbours.find Here.root .target storeAtCache.root.text =
        .ok (["cache"], .directory 1 []) := by
      cbv
    exact ⟨hproper, ⟨1, hfind⟩, by decide, hproper, ⟨_, hfind⟩, fun _ => rfl⟩
  have hroom (p : Location) (hfits : ∀ names ∈ [entryNames p, temporaryNames (entryNames p) 0,
      temporaryNames (entryNames p) 1], (storeAtCache.root.below names).text.fileLength < maxPath ∧
        ∀ name ∈ names, name.fileLength ≤ maxName)
      (hdepth : p.dropLast.length ≤ Here.root.depths.parents) :
      HasRoom Here.root.depths storeAtCache.root storeAtCache.root p := by
    refine ⟨⟨(hfits _ (by simp)).1, (hfits _ (by simp)).2⟩, fun n hn => ?_, hdepth⟩
    obtain rfl | rfl : n = 0 ∨ n = 1 := by omega
    · exact ⟨(hfits _ (by simp)).1, (hfits _ (by simp)).2⟩
    · exact ⟨(hfits _ (by simp)).1, (hfits _ (by simp)).2⟩
  have hstorable : Storable [] := ⟨List.forall_mem_nil _, List.forall_mem_nil _⟩
  have hb : Location.IsNamed ["b"] := hnamed (by simp)
  have hc : Location.IsNamed ["b.json", "c.php"] := hnamed (by simp)
  have hd : Location.IsNamed ["d.php"] := hnamed (by simp)
  have hbsource : IsSource filesWithNeighbours Here.root ["b"] := ⟨[], 1, by cbv⟩
  have hcsource : IsSource filesWithNeighbours Here.root ["b.json", "c.php"] := ⟨[], 1, by cbv⟩
  have hdsource : IsSource filesWithNeighbours Here.root ["d.php"] := ⟨[], 1, by cbv⟩
  have hbroom := hroom ["b"] (by decide) (by decide)
  have hcroom := hroom ["b.json", "c.php"] (by decide) (by decide)
  have hdroom := hroom ["d.php"] (by decide) (by decide)
  obtain ⟨-, -, -, hapart⟩ := entries_apart_iff storeAtCache hc hd (by decide)
  obtain ⟨-, -, -, hclash⟩ := entries_apart_iff storeAtCache hb hc (by decide)
  obtain ⟨hboth, -⟩ := hapart _ _ _ _ [Session.tagOfSource] [] 5 6 rfl hroot hcsource hdsource
    hcroom hdroom Session.storable_tagOfSource hstorable
  obtain ⟨hforth, hback⟩ := hclash _ _ _ _ [] [] 5 6 rfl hroot hbsource hcsource hbroom hcroom
    hstorable hstorable
  exact ⟨hboth.2 (by decide), fun h => absurd (hforth.1 h) (by decide),
    fun h => absurd (hback.1 h) (by decide)⟩

end TagsFile.Store
