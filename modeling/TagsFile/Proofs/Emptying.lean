import TagsFile.Proofs.Mirror
import TagsFile.Proofs.Shelf

/-!
# Emptying a store

Saving a source makes directories with the names of those of the source, and one of these may have
the name of an entry. Clearing goes by names, so it stops at such a directory. It also stops above
directories that lie deeper than it goes. All other stores that have been filled by saving are
cleared, and then no source has an entry.

## Main definitions

* `Store.IsClearable`: the sources that are saved without harm to clearing.

## Main statements

* `Store.clear_empties_iff`: which stores are cleared, and what clearing does.
-/

namespace TagsFile.Store

open FileSystem

variable {s : Store} {fs fs' start : FileSystem} {here : Here} {base root : Path}
  {dest top loc : Location} {names : List Text} {now : Int} {saved : List Location}

/-! ## Stores that are filled -/

theorem distinct_saves (hdistinct : start.Distinct) (hsaves : Saves s here start saved fs) :
    fs.Distinct := by
  induction hsaves with
  | nothing => exact hdistinct
  | @next _ fs _ loc now tags _ _ hsave ih =>
    have hdistinct' := distinct_save s now here loc.text tags ih
    rwa [hsave] at hdistinct'

theorem Mirrors.tidy (h : Mirrors here base dest names saved fs) (hroot : s.root = base.below names)
    (hdirs : ∀ p ∈ saved, ∀ name ∈ p.dropLast, isEntryName name = false) :
    Tidy fs s.root (dest ++ names) where
  noFile := h.root_ne_file
  directory rest name hdir := by
    rw [List.append_assoc] at hdir
    obtain ⟨p, hp, hrest⟩ := (h.directory _ (by simp)).1 hdir
    exact hdirs p hp name (hrest.subset (by simp))
  file rest name content time hfile := by
    rw [List.append_assoc] at hfile
    obtain ⟨p, -, hrest⟩ := (h.file _).1 ⟨content, time, hfile⟩
    obtain ⟨-, hname⟩ := List.append_inj' hrest rfl
    rw [(List.cons.inj hname).1]
    exact isEntryName_append_json _
  unlinked rest target := by
    rw [List.append_assoc]
    exact h.site.unlinked rest _ (List.prefix_refl _) target
  short rest hnode := by
    rw [List.append_assoc] at hnode
    rw [hroot, below_below]
    exact (h.fits rest hnode).path

/-! ## Where clearing stops -/

/-- A directory with the name of an entry stops the clearing of the directory that it is in. -/
theorem isEntryName_of_clearEntries {entries : List (Text × Listing)}
    (h : (clearEntries now root names loc entries fs).1 = .ok ()) {name : Text}
    {below : List (Text × Listing)} (hname : (name, .directory below) ∈ entries) :
    isEntryName name = false := by
  induction entries generalizing fs with
  | nil => cases hname
  | cons pair entries ih =>
    obtain ⟨first, l⟩ := pair
    rw [clearEntries] at h
    obtain heq | hname := List.mem_cons.1 hname
    · cases heq
      by_contra hentry
      rw [Bool.not_eq_false] at hentry
      rw [if_pos hentry] at h
      dsimp only at h
      split at h <;> cases h
    · split at h
      · dsimp only at h
        split at h
        · cases h
        · split at h
          · cases h
          · exact ih h hname
      · exact ih h hname

/-- If the directories among some entries have all been cleared, so has each. -/
theorem clearDirectory_of_clearBelow {depth : Nat} {entries : List (Text × Listing)}
    (h : (clearBelow now root depth names loc entries fs).1 = .ok ()) {name : Text} {l : Listing}
    (hname : (name, l) ∈ entries) :
    ∃ cur, (clearDirectory now root depth (names ++ [name]) (loc ++ [name]) l cur).1 = .ok () := by
  induction entries generalizing fs with
  | nil => cases hname
  | cons pair entries ih =>
    obtain ⟨first, l'⟩ := pair
    rw [clearBelow] at h
    split at h
    · cases h
    · rename_i files hfirst
      obtain heq | hname := List.mem_cons.1 hname
      · cases heq
        exact ⟨fs, by rw [hfirst]⟩
      · exact ih h hname

/-- Where clearing comes to its end, no directory has the name of an entry. -/
theorem isEntryName_of_clearDirectory {l : Listing} (hlists : Listing.Lists fs.get? loc l)
    {depth : Nat} {cur : FileSystem}
    (h : (clearDirectory now root depth names loc l cur).1 = .ok ()) {rest : List Text}
    {name : Text} (hdir : fs.get? (loc ++ (rest ++ [name])) = some .directory) :
    isEntryName name = false := by
  induction hlists generalizing names depth cur rest with
  | @file loc content time hnode =>
    rw [get?_eq_none_below (by simp [hnode]) (by simp)] at hdir
    cases hdir
  | @directory loc entries hnode hentries hall ih =>
    have hlisted {first : Text} {below : List Text}
        (hbelow : fs.get? (loc ++ [first] ++ below) = some .directory) :
        ∃ l, (first, l) ∈ entries :=
      (Listing.Lists.directory hnode hentries hall).exists_mem (by rw [hbelow]; nofun)
    rw [clearDirectory] at h
    split at h
    · cases h
    split at h
    · cases h
    rename_i files hcleared
    cases rest with
    | nil =>
      obtain ⟨l, hl⟩ := @hlisted name [] (by simpa using hdir)
      cases hentries name l hl with
      | file hfile => cases hfile.symm.trans hdir
      | directory =>
        exact isEntryName_of_clearEntries (show _ = _ from congrArg Prod.fst hcleared) hl
    | cons first rest =>
      rw [List.cons_append, List.append_cons] at hdir
      obtain ⟨l, hl⟩ := hlisted hdir
      obtain ⟨cur, hcur⟩ := clearDirectory_of_clearBelow h hl
      exact ih first l hl hcur hdir

/-! ## What clearing leaves alone -/

theorem get?_remove_outside {name : Text} {other : Location} (h : ¬loc <+: other) :
    (fs.remove now (loc ++ [name])).get? other = fs.get? other := by
  have herase (t : Tree) (ht : t.node = .directory) : (t.erase now name).node = .directory := by
    cases t <;> simp_all [Tree.node, Tree.erase]
  simp only [FileSystem.remove, List.getLast?_concat, List.dropLast_concat]
  rw [get?_adjust herase, if_neg (by rwa [List.isPrefixOf_iff_prefix])]

theorem get?_clearDirectory_outside (depth : Nat) (names : List Text) (loc : Location)
    (l : Listing) (fs : FileSystem) {other : Location} (h : ¬loc <+: other) :
    (clearDirectory now root depth names loc l fs).2.get? other = fs.get? other := by
  refine clearDirectory_keeps (P := fun cur => cur.get? other = fs.get? other) depth names loc l
    (fun cur place name hplace hcur => ?_) fs rfl
  rw [get?_remove_outside fun hprefix => h (hplace.trans hprefix), hcur]

/-! ## Stores that are cleared -/

/-- A source that has no file in the place of its entry is not found. -/
theorem load_of_no_file (h : fs.Site here base dest names) (hroot : s.root = base.below names)
    (hloc : loc.IsNamed) (hnone : ∀ content time,
      fs.get? (dest ++ (names ++ entryNames loc)) ≠ some (.file content time)) :
    ∃ reason, s.load fs here loc.text = .ok (.miss reason) := by
  obtain ⟨bytes, hfresh, -⟩ | ⟨-, hmiss⟩ :=
    Store.load_cases fs here (isUsable_root h hroot) hloc
  · obtain ⟨-, -, time, -, hfile, -⟩ := (hasFresh_iff h hroot hloc).1 hfresh
    exact absurd hfile (hnone bytes time)
  · exact hmiss

/-- Whether nothing that is made for the entry of a source stands in the way of clearing: no
directory has the name of an entry, and none lies too deep. -/
structure IsClearable (depths : Depths) (p : Location) : Prop where
  names : ∀ name ∈ p.dropLast, isEntryName name = false
  depth : p.dropLast.length ≤ depths.clear

/-! ### A root that is there -/

theorem Mirrors.fits_root (h : Mirrors here base dest names saved fs)
    (hdir : fs.get? (dest ++ names) = some .directory) : Fits base names := by
  have hfits := h.fits [] (by simp [hdir])
  rwa [List.append_nil] at hfits

theorem Mirrors.exists_clearDirectory (h : Mirrors here base dest names saved fs)
    (hroot : s.root = base.below names) (hdistinct : fs.Distinct)
    (hdir : fs.get? (dest ++ names) = some .directory) (now : Int) :
    ∃ entries, Listing.Lists fs.get? (dest ++ names) (.directory entries) ∧
      s.clear now here fs =
        clearDirectory now s.root (here.depths.clear + 1) [] (dest ++ names) (.directory entries)
          fs := by
  apply clear_eq_clearDirectory now h.site hroot (h.fits_root hdir) hdir hdistinct
  intro rest hrest
  rw [List.append_assoc] at hrest
  rw [hroot, below_below]
  exact (h.fits rest (by simp [hrest])).path

theorem Mirrors.isEntryName_of_clear (h : Mirrors here base dest names saved fs)
    (hroot : s.root = base.below names) (hdistinct : fs.Distinct)
    (hdir : fs.get? (dest ++ names) = some .directory) (hok : (s.clear now here fs).1 = .ok ()) :
    ∀ p ∈ saved, ∀ name ∈ p.dropLast, isEntryName name = false := by
  obtain ⟨entries, hlists, hclear⟩ := h.exists_clearDirectory hroot hdistinct hdir now
  intro p hp name hname
  obtain ⟨front, back, hsplit⟩ := List.append_of_mem hname
  have hbelow := (h.directory (front ++ [name]) (by simp)).2 ⟨p, hp, back, by simp [hsplit]⟩
  rw [← List.append_assoc] at hbelow
  rw [hclear] at hok
  exact isEntryName_of_clearDirectory hlists hok hbelow

theorem Mirrors.clears (h : Mirrors here base dest names saved fs)
    (hroot : s.root = base.below names) (hdistinct : fs.Distinct)
    (hdir : fs.get? (dest ++ names) = some .directory)
    (hdirs : ∀ p ∈ saved, ∀ name ∈ p.dropLast, isEntryName name = false) (now : Int) :
    Clears fs (dest ++ names) (dest ++ names) (here.depths.clear + 1) fs (s.clear now here fs) :=
  clear_of_directory now h.site hroot (h.fits_root hdir) hdir hdistinct (h.tidy hroot hdirs)

theorem Mirrors.clear_iff (h : Mirrors here base dest names saved fs)
    (hroot : s.root = base.below names) (hdistinct : fs.Distinct)
    (hdir : fs.get? (dest ++ names) = some .directory) (now : Int) :
    (s.clear now here fs).1 = .ok () ↔ ∀ p ∈ saved, IsClearable here.depths p := by
  constructor
  · intro hok p hp
    have hdirs := h.isEntryName_of_clear hroot hdistinct hdir hok
    refine ⟨hdirs p hp, ?_⟩
    obtain ⟨-, ⟨-, -, hdepth⟩ | ⟨herror, -⟩⟩ := h.clears hroot hdistinct hdir hdirs now
    · by_cases hne : p.dropLast = []
      · simp [hne]
      · have hbelow := (h.directory _ hne).2 ⟨p, hp, List.prefix_refl _⟩
        rw [← List.append_assoc] at hbelow
        exact Nat.le_of_lt_succ (hdepth _ hbelow)
    · cases hok.symm.trans herror
  · intro hall
    obtain ⟨-, ⟨hok, -⟩ | ⟨-, rest, hlength, hrest⟩⟩ :=
      h.clears hroot hdistinct hdir (fun p hp => (hall p hp).names) now
    · exact hok
    · rw [List.append_assoc] at hrest
      have hne : rest ≠ [] := by
        rintro rfl
        cases hlength
      obtain ⟨p, hp, hfront⟩ := (h.directory rest hne).1 hrest
      have hle := hfront.length_le
      have hdepth := (hall p hp).depth
      omega

theorem Mirrors.load_of_clear (h : Mirrors here base dest names saved fs)
    (hroot : s.root = base.below names) (hdistinct : fs.Distinct)
    (hdir : fs.get? (dest ++ names) = some .directory) (hok : (s.clear now here fs).1 = .ok ())
    (hloc : loc.IsNamed) :
    ∃ reason, s.load (s.clear now here fs).2 here loc.text = .ok (.miss reason) := by
  have hdirs := h.isEntryName_of_clear hroot hdistinct hdir hok
  obtain ⟨hthins, ⟨-, hfiles, -⟩ | ⟨herror, -⟩⟩ := h.clears hroot hdistinct hdir hdirs now
  · refine load_of_no_file (h.site.steady hthins.steady) hroot hloc fun content time => ?_
    rw [← List.append_assoc]
    exact hfiles _ content time (entryNames_ne_nil loc)
  · cases hok.symm.trans herror

/-! ### Every root -/

/-- A store that has been filled from a fresh root by saving is cleared without an error if and only
if no directory of the sources has the name of an entry and none lies too deep. Then every source is
a miss. Whether or not it comes to its end, clearing changes nothing outside of the root. -/
theorem clear_empties_iff (hroot : FreshRoot start here s.root top)
    (hlook : start.isDirectory here s.root.text ≠ .error (.system .nameTooLong))
    (henabled : s.enabled = true) (hdistinct : start.Distinct)
    (hsaves : Saves s here start saved fs) (now : Int) :
    ((s.clear now here fs).1 = .ok () ↔ ∀ p ∈ saved, IsClearable here.depths p) ∧
      ((s.clear now here fs).1 = .ok () → ∀ p : Location, p.IsNamed →
        ∃ reason, s.load (s.clear now here fs).2 here p.text = .ok (.miss reason)) ∧
      ∀ other, ¬top <+: other → (s.clear now here fs).2.get? other = fs.get? other := by
  obtain ⟨base, dest, names, hbelow, rfl, hstart⟩ := exists_mirrors hroot
  have h := hstart.saves hbelow henabled hsaves
  cases hnode : fs.get? (dest ++ names) with
  | none =>
    -- nothing has been saved yet
    cases hsaves with
    | next => simp [h.root] at hnode
    | nothing =>
      obtain ⟨hsame, hiff⟩ := clear_of_absent now h.site hbelow hnode
      rw [hsame, hiff.2 hlook]
      refine ⟨by simp, fun _ p hp => ?_, fun _ _ => rfl⟩
      refine load_of_no_file h.site hbelow hp fun content time => ?_
      rw [← List.append_assoc, get?_eq_none_below (by simp [hnode]) (entryNames_ne_nil p)]
      simp
  | some n =>
    cases n with
    | file content time => exact absurd hnode (h.root_ne_file content time)
    | link target =>
      have hlink := h.site.unlinked [] names (by simp) target
      exact absurd hnode hlink
    | directory =>
      have hdistinct' := distinct_saves hdistinct hsaves
      obtain ⟨entries, -, hclear⟩ := h.exists_clearDirectory hbelow hdistinct' hnode now
      refine ⟨h.clear_iff hbelow hdistinct' hnode now,
        fun hok p hp => h.load_of_clear hbelow hdistinct' hnode hok hp, fun other hother => ?_⟩
      rw [hclear]
      exact get?_clearDirectory_outside _ _ _ _ fs hother

/-- One source is saved and cleared, and another is saved for good. -/
theorem clear_empties_iff_atCache :
    (∃ files, storeAtCache.save 5 Here.root (Location.text ["a.php"]) [] (filesWithSource []) =
        (.ok (), files) ∧ (storeAtCache.clear 6 Here.root files).1 = .ok () ∧
      ∃ reason, storeAtCache.load (storeAtCache.clear 6 Here.root files).2 Here.root
        (Location.text ["a.php"]) = .ok (.miss reason)) ∧
      ∃ files, storeAtCache.save 5 Here.root (Location.text ["x.json", "a.php"]) []
        (filesWithSource []) = (.ok (), files) ∧
      (storeAtCache.clear 6 Here.root files).1 ≠ .ok () := by
  have hroot := freshRoot_filesWithSource []
  have hlook : (filesWithSource []).isDirectory Here.root storeAtCache.root.text ≠
      .error (.system .nameTooLong) := by
    have habsent : (filesWithSource []).isDirectory Here.root storeAtCache.root.text =
        .ok false := by
      cbv
    simp [habsent]
  have hdistinct : (filesWithSource []).Distinct := by
    refine .directory ?_ ?_
    · intro name t ht
      obtain ⟨rfl, rfl⟩ := Prod.mk.inj (List.mem_singleton.1 ht)
      rfl
    · intro name t ht
      obtain ⟨rfl, rfl⟩ := Prod.mk.inj (List.mem_singleton.1 ht)
      exact .file ..
  constructor
  · have hsave := save_filesWithSource [] []
    obtain ⟨hiff, hmiss, -⟩ := clear_empties_iff hroot hlook rfl hdistinct
      (.next .nothing isNamed_source hsave) 6
    have hok := hiff.2 fun p hp => by
      obtain rfl := List.mem_singleton.1 hp
      exact ⟨by simp, by simp⟩
    exact ⟨_, hsave, hok, hmiss hok _ isNamed_source⟩
  · have hnamed : Location.IsNamed ["x.json", "a.php"] := by
      intro name hname
      simp only [List.mem_cons, List.not_mem_nil, or_false] at hname
      rcases hname with rfl | rfl <;>
        exact Text.isName_ofString (by simp) (by decide) (by decide) (by decide)
    have hsave : (storeAtCache.save 5 Here.root (Location.text ["x.json", "a.php"]) []
        (filesWithSource [])).1 = .ok () := by
      rw [Store.save, Store.putEntry]
      generalize encodeEntry (Location.text ["x.json", "a.php"]) [] = content
      cbv
    obtain ⟨hiff, -⟩ := clear_empties_iff hroot hlook rfl hdistinct
      (.next .nothing hnamed (Prod.ext hsave rfl)) 6
    refine ⟨_, Prod.ext hsave rfl, fun hok => ?_⟩
    have hclearable := (hiff.1 hok _ (List.mem_singleton_self _)).names "x.json"
      (List.mem_singleton_self _)
    exact absurd hclearable (by decide)

end TagsFile.Store
