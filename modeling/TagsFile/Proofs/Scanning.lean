import TagsFile.Proofs.EntryPlace
import TagsFile.Proofs.Exclusion
import TagsFile.Proofs.Masking
import TagsFile.Proofs.Tower

/-!
# What a scan picks

A scan leaves out directories while it goes through them and tests the files one by one. What comes
out can be told of each file alone: it has one of the extensions, it is behind real directories, and
no pattern excludes it or a directory on the way to it. Limits of the system show: a directory whose
path is too long, or which the system denies, is not looked into, and a scan that comes to a
directory too deep down ends there, with the files that it has found.

## Main definitions

* `Config.IsOpen`, `Config.IsBranch`: the directories that a walk can look into, and those that it
  comes to.
* `Config.Enters`, `Config.Picks`: the directories that a scan is to go into, and the files that it
  picks.
* `Config.filesBelow`: what a walk finds that leaves nothing out.

## Main statements

* `Config.scan_eq`: a scan is a walk that leaves out the excluded directories.
* `Config.sourcesBelow_exact`: the files that a scan picks, in their order, and when it ends early.
* `Config.sourcesBelow_prunes`: patterns for directories exclude what is below, so a walk through
  all directories would find the same files.
-/

namespace TagsFile

open Listing

/-! ## Scans as walks -/

namespace Config

/-- Whether no pattern excludes what is at some names. -/
def allows (patterns names : List Text) : Bool :=
  !patterns.any (excludedBy (normalizePath (Text.join "/" names)))

/-- Whether a file has one of the extensions and no pattern excludes it. -/
def wants (extensions patterns names : List Text) : Bool :=
  hasExtension extensions (names.getLastD []) && allows patterns names

variable {config : Config} {extensions patterns : List Text}

theorem includes_eq_ok_true (h : config.HasPatterns patterns) (names : List Text) :
    config.includes (Text.join "/" names) = .ok true ↔ allows patterns names = true := by
  rw [includes_eq h, Except.ok.injEq, allows]

theorem scans_eq (h : config.HasPatterns patterns) (names : List Text) :
    config.scans names = .ok (allows patterns names) := by
  rw [scans, includes_eq h]
  rfl

theorem scanFiles_eq (h : config.HasPatterns patterns) (above : List Text)
    (entries : List (Text × Listing)) : scanFiles config extensions above entries =
      { items := (filesIn above entries).filter (wants extensions patterns) } := by
  induction entries with
  | nil => rfl
  | cons pair entries ih =>
    obtain ⟨name, l⟩ := pair
    rw [scanFiles, ih, scans_eq h, Found.when_ok]
    cases hfile : l.isFile with
    | false => simp [filesIn, hfile]
    | true =>
      cases hextension : hasExtension extensions name with
      | false => simp [filesIn, wants, hfile, hextension]
      | true =>
        cases hallows : allows patterns (above ++ [name]) <;>
          simp [filesIn, wants, hfile, hextension, hallows, Found.append_of_none]

mutual

theorem scanEntry_eq (h : config.HasPatterns patterns) (depth : Nat) (above : List Text) :
    (l : Listing) → scanEntry config extensions depth above l =
      (walkEntry .tooDeep (allows patterns) depth above l).filter (wants extensions patterns)
  | .file | .overlongLink => by
    rw [scanEntry, walkEntry]
    rfl
  | .linkedDirectory | .closedDirectory => by
    rw [scanEntry, walkEntry, scans_eq h, Found.when_ok]
    split_ifs <;> rfl
  | .directory inner => by
    rw [scanEntry, walkEntry, scans_eq h, Found.when_ok]
    split_ifs
    · rfl
    · rw [Found.filter_append, scanFiles_eq h, scanBelow_eq h]
      rfl
    · rfl

/-- Below some entries a scan makes what a walk does of the files that are wanted. -/
theorem scanBelow_eq (h : config.HasPatterns patterns) (depth : Nat) (above : List Text) :
    (entries : List (Text × Listing)) → scanBelow config extensions depth above entries =
      (walkBelow .tooDeep (allows patterns) depth above entries).filter (wants extensions patterns)
  | [] => by
    rw [scanBelow, walkBelow]
    rfl
  | (name, l) :: entries => by
    rw [scanBelow, walkBelow, Found.filter_append, scanEntry_eq h, scanBelow_eq h]

end

/-- A scan is a walk that leaves out the excluded directories. -/
theorem scan_eq (hextensions : config.extensionTexts = .ok extensions)
    (hpatterns : config.HasPatterns patterns) (depth : Nat) (entries : List (Text × Listing)) :
    config.scan depth entries =
      (walkFrom .tooDeep (allows patterns) depth [] (sorted entries)).filter
        (wants extensions patterns) := by
  rw [scan, hextensions, walkFrom, Found.filter_append]
  simp only [scanFiles_eq hpatterns, scanBelow_eq hpatterns]
  rfl

end Config

/-! ## Scans of file systems -/

namespace Config

open FileSystem

/-- Whether a walk from the path `p`, which leads to `top`, can look into what is at some names. -/
@[mk_iff]
structure IsOpen (fs : FileSystem) (here : Here) (p : Path) (top : Location)
    (names : List Text) : Prop where
  directory : fs.get? (top ++ names) = some .directory
  short : (scanText p names).fileLength < maxPath
  permitted : top ++ names ∉ here.denied.listings

/-- Whether a walk from the path `p`, which leads to `top`, can come to a directory at some names,
or to a link that leads to one: behind directories that it can look into. -/
@[mk_iff]
structure IsBranch (fs : FileSystem) (here : Here) (p : Path) (top : Location)
    (names : List Text) : Prop where
  ne_nil : names ≠ []
  directory : fs.get? (top ++ names) = some .directory ∨
    ∃ target, fs.get? (top ++ names) = some (.link target) ∧
      fs.LeadsToDirectory here (scanText p names)
  inside : ∀ front, front <+: names → front ≠ names → IsOpen fs here p top front

/-- Whether a scan is to go into what is at some names: no pattern excludes it, nor a directory on
the way to it. -/
def Enters (config : Config) (fs : FileSystem) (here : Here) (p : Path) (top : Location)
    (names : List Text) : Prop :=
  IsBranch fs here p top names ∧
    ∀ front, front <+: names → front ≠ [] → config.includes (Text.join "/" front) = .ok true

/-- What a scan of the path `p`, which leads to `top`, picks: whatever is no directory and leads to
none, behind directories that it can look into, has one of the extensions and is excluded by no
pattern, nor is a directory on the way to it. -/
@[mk_iff]
structure Picks (config : Config) (extensions : List Text) (fs : FileSystem) (here : Here)
    (p : Path) (top : Location) (names : List Text) : Prop where
  present : fs.get? (top ++ names) ≠ none
  notDirectory : fs.get? (top ++ names) ≠ some .directory
  notLinked : ∀ target, fs.get? (top ++ names) = some (.link target) →
    ¬fs.LeadsToDirectory here (scanText p names)
  inside : ∀ front, front <+: names → front ≠ names → IsOpen fs here p top front
  extension : ∃ last, names.getLast? = some last ∧ Text.lower (suffixOf last) ∈ extensions
  included : ∀ front, front <+: names → front ≠ [] →
    config.includes (Text.join "/" front) = .ok true

/-- The entries that a walk from the path `p`, which leads to the directory at `top`, goes
through. -/
def walked (fs : FileSystem) (here : Here) (p : Path) (top : Location) (directory : Tree) :
    List (Text × Listing) :=
  sorted (fs.listing here (scanText p) (isShut here p top) directory)

variable {config : Config} {extensions patterns : List Text} {fs : FileSystem} {here : Here}
  {p : Path} {top : Location} {modified : Int} {entries : List (Text × Tree)} {names : List Text}

/-- What holds of all directories on the way and at its end holds of all fronts. -/
theorem passes_and_iff {enters : List Text → Bool} (hne : names ≠ []) :
    Passes enters [] names ∧ enters names = true ↔
      ∀ front, front <+: names → front ≠ [] → enters front = true := by
  constructor
  · rintro ⟨hpasses, hlast⟩ front hfront hempty
    by_cases hwhole : front = names
    · exact hwhole ▸ hlast
    · exact hpasses front hfront hempty hwhole
  · intro h
    exact ⟨fun front hfront hempty _ => h front hfront hempty, h names (List.prefix_refl _) hne⟩

theorem isShut_eq_false : isShut here p top names = false ↔
    (scanText p names).fileLength < maxPath ∧ top ++ names ∉ here.denied.listings := by
  simp [isShut, isOverlong]

/-- What is behind directories that are not shut is behind open ones. -/
theorem passes_isShut_iff (hne : names ≠ []) (hpresent : fs.get? (top ++ names) ≠ none) :
    isShut here p top [] = false ∧ Passes (!isShut here p top ·) [] names ↔
      ∀ front, front <+: names → front ≠ names → IsOpen fs here p top front := by
  simp only [Passes, List.nil_append, Bool.not_eq_true', isShut_eq_false]
  constructor
  · rintro ⟨hroot, hpasses⟩ front hfront hwhole
    obtain ⟨hshort, hpermitted⟩ : (scanText p front).fileLength < maxPath ∧
        top ++ front ∉ here.denied.listings := by
      by_cases hempty : front = []
      · exact hempty ▸ hroot
      · exact hpasses front hfront hempty hwhole
    obtain ⟨rest, rfl⟩ := hfront
    refine ⟨get?_eq_directory_of_append (show rest ≠ [] by simpa using hwhole) ?_, hshort,
      hpermitted⟩
    rwa [List.append_assoc]
  · intro h
    have hopen {front : List Text} (hfront : front <+: names) (hwhole : front ≠ names) :=
      And.intro (h front hfront hwhole).short (h front hfront hwhole).permitted
    exact ⟨hopen List.nil_prefix hne.symm, fun front hfront _ hwhole => hopen hfront hwhole⟩

section Directory

variable (htop : fs.tree? top = some (.directory modified entries))
  (hwell : (Tree.directory modified entries).WellFormed)

include htop hwell

/-- A scan picks the files that a walk finds and that are wanted. -/
theorem finds_and_wants_iff (hpatterns : config.HasPatterns patterns) :
    isShut here p top [] = false ∧
        Finds (allows patterns) [] (walked fs here p top (.directory modified entries)) names ∧
        wants extensions patterns names = true ↔
      config.Picks extensions fs here p top names := by
  have hget := get?_below htop
  rw [walked, finds_listing hwell, wants, Bool.and_eq_true]
  constructor
  · rintro ⟨hroot, ⟨hne, hopen, hpasses, t, ht, hnode, hlink⟩, hextension, hallows⟩
    have hhere : fs.get? (top ++ names) = some t.node := by rw [hget, ht]; rfl
    refine ⟨by simp [hhere], by simpa [hhere] using hnode, ?_, ?_, ?_, ?_⟩
    · intro target htarget
      exact hlink target (Option.some.inj (hhere.symm.trans htarget))
    · exact (passes_isShut_iff hne (by simp [hhere])).1 ⟨hroot, hopen⟩
    · refine ⟨names.getLast hne, List.getLast?_eq_some_getLast hne, ?_⟩
      simpa [hasExtension, List.getLastD_eq_getLast?, List.getLast?_eq_some_getLast hne] using
        hextension
    · simpa [includes_eq_ok_true hpatterns] using (passes_and_iff hne).1 ⟨hpasses, hallows⟩
  · rintro ⟨hpresent, hnode, hlink, hinside, ⟨last, hlast, hextension⟩, hincluded⟩
    have hne : names ≠ [] := by
      rintro rfl
      cases hlast
    simp only [includes_eq_ok_true hpatterns] at hincluded
    obtain ⟨hpasses, hallows⟩ := (passes_and_iff hne).2 hincluded
    obtain ⟨hroot, hopen⟩ := (passes_isShut_iff hne hpresent).2 hinside
    obtain ⟨n, hn⟩ := Option.ne_none_iff_exists'.1 hpresent
    obtain ⟨t, ht, rfl⟩ := Option.map_eq_some_iff.1 ((hget names).symm.trans hn)
    refine ⟨hroot, ⟨hne, hopen, hpasses, t, ht, ?_, ?_⟩, ?_, hallows⟩
    · simpa [hn] using hnode
    · intro target htarget
      exact hlink target (hn.trans (congrArg some htarget))
    · simpa [hasExtension, List.getLastD_eq_getLast?, hlast] using hextension

/-- The directories that a walk comes to. -/
theorem meets_iff_isBranch {enters : List Text → Bool} :
    isShut here p top [] = false ∧
        Meets enters [] (walked fs here p top (.directory modified entries)) names ↔
      IsBranch fs here p top names ∧
        ∀ front, front <+: names → front ≠ [] → enters front = true := by
  have hget := get?_below htop
  rw [walked, meets_listing hwell]
  constructor
  · rintro ⟨hroot, hne, hopen, henters, t, ht, hnode⟩
    have hhere : fs.get? (top ++ names) = some t.node := by rw [hget, ht]; rfl
    refine ⟨⟨hne, ?_, (passes_isShut_iff hne (by simp [hhere])).1 ⟨hroot, hopen⟩⟩,
      (passes_and_iff hne).1 henters⟩
    simpa [hhere] using hnode
  · rintro ⟨⟨hne, hnode, hinside⟩, henters⟩
    have hpresent : fs.get? (top ++ names) ≠ none := by
      obtain hnode | ⟨target, hnode, -⟩ := hnode <;> simp [hnode]
    obtain ⟨n, hn⟩ := Option.ne_none_iff_exists'.1 hpresent
    obtain ⟨t, ht, rfl⟩ := Option.map_eq_some_iff.1 ((hget names).symm.trans hn)
    obtain ⟨hroot, hopen⟩ := (passes_isShut_iff hne hpresent).2 hinside
    exact ⟨hroot, hne, hopen, (passes_and_iff hne).2 henters, t, ht, by simpa [hn] using hnode⟩

theorem meets_iff_enters (hpatterns : config.HasPatterns patterns) :
    isShut here p top [] = false ∧
        Meets (allows patterns) [] (walked fs here p top (.directory modified entries)) names ↔
      config.Enters fs here p top names := by
  simp only [meets_iff_isBranch htop hwell, Enters, includes_eq_ok_true hpatterns]

end Directory

section Result

variable (hextensions : config.extensionTexts = .ok extensions)
  (hpatterns : config.HasPatterns patterns) (hfs : fs.WellFormed)
  (hroot : fs.locate here .target p.text = .ok (.present top (.directory modified entries)))
  (hhere : p.isAbsolute = true ∨ here.lost = [])

include hextensions hpatterns hroot hhere

/-- The files that a scan of a directory picks are those of a walk through its listing. -/
theorem sourcesBelow_eq : config.sourcesBelow fs here p =
    if isShut here p top [] then {}
    else
      (((walkFrom .tooDeep (allows patterns) here.depths.scan []
        (walked fs here p top (.directory modified entries))).filter
          (wants extensions patterns)).mapFault sourcesBelow.ofScan).map
            fun names => (p.below names).text := by
  obtain ⟨q, hq⟩ : ∃ q, here.absolute? p = some q := by
    rw [Here.absolute?, Here.location?]
    split
    · exact ⟨_, rfl⟩
    · rename_i hrelative
      rw [if_pos (hhere.resolve_left hrelative)]
      exact ⟨_, rfl⟩
  rw [sourcesBelow, hextensions, hroot, hq]
  simp only [scan_eq hextensions hpatterns]
  rfl

include hfs

/-- A scan gives the files that it picks, in their order, up to the first directory that lies too
deep. -/
theorem exists_items_sourcesBelow : ∃ found : List (List Text),
    (config.sourcesBelow fs here p).items = found.map (fun names => (p.below names).text) ∧
      found.Pairwise ComesBefore ∧
      ∀ names, names ∈ found ↔ config.Picks extensions fs here p top names ∧
        ∀ deep, config.Enters fs here p top deep → here.depths.scan < deep.length →
          Precedes names deep := by
  have htop := tree?_of_locate_present hroot
  have hwell := (hfs.get? htop).1
  rw [sourcesBelow_eq hextensions hpatterns hroot hhere]
  simp only [← finds_and_wants_iff htop hwell hpatterns, ← meets_iff_enters htop hwell hpatterns]
  cases hshut : isShut here p top [] with
  | true => exact ⟨[], rfl, .nil, by simp⟩
  | false =>
    have hascending : Ascending (walked fs here p top (.directory modified entries)) :=
      (unrepeated_listEntries hwell []).ascending_sorted
    refine ⟨(walkFrom ScanFault.tooDeep (allows patterns) here.depths.scan [] _).items.filter _,
      rfl, hascending.pairwise_walkFrom.filter _, fun names => ?_⟩
    rw [List.mem_filter, hascending.mem_walkFrom]
    simp only [List.nil_append, exists_eq_left', true_and, FindsWithin]
    tauto

/-- A scan comes to its end if no directory that it is to go into lies too deep. -/
theorem fault_sourcesBelow_eq_none : (config.sourcesBelow fs here p).fault = none ↔
    ∀ deep, config.Enters fs here p top deep → deep.length ≤ here.depths.scan := by
  have htop := tree?_of_locate_present hroot
  have hwell := (hfs.get? htop).1
  rw [sourcesBelow_eq hextensions hpatterns hroot hhere]
  simp only [← meets_iff_enters htop hwell hpatterns]
  cases hshut : isShut here p top [] with
  | true => simp
  | false => simp [Found.map, Found.mapFault, Found.filter, fault_walkFrom]

omit hfs in
theorem eq_tooDeep_of_fault_sourcesBelow {f : Fault}
    (h : (config.sourcesBelow fs here p).fault = some f) : f = .tooDeep := by
  rw [sourcesBelow_eq hextensions hpatterns hroot hhere] at h
  split at h
  · cases h
  · obtain ⟨e, he, rfl⟩ := Option.map_eq_some_iff.1 h
    rw [eq_of_fault_walkFrom he]
    rfl

end Result

/-! ## The order of the entries -/

theorem leadsToDirectory_congr {fs' : FileSystem} (h : ∀ loc, fs'.get? loc = fs.get? loc)
    (text : Text) : fs'.LeadsToDirectory here text ↔ fs.LeadsToDirectory here text := by
  have halike : Alike fs.get? fs'.get? := fun loc => .inl (h loc)
  rw [LeadsToDirectory, LeadsToDirectory]
  obtain ⟨e, hfind, hfind'⟩ | ⟨loc, t, t', hfind, hfind', htrees⟩ :=
    halike.find_cases here .target text
  · simp [hfind, hfind']
  · have hnode : t'.node = .directory ↔ t.node = .directory := by cases htrees <;> simp [Tree.node]
    simp [hfind, hfind', hnode]

theorem picks_congr {fs' : FileSystem} (h : ∀ loc, fs'.get? loc = fs.get? loc) :
    config.Picks extensions fs' here p top names ↔ config.Picks extensions fs here p top names := by
  simp only [picks_iff, isOpen_iff, h, leadsToDirectory_congr h]

theorem enters_congr {fs' : FileSystem} (h : ∀ loc, fs'.get? loc = fs.get? loc) :
    config.Enters fs' here p top names ↔ config.Enters fs here p top names := by
  simp only [Enters, isBranch_iff, isOpen_iff, h, leadsToDirectory_congr h]

/-- The order in which the directories list their entries makes no difference to a scan. -/
theorem sourcesBelow_congr (hextensions : config.extensionTexts = .ok extensions)
    (hpatterns : config.HasPatterns patterns) (hfs : fs.WellFormed)
    (hroot : fs.locate here .target p.text = .ok (.present top (.directory modified entries)))
    (hhere : p.isAbsolute = true ∨ here.lost = []) {fs' : FileSystem} (hfs' : fs'.WellFormed)
    (h : ∀ loc, fs'.get? loc = fs.get? loc) :
    config.sourcesBelow fs' here p = config.sourcesBelow fs here p := by
  have halike : Alike fs.get? fs'.get? := fun loc => .inl (h loc)
  obtain ⟨modified', entries', hroot'⟩ : ∃ modified' entries',
      fs'.locate here .target p.text = .ok (.present top (.directory modified' entries')) := by
    have hcases := halike.locate_cases here .target p.text
    simp only [hroot, reduceCtorEq, false_and, exists_false, false_or, Except.ok.injEq,
      Target.present.injEq] at hcases
    obtain ⟨_, _, t', ⟨rfl, rfl⟩, hroot', htrees⟩ := hcases
    cases htrees
    exact ⟨_, _, hroot'⟩
  have hitems : (config.sourcesBelow fs' here p).items = (config.sourcesBelow fs here p).items := by
    obtain ⟨found, hitems, hbefore, hfound⟩ :=
      exists_items_sourcesBelow hextensions hpatterns hfs hroot hhere
    obtain ⟨found', hitems', hbefore', hfound'⟩ :=
      exists_items_sourcesBelow hextensions hpatterns hfs' hroot' hhere
    rw [hitems, hitems', eq_of_pairwise_comesBefore hbefore' hbefore fun names => by
      simp only [hfound', hfound, picks_congr h, enters_congr h]]
  have hnone : (config.sourcesBelow fs' here p).fault = none ↔
      (config.sourcesBelow fs here p).fault = none := by
    rw [fault_sourcesBelow_eq_none hextensions hpatterns hfs hroot hhere,
      fault_sourcesBelow_eq_none hextensions hpatterns hfs' hroot' hhere]
    simp only [enters_congr h]
  have hfault : (config.sourcesBelow fs' here p).fault =
      (config.sourcesBelow fs here p).fault := by
    cases hf : (config.sourcesBelow fs here p).fault with
    | none => exact hnone.2 hf
    | some f =>
      obtain ⟨f', hf'⟩ : ∃ f', (config.sourcesBelow fs' here p).fault = some f' :=
        Option.ne_none_iff_exists'.1 fun hf' => by simp [hnone.1 hf'] at hf
      rw [hf', eq_tooDeep_of_fault_sourcesBelow hextensions hpatterns hroot hhere hf,
        eq_tooDeep_of_fault_sourcesBelow hextensions hpatterns hroot' hhere hf']
  exact Found.ext hitems hfault

/-! ## Scans of towers -/

section Tower

/-- The exclude patterns of a project that gives none. -/
def defaultPatterns : List Text := ["**/.git/**", "app/cache/**", "**/node_modules/**"]

theorem extensionTexts_default : default.extensionTexts = .ok [(".php" : Text)] := by cbv

theorem hasPatterns_default : default.HasPatterns defaultPatterns := rfl

variable {width height : Nat}

/-- The files of the upper directories of a tower come before the lower directories. -/
theorem precedes_tower {j k : Nat} :
    Precedes (List.replicate k (towerName width) ++ [("a.php" : Text)])
      (List.replicate j (towerName width)) ↔ k < j := by
  induction k generalizing j with
  | zero =>
    cases j with
    | zero => exact iff_of_false (not_precedes_nil (by simp)) (Nat.lt_irrefl 0)
    | succ j => exact iff_of_true (precedes_singleton _ (by simp)) j.succ_pos
  | succ k ih =>
    cases j with
    | zero => exact iff_of_false (not_precedes_nil (by simp)) (Nat.not_lt_zero _)
    | succ j =>
      rw [List.replicate_succ, List.replicate_succ, List.cons_append, precedes_cons_iff (by simp),
        ih]
      simp [Text.IsBefore]

theorem pairwise_towerFiles (width height : Nat) :
    ((List.range (height + 1)).map fun k =>
      List.replicate k (towerName width) ++ [("a.php" : Text)]).Pairwise ComesBefore := by
  refine List.pairwise_map.2 (List.pairwise_lt_range.imp fun {j k} hlt => ?_)
  obtain ⟨i, rfl⟩ := Nat.exists_eq_add_of_lt hlt
  rw [Nat.add_assoc, ← List.replicate_append_replicate, List.append_assoc,
    comesBefore_append _ (by simp) (by simp), List.replicate_succ, List.cons_append]
  obtain ⟨next, rest, hrest⟩ := List.exists_cons_of_ne_nil
    (List.append_ne_nil_of_right_ne_nil (List.replicate i (towerName width))
      (List.cons_ne_nil ("a.php" : Text) []))
  rw [hrest]
  trivial

variable (hdenied : here.denied.listings = [])

include hdenied

/-- A walk can look into the directories of a tower until their paths get too long. -/
theorem isOpen_tower {k : Nat} (hk : k ≤ height) (hshort : k * (width + 1) < maxPath) :
    IsOpen (filesInTower width height) here (.ofText "/") []
      (List.replicate k (towerName width)) := by
  refine ⟨get?_filesInTower.2 ⟨k, hk, .inl ⟨rfl, rfl⟩⟩, ?_, by simp [hdenied]⟩
  cases k with
  | zero => exact (by decide : (scanText (.ofText "/") []).fileLength < maxPath)
  | succ k =>
    rw [fileLength_tower k.succ_pos]
    exact hshort

/-- A walk comes to the directories of a tower behind those that it can look into. -/
theorem isBranch_tower : IsBranch (filesInTower width height) here (.ofText "/") [] names ↔
    ∃ k < height, k * (width + 1) < maxPath ∧
      names = List.replicate (k + 1) (towerName width) := by
  constructor
  · rintro ⟨hne, hnode, hinside⟩
    have hdirectory : (filesInTower width height).get? ([] ++ names) = some .directory := by
      refine hnode.resolve_right ?_
      rintro ⟨target, hlink, -⟩
      obtain ⟨_, -, ⟨-, h⟩ | ⟨-, h⟩⟩ := get?_filesInTower.1 hlink <;> cases h
    obtain ⟨k, hk, ⟨rfl, -⟩ | ⟨-, hfile⟩⟩ := get?_filesInTower.1 hdirectory
    · obtain _ | k := k
      · exact absurd rfl hne
      · refine ⟨k, hk, ?_, rfl⟩
        obtain _ | k := k
        · simp [maxPath]
        · have hopen := hinside (List.replicate (k + 1) (towerName width))
            (List.prefix_replicate_iff.2 ⟨by simp, by simp⟩) (by simp)
          exact fileLength_tower k.succ_pos ▸ hopen.short
    · cases hfile
  · rintro ⟨k, hk, hshort, rfl⟩
    refine ⟨by simp, .inl (get?_filesInTower.2 ⟨k + 1, hk, .inl ⟨rfl, rfl⟩⟩),
      fun front hfront hwhole => ?_⟩
    obtain ⟨hlength, hfront⟩ := List.prefix_replicate_iff.1 hfront
    have hlt : front.length ≤ k := by
      refine Nat.le_of_lt_succ (lt_of_le_of_ne hlength fun heq => hwhole ?_)
      rw [hfront, heq]
    rw [hfront]
    exact isOpen_tower hdenied (by omega) (lt_of_le_of_lt (Nat.mul_le_mul_right _ hlt) hshort)

/-- The default patterns let a scan go into all of them. -/
theorem enters_tower : default.Enters (filesInTower width height) here (.ofText "/") [] names ↔
    ∃ k < height, k * (width + 1) < maxPath ∧
      names = List.replicate (k + 1) (towerName width) := by
  rw [Enters, isBranch_tower hdenied]
  refine and_iff_left_of_imp ?_
  rintro ⟨k, -, -, rfl⟩ front hfront -
  exact includes_tower (hfront.trans (List.prefix_append ..))

/-- A scan picks the files of the directories that it can look into. -/
theorem picks_tower :
    default.Picks [(".php" : Text)] (filesInTower width height) here (.ofText "/") [] names ↔
      ∃ k ≤ height, k * (width + 1) < maxPath ∧
        names = List.replicate k (towerName width) ++ [("a.php" : Text)] := by
  constructor
  · rintro ⟨hpresent, hnode, -, hinside, -, -⟩
    obtain ⟨node, hhere⟩ := Option.ne_none_iff_exists'.1 hpresent
    obtain ⟨k, hk, ⟨rfl, rfl⟩ | ⟨rfl, rfl⟩⟩ := get?_filesInTower.1 hhere
    · exact absurd hhere hnode
    · refine ⟨k, hk, ?_, rfl⟩
      cases k with
      | zero => simp [maxPath]
      | succ k =>
        rw [← fileLength_tower k.succ_pos]
        exact (hinside _ (List.prefix_append ..) (by simp)).short
  · rintro ⟨k, hk, hshort, rfl⟩
    have hhere := get?_towerFile width hk
    refine ⟨by simp [hhere], by simp [hhere], fun target htarget => ?_, ?_, ?_, ?_⟩
    · cases hhere.symm.trans htarget
    · intro front hfront hwhole
      obtain ⟨hlength, hfront⟩ := List.prefix_replicate_iff.1
        ((List.prefix_concat_iff.1 hfront).resolve_left hwhole)
      rw [hfront]
      exact isOpen_tower hdenied (hlength.trans hk)
        (lt_of_le_of_lt (Nat.mul_le_mul_right _ hlength) hshort)
    · exact ⟨"a.php", by simp, by decide⟩
    · exact fun front hfront _ => includes_tower hfront

/-- Where no path is too long, a scan of a tower finds the files of all directories that do not lie
too deep. -/
theorem eq_of_picks_tower (hshort : height * (width + 1) < maxPath) {found : List (List Text)}
    (hbefore : found.Pairwise ComesBefore)
    (hfound : ∀ names, names ∈ found ↔ default.Picks [(".php" : Text)] (filesInTower width height)
      here (.ofText "/") [] names ∧
        ∀ deep, default.Enters (filesInTower width height) here (.ofText "/") [] deep →
          here.depths.scan < deep.length → Precedes names deep) :
    found = (List.range (min height here.depths.scan + 1)).map fun k =>
      List.replicate k (towerName width) ++ [("a.php" : Text)] := by
  have hshort {k : Nat} (hk : k ≤ height) : k * (width + 1) < maxPath :=
    lt_of_le_of_lt (Nat.mul_le_mul_right _ hk) hshort
  refine eq_of_pairwise_comesBefore hbefore (pairwise_towerFiles width _) fun names => ?_
  simp only [hfound, picks_tower hdenied, enters_tower hdenied, List.mem_map, List.mem_range]
  constructor
  · rintro ⟨⟨k, hk, -, rfl⟩, hdeep⟩
    refine ⟨k, ?_, rfl⟩
    by_cases hlow : height ≤ here.depths.scan
    · omega
    · have hbefore := hdeep _ ⟨here.depths.scan, by omega, hshort (by omega), rfl⟩ (by simp)
      have := precedes_tower.1 hbefore
      omega
  · rintro ⟨k, hk, rfl⟩
    refine ⟨⟨k, by omega, hshort (by omega), rfl⟩, ?_⟩
    rintro _ ⟨j, -, -, rfl⟩ hlength
    rw [List.length_replicate] at hlength
    exact precedes_tower.2 (by omega)

end Tower

/-! ## The result of a scan -/

/-- Below a path that is read off a text, other names have another text. -/
theorem eq_of_text_below_eq {root : Text} {names names' : List Text}
    (h : ∀ name ∈ names, name.IsName) (h' : ∀ name ∈ names', name.IsName)
    (htext : ((Path.ofText root).below names).text = ((Path.ofText root).below names').text) :
    names = names' := by
  have hread {names : List Text} (h : ∀ name ∈ names, name.IsName) :
      Path.ofText ((Path.ofText root).below names).text = (Path.ofText root).below names := by
    refine Path.ofText_text (fun part hpart => ?_) fun part hpart => ?_
    · obtain hpart | hpart := List.mem_append.1 hpart
      · exact Path.isSeparate_ofText root part hpart
      · exact ⟨(h part hpart).ne_empty, (h part hpart).no_slash⟩
    · obtain hpart | hpart := List.mem_append.1 hpart
      · simp only [Path.ofText, List.mem_filter] at hpart
        simpa using (Bool.and_eq_true_iff.1 hpart.2).2
      · exact (h part hpart).ne_here
  have hsame := (hread h).symm.trans ((congrArg Path.ofText htext).trans (hread h'))
  simpa [Path.below] using congrArg Path.parts hsame

/-- What a scan of a directory gives, if its settings are texts: each file that it picks once, those
of a directory in the order of their names, then those of its subdirectories in the order of theirs.
If a directory that it is to go into is more than `here.depths.scan` levels down, the scan ends
there, after the files that come before; nothing else ends it. The order in which the directories
list their entries makes no difference. -/
theorem sourcesBelow_exact {root : Text} (hextensions : config.extensionTexts = .ok extensions)
    (hpatterns : config.HasPatterns patterns) (hfs : fs.WellFormed)
    (hroot : fs.locate here .target (Path.ofText root).text =
      .ok (.present top (.directory modified entries)))
    (hhere : (Path.ofText root).isAbsolute = true ∨ here.lost = []) :
    (∃ found : List (List Text),
      (config.sourcesBelow fs here (.ofText root)).items =
        found.map (fun names => ((Path.ofText root).below names).text) ∧
      (config.sourcesBelow fs here (.ofText root)).items.Nodup ∧ found.Pairwise ComesBefore ∧
      ∀ names, names ∈ found ↔ config.Picks extensions fs here (.ofText root) top names ∧
        ∀ deep, config.Enters fs here (.ofText root) top deep → here.depths.scan < deep.length →
          Precedes names deep) ∧
    ((config.sourcesBelow fs here (.ofText root)).fault = none ↔
      ∀ deep, config.Enters fs here (.ofText root) top deep → deep.length ≤ here.depths.scan) ∧
    (∀ f, (config.sourcesBelow fs here (.ofText root)).fault = some f → f = .tooDeep) ∧
    ∀ fs' : FileSystem, fs'.WellFormed → (∀ loc, fs'.get? loc = fs.get? loc) →
      config.sourcesBelow fs' here (.ofText root) = config.sourcesBelow fs here (.ofText root) := by
  refine ⟨?_, fault_sourcesBelow_eq_none hextensions hpatterns hfs hroot hhere,
    fun f => eq_tooDeep_of_fault_sourcesBelow hextensions hpatterns hroot hhere,
    fun fs' hfs' h => sourcesBelow_congr hextensions hpatterns hfs hroot hhere hfs' h⟩
  obtain ⟨found, hitems, hbefore, hfound⟩ :=
    exists_items_sourcesBelow hextensions hpatterns hfs hroot hhere
  refine ⟨found, hitems, ?_, hbefore, hfound⟩
  have htop := tree?_of_locate_present hroot
  have hnames {names : List Text} (hmem : names ∈ found) : ∀ name ∈ names, name.IsName := by
    have hpresent := ((hfound names).1 hmem).1.present
    rw [get?_below htop] at hpresent
    obtain ⟨t, ht⟩ : ∃ t, (Tree.directory modified entries).get? names = some t :=
      Option.ne_none_iff_exists'.1 fun hnone => hpresent (by rw [hnone]; rfl)
    exact ((hfs.get? htop).1.get? ht).2
  rw [hitems, List.nodup_map_iff_inj_on (hbefore.imp ComesBefore.ne)]
  exact fun names hmem names' hmem' htext =>
    eq_of_text_below_eq (hnames hmem) (hnames hmem') htext

/-- The file of a directory comes before those below, though the directory lists it last. Where only
one level is allowed, the scan ends before the second one. -/
theorem sourcesBelow_exact_lowTower :
    default.extensionTexts = .ok [(".php" : Text)] ∧
    default.HasPatterns defaultPatterns ∧
    (filesInTower 1 2).WellFormed ∧
    (∀ here : Here, (filesInTower 1 2).locate here .target (Path.ofText "/").text =
      .ok (.present [] (.directory 0 (tower (towerName 1) "a.php" 2)))) ∧
    default.sourcesBelow (filesInTower 1 2) Here.root (.ofText "/") =
      { items := ["/a.php", "/d/a.php", "/d/d/a.php"] } ∧
    default.sourcesBelow (filesInTower 1 2) { location := [], depths := { scan := 1 } }
      (.ofText "/") = { items := ["/a.php", "/d/a.php"], fault := some .tooDeep } := by
  have hwell := wellFormed_filesInTower Nat.one_pos 2
  refine ⟨extensionTexts_default, hasPatterns_default, hwell, locate_root _, ?_, ?_⟩
  · obtain ⟨⟨found, hitems, -, hbefore, hfound⟩, hfault, -, -⟩ := sourcesBelow_exact
      extensionTexts_default hasPatterns_default hwell (locate_root _ Here.root) (.inl rfl)
    refine Found.ext ?_ (hfault.2 fun deep hdeep => ?_)
    · rw [hitems, eq_of_picks_tower rfl (by decide) hbefore hfound]
      decide
    · obtain ⟨k, hk, -, rfl⟩ := (enters_tower rfl).1 hdeep
      exact List.length_replicate.trans_le (hk.trans (by decide))
  · obtain ⟨⟨found, hitems, -, hbefore, hfound⟩, hfault, htooDeep, -⟩ := sourcesBelow_exact
      extensionTexts_default hasPatterns_default hwell
      (locate_root _ { location := [], depths := { scan := 1 } }) (.inl rfl)
    refine Found.ext ?_ ?_
    · rw [hitems, eq_of_picks_tower rfl (by decide) hbefore hfound]
      decide
    · obtain ⟨f, hf⟩ := Option.ne_none_iff_exists'.1 fun hnone => Nat.not_succ_le_self 1 <|
        hfault.1 hnone [towerName 1, towerName 1]
          ((enters_tower rfl).2 ⟨1, by decide, by decide, rfl⟩)
      rw [hf, htooDeep f hf]

/-- The file of a directory with a path of `maxPath` bytes is left out, and nothing tells it. -/
theorem sourcesBelow_skips_overlong :
    (filesInTower 255 16).WellFormed ∧
    ∃ names : List Text,
      (filesInTower 255 16).get? names = some (.file [] 0) ∧ names.getLast? = some "a.php" ∧
      (∀ front, front <+: names → front ≠ [] → front ≠ names →
        (filesInTower 255 16).get? front = some .directory) ∧
      (∀ front, front <+: names → front ≠ [] →
        default.includes (Text.join "/" front) = .ok true) ∧
      (default.sourcesBelow (filesInTower 255 16) Here.root (.ofText "/")).fault = none ∧
      ((Path.ofText "/").below names).text ∉
        (default.sourcesBelow (filesInTower 255 16) Here.root (.ofText "/")).items := by
  have hwell := wellFormed_filesInTower (show 0 < 255 by decide) 16
  have hfile := get?_towerFile 255 (Nat.le_refl 16)
  refine ⟨hwell, _, hfile, by simp, ?_, fun front hfront _ => includes_tower hfront, ?_, ?_⟩
  · rintro front ⟨rest, hrest⟩ - hwhole
    refine get?_eq_directory_of_append (show rest ≠ [] from ?_) ?_
    · rintro rfl
      exact hwhole (by simpa using hrest)
    · rw [hrest, hfile]
      simp
  · rw [fault_sourcesBelow_eq_none extensionTexts_default hasPatterns_default hwell
      (locate_root _ Here.root) (.inl rfl)]
    intro deep hdeep
    obtain ⟨k, hk, -, rfl⟩ := (enters_tower rfl).1 hdeep
    have hdepth : Here.root.depths.scan = 1000 := rfl
    rw [List.length_replicate]
    omega
  · obtain ⟨found, hitems, -, hfound⟩ := exists_items_sourcesBelow extensionTexts_default
      hasPatterns_default hwell (locate_root _ Here.root) (.inl rfl)
    rw [hitems]
    intro hmem
    obtain ⟨names, hnames, htext⟩ := List.mem_map.1 hmem
    obtain ⟨k, -, hshort, rfl⟩ := (picks_tower rfl).1 ((hfound names).1 hnames).1
    have hname (j : Nat) : ∀ name ∈ List.replicate j (towerName 255) ++ [("a.php" : Text)],
        name.IsName := by
      intro name hname
      obtain hname | hname := List.mem_append.1 hname
      · exact List.eq_of_mem_replicate hname ▸ isName_towerName (by decide)
      · exact List.mem_singleton.1 hname ▸ isName_towerFile
    have hlength := congrArg List.length (eq_of_text_below_eq (hname k) (hname 16) htext)
    obtain rfl : k = 16 := by simpa using hlength
    simp [maxPath] at hshort

/-! ## Walks that leave nothing out -/

theorem join_append {names rest : List Text} (hnames : names ≠ []) (hrest : rest ≠ []) :
    Text.join "/" (names ++ rest) = Text.join "/" names ++ .char '/' :: Text.join "/" rest := by
  have hslash := slash_join (List.append_ne_nil_of_left_ne_nil hnames rest)
  rw [List.flatMap_append, ← slash_join hnames, ← slash_join hrest] at hslash
  exact List.tail_eq_of_cons_eq hslash

theorem join_ne_dot {names : List Text} (h : ∀ name ∈ names, name.IsName) :
    Text.join "/" names ≠ "." := by
  match names with
  | [] => decide
  | [name] => simpa using (h name (by simp)).ne_here
  | a :: b :: names =>
    intro hdot
    have hslash : CodePoint.char '/' ∈ Text.join "/" (a :: b :: names) := by
      rw [Text.join_cons_cons]
      simp [Text.ofString]
    rw [hdot] at hslash
    revert hslash
    decide

/-- What a walk that goes into all directories finds below the directory at `top`, to which the path
`p` leads. It has the limits of a scan. -/
def filesBelow (fs : FileSystem) (here : Here) (p : Path) (top : Location) (directory : Tree) :
    Found ScanFault (List Text) :=
  if isShut here p top [] then {}
  else walkFrom .tooDeep (fun _ => true) here.depths.scan [] (walked fs here p top directory)

/-- A scan leaves out directories only in which it would pick nothing, if the patterns exclude what
is below a directory with the directory. -/
theorem stopsBefore_walk (hpatterns : config.HasPatterns patterns)
    (htails : ∀ pattern ∈ patterns, ("/**" : Text) <:+ pattern)
    (hwell : (Tree.directory modified entries).WellFormed) (depth : Nat) :
    ((walkFrom ScanFault.tooDeep (fun _ => true) depth []
        (walked fs here p top (.directory modified entries))).filter
          (wants extensions patterns)).StopsBefore
      ((walkFrom .tooDeep (allows patterns) depth []
        (walked fs here p top (.directory modified entries))).filter
          (wants extensions patterns)) := by
  refine stopsBefore_filter_walkFrom fun names inner rest hholds hrest hout => ?_
  obtain ⟨hne, -, t, ht, -⟩ := (holds_sorted_listing hwell).1 hholds
  have hdot := join_ne_dot (hwell.get? ht).2
  simp only [List.nil_append] at hout ⊢
  have hexcluded : config.includes (Text.join "/" names) = .ok false := by
    rw [includes_eq hpatterns]
    exact congrArg Except.ok hout
  have hbelow := includes_slash hpatterns htails hdot hexcluded (Text.join "/" rest)
  rw [← join_append hne hrest, includes_eq hpatterns, Except.ok.injEq] at hbelow
  rw [wants, allows, hbelow, Bool.and_false]

theorem fault_filesBelow (hfs : fs.WellFormed)
    (htop : fs.tree? top = some (.directory modified entries)) :
    (filesBelow fs here p top (.directory modified entries)).fault = none ↔
      ∀ deep, IsBranch fs here p top deep → deep.length ≤ here.depths.scan := by
  have hbranch (deep : List Text) :
      IsBranch fs here p top deep ↔ isShut here p top [] = false ∧
        Meets (fun _ => true) [] (walked fs here p top (.directory modified entries)) deep := by
    rw [meets_iff_isBranch htop (hfs.get? htop).1]
    simp
  simp only [hbranch, filesBelow]
  cases hshut : isShut here p top [] with
  | true => simp
  | false => simp [fault_walkFrom]

/-- Patterns that end in `/**` exclude what is below a directory with the directory. So a scan with
such patterns gives what a walk into all directories finds and what the patterns include, if that
walk comes to its end. It does if no directory lies too deep; otherwise the scan may go on where the
walk ends. -/
theorem sourcesBelow_prunes (hpatterns : config.HasPatterns patterns)
    (htails : ∀ pattern ∈ patterns, ("/**" : Text) <:+ pattern) :
    (∀ path rest : Text, path ≠ "." → config.includes path = .ok false →
      config.includes (path ++ .char '/' :: rest) = .ok false) ∧
    ∀ {extensions : List Text} {fs : FileSystem} {here : Here} {p : Path} {top : Location}
      {modified : Int} {entries : List (Text × Tree)}, config.extensionTexts = .ok extensions →
      fs.WellFormed →
      fs.locate here .target p.text = .ok (.present top (.directory modified entries)) →
      (p.isAbsolute = true ∨ here.lost = []) →
      let walk := filesBelow fs here p top (.directory modified entries)
      let kept := (walk.items.filter fun names => hasExtension extensions (names.getLastD []) &&
        decide (config.includes (Text.join "/" names) = .ok true)).map fun names =>
          (p.below names).text
      (walk.fault = none → config.sourcesBelow fs here p = { items := kept }) ∧
      kept <+: (config.sourcesBelow fs here p).items ∧
      (walk.fault = none ↔
        ∀ deep, IsBranch fs here p top deep → deep.length ≤ here.depths.scan) := by
  refine ⟨fun path rest hpath hout => includes_slash hpatterns htails hpath hout rest, ?_⟩
  intro extensions fs here p top modified entries hextensions hfs hroot hhere walk kept
  have htop := tree?_of_locate_present hroot
  have hwants : (fun names : List Text => hasExtension extensions (names.getLastD []) &&
      decide (config.includes (Text.join "/" names) = .ok true)) = wants extensions patterns := by
    funext names
    simp only [includes_eq_ok_true hpatterns, Bool.decide_eq_true, wants]
  have hstops : (((walk.filter (wants extensions patterns)).mapFault sourcesBelow.ofScan).map
      fun names => (p.below names).text).StopsBefore (config.sourcesBelow fs here p) := by
    rw [sourcesBelow_eq hextensions hpatterns hroot hhere]
    simp only [walk, filesBelow]
    split
    · exact .refl _
    · exact ((stopsBefore_walk hpatterns htails (hfs.get? htop).1 _).mapFault _).map _
  simp only [kept, hwants]
  refine ⟨fun hfault => ?_, hstops.items_prefix, fault_filesBelow hfs htop⟩
  rw [← hstops.eq (by simp [Found.map, Found.mapFault, Found.filter, hfault])]
  simp [Found.map, Found.mapFault, Found.filter, hfault]

theorem tails_default : ∀ pattern ∈ defaultPatterns, ("/**" : Text) <:+ pattern := by
  decide

/-- The default patterns exclude what is in a `.git` directory with the directory, and a walk finds
the files of a tower. -/
theorem sourcesBelow_prunes_lowTower :
    default.HasPatterns defaultPatterns ∧
    default.includes "lib/.git" = .ok false ∧ default.includes "lib/.git/a.php" = .ok false ∧
    default.extensionTexts = .ok [(".php" : Text)] ∧ (filesInTower 1 2).WellFormed ∧
    (filesBelow (filesInTower 1 2) Here.root (.ofText "/") []
      (.directory 0 (tower (towerName 1) "a.php" 2))).fault = none ∧
    ((filesBelow (filesInTower 1 2) Here.root (.ofText "/") []
      (.directory 0 (tower (towerName 1) "a.php" 2))).items.filter fun names =>
        hasExtension [(".php" : Text)] (names.getLastD []) &&
          decide (default.includes (Text.join "/" names) = .ok true)).map
        (fun names => ((Path.ofText "/").below names).text) =
      ["/a.php", "/d/a.php", "/d/d/a.php"] := by
  obtain ⟨hinherited, hwalk⟩ := sourcesBelow_prunes hasPatterns_default tails_default
  have hliteral : Glob.IsLiteral ".git" := by simp [Glob.IsLiteral, Text.ofString]
  have hpattern : ("**/.git/**" : Text) = "**/" ++ (".git" ++ "/**") := by decide
  have hgit : excludedBy (normalizePath "lib/.git") "**/.git/**" = true := by
    rw [hpattern, excludedBy_anywhere_iff hliteral]
    decide
  have hout : default.includes "lib/.git" = .ok false := by
    rw [includes_eq hasPatterns_default, defaultPatterns, List.any_cons, hgit, Bool.true_or,
      Bool.not_true]
  have hbelow := hinherited "lib/.git" "a.php" (by decide) hout
  have hwell := wellFormed_filesInTower Nat.one_pos 2
  obtain ⟨hkept, -, hfault⟩ :=
    hwalk extensionTexts_default hwell (locate_root _ Here.root) (.inl rfl)
  have hends := hfault.2 fun deep hdeep => by
    obtain ⟨k, hk, -, rfl⟩ := (isBranch_tower rfl).1 hdeep
    exact List.length_replicate.trans_le (hk.trans (by decide))
  obtain ⟨found, hitems, hbefore, hfound⟩ := exists_items_sourcesBelow extensionTexts_default
    hasPatterns_default hwell (locate_root _ Here.root) (.inl rfl)
  rw [hkept hends, eq_of_picks_tower rfl (by decide) hbefore hfound] at hitems
  exact ⟨hasPatterns_default, hout, hbelow, extensionTexts_default, hwell, hends,
    hitems.trans (by decide)⟩

end Config
end TagsFile
