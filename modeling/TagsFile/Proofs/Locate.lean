import TagsFile.Proofs.FileName
import TagsFile.Proofs.Walk

/-!
# Where paths made of names lead

Below a directory to which a path leads, names in the spelling of the file system lead where they
say, as long as no link stands on the way.

## Main definitions

* `Path.below`: a path with names behind it.
* `FileSystem.namesFrom?`: the names from the root along which a text leads.
* `FileSystem.Way`, `FileSystem.Base`: a path that leads to a directory. It does so after every
  change that keeps directories and links.
-/

namespace TagsFile

/-- The path that names lead to from `p`. -/
def Path.below (p : Path) (names : List Text) : Path := ⟨p.anchor, p.parts ++ names⟩

namespace FileSystem

theorem startsAtRoot_text {p : Path} (hp : p.IsSeparate) : startsAtRoot p.text = p.isAbsolute := by
  obtain ⟨anchor, parts⟩ := p
  cases parts with
  | nil => cases anchor <;> rfl
  | cons part parts =>
    rw [Path.text_eq hp (by simp)]
    cases anchor with
    | root | twoSlashes => rfl
    | here =>
      have hpart := hp part (by simp)
      cases part with
      | nil => exact absurd rfl hpart.1
      | cons c part =>
        have hc : c ≠ .char '/' := fun h => hpart.2 (by simp [h])
        cases parts <;> simp [startsAtRoot, Path.anchorText, Path.isAbsolute, Text.join_cons_cons,
          hc]

theorem mapError_eq_ok {ε ε' α : Type} {f : ε → ε'} {x : Except ε α} {a : α} :
    x.mapError f = .ok a ↔ x = .ok a := by
  cases x <;> simp [Except.mapError]

/-- The working directory that a path is seen from. -/
def startOf (here : Here) (p : Path) : Here := if p.isAbsolute then Here.root else here

theorem locate_text {p : Path} (hp : p.IsProper) (fs : FileSystem) (here : Here)
    (purpose : Purpose) : fs.locate here purpose p.text =
      if maxPath ≤ p.text.fileLength then .error (.system .nameTooLong)
      else (fs.followFrom (startOf here p) purpose (pieces p.text)).mapError .system := by
  obtain ⟨bytes, hbytes, hspelled⟩ := Text.asFileName?_eq_some.1 (Path.asFileName?_text hp)
  have hnul : bytes.contains 0 = false := by
    simpa using Text.zero_notMem_fileBytes? hbytes (Path.nul_notMem_text hp)
  have hempty : bytes ≠ [] := by
    rintro rfl
    exact p.text_ne_empty (hspelled.symm.trans (by rw [Text.ofFileBytes]; rfl))
  have hlength : p.text.fileLength = bytes.length := by simp [Text.fileLength, hbytes]
  rw [locate, hbytes, hlength]
  simp only [hnul, hempty, hspelled, startsAtRoot_text hp.isSeparate]
  rfl

/-- Following names from a working directory comes to the location that the nodes tell. -/
theorem followFrom_eq_walk {fs : FileSystem} {start : Here} {names rest : List Text}
    (h : Here.leave? start.lost names = some ([], rest)) (purpose : Purpose) :
    fs.followFrom start purpose names =
      (walk fs.get? purpose maxLinks [] (start.location ++ rest)).map fs.targetAt := by
  rw [followFrom, h]
  have hplace : fs.HasPlace (Place.mk fs.root []).above (Place.mk fs.root []).tree := rfl
  exact follow_eq_walk purpose maxLinks hplace _

theorem leave?_nil (names : List Text) : Here.leave? [] names = some ([], names) := by
  simp [Here.leave?]

theorem leave?_append {lost : List Int} {names rest : List Text}
    (h : Here.leave? lost names = some ([], rest)) (more : List Text) :
    Here.leave? lost (names ++ more) = some ([], rest ++ more) := by
  fun_induction Here.leave? lost names <;> simp_all [Here.leave?]

/-! ## Paths that lead to directories -/

/-- A path whose components lead to the directory at `dest`. -/
structure Way (fs : FileSystem) (here : Here) (base : Path) (dest : Location) : Prop where
  proper : base.IsProper
  directory : fs.get? dest = some .directory
  way : ∃ names budget,
    Here.leave? (startOf here base).lost (Path.leading base.anchor ++ base.parts) =
        some ([], names) ∧
      Leads fs.get? maxLinks [] ((startOf here base).location ++ names) budget dest

/-- A path that leads to the directory at `dest`, and is short enough for it. -/
structure Base (fs : FileSystem) (here : Here) (base : Path) (dest : Location) : Prop
    extends Way fs here base dest where
  short : base.text.fileLength < maxPath

/-- The pieces of a path's text: its components, behind what the slashes at the front give. If there
are none, a piece that leads nowhere stands in their place. -/
theorem pieces_text_cases {p : Path} (hp : p.IsSeparate) :
    pieces p.text = Path.leading p.anchor ++ p.parts ∨
      p.parts = [] ∧ ∃ name : Text, (name = "" ∨ name = ".") ∧
        pieces p.text = Path.leading p.anchor ++ [name] := by
  obtain ⟨anchor, parts⟩ := p
  by_cases hne : parts = []
  · subst hne
    right
    refine ⟨rfl, ?_⟩
    cases anchor with
    | here => exact ⟨".", .inr rfl, rfl⟩
    | root => exact ⟨"", .inl rfl, rfl⟩
    | twoSlashes => exact ⟨"", .inl rfl, rfl⟩
  · exact .inl (Path.pieces_text hp hne)

variable {fs fs' : FileSystem} {here : Here} {base : Path} {dest : Location}

/-- What is found at the end of a path is at the end of a way. -/
theorem exists_leads_of_followFrom {start : Here} {names : List Text} {tree : Tree}
    (h : fs.followFrom start .target names = .ok (.present dest tree)) :
    fs.tree? dest = some tree ∧ ∃ rest budget, Here.leave? start.lost names = some ([], rest) ∧
      Leads fs.get? maxLinks [] (start.location ++ rest) budget dest := by
  cases hleave : Here.leave? start.lost names with
  | none => simp [followFrom, hleave] at h
  | some pair =>
    obtain ⟨lost, rest⟩ := pair
    cases lost with
    | cons time lost => simp [followFrom, hleave] at h
    | nil =>
      rw [followFrom_eq_walk hleave] at h
      cases hwalk : walk fs.get? .target maxLinks [] (start.location ++ rest) with
      | error e => simp [hwalk, Except.map] at h
      | ok loc =>
        simp only [hwalk, Except.map, targetAt, Except.ok.injEq] at h
        split at h
        · rename_i found hfound
          cases h
          have hdest : fs.get? dest ≠ none := by simp [get?_eq_map, hfound]
          obtain ⟨budget, hleads⟩ := exists_leads hwalk hdest
          exact ⟨hfound, rest, budget, rfl, hleads⟩
        · cases h

/-- The names from the root along which a text leads, unless it is no path or stays in a directory
that has been taken away. -/
def namesFrom? (here : Here) (text : Text) : Option (List Text) :=
  let start := if startsAtRoot text then Here.root else here
  match (text.fileBytes?.map Text.ofFileBytes).bind (Here.leave? start.lost <| pieces ·) with
  | some ([], names) => some (start.location ++ names)
  | _ => none

/-- Where a text leads is told by a walk along its names, unless the text is no path or leads to a
directory that has been taken away. The names are the same for all purposes. -/
theorem locate_along (here : Here) (text : Text) :
    (∃ gone, ∀ (fs : FileSystem) (purpose : Purpose),
      fs.locate here purpose text = .ok (.lost gone)) ∨
    (∃ e, (e = .system .nameTooLong ∨ e.meansAbsent = true) ∧
      ∀ (fs : FileSystem) (purpose : Purpose), fs.locate here purpose text = .error e) ∨
    ∃ names, namesFrom? here text = some names ∧
      ∀ (fs : FileSystem) (purpose : Purpose), fs.locate here purpose text =
        ((walk fs.get? purpose maxLinks [] names).map fs.targetAt).mapError .system := by
  cases hbytes : text.fileBytes? with
  | none =>
    exact .inr (.inl ⟨.badPath .unencodable, .inr rfl, fun _ _ => by simp only [locate, hbytes]⟩)
  | some bytes =>
    simp only [locate, namesFrom?, hbytes, Option.map_some, Option.bind_some]
    split
    · exact .inr (.inl ⟨_, .inr rfl, fun _ _ => rfl⟩)
    split
    · exact .inr (.inl ⟨_, .inr rfl, fun _ _ => rfl⟩)
    split
    · exact .inr (.inl ⟨_, .inl rfl, fun _ _ => rfl⟩)
    generalize (if startsAtRoot text then Here.root else here) = start
    generalize pieces (Text.ofFileBytes bytes) = names
    cases hleave : Here.leave? start.lost names with
    | none =>
      refine .inr (.inl ⟨.system .noEntry, .inr rfl, fun fs purpose => ?_⟩)
      simp [followFrom, hleave, Except.mapError]
    | some pair =>
      obtain ⟨lost, rest⟩ := pair
      cases lost with
      | nil => exact .inr (.inr ⟨_, rfl, fun fs purpose => by rw [followFrom_eq_walk hleave]⟩)
      | cons time lost =>
        refine .inl ⟨{ start with lost := time :: lost }, fun fs purpose => ?_⟩
        simp only [followFrom, hleave, Except.mapError]

theorem locate_cases (here : Here) (purpose : Purpose) (text : Text) :
    (∃ gone, ∀ fs : FileSystem, fs.locate here purpose text = .ok (.lost gone)) ∨
    (∃ e, (e = .system .nameTooLong ∨ e.meansAbsent = true) ∧
      ∀ fs : FileSystem, fs.locate here purpose text = .error e) ∨
    ∃ names, namesFrom? here text = some names ∧ ∀ fs : FileSystem, fs.locate here purpose text =
      ((walk fs.get? purpose maxLinks [] names).map fs.targetAt).mapError .system := by
  obtain ⟨gone, hlocate⟩ | ⟨e, he, hlocate⟩ | ⟨names, hnames, hlocate⟩ := locate_along here text
  · exact .inl ⟨gone, fun fs => hlocate fs purpose⟩
  · exact .inr (.inl ⟨e, he, fun fs => hlocate fs purpose⟩)
  · exact .inr (.inr ⟨names, hnames, fun fs => hlocate fs purpose⟩)

theorem exists_walk_of_locate {purpose : Purpose} {text : Text} {target : Target}
    (h : fs.locate here purpose text = .ok target) : (∃ gone, target = .lost gone) ∨
      ∃ names loc, namesFrom? here text = some names ∧
        walk fs.get? purpose maxLinks [] names = .ok loc ∧ target = fs.targetAt loc := by
  obtain ⟨gone, hlocate⟩ | ⟨e, -, hlocate⟩ | ⟨names, hnames, hlocate⟩ :=
    locate_cases here purpose text
  · exact .inl ⟨gone, Except.ok.inj (h.symm.trans (hlocate fs))⟩
  · simp [hlocate] at h
  · rw [hlocate, mapError_eq_ok] at h
    cases hwalk : walk fs.get? purpose maxLinks [] names with
    | error e => simp [hwalk, Except.map] at h
    | ok loc =>
      rw [hwalk] at h
      exact .inr ⟨names, loc, hnames, hwalk, (Except.ok.inj h).symm⟩

/-- Nothing is at a vacant place, but its directory is there. -/
theorem get?_of_locate_vacant {purpose : Purpose} {text : Text} {loc : Location}
    (h : fs.locate here purpose text = .ok (.vacant loc)) :
    fs.get? loc = none ∧ fs.get? loc.dropLast = some .directory := by
  obtain ⟨gone, hgone⟩ | ⟨names, found, -, hwalk, hfound⟩ := exists_walk_of_locate h
  · cases hgone
  · cases hnode : fs.get? found with
    | some n =>
      obtain ⟨tree, -, -, htarget⟩ := targetAt_eq_present hnode
      simp [htarget] at hfound
    | none =>
      rw [targetAt_eq_vacant hnode] at hfound
      cases hfound
      exact ⟨hnode, get?_dropLast_of_walk hwalk (by simp) hnode⟩

/-- Why a path leads nowhere. -/
theorem meansAbsent_of_locate {purpose : Purpose} {text : Text} {e : FileError}
    (hpurpose : purpose ≠ .output) (h : fs.locate here purpose text = .error e) :
    e = .system .nameTooLong ∨ e.meansAbsent = true := by
  obtain ⟨gone, hlocate⟩ | ⟨e', he', hlocate⟩ | ⟨names, -, hlocate⟩ :=
    locate_cases here purpose text
  · simp [hlocate] at h
  · rw [hlocate, Except.error.injEq] at h
    exact h ▸ he'
  · rw [hlocate] at h
    cases hwalk : walk fs.get? purpose maxLinks [] names with
    | ok loc => simp [hwalk, Except.map, Except.mapError] at h
    | error e' =>
      rw [hwalk] at h
      cases h
      obtain rfl | habsent := meansAbsent_of_walk hpurpose hwalk
      · exact .inl rfl
      · exact .inr habsent

theorem tree?_of_locate_present {purpose : Purpose} {text : Text} {loc : Location} {tree : Tree}
    (h : fs.locate here purpose text = .ok (.present loc tree)) : fs.tree? loc = some tree := by
  obtain ⟨gone, hgone⟩ | ⟨names, found, -, -, hfound⟩ := exists_walk_of_locate h
  · cases hgone
  · rw [targetAt] at hfound
    split at hfound
    · rename_i htree
      cases hfound
      exact htree
    · cases hfound

theorem locate_of_find {purpose : Purpose} {text : Text} {loc : Location} {tree : Tree}
    (h : fs.find here purpose text = .ok (loc, tree)) :
    fs.locate here purpose text = .ok (.present loc tree) := by
  rw [find] at h
  split at h
  · cases h
  · cases h
    assumption
  · cases h

theorem tree?_of_find {purpose : Purpose} {text : Text} {loc : Location} {tree : Tree}
    (h : fs.find here purpose text = .ok (loc, tree)) : fs.tree? loc = some tree :=
  tree?_of_locate_present (locate_of_find h)

theorem get?_of_find {purpose : Purpose} {text : Text} {loc : Location} {tree : Tree}
    (h : fs.find here purpose text = .ok (loc, tree)) : fs.get? loc = some tree.node := by
  rw [get?_eq_map, tree?_of_find h]
  rfl

/-- The same place in another file system. -/
def Target.within (fs : FileSystem) : Target → Target
  | .present loc _ => fs.targetAt loc
  | .vacant loc => fs.targetAt loc
  | .lost here => .lost here

theorem within_targetAt (fs fs' : FileSystem) (loc : Location) :
    Target.within fs' (fs.targetAt loc) = fs'.targetAt loc := by
  cases hnode : fs.get? loc with
  | none => rw [targetAt_eq_vacant hnode, Target.within]
  | some n =>
    obtain ⟨tree, -, -, htarget⟩ := targetAt_eq_present hnode
    rw [htarget, Target.within]

/-- Paths lead to the same places whatever is in the files. -/
theorem Alike.locate_eq (h : Alike fs.get? fs'.get?) (purpose : Purpose) (text : Text) :
    fs'.locate here purpose text = (fs.locate here purpose text).map (Target.within fs') := by
  obtain ⟨gone, hlocate⟩ | ⟨e, -, hlocate⟩ | ⟨names, -, hlocate⟩ := locate_cases here purpose text
  · rw [hlocate, hlocate]
    rfl
  · rw [hlocate, hlocate]
    rfl
  · rw [hlocate, hlocate, h.walk_eq]
    cases walk fs.get? purpose maxLinks [] names with
    | error e => rfl
    | ok loc => simp only [Except.map, Except.mapError, within_targetAt]

theorem Base.of_find {tree : Tree} (hp : base.IsProper)
    (h : fs.find here .target base.text = .ok (dest, tree)) (htree : tree.node = .directory) :
    fs.Base here base dest := by
  rw [find, locate_text hp] at h
  by_cases hlong : maxPath ≤ base.text.fileLength
  · simp [hlong] at h
  rw [if_neg hlong] at h
  have hfollow : fs.followFrom (startOf here base) .target (pieces base.text) =
      .ok (.present dest tree) := by
    rw [← mapError_eq_ok (f := FileError.system)]
    split at h <;> simp_all
  obtain ⟨hdest, rest, budget, hleave, hleads⟩ := exists_leads_of_followFrom hfollow
  refine ⟨⟨hp, by rw [get?_eq_map, hdest, Option.map_some, htree], ?_⟩, by omega⟩
  obtain hpieces | ⟨hparts, name, hname, hpieces⟩ := pieces_text_cases hp.isSeparate
  · exact ⟨rest, budget, hpieces ▸ hleave, hleads⟩
  · rw [hpieces] at hleave
    have hlost : (startOf here base).lost = [] := by
      cases hl : (startOf here base).lost with
      | nil => rfl
      | cons time lost =>
        rw [hl] at hleave
        obtain rfl | rfl := hname <;> cases hanchor : base.anchor <;>
          simp [hanchor, Path.leading, Here.leave?] at hleave
    rw [hlost, Here.leave?] at hleave
    cases hleave
    obtain ⟨budget₁, between, hfront, hback⟩ := hleads.split (List.append_assoc ..).symm
    obtain ⟨rfl, rfl⟩ := hback.eq_of_stay hname
    exact ⟨_, budget₁, by rw [hlost, hparts, List.append_nil, Here.leave?], hfront⟩

/-- A path leads to a directory after every change that keeps directories and links. -/
theorem Base.keep (h : fs.Base here base dest) (hk : Keeps fs.get? fs'.get?) :
    fs'.Base here base dest := by
  obtain ⟨names, budget, hleave, hleads⟩ := h.way
  exact ⟨⟨h.proper, (hk _).1 h.directory, names, budget, hleave, hleads.keep hk h.directory⟩,
    h.short⟩

/-- The directory itself. -/
theorem Base.exists_leads_pieces (h : fs.Base here base dest) : ∃ rest budget,
    Here.leave? (startOf here base).lost (pieces base.text) = some ([], rest) ∧
      Leads fs.get? maxLinks [] ((startOf here base).location ++ rest) budget dest := by
  obtain ⟨names, budget, hleave, hleads⟩ := h.way
  obtain hpieces | ⟨hparts, name, hname, hpieces⟩ := pieces_text_cases h.proper.isSeparate
  · exact ⟨names, budget, by rw [hpieces, hleave], hleads⟩
  · rw [hparts, List.append_nil] at hleave
    refine ⟨names ++ [name], budget, by rw [hpieces, leave?_append hleave], ?_⟩
    rw [← List.append_assoc]
    exact hleads.trans (.stay h.directory hname .done)

theorem Base.locate_target (h : fs.Base here base dest) :
    ∃ tree, fs.locate here .target base.text = .ok (.present dest tree) ∧
      fs.tree? dest = some tree ∧ tree.node = .directory := by
  obtain ⟨rest, budget, hleave, hleads⟩ := h.exists_leads_pieces
  obtain ⟨tree, htree⟩ := exists_tree?_eq_some (show fs.get? dest ≠ none by simp [h.directory])
  have hnode : tree.node = .directory := by simpa [get?_eq_map, htree] using h.directory
  refine ⟨tree, ?_, htree, hnode⟩
  rw [locate_text h.proper, if_neg (by have := h.short; omega), followFrom_eq_walk hleave,
    hleads.walk_eq, Except.map, targetAt, htree]
  rfl

theorem Base.locate_entry (h : fs.Base here base dest) :
    ∃ loc tree, fs.locate here .entry base.text = .ok (.present loc tree) := by
  obtain ⟨rest, budget, hleave, hleads⟩ := h.exists_leads_pieces
  obtain ⟨entry, hwalk, hentry⟩ := hleads.exists_entry (by simp [h.directory])
  obtain ⟨tree, htree⟩ := exists_tree?_eq_some hentry
  refine ⟨entry, tree, ?_⟩
  rw [locate_text h.proper, if_neg (by have := h.short; omega), followFrom_eq_walk hleave, hwalk,
    Except.map, targetAt, htree]
  rfl

/-! ## Names below a directory -/

theorem Way.proper_below (h : fs.Way here base dest) {names : List Text}
    (hnames : ∀ name ∈ names, Text.IsName name) : (base.below names).IsProper := by
  intro part hpart
  obtain hpart | hpart := List.mem_append.1 hpart
  · exact h.proper part hpart
  · exact (hnames part hpart).toIsPart

theorem Way.exists_locate_below (h : fs.Way here base dest) : ∃ budget, ∀ purpose names,
    purpose ≠ .output → names ≠ [] → (∀ name ∈ names, Text.IsName name) →
      fs.locate here purpose (base.below names).text =
        if maxPath ≤ (base.below names).text.fileLength then .error (.system .nameTooLong)
        else ((walk fs.get? purpose budget dest names).map fs.targetAt).mapError .system := by
  obtain ⟨front, budget, hleave, hleads⟩ := h.way
  refine ⟨budget, fun purpose names hpurpose hne hnames => ?_⟩
  have hpieces : pieces (base.below names).text =
      Path.leading base.anchor ++ base.parts ++ names := by
    rw [Path.below, Path.pieces_text (h.proper_below hnames).isSeparate (by simp [hne]),
      List.append_assoc]
  have hleave' := leave?_append hleave names
  rw [← hpieces] at hleave'
  rw [locate_text (h.proper_below hnames)]
  show (if _ then _ else (fs.followFrom (startOf here base) _ _).mapError _) = _
  rw [followFrom_eq_walk hleave', ← List.append_assoc, hleads.walk_append (.inl hne) hpurpose]

/-- Whether the path of some names below `base` and each of the names are short enough. -/
structure Fits (base : Path) (names : List Text) : Prop where
  path : (base.below names).text.fileLength < maxPath
  names : ∀ name ∈ names, name.fileLength ≤ maxName

theorem plain_of_isName {names : List Text} (h : ∀ name ∈ names, Text.IsName name) :
    ∀ name ∈ names, name ≠ "" ∧ name ≠ "." ∧ name ≠ ".." :=
  fun name hname => ⟨(h name hname).ne_empty, (h name hname).ne_here, (h name hname).ne_up⟩

/-- Names below a directory lead to the location that they spell, if anywhere. -/
theorem Way.locate_below_cases (h : fs.Way here base dest) {purpose : Purpose}
    (hpurpose : purpose ≠ .output) {names : List Text} (hne : names ≠ [])
    (hnames : ∀ name ∈ names, Text.IsName name) (hlinks : Unlinked fs.get? dest names) :
    (∃ e, fs.locate here purpose (base.below names).text = .error (.system e)) ∨
      fs.locate here purpose (base.below names).text = .ok (fs.targetAt (dest ++ names)) ∧
        Fits base names ∧ fs.get? (dest ++ names.dropLast) = some .directory := by
  obtain ⟨budget, hlocate⟩ := h.exists_locate_below
  rw [hlocate purpose names hpurpose hne hnames]
  split
  · exact .inl ⟨_, rfl⟩
  · rename_i hshort
    cases hwalk : walk fs.get? purpose budget dest names with
    | error e => exact .inl ⟨e, rfl⟩
    | ok loc =>
      obtain ⟨rfl, hnames, hfront⟩ :=
        (walk_eq_ok_iff hpurpose (plain_of_isName hnames) hlinks).1 hwalk
      refine .inr ⟨rfl, ⟨by omega, hnames⟩, hfront _ (List.dropLast_prefix names) fun heq => ?_⟩
      have hlength := congrArg List.length heq
      have hpos := List.length_pos_iff.2 hne
      rw [List.length_dropLast] at hlength
      omega

theorem Way.locate_below (h : fs.Way here base dest) {purpose : Purpose}
    (hpurpose : purpose ≠ .output) {names : List Text} (hne : names ≠ [])
    (hnames : ∀ name ∈ names, Text.IsName name) (hlinks : Unlinked fs.get? dest names)
    (hfits : Fits base names) (hdir : fs.get? (dest ++ names.dropLast) = some .directory) :
    fs.locate here purpose (base.below names).text = .ok (fs.targetAt (dest ++ names)) := by
  obtain ⟨budget, hlocate⟩ := h.exists_locate_below
  have hwalk : walk fs.get? purpose budget dest names = .ok (dest ++ names) := by
    rw [walk_eq_ok_iff hpurpose (plain_of_isName hnames) hlinks]
    refine ⟨rfl, hfits.names, fun front hfront hproper => ?_⟩
    obtain ⟨init, last, rfl⟩ : ∃ init last, names = init ++ [last] := by
      simpa using (List.eq_nil_or_concat names).resolve_left hne
    have hinit : front <+: init := (List.prefix_concat_iff.1 hfront).resolve_left hproper
    rw [List.dropLast_concat] at hdir
    exact get?_eq_directory_of_front (List.prefix_append_right_inj dest |>.2 hinit) hdir
  rw [hlocate purpose names hpurpose hne hnames, if_neg (by have := hfits.path; omega), hwalk]
  rfl

theorem get?_dropLast_of_file {names : List Text} (hne : names ≠ []) {n : Node}
    (h : fs.get? (dest ++ names) = some n) :
    fs.get? (dest ++ names.dropLast) = some .directory := by
  obtain ⟨init, last, rfl⟩ : ∃ init last, names = init ++ [last] := by
    simpa using (List.eq_nil_or_concat names).resolve_left hne
  rw [List.dropLast_concat]
  rw [← List.append_assoc] at h
  exact get?_eq_directory_of_append (List.cons_ne_nil last []) (by rw [h]; nofun)

/-- A file below a directory is found by its names. -/
theorem Way.locate_file (h : fs.Way here base dest) {purpose : Purpose}
    (hpurpose : purpose ≠ .output) {names : List Text} (hne : names ≠ [])
    (hnames : ∀ name ∈ names, Text.IsName name) (hlinks : Unlinked fs.get? dest names)
    (hfits : Fits base names) {content : List UInt8} {time : Int}
    (hfile : fs.get? (dest ++ names) = some (.file content time)) :
    fs.locate here purpose (base.below names).text =
      .ok (.present (dest ++ names) (.file content time)) := by
  obtain ⟨tree, hnode, -, htarget⟩ := targetAt_eq_present hfile
  rw [h.locate_below hpurpose hne hnames hlinks hfits (get?_dropLast_of_file hne hfile), htarget]
  cases tree <;> simp_all [Tree.node]

end FileSystem
end TagsFile
