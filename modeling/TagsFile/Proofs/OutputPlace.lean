import TagsFile.Proofs.Reach
import TagsFile.Proofs.ResolvedPlace

/-!
# Where output is written

A file is put in place by its path as it is given, while the directory from which its lines see
their sources is found by a resolution of that path. Where the path is no link the two agree.

## Main statements

* `FileSystem.exists_places_of_replaceFile`: the directory in which a file is replaced.
* `FileSystem.Places.parent_of_resolve`: that directory is the parent of the resolved path.
-/

namespace TagsFile.FileSystem

variable {fs fs' : FileSystem} {here : Here} {p : Path}

/-! ## The way to a path -/

/-- From a working directory that is there, a path whose text is one in some file system leads along
the same names in all of them. -/
theorem locate_eq_walk (hlost : here.lost = []) (hp : p.IsSeparate) {purpose : Purpose}
    {target : Target} (h : fs.locate here purpose p.text = .ok target) (fs' : FileSystem) :
    fs'.locate here purpose p.text =
      ((walk fs'.get? purpose maxLinks [] ((startOf here p).location ++
        (pieces p.text).map Text.respelled)).map fs'.targetAt).mapError .system := by
  cases hbytes : p.text.fileBytes? with
  | none => simp [locate, hbytes] at h
  | some bytes =>
    have hpieces : pieces (Text.ofFileBytes bytes) = (pieces p.text).map Text.respelled :=
      pieces_respelled (by simp [Text.asFileName?, hbytes])
    have hleave (names : List Text) :
        Here.leave? (startOf here p).lost names = some ([], names) := by
      rw [startOf]
      split
      · exact leave?_nil names
      · rw [hlost, leave?_nil]
    rw [locate, hbytes, startsAtRoot_text hp] at h ⊢
    dsimp only at h ⊢
    split at h
    · cases h
    · split at h
      · cases h
      · split at h
        · cases h
        · rename_i hnul hempty hlong
          rw [if_neg hnul, if_neg hempty, if_neg hlong, hpieces]
          exact congrArg (Except.mapError FileError.system) (followFrom_eq_walk (hleave _) purpose)

theorem walk_of_locate (hlost : here.lost = []) (hp : p.IsSeparate) {purpose : Purpose}
    {target : Target} {loc : Location} (h : fs.locate here purpose p.text = .ok target)
    (hloc : target.location? = some loc) :
    walk fs.get? purpose maxLinks [] ((startOf here p).location ++
      (pieces p.text).map Text.respelled) = .ok loc := by
  have hwalk := (locate_eq_walk hlost hp h fs).symm.trans h
  rw [mapError_eq_ok] at hwalk
  generalize walk fs.get? purpose maxLinks [] _ = result at hwalk ⊢
  cases result with
  | error e => cases hwalk
  | ok found =>
    cases hwalk
    rw [targetAt] at hloc
    split at hloc <;> cases hloc <;> rfl

/-- The working directory that a path is seen from can be walked to. -/
theorem Orderly.leads_start (ho : fs.Orderly here) (p : Path) :
    ∃ budget, Leads fs.get? maxLinks [] (startOf here p).location budget
      (startOf here p).location := by
  rw [startOf]
  split
  · exact ⟨maxLinks, .done⟩
  · have hway := way_up ho.isIn ho.there 0
    rw [List.drop_zero, List.reverse_reverse] at hway
    obtain ⟨names, budget, hleave, hleads⟩ := hway.way
    have hstart : startOf here ⟨.here, []⟩ = here := rfl
    rw [List.replicate_zero, hstart, ho.there, leave?_nil] at hleave
    obtain rfl : names = [] := by simpa [Path.leading] using hleave.symm
    exact ⟨budget, by simpa [hstart] using hleads⟩

theorem startOf_location_eq (h : here.location.IsNamed) (p : Path) :
    (startOf here p).location = placeOf here ⟨if p.isAbsolute then .root else .here, []⟩ := by
  rw [startOf]
  split
  · rfl
  · exact (placeOf_here h).symm

/-- The way to a path comes through the working directory that it is seen from. -/
theorem Orderly.leads_of_leads (ho : fs.Orderly here) {names : List Text} {budget : Nat}
    {dest : Location} (h : Leads fs.get? maxLinks []
      ((startOf here p).location ++ (Path.leading p.anchor ++ names)) budget dest) :
    ∃ budget', Leads fs.get? budget' (startOf here p).location names budget dest := by
  obtain ⟨budget', between, hfront, hback⟩ := h.split rfl
  obtain ⟨budget'', hstart⟩ := ho.leads_start p
  obtain rfl : between = (startOf here p).location :=
    Except.ok.inj (hfront.walk_eq.symm.trans hstart.walk_eq)
  refine ⟨budget', ?_⟩
  cases hanchor : p.anchor with
  | here => simpa [hanchor, Path.leading] using hback
  | root =>
    rw [hanchor] at hback
    exact hback.of_stay (.inl rfl)
  | twoSlashes =>
    rw [hanchor] at hback
    exact (hback.of_stay (.inl rfl)).of_stay (.inl rfl)

/-- The place of the last name of a path: the front of the path leads to the directory `dir`. -/
structure Places (fs : FileSystem) (here : Here) (p : Path) (dir : Location) (init : List Text)
    (last : Text) : Prop where
  parts : p.parts = init ++ [last]
  plain : last ≠ ".."
  short : last.respelled.fileLength ≤ maxName
  directory : fs.get? dir = some .directory
  leads : ∃ budget, Leads fs.get? maxLinks [] ((startOf here p).location ++
    (Path.leading p.anchor ++ init.map Text.respelled)) budget dir

theorem pieces_text_nil (anchor : Anchor) : ∃ (front : List Text) (name : Text),
    (name = "" ∨ name = ".") ∧ pieces (Path.mk anchor []).text = front ++ [name] := by
  cases anchor with
  | here => exact ⟨[], ".", .inr rfl, rfl⟩
  | root => exact ⟨[""], "", .inl rfl, rfl⟩
  | twoSlashes => exact ⟨["", ""], "", .inl rfl, rfl⟩

theorem isSeparate_of_isComponent (hp : ∀ part ∈ p.parts, IsComponent part) : p.IsSeparate :=
  fun part hpart => ⟨(hp part hpart).1, (hp part hpart).2.2⟩

theorem map_leading (anchor : Anchor) :
    (Path.leading anchor).map Text.respelled = Path.leading anchor := by
  refine Text.map_respelled fun name hname => ?_
  obtain rfl : name = "" := by cases anchor <;> simp_all [Path.leading]
  exact Text.asFileName?_ofString ""

/-- A walk that does not come to a directory ends with a name. -/
theorem exists_places_of_walk (hp : ∀ part ∈ p.parts, IsComponent part) {target : Location}
    (h : walk fs.get? .entry maxLinks [] ((startOf here p).location ++
      (pieces p.text).map Text.respelled) = .ok target)
    (htarget : fs.get? target ≠ some .directory) :
    ∃ dir init last, fs.Places here p dir init last ∧ target = dir ++ [last.respelled] := by
  obtain ⟨anchor, parts⟩ := p
  rcases List.eq_nil_or_concat parts with rfl | ⟨init, last, rfl⟩
  · obtain ⟨front, name, hname, hpieces⟩ := pieces_text_nil anchor
    rw [hpieces, List.map_append, ← List.append_assoc, List.map_singleton] at h
    obtain ⟨budget, dir, -, hwalk⟩ :=
      exists_leads_of_walk_append (by decide) (List.cons_ne_nil _ _) h
    have hdir := directory_of_walk hwalk
    have hstay : name.respelled = "" ∨ name.respelled = "." := by
      rwa [Text.respelled_eq_ofString (by simp), Text.respelled_eq_ofString (by simp)]
    rw [walk, if_pos hdir, if_pos (stays_iff.2 hstay), walk] at hwalk
    cases hwalk
    exact absurd hdir htarget
  · rw [List.concat_eq_append] at hp h ⊢
    rw [Path.pieces_text (isSeparate_of_isComponent hp) (by simp), ← List.append_assoc,
      List.map_append, List.map_append, map_leading, List.map_singleton, ← List.append_assoc] at h
    obtain ⟨budget, dir, hleads, hwalk⟩ :=
      exists_leads_of_walk_append (by decide) (List.cons_ne_nil _ _) h
    have hdir := directory_of_walk hwalk
    obtain ⟨hempty, hdot, -⟩ := hp last (by simp)
    by_cases hup : last = ".."
    · subst hup
      rw [Text.respelled_eq_self (Text.asFileName?_ofString ".."), walk, if_pos hdir,
        if_neg (by decide), if_pos rfl, walk] at hwalk
      cases hwalk
      exact absurd (get?_eq_directory_of_front (List.dropLast_prefix dir) hdir) htarget
    · obtain ⟨-, hshort, rfl⟩ :=
        eq_of_walk_entry (Text.respelled_plain ⟨hempty, hdot, hup⟩) hwalk
      exact ⟨dir, init, last, ⟨rfl, hup, hshort, hdir, budget, hleads⟩, rfl⟩

/-! ## The resolution of a path -/

/-- A resolution that is not strict ends with the last name, whatever that is, unless it is a link.
-/
theorem path_of_resolveFrom_last {depth : Nat} {links : KnownLinks} {last : Text} {r : Resolved}
    (hlast : last ≠ "" ∧ last ≠ "." ∧ last ≠ "..")
    (h : fs.resolveFrom here false depth links p [last] = .ok r)
    (hlink : ∀ loc target, fs.find here .entry (Path.mk p.anchor (p.parts ++ [last])).text ≠
      .ok (loc, .link target)) : r.path = ⟨p.anchor, p.parts ++ [last]⟩ := by
  obtain ⟨hstay, hup⟩ := plain_iff.1 hlast
  rw [resolveFrom, if_neg hstay, if_neg hup] at h
  dsimp only at h
  split at h
  · cases h
  · rw [if_neg (by decide), resolveFrom] at h
    cases h
    rfl
  · rename_i loc target hfind
    exact absurd hfind (hlink loc target)
  · rw [resolveFrom] at h
    cases h
    rfl

namespace Places

variable {dir : Location} {init : List Text} {last : Text}

theorem keep (h : fs.Places here p dir init last) (hk : Keeps fs.get? fs'.get?) :
    fs'.Places here p dir init last := by
  obtain ⟨budget, hleads⟩ := h.leads
  exact ⟨h.parts, h.plain, h.short, (hk dir).1 h.directory, budget, hleads.keep hk h.directory⟩

/-- The path leads to its place, if it is a path at all. -/
theorem locate_eq (h : fs.Places here p dir init last) (hp : ∀ part ∈ p.parts, IsComponent part)
    (hlost : here.lost = []) {target : Target}
    (hlocate : fs'.locate here .entry p.text = .ok target) :
    fs.locate here .entry p.text = .ok (fs.targetAt (dir ++ [last.respelled])) := by
  obtain ⟨anchor, parts⟩ := p
  obtain ⟨rfl, hup, hshort, hdir, budget, hleads⟩ := h
  obtain ⟨hempty, hdot, -⟩ := hp last (by simp)
  have hp := isSeparate_of_isComponent hp
  have hwalk : walk fs.get? .entry budget dir [last.respelled] = .ok (dir ++ [last.respelled]) := by
    rw [walk_cons hdir (Text.respelled_plain ⟨hempty, hdot, hup⟩) hshort (by decide)]
    split
    · rfl
    · rfl
    · rw [walk]
  rw [locate_eq_walk hlost hp hlocate, Path.pieces_text hp (by simp),
    ← List.append_assoc, List.map_append, List.map_append, map_leading, List.map_singleton,
    ← List.append_assoc, hleads.walk_append (.inl (List.cons_ne_nil _ _)) (by decide), hwalk]
  rfl

/-- The resolution of a path to something else than a link ends with its last name, which is in the
directory of its place. -/
theorem parent_of_resolve (h : fs.Places here p dir init last) (ho : fs.Orderly here)
    (hp : ∀ part ∈ p.parts, IsComponent part)
    (hlink : ∀ target, fs.get? (dir ++ [last.respelled]) ≠ some (.link target)) {q d : Path}
    (hq : fs.resolve here false p = .ok q) (hd : fs.resolve here true p.parent = .ok d) :
    q.parent = d ∧ d.anchor = .root ∧ d.parts.map Text.respelled = dir := by
  obtain ⟨budget, hleads⟩ := h.leads
  obtain ⟨budget', hleads⟩ := ho.leads_of_leads hleads
  obtain ⟨anchor, parts⟩ := p
  obtain ⟨rfl, hup, -⟩ := h
  rw [Path.parent, List.dropLast_concat] at hd
  obtain ⟨hempty, hdot, hnoslash⟩ := hp last (by simp)
  obtain ⟨r, links, hresolves, habsolute⟩ := resolve_eq_ok_iff.1 hd
  have hslash : ∀ name ∈ init, CodePoint.char '/' ∉ name :=
    fun name hname => (hp name (by simp [hname])).2.2
  have hstart : fs.Clear here ⟨if (Path.mk anchor init).isAbsolute then .root else .here, []⟩ :=
    clear_start (by split <;> simp)
  obtain ⟨hclear, -⟩ := hresolves.clear hstart (by simp)
  obtain ⟨hparts, -⟩ := hresolves.isComponent (by simp) hslash (by simp)
  have hplace : placeOf here r = dir := by
    refine (hresolves.placeOf_eq ho hstart (by simp) hslash (.nil fs here)).2 budget' budget dir ?_
    rw [startOf_location_eq ho.named] at hleads
    exact hleads
  obtain ⟨base, dest, names, -, rfl, -⟩ := hclear.exists_base habsolute
  rw [ho.absolute?_eq, Option.some.injEq] at habsolute
  refine ⟨?_, rfl, by rw [← habsolute]; exact hplace⟩
  have hnext (loc : Location) (target : Text) :
      fs.find here .entry (Path.mk r.anchor (r.parts ++ [last])).text ≠
        .ok (loc, .link target) := by
    intro hfind
    obtain ⟨-, rfl, hnode⟩ := hclear.find_next ho hparts ⟨hempty, hnoslash, hdot, hup⟩ hfind
    exact hlink target (hplace ▸ hnode)
  rw [resolve] at hq
  split at hq
  · cases hq
  · rename_i found hfound
    have hfound := (hresolves.resolveFrom_append false [last]).symm.trans hfound
    rw [path_of_resolveFrom_last ⟨hempty, hdot, hup⟩ hfound hnext, ho.absolute?_eq,
      absolute_concat hup, habsolute] at hq
    dsimp only at hq
    rw [if_neg (by decide)] at hq
    split at hq <;> cases hq
    simp [Path.parent, Location.path]

end Places

/-- A file that is new or has other bytes. -/
theorem extends_of_file {place : Location} {content : List UInt8} {time : Int}
    (hget : ∀ loc, fs'.get? loc = if loc = place then some (.file content time) else fs.get? loc)
    (hdir : fs.get? place ≠ some .directory)
    (hlink : ∀ target, fs.get? place ≠ some (.link target)) :
    Extends fs fs' ∧
      ∀ loc target, fs'.get? loc = some (.link target) → fs.get? loc = some (.link target) := by
  refine ⟨⟨fun loc => ?_, fun loc content' time' hold => ?_⟩, fun loc target hnode => ?_⟩
  · rw [hget]
    split
    · rename_i heq
      rw [heq]
      exact ⟨fun hnode => absurd hnode hdir, fun target hnode => absurd hnode (hlink target)⟩
    · exact ⟨id, fun _ => id⟩
  · rw [hget]
    split
    · exact ⟨content, time, rfl⟩
    · exact ⟨content', time', hold⟩
  · rw [hget] at hnode
    split at hnode
    · cases hnode
    · exact hnode

/-- A file that is replaced at a path that is no link is in the directory of its place, and all else
is as it was. -/
theorem exists_places_of_replaceFile (ho : fs.Orderly here)
    (hp : ∀ part ∈ p.parts, IsComponent part)
    {now : Int} {content : List UInt8}
    (hreplace : fs.replaceFile now here p content = (.ok (), fs'))
    (hlink : ∀ loc target, fs.find here .entry p.text ≠ .ok (loc, .link target)) :
    ∃ dir init last, fs.Places here p dir init last ∧
      (∀ target, fs.get? (dir ++ [last.respelled]) ≠ some (.link target)) ∧ Extends fs fs' ∧
      fs'.Orderly here ∧
      fs'.find here .entry p.text = .ok (dir ++ [last.respelled], .file content now) := by
  obtain ⟨e, herror, -⟩ | ⟨made, place, target, hnone, hmade, hmove, -, hget⟩ :=
    fs.replaceFile_cases now here p content
  · rw [hreplace] at herror
    cases herror
  · rw [hreplace] at hget
    obtain ⟨found, hlocate, hfound⟩ := exists_locate_of_moveTarget hmove
    have hwalk : walk made.get? .entry maxLinks [] ((startOf here p).location ++
        (pieces p.text).map Text.respelled) = .ok target :=
      walk_of_locate ho.there (isSeparate_of_isComponent hp) hlocate hfound
    have hfile := (get?_of_moveTarget hmove).2.2
    obtain ⟨dir, init, last, hplaces, rfl⟩ := exists_places_of_walk hp hwalk hfile
    have hkeeps : Keeps made.get? fs.get? := by
      intro loc
      rw [hmade]
      split
      · exact ⟨nofun, nofun⟩
      · exact ⟨id, fun _ => id⟩
    have hplaces := hplaces.keep hkeeps
    have hnolink (target : Text) : fs.get? (dir ++ [last.respelled]) ≠ some (.link target) := by
      intro hnode
      obtain ⟨tree, htree, -, htarget⟩ := targetAt_eq_present hnode
      obtain rfl : tree = .link target := by cases tree <;> simp_all [Tree.node]
      refine hlink (dir ++ [last.respelled]) target ?_
      rw [find, hplaces.locate_eq hp ho.there hlocate, htarget]
    have hnodir : fs.get? (dir ++ [last.respelled]) ≠ some .directory := by
      intro hdir
      refine hfile ?_
      rw [hmade, if_neg, hdir]
      rintro heq
      rw [heq, hnone] at hdir
      cases hdir
    obtain ⟨hextends, hlinks⟩ := extends_of_file hget hnodir hnolink
    refine ⟨dir, init, last, hplaces, hnolink, hextends, ho.extend hextends hlinks, ?_⟩
    have hnode : fs'.get? (dir ++ [last.respelled]) = some (.file content now) := by
      rw [hget, if_pos rfl]
    obtain ⟨tree, htree, -, htarget⟩ := targetAt_eq_present hnode
    obtain rfl : tree = .file content now := by cases tree <;> simp_all [Tree.node]
    rw [find, (hplaces.keep hextends.keeps).locate_eq hp ho.there hlocate, htarget]

end TagsFile.FileSystem
