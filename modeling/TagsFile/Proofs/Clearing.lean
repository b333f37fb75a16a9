import TagsFile.Proofs.Listing
import TagsFile.Proofs.Saving

/-!
# Clearing a store

Below the root of a store, clearing takes away all files that have the name of an entry. It goes
down to a fixed depth: if directories lie deeper it stops there, and the files that it has not come
to are left.

## Main definitions

* `Store.EntryNamed`, `Store.Tidy`: what lies below the root of a store that nobody else writes to.
* `Store.Thins`: a change that takes away files below the root and does nothing else.
-/

namespace TagsFile.Store

open FileSystem

/-- Whether below `top` the files are just what has the name of an entry. -/
structure EntryNamed (fs : FileSystem) (top : Location) : Prop where
  noFile : ∀ content time, fs.get? top ≠ some (.file content time)
  directory : ∀ names name, fs.get? (top ++ (names ++ [name])) = some .directory →
    isEntryName name = false
  file : ∀ names name content time,
    fs.get? (top ++ (names ++ [name])) = some (.file content time) → isEntryName name = true

/-- What lies below `top`, to which `root` leads, if nobody else writes there. -/
structure Tidy (fs : FileSystem) (root : Path) (top : Location) : Prop extends
    EntryNamed fs top where
  unlinked : ∀ names target, fs.get? (top ++ names) ≠ some (.link target)
  short : ∀ names, fs.get? (top ++ names) ≠ none → (root.below names).text.fileLength < maxPath

/-- A change that takes away files below `top` and does nothing else. -/
def Thins (top : Location) (fs fs' : FileSystem) : Prop :=
  ∀ loc, fs'.get? loc = fs.get? loc ∨ fs'.get? loc = none ∧
    ∃ names content time, loc = top ++ names ∧ fs.get? loc = some (.file content time)

variable {fs fs' cur : FileSystem} {root : Path} {top : Location} {names : List Text} {now : Int}

theorem Thins.refl (fs : FileSystem) : Thins top fs fs := fun _ => .inl rfl

theorem Thins.trans (h : Thins top fs cur) (h' : Thins top cur fs') : Thins top fs fs' := by
  intro loc
  obtain hloc | ⟨hnone, names, content, time, hbelow, hfile⟩ := h' loc
  · obtain hloc' | ⟨hnone', hfile'⟩ := h loc
    · exact .inl (hloc.trans hloc')
    · exact .inr ⟨hloc.trans hnone', hfile'⟩
  · obtain hloc' | ⟨hnone', _⟩ := h loc
    · exact .inr ⟨hnone, names, content, time, hbelow, hloc' ▸ hfile⟩
    · simp [hnone'] at hfile

theorem Thins.directory (h : Thins top fs cur) {loc : Location}
    (hloc : fs.get? loc = some .directory) : cur.get? loc = some .directory := by
  obtain heq | ⟨_, _, _, _, _, hfile⟩ := h loc
  · rw [heq, hloc]
  · simp [hloc] at hfile

/-- Nothing comes back. -/
theorem Thins.of_ne_none (h : Thins top fs cur) {loc : Location} (hloc : cur.get? loc ≠ none) :
    cur.get? loc = fs.get? loc := by
  obtain heq | ⟨hnone, _⟩ := h loc
  · exact heq
  · exact absurd hnone hloc

theorem Thins.eq_none (h : Thins top fs cur) {loc : Location} (hloc : fs.get? loc = none) :
    cur.get? loc = none := by
  by_contra hcur
  exact hcur ((h.of_ne_none hcur).trans hloc)

/-- Taking away a file. -/
theorem Thins.remove (now : Int) (h : Thins top fs cur) {name : Text}
    (hdir : fs.get? (top ++ names) = some .directory) {content : List UInt8} {time : Int}
    (hfile : fs.get? (top ++ names ++ [name]) = some (.file content time)) :
    Thins top cur (cur.remove now (top ++ names ++ [name])) ∧
      (cur.remove now (top ++ names ++ [name])).get? (top ++ names ++ [name]) = none := by
  have hcur : cur.get? (top ++ names ++ [name]) ≠ some .directory := by
    obtain heq | ⟨hnone, _⟩ := h (top ++ names ++ [name])
    · rw [heq, hfile]
      nofun
    · rw [hnone]
      nofun
  have hparent : cur.get? (top ++ names ++ [name]).dropLast = some .directory := by
    rw [List.dropLast_concat]
    exact h.directory hdir
  have hget := get?_remove_leaf now (by simp) hparent hcur
  refine ⟨fun loc => ?_, by rw [hget, if_pos rfl]⟩
  rw [hget]
  split
  · rename_i heq
    subst heq
    obtain heq | ⟨hnone, _⟩ := h (top ++ names ++ [name])
    · exact .inr ⟨rfl, names ++ [name], content, time, by rw [List.append_assoc], heq.trans hfile⟩
    · exact .inl hnone.symm
  · exact .inl rfl

/-! ## One directory -/

/-- The files of a directory are taken away. -/
theorem clearEntries_eq (now : Int) (tidy : Tidy fs root top)
    (hdir : fs.get? (top ++ names) = some .directory) {entries : List (Text × Listing)}
    (hentries : ∀ name l, (name, l) ∈ entries → Listing.Lists fs.get? (top ++ names ++ [name]) l)
    (hcur : Thins top fs cur) :
    (clearEntries now root names (top ++ names) entries cur).1 = .ok () ∧
      Thins top cur (clearEntries now root names (top ++ names) entries cur).2 ∧
      ∀ name, (name, .file) ∈ entries →
        (clearEntries now root names (top ++ names) entries cur).2.get? (top ++ names ++ [name]) =
          none := by
  induction entries generalizing cur with
  | nil => exact ⟨rfl, .refl cur, nofun⟩
  | cons pair entries ih =>
    obtain ⟨first, l⟩ := pair
    have hrest : ∀ name l, (name, l) ∈ entries →
        Listing.Lists fs.get? (top ++ names ++ [name]) l :=
      fun name l hl => hentries name l (List.mem_cons_of_mem _ hl)
    have hfirst := hentries first l List.mem_cons_self
    rw [clearEntries]
    cases hfirst with
    | directory hnode =>
      rw [List.append_assoc] at hnode
      rw [if_neg (by simp [tidy.directory names first hnode])]
      obtain ⟨hok, hthins, hgone⟩ := ih hrest hcur
      refine ⟨hok, hthins, fun name hname => ?_⟩
      obtain heq | hname := List.mem_cons.1 hname
      · cases heq
      · exact hgone name hname
    | file hnode =>
      have hat := hnode
      rw [List.append_assoc] at hat
      have hshort := tidy.short (names ++ [first]) (by simp [hat])
      obtain ⟨hremove, hnone⟩ := hcur.remove now hdir hnode
      obtain ⟨hok, hthins, hgone⟩ := ih hrest (hcur.trans hremove)
      rw [if_pos (tidy.file names first _ _ hat)]
      dsimp only
      rw [if_neg (by simpa [clearText, Path.below] using hshort)]
      refine ⟨hok, hremove.trans hthins, fun name hname => ?_⟩
      obtain heq | hname := List.mem_cons.1 hname
      · cases heq
        exact hthins.eq_none hnone
      · exact hgone name hname

/-! ## All directories -/

/-- What has come of clearing the directory at `loc` and those up to `depth` levels below it. -/
def Clears (fs : FileSystem) (top loc : Location) (depth : Nat) (cur : FileSystem)
    (result : Outcome FileSystem Unit) : Prop :=
  Thins top cur result.2 ∧
    (result.1 = .ok () ∧
        (∀ rest content time, rest ≠ [] →
          result.2.get? (loc ++ rest) ≠ some (.file content time)) ∧
        (∀ rest, fs.get? (loc ++ rest) = some .directory → rest.length < depth) ∨
      result.1 = .error .tooDeep ∧
        ∃ rest, rest.length = depth ∧ fs.get? (loc ++ rest) = some .directory)

/-- The directories in a directory are cleared one after the other. -/
theorem clearBelow_clears (now : Int) (root : Path) (depth : Nat) (names : List Text)
    (entries : List (Text × Listing))
    (hentries : ∀ name l, (name, l) ∈ entries → ∀ cur, Thins top fs cur →
      Clears fs top (top ++ names ++ [name]) depth cur
        (clearDirectory now root depth (names ++ [name]) (top ++ names ++ [name]) l cur))
    (hcur : Thins top fs cur) :
    Thins top cur (clearBelow now root depth names (top ++ names) entries cur).2 ∧
      ((clearBelow now root depth names (top ++ names) entries cur).1 = .ok () ∧
          (∀ name l, (name, l) ∈ entries →
            (∀ rest content time, rest ≠ [] →
              (clearBelow now root depth names (top ++ names) entries cur).2.get?
                (top ++ names ++ [name] ++ rest) ≠ some (.file content time)) ∧
            ∀ rest, fs.get? (top ++ names ++ [name] ++ rest) = some .directory →
              rest.length < depth) ∨
        (clearBelow now root depth names (top ++ names) entries cur).1 = .error .tooDeep ∧
          ∃ name rest, rest.length = depth ∧
            fs.get? (top ++ names ++ [name] ++ rest) = some .directory) := by
  induction entries generalizing cur with
  | nil => exact ⟨.refl cur, .inl ⟨rfl, nofun⟩⟩
  | cons pair entries ih =>
    obtain ⟨first, l⟩ := pair
    have hfirst := hentries first l List.mem_cons_self cur hcur
    rw [clearBelow]
    cases hresult : clearDirectory now root depth (names ++ [first]) (top ++ names ++ [first]) l cur
      with
    | mk result next =>
      rw [hresult] at hfirst
      obtain ⟨hthins, ⟨rfl, hfiles, hdirs⟩ | ⟨rfl, rest, hrest⟩⟩ := hfirst
      · dsimp only
        obtain ⟨hthins', hrest⟩ := ih (fun name l hl => hentries name l (List.mem_cons_of_mem _ hl))
          (hcur.trans hthins)
        refine ⟨hthins.trans hthins', hrest.imp_left fun ⟨hok, hbelow⟩ => ⟨hok, ?_⟩⟩
        intro name l hl
        obtain heq | hl := List.mem_cons.1 hl
        · cases heq
          refine ⟨fun rest content time hne hfile => ?_, hdirs⟩
          have hbefore := hthins'.of_ne_none (by rw [hfile]; nofun)
          exact hfiles rest content time hne (hbefore ▸ hfile)
        · exact hbelow name l hl
      · exact ⟨hthins, .inr ⟨rfl, first, rest, hrest⟩⟩

/-- Only in a directory is there something to clear. -/
theorem clears_of_ne_directory {loc : Location} (hnode : fs.get? loc ≠ some .directory)
    (depth : Nat) (hcur : Thins top fs cur) : Clears fs top loc depth cur (.ok (), cur) := by
  refine ⟨.refl cur, .inl ⟨rfl, ?_, ?_⟩⟩
  · intro rest content time hne hfile
    have hsame := hcur.of_ne_none (by rw [hfile]; nofun)
    rw [hsame, get?_eq_none_below hnode hne] at hfile
    cases hfile
  · intro rest hdir
    exact absurd (get?_eq_directory_of_front (List.prefix_append ..) hdir) hnode

/-- No file is left in a directory when its own files have been taken away and so have those below
its entries. -/
theorem ne_file_of_cleared {loc : Location} {entries : List (Text × Listing)}
    (hlists : Listing.Lists fs.get? loc (.directory entries)) (hcur : Thins top fs cur)
    (hgone : ∀ name, (name, .file) ∈ entries → cur.get? (loc ++ [name]) = none)
    (hbelow : ∀ name l, (name, l) ∈ entries → ∀ rest content time, rest ≠ [] →
      cur.get? (loc ++ [name] ++ rest) ≠ some (.file content time))
    {rest : List Text} {content : List UInt8} {time : Int} (hne : rest ≠ []) :
    cur.get? (loc ++ rest) ≠ some (.file content time) := by
  intro hfile
  have hbefore := hcur.of_ne_none (by rw [hfile]; nofun)
  rw [hfile] at hbefore
  obtain ⟨name, rest, rfl⟩ := List.exists_cons_of_ne_nil hne
  rw [List.append_cons] at hfile hbefore
  obtain ⟨l, hl⟩ := hlists.exists_mem (by rw [← hbefore]; nofun)
  by_cases hrest : rest = []
  · subst hrest
    rw [List.append_nil] at hfile hbefore
    cases hlists with
    | directory _ hentries =>
      cases hentries name l hl with
      | file => cases (hgone name hl).symm.trans hfile
      | directory hdir => cases hbefore.trans hdir
  · exact hbelow name l hl rest content time hrest hfile

/-- Directories lie one level deeper than they do below the entries. -/
theorem length_lt_of_entries {loc : Location} {entries : List (Text × Listing)} {depth : Nat}
    (hlists : Listing.Lists fs.get? loc (.directory entries))
    (hbelow : ∀ name l, (name, l) ∈ entries → ∀ rest,
      fs.get? (loc ++ [name] ++ rest) = some .directory → rest.length < depth)
    {rest : List Text} (hdir : fs.get? (loc ++ rest) = some .directory) :
    rest.length < depth + 1 := by
  cases rest with
  | nil => simp
  | cons name rest =>
    rw [List.append_cons] at hdir
    obtain ⟨l, hl⟩ := hlists.exists_mem (by rw [hdir]; nofun)
    have hshort := hbelow name l hl rest hdir
    rw [List.length_cons]
    omega

/-- What a listing tells is cleared. -/
theorem clearDirectory_clears (tidy : Tidy fs root top) {loc : Location} {l : Listing}
    (h : Listing.Lists fs.get? loc l) (hloc : loc = top ++ names) (depth : Nat)
    (hcur : Thins top fs cur) :
    Clears fs top loc depth cur (clearDirectory now root depth names loc l cur) := by
  induction h generalizing names depth cur with
  | file hnode =>
    simp only [clearDirectory]
    exact clears_of_ne_directory (by simp [hnode]) depth hcur
  | @directory loc entries hnode hentries hall ih =>
    subst hloc
    have hlists := Listing.Lists.directory hnode hentries hall
    cases depth with
    | zero =>
      rw [clearDirectory]
      exact ⟨.refl cur, .inr ⟨rfl, [], rfl, by simpa using hnode⟩⟩
    | succ depth =>
      obtain ⟨hok, hthins, hgone⟩ :=
        clearEntries_eq now tidy hnode hentries hcur
      rw [clearDirectory, if_neg (by omega), Nat.add_sub_cancel]
      cases hcleared : clearEntries now root names (top ++ names) entries cur with
      | mk result next =>
        rw [hcleared] at hok hthins hgone
        subst hok
        dsimp only
        obtain ⟨hthins', hbelow⟩ := clearBelow_clears now root depth names entries
          (fun name l hl cur hcur => ih name l hl (List.append_assoc ..) depth hcur)
          (hcur.trans hthins)
        have hafter := hthins.trans hthins'
        refine ⟨hafter, ?_⟩
        obtain ⟨hok, hbelow⟩ | ⟨herror, name, rest, hrest, hdir⟩ := hbelow
        · refine .inl ⟨hok, fun rest content time hne => ?_, fun rest hdir => ?_⟩
          · exact ne_file_of_cleared hlists (hcur.trans hafter)
              (fun name hl => hthins'.eq_none (hgone name hl))
              (fun name l hl => (hbelow name l hl).1) hne
          · exact length_lt_of_entries hlists (fun name l hl => (hbelow name l hl).2) hdir
        · exact .inr ⟨herror, name :: rest, by simp [hrest], by simpa using hdir⟩

/-! ## The store -/

section Root

variable {s : Store} {here : Here} {base : Path} {dest : Location}

/-- Nothing is done if the root is not there. Only a root that cannot be looked for is an error. -/
theorem clear_of_absent (now : Int) (h : fs.Site here base dest names)
    (hroot : s.root = base.below names) (habsent : fs.get? (dest ++ names) = none) :
    (s.clear now here fs).2 = fs ∧ ((s.clear now here fs).1 = .ok () ↔
      fs.isDirectory here s.root.text ≠ .error (.system .nameTooLong)) := by
  have hne : names ≠ [] := by
    rintro rfl
    simp [h.base.directory] at habsent
  have hlinks := h.unlinked []
  rw [List.append_nil] at hlinks
  obtain ⟨e, hlocate⟩ | ⟨hlocate, -⟩ :=
    h.base.locate_below_cases (show Purpose.target ≠ .output by decide) hne h.named hlinks
  · rw [← hroot] at hlocate
    obtain hlong | hmeans := meansAbsent_of_locate (by decide) hlocate
    · cases hlong
      simp [clear, isDirectory, hlocate, FileError.meansAbsent]
    · simp [clear, isDirectory, hlocate, hmeans]
  · rw [← hroot, targetAt_eq_vacant habsent] at hlocate
    simp [clear, isDirectory, hlocate]

/-- Clearing starts with a look for the root. -/
theorem isDirectory_ne_error_of_clear {e : FileError} (h : (s.clear now here fs).1 = .ok ()) :
    fs.isDirectory here s.root.text ≠ .error e := by
  intro herror
  simp [clear, herror] at h

/-- A root that is there is cleared along a listing of what lies below it. -/
theorem clear_eq_clearDirectory (now : Int) (h : fs.Site here base dest names)
    (hroot : s.root = base.below names) (hfits : Fits base names)
    (hdir : fs.get? (dest ++ names) = some .directory) (hdistinct : fs.Distinct)
    (hshort : ∀ rest, fs.get? (dest ++ names ++ rest) = some .directory →
      (s.root.below rest).text.fileLength < maxPath) :
    ∃ entries, Listing.Lists fs.get? (dest ++ names) (.directory entries) ∧
      s.clear now here fs =
        clearDirectory now s.root (here.depths.clear + 1) [] (dest ++ names) (.directory entries)
          fs := by
  have hlocate : ∃ tree, fs.locate here .target s.root.text = .ok (.present (dest ++ names) tree) ∧
      fs.tree? (dest ++ names) = some tree ∧ tree.node = .directory := by
    rw [hroot]
    by_cases hne : names = []
    · subst hne
      simpa [Path.below] using h.base.locate_target
    · obtain ⟨tree, hnode, htree, htarget⟩ := targetAt_eq_present hdir
      have hlinks := h.unlinked []
      rw [List.append_nil] at hlinks
      have habove := get?_dropLast_of_file hne hdir
      exact ⟨tree, by rw [h.base.locate_below (by decide) hne h.named hlinks hfits habove, htarget],
        htree, hnode⟩
  obtain ⟨tree, hlocate, htree, hnode⟩ := hlocate
  have hlinks (rest : List Text) (target : Text) :
      fs.get? (dest ++ names ++ rest) ≠ some (.link target) := by
    rw [List.append_assoc]
    exact h.unlinked rest _ (List.prefix_refl _) target
  have hopen (rest : List Text) (hrest : fs.get? (dest ++ names ++ rest) = some .directory) :
      isOverlong (clearText s.root) rest = false :=
    decide_eq_false (Nat.not_le.2 (hshort rest hrest))
  have hlists := lists_listTree here (clearText s.root) hlinks hopen (hdistinct.tree? htree)
    (show fs.tree? (dest ++ names ++ []) = some tree by simpa using htree)
  cases tree with
  | file | link => simp [Tree.node] at hnode
  | directory time entries =>
    rw [listTree, if_neg (by simp [hopen [] (by simpa using hdir)]), List.append_nil] at hlists
    refine ⟨_, hlists.sort, ?_⟩
    simp [clear, isDirectory, find, hlocate, Tree.node, listing, Tree.entries, Listing.sorted]

/-- A root that is there is cleared. -/
theorem clear_of_directory (now : Int) (h : fs.Site here base dest names)
    (hroot : s.root = base.below names) (hfits : Fits base names)
    (hdir : fs.get? (dest ++ names) = some .directory) (hdistinct : fs.Distinct)
    (tidy : Tidy fs s.root (dest ++ names)) :
    Clears fs (dest ++ names) (dest ++ names) (here.depths.clear + 1) fs (s.clear now here fs) := by
  obtain ⟨entries, hlists, hclear⟩ :=
    clear_eq_clearDirectory now h hroot hfits hdir hdistinct
      fun rest hrest => tidy.short rest (by rw [hrest]; simp)
  rw [hclear]
  exact clearDirectory_clears tidy hlists (by simp) (here.depths.clear + 1) (.refl fs)

end Root

/-! ## What clearing keeps -/

section Keeps

variable {P : FileSystem → Prop}

theorem clearEntries_keeps (names : List Text) {loc : Location}
    (hremove : ∀ fs name, P fs → P (fs.remove now (loc ++ [name])))
    (entries : List (Text × Listing)) (h : P fs) :
    P (clearEntries now root names loc entries fs).2 := by
  induction entries generalizing fs with
  | nil => exact h
  | cons pair entries ih =>
    obtain ⟨name, l⟩ := pair
    simp only [clearEntries]
    repeat' split
    · exact h
    · exact h
    · exact ih (hremove fs name h)
    · exact ih h

mutual

/-- Clearing keeps whatever is kept when something is taken away at or below `loc`. -/
theorem clearDirectory_keeps (depth : Nat) (names : List Text) (loc : Location) (l : Listing)
    (hremove : ∀ fs place name, loc <+: place → P fs → P (fs.remove now (place ++ [name])))
    (fs : FileSystem) (h : P fs) : P (clearDirectory now root depth names loc l fs).2 := by
  cases l with
  | directory entries =>
    have hentries : P (clearEntries now root names loc entries fs).2 :=
      clearEntries_keeps names (fun fs name => hremove fs loc name (List.prefix_refl _)) entries h
    rw [clearDirectory]
    split
    · exact h
    · split
      · rename_i hresult
        simpa [hresult] using hentries
      · rename_i files hresult
        rw [hresult] at hentries
        exact clearBelow_keeps (depth - 1) names loc entries hremove files hentries
  | overlongLink =>
    rw [clearDirectory]
    split <;> exact h
  | file | linkedDirectory | closedDirectory =>
    simp only [clearDirectory]
    exact h

theorem clearBelow_keeps (depth : Nat) (names : List Text) (loc : Location)
    (entries : List (Text × Listing))
    (hremove : ∀ fs place name, loc <+: place → P fs → P (fs.remove now (place ++ [name])))
    (fs : FileSystem) (h : P fs) : P (clearBelow now root depth names loc entries fs).2 := by
  match entries with
  | [] => exact h
  | (name, l) :: rest =>
    have hfirst := clearDirectory_keeps depth (names ++ [name]) (loc ++ [name]) l
      (fun fs place other hplace => hremove fs place other ((List.prefix_append ..).trans hplace))
      fs h
    rw [clearBelow]
    split
    · rename_i hresult
      simpa [hresult] using hfirst
    · rename_i files hresult
      rw [hresult] at hfirst
      exact clearBelow_keeps depth names loc rest hremove files hfirst

end

end Keeps

/-! ## Names stay distinct -/

section Distinct

variable {here : Here}

theorem distinct_makeDirectory {text : Text} (h : fs.Distinct)
    (hmake : fs.makeDirectory now here text = .ok fs') : fs'.Distinct := by
  rw [makeDirectory] at hmake
  split at hmake
  · cases hmake
  · cases hmake
    exact h.create (.directory (by simp) (by simp))
  · cases hmake

theorem distinct_makeWithin (now : Int) (here : Here) (h : fs.Distinct) (depth : Nat) (p : Path) :
    (fs.makeWithin now here depth p).2.Distinct := by
  have hmakes := makes_makeWithin now here depth p fs
  generalize (fs.makeWithin now here depth p).2 = made at hmakes ⊢
  induction hmakes with
  | nothing => exact h
  | next _ _ hmake ih => exact distinct_makeDirectory ih hmake

theorem distinct_replaceFile (now : Int) (here : Here) (p : Path) (content : List UInt8)
    (h : fs.Distinct) : (fs.replaceFile now here p content).2.Distinct := by
  rw [replaceFile]
  split
  · exact h
  · rename_i loc text made hstart
    have hmade : made.Distinct := by
      simp only [startFile] at hstart
      split at hstart
      · cases hstart
      · obtain ⟨rfl, -⟩ := makeTemporary_eq_ok hstart
        exact h.create (.file ..)
    split
    · exact hmade.remove
    · exact hmade.remove.create (.file ..)

theorem distinct_stamp {entry path : Text} (h : fs.Distinct) :
    (stamp here entry path fs).2.Distinct := by
  obtain hsame | ⟨time, htouch⟩ := stamp_files here entry path fs
  · rwa [hsame]
  · obtain ⟨loc, t, -, -, hfiles⟩ := touch_eq_ok.1 htouch
    rw [hfiles]
    exact h.retime

theorem distinct_putEntry (s : Store) (now : Int) (here : Here) (path : Text) (tags : List RawTag)
    (h : fs.Distinct) : (s.putEntry now here path tags fs).2.Distinct := by
  have hmade : (fs.makeDirectories now here (s.entryPath path).parent).2.Distinct :=
    distinct_makeWithin now here h here.depths.parents (s.entryPath path).parent
  have hfile := distinct_replaceFile now here (s.entryPath path) (encodeEntry path tags) hmade
  have hputs := puts_putEntry s now here path tags fs
  generalize s.putEntry now here path tags fs = outcome at hputs ⊢
  cases hputs with
  | unmade hmake => simpa [hmake] using hmade
  | unplaced hmake hreplace | placed hmake hreplace => simpa [hmake, hreplace] using hfile

theorem distinct_save (s : Store) (now : Int) (here : Here) (path : Text) (tags : List RawTag)
    (h : fs.Distinct) : (s.save now here path tags fs).2.Distinct := by
  have hput := distinct_putEntry s now here path tags h
  rw [save]
  split
  · split
    · rename_i hresult
      simpa [hresult] using hput
    · rename_i files hresult
      rw [hresult] at hput
      exact distinct_stamp hput
  · exact h

theorem distinct_invalidate (s : Store) (now : Int) (here : Here) (path : Text)
    (h : fs.Distinct) : (s.invalidate now here path fs).2.Distinct := by
  simp only [invalidate]
  split
  · rename_i files hunlink
    rw [unlink] at hunlink
    split at hunlink <;> cases hunlink
    exact h.remove
  · exact h
  · exact h

theorem distinct_clear (s : Store) (now : Int) (here : Here) (h : fs.Distinct) :
    (s.clear now here fs).2.Distinct := by
  rw [clear]
  split
  · exact h
  · exact clearDirectory_keeps _ _ _ _ (fun _ _ _ _ h => h.remove) fs h
  · exact h

end Distinct

end TagsFile.Store
