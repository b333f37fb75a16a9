import TagsFile.FileSystem.Change
import TagsFile.Proofs.Locate

/-!
# What the changes of a file system do to its nodes

Directories that are made below a base, files that are replaced, files that are given another time:
each of these changes is told by the nodes before and after it.

## Main definitions

* `FileSystem.Grows`: a change that only makes directories along some names.
-/

namespace TagsFile

theorem Tree.modified_get?_adjust (f : Tree → Tree) {loc other : Location} (h : ¬loc <+: other)
    (t : Tree) : ((t.adjust f loc).get? other).map Tree.modified =
      (t.get? other).map Tree.modified := by
  induction loc generalizing t other with
  | nil => exact absurd List.nil_prefix h
  | cons name rest ih =>
    cases t with
    | file | link => rfl
    | directory time entries =>
      cases other with
      | nil => rfl
      | cons name' rest' =>
        simp only [Tree.adjust, Tree.get?, Tree.entries, Table.get?_adjust]
        split
        · rename_i hname
          subst hname
          have hrest : ¬rest <+: rest' := fun hp => h (List.cons_prefix_cons.2 ⟨rfl, hp⟩)
          cases Table.get? entries name' with
          | none => rfl
          | some t => exact ih hrest t
        · rfl

/-- What is seen of something that has been given another time. -/
def Node.retime (modified : Int) : Node → Node
  | .file content _ => .file content modified
  | .directory => .directory
  | .link target => .link target

namespace FileSystem

variable {fs fs' : FileSystem}

/-! ## One node -/

theorem get?_eq_none_below {loc rest : Location} (h : fs.get? loc ≠ some .directory)
    (hrest : rest ≠ []) : fs.get? (loc ++ rest) = none := by
  cases hnode : fs.get? (loc ++ rest) with
  | none => rfl
  | some node => exact absurd (get?_eq_directory_of_append hrest (by simp [hnode])) h

theorem ne_nil_of_get?_eq_none {loc : Location} (h : fs.get? loc = none) : loc ≠ [] := by
  rintro rfl
  simp at h

/-- Where no directory was, a change at `place` and below it is a change at `place` alone, if
nothing comes to be below it. -/
theorem if_front_eq_if_eq {place loc : Location} {n n' : Option Node}
    (hold : fs.get? place ≠ some .directory) (hself : loc = place → n = n')
    (hbelow : ∀ rest, rest ≠ [] → loc = place ++ rest → n = none) :
    (if place <+: loc then n else fs.get? loc) = if loc = place then n' else fs.get? loc := by
  by_cases hfront : place <+: loc
  · rw [if_pos hfront]
    obtain ⟨rest, rfl⟩ := hfront
    by_cases hrest : rest = []
    · rw [if_pos (by simp [hrest]), hself (by simp [hrest])]
    · rw [if_neg (by simpa using hrest), hbelow rest hrest rfl, get?_eq_none_below hold hrest]
  · have hloc : loc ≠ place := by
      rintro rfl
      exact hfront (List.prefix_refl _)
    rw [if_neg hfront, if_neg hloc]

/-- A tree without entries takes the place of whatever else than a directory. -/
theorem get?_create_leaf {place : Location} {t : Tree} (now : Int) (hne : place ≠ [])
    (h : fs.get? place.dropLast = some .directory) (hold : fs.get? place ≠ some .directory)
    (ht : t.entries = []) (loc : Location) :
    (fs.create now place t).get? loc = if loc = place then some t.node else fs.get? loc := by
  obtain ⟨directory, name, rfl⟩ : ∃ directory name, place = directory ++ [name] := by
    simpa using (List.eq_nil_or_concat place).resolve_left hne
  rw [List.dropLast_concat] at h
  rw [get?_create now name t h]
  refine if_front_eq_if_eq hold (fun hloc => ?_) fun rest hrest hloc => ?_
  · simp [hloc]
  · obtain ⟨next, rest, rfl⟩ := List.exists_cons_of_ne_nil hrest
    rw [hloc, List.drop_left' (by simp), Tree.nodeAt?_cons, ht]
    rfl

theorem get?_remove_leaf {place : Location} (now : Int) (hne : place ≠ [])
    (h : fs.get? place.dropLast = some .directory) (hold : fs.get? place ≠ some .directory)
    (loc : Location) :
    (fs.remove now place).get? loc = if loc = place then none else fs.get? loc := by
  obtain ⟨directory, name, rfl⟩ : ∃ directory name, place = directory ++ [name] := by
    simpa using (List.eq_nil_or_concat place).resolve_left hne
  rw [List.dropLast_concat] at h
  rw [get?_remove now name h]
  exact if_front_eq_if_eq hold (fun _ => rfl) fun _ _ _ => rfl

theorem get?_retime_eq (fs : FileSystem) (loc : Location) (modified : Int) (other : Location) :
    (fs.retime loc modified).get? other =
      if other = loc then (fs.get? other).map (·.retime modified) else fs.get? other := by
  have hnode (t : Tree) : (t.retime modified).node = t.node.retime modified := by cases t <;> rfl
  have hentries (t : Tree) : (t.retime modified).entries = t.entries := by cases t <;> rfl
  rw [retime, get?_adjust fun t ht => by rw [hnode, ht]; rfl]
  by_cases hfront : loc <+: other
  · obtain ⟨rest, rfl⟩ := hfront
    rw [if_pos (List.isPrefixOf_iff_prefix.2 (List.prefix_append ..)), List.drop_left' rfl,
      get?_append]
    cases htree : fs.tree? loc with
    | none => simp
    | some t =>
      cases rest with
      | nil => simp [hnode]
      | cons next rest => simp [Tree.nodeAt?_cons, hentries]
  · have hne : other ≠ loc := by
      rintro rfl
      exact hfront (List.prefix_refl _)
    simp [hfront, hne]

/-- Only a file shows the time that it is given. -/
theorem get?_retime {loc : Location} {content : List UInt8} {time : Int}
    (h : fs.get? loc = some (.file content time)) (modified : Int) (other : Location) :
    (fs.retime loc modified).get? other =
      if other = loc then some (.file content modified) else fs.get? other := by
  rw [get?_retime_eq]
  split
  · rename_i hother
    rw [hother, h]
    rfl
  · rfl

theorem touch_eq_ok {text : Text} {modified : Int} :
    fs.touch here text modified = .ok fs' ↔ ∃ loc t, fs.find here .target text = .ok (loc, t) ∧
      here.denied.times.get? loc = none ∧ fs' = fs.retime loc modified := by
  rw [touch]
  split
  · simp_all
  · rename_i loc t hfind
    cases hdenied : here.denied.times.get? loc with
    | some e => simp [hfind, hdenied]
    | none => simp [hfind, hdenied, eq_comm]

/-- What else is found at the end of a path keeps its time. -/
theorem modifiedAt_retime {loc : Location} {content : List UInt8} {time : Int}
    (h : fs.get? loc = some (.file content time)) (modified : Int) {here : Here} {text : Text}
    {found : Int} (hfound : fs.modifiedAt here text = .ok found) (hne : found ≠ time) :
    (fs.retime loc modified).modifiedAt here text = .ok found := by
  have hget := get?_retime h modified
  have halike : Alike fs.get? (fs.retime loc modified).get? := by
    intro other
    rw [hget]
    split
    · rename_i heq
      subst heq
      exact .inr ⟨_, _, _, _, h, rfl⟩
    · exact .inl rfl
  rw [modifiedAt, halike.locate_eq]
  cases hlocate : fs.locate here .target text with
  | error e => simp [modifiedAt, hlocate] at hfound
  | ok target =>
    cases target with
    | vacant place => simp [modifiedAt, hlocate] at hfound
    | lost gone => simpa [modifiedAt, hlocate, Except.map, Target.within] using hfound
    | present place tree =>
      have htree := tree?_of_locate_present hlocate
      obtain rfl : tree.modified = found := by simpa [modifiedAt, hlocate] using hfound
      have hplace : ¬loc <+: place := by
        rintro ⟨rest, rfl⟩
        cases rest with
        | nil =>
          rw [List.append_nil] at htree
          have hnode : tree.node = .file content time := by simpa [get?_eq_map, htree] using h
          cases tree <;> simp_all [Tree.node, Tree.modified]
        | cons next rest =>
          have hbelow := get?_eq_none_below (show fs.get? loc ≠ some .directory by simp [h])
            (List.cons_ne_nil next rest)
          simp [get?_eq_map, htree] at hbelow
      have hroot : (fs.retime loc modified).root = fs.root.adjust (·.retime modified) loc := by
        cases loc with
        | nil => exact absurd List.nil_prefix hplace
        | cons => rfl
      have htime : ((fs.retime loc modified).tree? place).map Tree.modified =
          some tree.modified := by
        rw [tree?, hroot, Tree.modified_get?_adjust _ hplace]
        exact congrArg (Option.map Tree.modified) htree
      obtain ⟨tree', htree', hmodified⟩ := Option.map_eq_some_iff.1 htime
      simp only [Except.map, Target.within, targetAt, htree', hmodified]

/-! ## Making directories -/

/-- What a file system may come to while a directory is made with those above it: one directory
after the other is made, each at a front of the path. -/
inductive Makes (now : Int) (here : Here) (p : Path) (fs : FileSystem) : FileSystem → Prop where
  | nothing : Makes now here p fs fs
  | next {made made' : FileSystem} {front : List Text} (h : Makes now here p fs made)
      (hfront : front <+: p.parts)
      (hmake : made.makeDirectory now here (Path.mk p.anchor front).text = .ok made') :
      Makes now here p fs made'

theorem Makes.of_parent {now : Int} {here : Here} {p : Path} (h : Makes now here p.parent fs fs') :
    Makes now here p fs fs' := by
  induction h with
  | nothing => exact .nothing
  | next _ hfront hmake ih => exact ih.next (hfront.trans (List.dropLast_prefix p.parts)) hmake

theorem makes_makeWithin (now : Int) (here : Here) (depth : Nat) (p : Path) (fs : FileSystem) :
    Makes now here p fs (fs.makeWithin now here depth p).2 := by
  induction depth generalizing p with
  | zero => exact .nothing
  | succ depth ih =>
    have hparent := (ih p.parent).of_parent
    rw [makeWithin]
    split
    · rename_i hmake
      exact .next .nothing (List.prefix_refl _) hmake
    · split
      · split
        · exact .nothing
        · split
          · rename_i habove
            rwa [habove] at hparent
          · rename_i habove
            rw [habove] at hparent
            split
            · rename_i hmake
              exact hparent.next (List.prefix_refl _) hmake
            · split <;> exact hparent
      · exact .nothing

/-- A directory is made in a place where nothing was. -/
theorem get?_makeDirectory {now : Int} {here : Here} {text : Text}
    (h : fs.makeDirectory now here text = .ok fs') :
    ∃ place, fs.locate here .entry text = .ok (.vacant place) ∧ fs.get? place = none ∧
      ∀ loc, fs'.get? loc = if loc = place then some .directory else fs.get? loc := by
  rw [makeDirectory] at h
  split at h
  · cases h
  · rename_i place hlocate
    cases h
    obtain ⟨hnone, hdir⟩ := get?_of_locate_vacant hlocate
    exact ⟨place, hlocate, hnone, get?_create_leaf now (ne_nil_of_get?_eq_none hnone) hdir
      (by simp [hnone]) rfl⟩
  · cases h

/-- A change that makes directories along `names` below `base`, which leads to `dest`, and does
nothing else. -/
def Grows (base : Path) (dest : Location) (names : List Text) (fs fs' : FileSystem) : Prop :=
  ∀ loc, fs'.get? loc = fs.get? loc ∨ fs.get? loc = none ∧ fs'.get? loc = some .directory ∧
    ∃ front, front <+: names ∧ front ≠ [] ∧ Fits base front ∧ loc = dest ++ front

namespace Grows

variable {base : Path} {dest : Location} {names : List Text}

theorem refl (fs : FileSystem) : Grows base dest names fs fs := fun _ => .inl rfl

theorem trans {fs₁ fs₂ fs₃ : FileSystem} (h : Grows base dest names fs₁ fs₂)
    (h' : Grows base dest names fs₂ fs₃) : Grows base dest names fs₁ fs₃ := by
  intro loc
  obtain hloc | ⟨hnone, hdir, hfront⟩ := h loc
  · rw [← hloc]
    exact h' loc
  · obtain hloc' | ⟨hnone', _⟩ := h' loc
    · exact .inr ⟨hnone, hloc'.trans hdir, hfront⟩
    · rw [hnone'] at hdir
      cases hdir

theorem mono {more : List Text} (h : Grows base dest names fs fs') (hmore : names <+: more) :
    Grows base dest more fs fs' := by
  intro loc
  obtain hloc | ⟨hnone, hdir, front, hfront, hrest⟩ := h loc
  · exact .inl hloc
  · exact .inr ⟨hnone, hdir, front, hfront.trans hmore, hrest⟩

theorem keeps (h : Grows base dest names fs fs') : Keeps fs.get? fs'.get? := by
  intro loc
  obtain hloc | ⟨hnone, _⟩ := h loc
  · rw [hloc]
    exact ⟨id, fun _ => id⟩
  · rw [hnone]
    exact ⟨nofun, fun _ => nofun⟩

theorem unlinked (h : Grows base dest names fs fs') {loc : Location} {way : List Text}
    (hway : Unlinked fs.get? loc way) : Unlinked fs'.get? loc way := by
  intro front hfront target
  obtain hloc | ⟨_, hdir, _⟩ := h (loc ++ front)
  · rw [hloc]
    exact hway front hfront target
  · rw [hdir]
    nofun

end Grows

section Making

variable {here : Here} {base : Path} {dest : Location} {names : List Text} {now : Int}

/-- A directory is made where nothing is, in a directory that is there. -/
theorem makeDirectory_below (h : fs.Base here base dest) (hne : names ≠ [])
    (hnames : ∀ name ∈ names, Text.IsName name) (hlinks : Unlinked fs.get? dest names)
    (hmake : fs.makeDirectory now here (base.below names).text = .ok fs') :
    Grows base dest names fs fs' ∧ fs'.get? (dest ++ names) = some .directory := by
  obtain ⟨e, hlocate⟩ | ⟨hlocate, hfits, hdir⟩ :=
    h.locate_below_cases (show Purpose.entry ≠ .output by decide) hne hnames hlinks
  · simp [makeDirectory, hlocate] at hmake
  · cases hnode : fs.get? (dest ++ names) with
    | some n =>
      obtain ⟨tree, -, -, htarget⟩ := targetAt_eq_present hnode
      simp [makeDirectory, hlocate, htarget] at hmake
    | none =>
      rw [makeDirectory, hlocate, targetAt_eq_vacant hnode] at hmake
      cases hmake
      rw [← List.dropLast_append_of_ne_nil hne] at hdir
      have hget := get?_create_leaf (t := .directory now []) now (by simp [hne]) hdir
        (by simp [hnode]) rfl
      refine ⟨fun loc => ?_, by simp [hget, Tree.node]⟩
      by_cases hloc : loc = dest ++ names
      · subst hloc
        exact .inr ⟨hnode, by simp [hget, Tree.node], names, List.prefix_refl _, hne, hfits, rfl⟩
      · exact .inl (by rw [hget, if_neg hloc])

/-- An error is forgiven only if the directory is there. -/
theorem orDirectory_below (h : fs.Base here base dest) (hnames : ∀ name ∈ names, Text.IsName name)
    (hlinks : Unlinked fs.get? dest names) (e : FileError)
    (hok : (fs.orDirectory e here (base.below names).text).mapError NestedError.file = .ok ()) :
    fs.get? (dest ++ names) = some .directory := by
  rw [mapError_eq_ok] at hok
  by_cases hne : names = []
  · simpa [hne] using h.directory
  · obtain ⟨e', hlocate⟩ | ⟨hlocate, -⟩ :=
      h.locate_below_cases (show Purpose.target ≠ .output by decide) hne hnames hlinks
    · have hdir : fs.isDirectory here (base.below names).text ≠ .ok true := by
        simp only [isDirectory, hlocate]
        split <;> simp
      cases e <;> simp only [orDirectory] at hok
      · split at hok <;> simp_all
      · cases hok
    · cases hnode : fs.get? (dest ++ names) with
      | none =>
        simp only [orDirectory, isDirectory, hlocate, targetAt_eq_vacant hnode] at hok
        cases e <;> simp at hok
      | some n =>
        obtain ⟨tree, htree, -, htarget⟩ := targetAt_eq_present hnode
        simp only [orDirectory, isDirectory, hlocate, htarget, htree] at hok
        cases e <;> cases n <;> simp_all

theorem parent_below {init : List Text} {last : Text} :
    (base.below (init ++ [last])).parent = base.below init := by
  simp [Path.parent, Path.below, ← List.append_assoc]

/-- Making directories along names only does that, and it succeeds only if the last one is there
in the end. -/
theorem makeWithin_below (now : Int) (h : fs.Base here base dest)
    (hnames : ∀ name ∈ names, Text.IsName name) (hlinks : Unlinked fs.get? dest names)
    (depth : Nat) :
    Grows base dest names fs (fs.makeWithin now here depth (base.below names)).2 ∧
      ((fs.makeWithin now here depth (base.below names)).1 = .ok () →
        (fs.makeWithin now here depth (base.below names)).2.get? (dest ++ names) =
          some .directory) := by
  induction depth generalizing names with
  | zero => exact ⟨.refl fs, fun h => by cases h⟩
  | succ depth ih =>
    rcases List.eq_nil_or_concat names with rfl | ⟨init, last, rfl⟩
    · obtain ⟨loc, tree, hlocate⟩ := h.locate_entry
      have hmake : fs.makeDirectory now here (base.below []).text =
          .error (.system .alreadyExists) := by
        simp [makeDirectory, Path.below, hlocate]
      simp only [makeWithin, hmake]
      exact ⟨.refl fs, orDirectory_below h hnames hlinks _⟩
    · rw [List.concat_eq_append] at *
      have hne : init ++ [last] ≠ [] := by simp
      have hparts : (base.below (init ++ [last])).parts ≠ [] := by simp [Path.below]
      have hfront : init <+: init ++ [last] := List.prefix_append ..
      simp only [makeWithin, parent_below, hparts, if_false]
      cases hmake : fs.makeDirectory now here (base.below (init ++ [last])).text with
      | ok made =>
        obtain ⟨hgrows, hdir⟩ := makeDirectory_below h hne hnames hlinks hmake
        exact ⟨hgrows, fun _ => hdir⟩
      | error e =>
        dsimp only
        split
        · obtain ⟨hgrows, hdir⟩ := ih (fun name hname => hnames name (by simp [hname]))
            fun front hpre => hlinks front (hpre.trans hfront)
          cases habove : fs.makeWithin now here depth (base.below init) with
          | mk result above =>
            rw [habove] at hgrows hdir
            cases result with
            | error e => exact ⟨hgrows.mono hfront, fun h => by cases h⟩
            | ok =>
              have h' := h.keep hgrows.keeps
              have hlinks' := hgrows.unlinked hlinks
              dsimp only
              cases hagain : above.makeDirectory now here (base.below (init ++ [last])).text with
              | ok made =>
                obtain ⟨hgrows', hdir'⟩ := makeDirectory_below h' hne hnames hlinks' hagain
                exact ⟨(hgrows.mono hfront).trans hgrows', fun _ => hdir'⟩
              | error e' =>
                dsimp only
                split
                · exact ⟨hgrows.mono hfront, fun h => by cases h⟩
                · exact ⟨hgrows.mono hfront, orDirectory_below h' hnames hlinks' _⟩
        · exact ⟨.refl fs, orDirectory_below h hnames hlinks _⟩

end Making

/-! ## Replacing a file -/

/-- A temporary file is made where nothing is. -/
theorem makeTemporary_eq_ok {now : Int} {directory : Path} {name text : Text}
    {content : List UInt8} {fuel n : Nat} {loc : Location}
    (h : makeTemporary now directory name content fs fuel n = .ok (loc, text, fs')) :
    fs' = fs.create now loc (.file content now) ∧ fs.get? loc = none ∧
      fs.get? loc.dropLast = some .directory := by
  induction fuel generalizing n with
  | zero => simp [makeTemporary] at h
  | succ fuel ih =>
    rw [makeTemporary] at h
    split at h
    · cases h
    · rename_i place hlocate
      cases h
      exact ⟨rfl, get?_of_locate_vacant hlocate⟩
    · exact ih h

/-- A file is moved to a place in a directory, but not onto a directory. -/
theorem get?_of_moveTarget {here : Here} {p : Path} {target : Location}
    (h : fs.moveTarget here p = .ok target) : target ≠ [] ∧
      fs.get? target.dropLast = some .directory ∧ fs.get? target ≠ some .directory := by
  rw [moveTarget] at h
  split at h
  · cases h
  · rename_i hlocate
    cases h
    obtain ⟨hnone, hdir⟩ := get?_of_locate_vacant hlocate
    exact ⟨ne_nil_of_get?_eq_none hnone, hdir, by simp [hnone]⟩
  · cases h
  · rename_i loc tree hlocate
    split at h
    · cases h
    · split at h
      · cases h
      · rename_i hfile
        cases h
        have hnode : fs.get? target = some tree.node := by
          rw [get?_eq_map, tree?_of_locate_present hlocate]
          rfl
        have hne : target ≠ [] := by
          rintro rfl
          simp_all
        refine ⟨hne, ?_, by simpa [hnode] using hfile⟩
        rw [← List.dropLast_concat_getLast hne] at hnode
        exact get?_eq_directory_of_concat (hnode ▸ Option.some_ne_none _)

theorem startFile_eq_ok {now : Int} {here : Here} {p : Path} {content : List UInt8}
    {place : Location} {text : Text} {made : FileSystem}
    (h : fs.startFile now here p content = .ok (place, text, made)) :
    made = fs.create now place (.file content now) ∧ fs.get? place = none ∧
      fs.get? place.dropLast = some .directory := by
  simp only [startFile] at h
  split at h
  · cases h
  · exact makeTemporary_eq_ok h

theorem get?_startFile {now : Int} {here : Here} {p : Path} {content : List UInt8}
    {place : Location} {text : Text} {made : FileSystem}
    (h : fs.startFile now here p content = .ok (place, text, made)) (loc : Location) :
    made.get? loc = if loc = place then some (.file content now) else fs.get? loc := by
  obtain ⟨rfl, hnone, hdir⟩ := startFile_eq_ok h
  exact get?_create_leaf now (ne_nil_of_get?_eq_none hnone) hdir (by simp [hnone]) rfl loc

/-- The temporary file is taken away, or takes the name of the file. -/
theorem replaceFile_of_startFile {now : Int} {here : Here} {p : Path} {content : List UInt8}
    {place : Location} {text : Text} {made : FileSystem}
    (h : fs.startFile now here p content = .ok (place, text, made)) :
    (∃ e, made.moveTarget here p = .error e ∧
      (fs.replaceFile now here p content).1 = .error ⟨e, [text, p.text]⟩ ∧
      ∀ loc, (fs.replaceFile now here p content).2.get? loc = fs.get? loc) ∨
    ∃ target, made.moveTarget here p = .ok target ∧
      (fs.replaceFile now here p content).1 = .ok () ∧
      ∀ loc, (fs.replaceFile now here p content).2.get? loc =
        if loc = target then some (.file content now) else fs.get? loc := by
  obtain ⟨-, hnone, hdir⟩ := startFile_eq_ok h
  have hplace := ne_nil_of_get?_eq_none hnone
  have hmade := get?_startFile h
  have hdirs {loc : Location} : made.get? loc = some .directory ↔
      fs.get? loc = some .directory := by
    rw [hmade]
    split <;> simp_all
  have hback (loc : Location) : (made.remove now place).get? loc = fs.get? loc := by
    rw [get?_remove_leaf now hplace (hdirs.2 hdir) (by simp [hmade]), hmade]
    split <;> simp_all
  cases hmove : made.moveTarget here p with
  | error e =>
    refine .inl ⟨e, rfl, by simp only [replaceFile, h, hmove], ?_⟩
    simpa only [replaceFile, h, hmove] using hback
  | ok target =>
    obtain ⟨hne, habove, hfile⟩ := get?_of_moveTarget hmove
    refine .inr ⟨target, rfl, by simp only [replaceFile, h, hmove], fun loc => ?_⟩
    simp only [replaceFile, h, hmove]
    rw [get?_create_leaf now hne (by rwa [hback, ← hdirs]) (by rwa [hback, Ne, ← hdirs]) rfl,
      hback]
    rfl

/-- Replacing a file changes nothing, or else the node at the location to which the file is moved
while its temporary file is there. -/
theorem replaceFile_cases (now : Int) (here : Here) (p : Path) (content : List UInt8)
    (fs : FileSystem) :
    (∃ e, (fs.replaceFile now here p content).1 = .error e ∧
      ∀ loc, (fs.replaceFile now here p content).2.get? loc = fs.get? loc) ∨
    ∃ (made : FileSystem) (place target : Location), fs.get? place = none ∧
      (∀ loc, made.get? loc = if loc = place then some (.file content now) else fs.get? loc) ∧
      made.moveTarget here p = .ok target ∧
      (fs.replaceFile now here p content).1 = .ok () ∧
      ∀ loc, (fs.replaceFile now here p content).2.get? loc =
        if loc = target then some (.file content now) else fs.get? loc := by
  cases hstart : fs.startFile now here p content with
  | error e => exact .inl ⟨e, by simp [replaceFile, hstart], by simp [replaceFile, hstart]⟩
  | ok started =>
    obtain ⟨place, text, made⟩ := started
    obtain ⟨e, -, herror, hsame⟩ | ⟨target, hmove, hok, hget⟩ := replaceFile_of_startFile hstart
    · exact .inl ⟨_, herror, hsame⟩
    · exact .inr ⟨made, place, target, (startFile_eq_ok hstart).2.1, get?_startFile hstart, hmove,
        hok, hget⟩

section Replacing

variable {here : Here} {base : Path} {dest : Location} {names : List Text} {now : Int}
  {content : List UInt8}

/-- The location that a file is moved to, if the moving succeeds. -/
theorem moveTarget_below (h : fs.Base here base dest) (hne : names ≠ [])
    (hnames : ∀ name ∈ names, Text.IsName name) (hlinks : Unlinked fs.get? dest names)
    {target : Location} (hmove : fs.moveTarget here (base.below names) = .ok target) :
    target = dest ++ names ∧ Fits base names := by
  obtain ⟨e, hlocate⟩ | ⟨hlocate, hfits, -⟩ :=
    h.locate_below_cases (show Purpose.entry ≠ .output by decide) hne hnames hlinks
  · simp [moveTarget, hlocate] at hmove
  · cases hnode : fs.get? (dest ++ names) with
    | none =>
      rw [moveTarget, hlocate, targetAt_eq_vacant hnode] at hmove
      cases hmove
      exact ⟨rfl, hfits⟩
    | some n =>
      obtain ⟨tree, -, -, htarget⟩ := targetAt_eq_present hnode
      simp only [moveTarget, hlocate, htarget] at hmove
      split at hmove
      · cases hmove
      · split at hmove
        · cases hmove
        · cases hmove
          exact ⟨rfl, hfits⟩

/-- A file is replaced as a whole or not at all, and nothing else changes. -/
theorem replaceFile_below (now : Int) (content : List UInt8) (h : fs.Base here base dest)
    (hne : names ≠ []) (hnames : ∀ name ∈ names, Text.IsName name)
    (hlinks : Unlinked fs.get? dest names) :
    (∃ e, (fs.replaceFile now here (base.below names) content).1 = .error e ∧
      ∀ loc, (fs.replaceFile now here (base.below names) content).2.get? loc = fs.get? loc) ∨
    (fs.replaceFile now here (base.below names) content).1 = .ok () ∧ Fits base names ∧
      fs.get? (dest ++ names.dropLast) = some .directory ∧
      fs.get? (dest ++ names) ≠ some .directory ∧
      ∀ loc, (fs.replaceFile now here (base.below names) content).2.get? loc =
        if loc = dest ++ names then some (.file content now) else fs.get? loc := by
  obtain herror | ⟨made, place, target, hnone, hmade, hmove, hok, hget⟩ :=
    fs.replaceFile_cases now here (base.below names) content
  · exact .inl herror
  · have hkeeps : Keeps fs.get? made.get? := by
      intro loc
      rw [hmade]
      split <;> simp_all
    have hlinks' : Unlinked made.get? dest names := by
      intro front hfront target
      rw [hmade]
      split
      · simp
      · exact hlinks front hfront target
    obtain ⟨rfl, hfits⟩ := moveTarget_below (h.keep hkeeps) hne hnames hlinks' hmove
    obtain ⟨-, hdir, hfile⟩ := get?_of_moveTarget hmove
    have hdirs {loc : Location} (hloc : made.get? loc = some .directory) :
        fs.get? loc = some .directory := by
      rw [hmade] at hloc
      split at hloc <;> simp_all
    rw [List.dropLast_append_of_ne_nil hne] at hdir
    exact .inr ⟨hok, hfits, hdirs hdir, fun hd => hfile ((hkeeps _).1 hd), hget⟩

end Replacing

end FileSystem
end TagsFile
