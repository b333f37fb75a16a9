import TagsFile.Config.Collect
import TagsFile.Config.Load
import TagsFile.FileSystem.Resolve
import TagsFile.Proofs.Changes

/-!
# Files that are not read

Paths, scans and resolutions see names, links and directories. What is in a file, and when it was
last modified, makes a difference only to those who read that file.

## Main definitions

* `Tree.masked`, `FileSystem.masked`: a file system without what is in its hidden files.
* `FileSystem.SameBut`: file systems that differ at most there.

## Main statements

* `FileSystem.Alike.resolve_eq`, `FileSystem.Alike.replaceFile_eq`: paths are resolved and files
  replaced alike, whatever is in the files.
* `FileSystem.SameBut.read_eq`, `FileSystem.SameBut.collect_eq`: what is read and scanned does not
  depend on the hidden files.
-/

namespace TagsFile

namespace FileSystem

/-! ## Paths in file systems that are alike -/

section Alike

variable {fs fs' : FileSystem} {here : Here}

/-- What is found in the same place of two file systems that are alike. -/
inductive AlikeTrees : Tree → Tree → Prop where
  | file (content : List UInt8) (modified : Int) (content' : List UInt8) (modified' : Int) :
      AlikeTrees (.file content modified) (.file content' modified')
  | link (target : Text) : AlikeTrees (.link target) (.link target)
  | directory (modified : Int) (entries : List (Text × Tree)) (modified' : Int)
      (entries' : List (Text × Tree)) :
      AlikeTrees (.directory modified entries) (.directory modified' entries')

theorem Alike.tree?_cases (h : Alike fs.get? fs'.get?) (loc : Location) :
    (fs.tree? loc = none ∧ fs'.tree? loc = none) ∨
    ∃ t t', fs.tree? loc = some t ∧ fs'.tree? loc = some t' ∧ AlikeTrees t t' := by
  have hloc := h loc
  rw [get?_eq_map, get?_eq_map] at hloc
  cases ht : fs.tree? loc with
  | none =>
    left
    refine ⟨rfl, ?_⟩
    simpa [ht] using hloc
  | some t =>
    right
    cases ht' : fs'.tree? loc with
    | none => simp [ht, ht'] at hloc
    | some t' =>
      refine ⟨t, t', rfl, rfl, ?_⟩
      rw [ht, ht'] at hloc
      cases t <;> cases t' <;> simp [Tree.node] at hloc
      · constructor
      · subst hloc
        constructor
      · constructor

/-- Where a path leads in both. -/
theorem Alike.locate_cases (h : Alike fs.get? fs'.get?) (here : Here) (purpose : Purpose)
    (text : Text) :
    (∃ e, fs.locate here purpose text = .error e ∧ fs'.locate here purpose text = .error e) ∨
    (∃ loc, fs.locate here purpose text = .ok (.vacant loc) ∧
      fs'.locate here purpose text = .ok (.vacant loc)) ∨
    (∃ gone, fs.locate here purpose text = .ok (.lost gone) ∧
      fs'.locate here purpose text = .ok (.lost gone)) ∨
    ∃ loc t t', fs.locate here purpose text = .ok (.present loc t) ∧
      fs'.locate here purpose text = .ok (.present loc t') ∧ AlikeTrees t t' := by
  have hsame : fs'.locate here purpose text =
      (fs.locate here purpose text).map (Target.within fs') := h.locate_eq purpose text
  cases hlocate : fs.locate here purpose text with
  | error e => exact .inl ⟨e, rfl, by rw [hsame, hlocate]; rfl⟩
  | ok target =>
    rw [hlocate] at hsame
    right
    cases target with
    | lost gone => exact .inr (.inl ⟨gone, rfl, hsame⟩)
    | vacant loc =>
      have hnone : fs.tree? loc = none := by
        rw [← Option.map_eq_none_iff (f := Tree.node)]
        exact (get?_of_locate_vacant hlocate).1
      obtain ⟨-, ht'⟩ | ⟨t, t', ht, -⟩ := h.tree?_cases loc
      · exact .inl ⟨loc, rfl, by rw [hsame, Except.map, Target.within, targetAt, ht']⟩
      · cases hnone.symm.trans ht
    | present loc t =>
      have htree := tree?_of_locate_present hlocate
      obtain ⟨ht, -⟩ | ⟨s, t', ht, ht', halike⟩ := h.tree?_cases loc
      · cases htree.symm.trans ht
      · cases htree.symm.trans ht
        exact .inr (.inr ⟨loc, t, t', rfl, by rw [hsame, Except.map, Target.within, targetAt, ht'],
          halike⟩)

theorem Alike.find_cases (h : Alike fs.get? fs'.get?) (here : Here) (purpose : Purpose)
    (text : Text) :
    (∃ e, fs.find here purpose text = .error e ∧ fs'.find here purpose text = .error e) ∨
    ∃ loc t t', fs.find here purpose text = .ok (loc, t) ∧
      fs'.find here purpose text = .ok (loc, t') ∧ AlikeTrees t t' := by
  rw [find, find]
  obtain ⟨e, hl, hl'⟩ | ⟨loc, hl, hl'⟩ | ⟨gone, hl, hl'⟩ | ⟨loc, t, t', hl, hl', halike⟩ :=
    h.locate_cases here purpose text
  · exact .inl ⟨e, by rw [hl], by rw [hl']⟩
  · exact .inl ⟨.system .noEntry, by rw [hl], by rw [hl']⟩
  · exact .inl ⟨.system .noEntry, by rw [hl], by rw [hl']⟩
  · exact .inr ⟨loc, t, t', by rw [hl], by rw [hl'], halike⟩

theorem Alike.hasEntry_eq (h : Alike fs.get? fs'.get?) (here : Here) (text : Text) :
    fs'.hasEntry here text = fs.hasEntry here text := by
  rw [hasEntry, hasEntry]
  obtain ⟨e, hl, hl'⟩ | ⟨loc, hl, hl'⟩ | ⟨gone, hl, hl'⟩ | ⟨loc, t, t', hl, hl', -⟩ :=
    h.locate_cases here .target text <;> rw [hl, hl']

theorem Alike.isDirectory_eq (h : Alike fs.get? fs'.get?) (here : Here) (text : Text) :
    fs'.isDirectory here text = fs.isDirectory here text := by
  rw [isDirectory, isDirectory]
  obtain ⟨e, hl, hl'⟩ | ⟨loc, hl, hl'⟩ | ⟨gone, hl, hl'⟩ | ⟨loc, t, t', hl, hl', halike⟩ :=
    h.locate_cases here .target text <;> rw [hl, hl']
  cases halike <;> rfl

/-! ## Resolutions -/

/-- A resolution looks at names and links only. -/
theorem Alike.resolveFrom_eq (h : Alike fs.get? fs'.get?) (here : Here) (strict : Bool)
    (depth : Nat) (links : KnownLinks) (p : Path) (names : List Text) :
    fs'.resolveFrom here strict depth links p names =
      fs.resolveFrom here strict depth links p names := by
  match names with
  | [] => rw [resolveFrom, resolveFrom]
  | name :: rest =>
    have hrest (links : KnownLinks) (q : Path) := h.resolveFrom_eq here strict depth links q rest
    rw [resolveFrom, resolveFrom]
    dsimp only
    generalize hnext : Path.mk p.anchor (p.parts ++ [name]) = next
    split
    · exact hrest links p
    split
    · exact hrest links (levelUp p)
    obtain ⟨e, he, he'⟩ | ⟨loc, t, t', ht, ht', halike⟩ := h.find_cases here .entry next.text
    · rw [he, he']
      cases e with
      | badPath f => rfl
      | system e =>
        dsimp only
        rw [hrest]
    · rw [ht, ht']
      cases halike with
      | file | directory => exact hrest links next
      | link target =>
        dsimp only
        cases links.get? next.text with
        | some known =>
          cases known with
          | some known => exact hrest links known
          | none =>
            obtain ⟨e, he, he'⟩ | ⟨_, _, _, hfound, hfound', -⟩ :=
              h.find_cases here .target next.text
            · rw [he, he']
            · rw [hfound, hfound']
        | none =>
          cases depth with
          | zero => rfl
          | succ depth =>
            dsimp only
            rw [h.resolveFrom_eq here strict depth]
            split
            · rfl
            · rfl
            · exact hrest _ _
termination_by (depth, names.length)

theorem Alike.resolve_eq (h : Alike fs.get? fs'.get?) (here : Here) (strict : Bool) (p : Path) :
    fs'.resolve here strict p = fs.resolve here strict p := by
  rw [resolve, resolve, h.resolveFrom_eq]
  split
  · rfl
  · split
    · rfl
    · rename_i q _
      obtain ⟨e, he, he'⟩ | ⟨_, _, _, hfound, hfound', -⟩ := h.find_cases here .target q.text
      · rw [he, he']
      · rw [hfound, hfound']

theorem Alike.linkListing_eq (h : Alike fs.get? fs'.get?) (here : Here) (text : Text) :
    fs'.linkListing here text = fs.linkListing here text := by
  rw [linkListing, linkListing]
  obtain ⟨e, hfind, hfind'⟩ | ⟨loc, t, t', hfind, hfind', halike⟩ := h.find_cases here .target text
  · rw [hfind, hfind']
  · rw [hfind, hfind']
    cases halike <;> rfl

/-! ## Replacing files -/

theorem Alike.moveTarget_eq (h : Alike fs.get? fs'.get?) (here : Here) (p : Path) :
    fs'.moveTarget here p = fs.moveTarget here p := by
  rw [moveTarget, moveTarget]
  obtain ⟨e, hl, hl'⟩ | ⟨loc, hl, hl'⟩ | ⟨gone, hl, hl'⟩ | ⟨loc, t, t', hl, hl', halike⟩ :=
    h.locate_cases here .entry p.text <;> rw [hl, hl']
  cases halike <;> rfl

/-- The temporary file has the same name in both. -/
theorem Alike.makeTemporary_cases (h : Alike fs.get? fs'.get?) (now : Int) (directory : Path)
    (name : Text) (content : List UInt8) (fuel n : Nat) :
    (∃ e, fs.makeTemporary now directory name content fuel n = .error e ∧
      fs'.makeTemporary now directory name content fuel n = .error e) ∨
    ∃ place text made made',
      fs.makeTemporary now directory name content fuel n = .ok (place, text, made) ∧
      fs'.makeTemporary now directory name content fuel n = .ok (place, text, made') := by
  induction fuel generalizing n with
  | zero => exact .inl ⟨_, rfl, rfl⟩
  | succ fuel ih =>
    rw [makeTemporary, makeTemporary]
    obtain ⟨e, hl, hl'⟩ | ⟨loc, hl, hl'⟩ | ⟨gone, hl, hl'⟩ | ⟨loc, t, t', hl, hl', -⟩ :=
      h.locate_cases Here.root .entry (directory.child (temporaryName name n)).text <;>
      rw [hl, hl']
    · exact .inl ⟨_, rfl, rfl⟩
    · exact .inr ⟨_, _, _, _, rfl, rfl⟩
    · exact ih (n + 1)
    · exact ih (n + 1)

theorem Alike.startFile_cases (h : Alike fs.get? fs'.get?) (now : Int) (here : Here) (p : Path)
    (content : List UInt8) :
    (∃ e, fs.startFile now here p content = .error e ∧
      fs'.startFile now here p content = .error e) ∨
    ∃ place text made made', fs.startFile now here p content = .ok (place, text, made) ∧
      fs'.startFile now here p content = .ok (place, text, made') := by
  rw [startFile, startFile]
  cases here.absolute? p.parent with
  | none => exact .inl ⟨_, rfl, rfl⟩
  | some directory => exact h.makeTemporary_cases now directory p.name content maxTemporaries 0

/-- A file is replaced in both or in none, and in the same place. -/
theorem Alike.replaceFile_eq (h : Alike fs.get? fs'.get?) (now : Int) (here : Here) (p : Path)
    (content : List UInt8) :
    (fs'.replaceFile now here p content).1 = (fs.replaceFile now here p content).1 ∧
      ∀ loc, fs'.get? loc = fs.get? loc →
        (fs'.replaceFile now here p content).2.get? loc =
          (fs.replaceFile now here p content).2.get? loc := by
  obtain ⟨e, hstart, hstart'⟩ | ⟨place, text, made, made', hstart, hstart'⟩ :=
    h.startFile_cases now here p content
  · simp only [replaceFile, hstart, hstart']
    exact ⟨trivial, fun loc hloc => hloc⟩
  · have hmade : Alike made.get? made'.get? := by
      intro loc
      rw [get?_startFile hstart, get?_startFile hstart']
      split
      · exact .inl rfl
      · exact h loc
    have hmove := hmade.moveTarget_eq here p
    obtain ⟨e, he, hresult, hget⟩ | ⟨target, ht, hresult, hget⟩ :=
        replaceFile_of_startFile hstart <;>
      obtain ⟨e', he', hresult', hget'⟩ | ⟨target', ht', hresult', hget'⟩ :=
        replaceFile_of_startFile hstart'
    · cases (he'.symm.trans hmove).trans he
      exact ⟨hresult'.trans hresult.symm, fun loc hloc => by rw [hget, hget', hloc]⟩
    · cases (ht'.symm.trans hmove).trans he
    · cases (he'.symm.trans hmove).trans ht
    · cases (ht'.symm.trans hmove).trans ht
      exact ⟨hresult'.trans hresult.symm, fun loc hloc => by rw [hget, hget', hloc]⟩

end Alike

end FileSystem

/-! ## Masked trees -/

namespace Tree

mutual

/-- The tree at `loc` without what is in its hidden files and without the times of directories. -/
def masked (hidden : Location → Bool) (loc : Location) : Tree → Tree
  | .file content modified => if hidden loc then .file [] 0 else .file content modified
  | .link target => .link target
  | .directory _ entries => .directory 0 (maskedEntries hidden loc entries)

def maskedEntries (hidden : Location → Bool) (loc : Location) :
    List (Text × Tree) → List (Text × Tree)
  | [] => []
  | (name, t) :: rest => (name, t.masked hidden (loc ++ [name])) :: maskedEntries hidden loc rest

end

variable {hidden : Location → Bool} {loc : Location} {t t' : Tree}

theorem get?_maskedEntries (entries : List (Text × Tree)) (name : Text) :
    Table.get? (maskedEntries hidden loc entries) name =
      (Table.get? entries name).map (masked hidden (loc ++ [name])) := by
  induction entries with
  | nil => rfl
  | cons pair entries ih =>
    obtain ⟨key, t⟩ := pair
    rw [maskedEntries, Table.get?, Table.get?]
    split
    · rename_i hkey
      rw [hkey, Option.map_some]
    · exact ih

theorem get?_masked (t : Tree) (loc rest : Location) :
    (t.masked hidden loc).get? rest = (t.get? rest).map (masked hidden (loc ++ rest)) := by
  induction rest generalizing t loc with
  | nil => simp [get?]
  | cons name rest ih =>
    cases t with
    | file content modified => by_cases hloc : hidden loc <;> simp [masked, hloc, get?, entries]
    | link target => simp [masked, get?, entries]
    | directory modified entries =>
      rw [masked, get?, get?, Tree.entries, Tree.entries, get?_maskedEntries]
      cases Table.get? entries name with
      | none => rfl
      | some t => simpa using ih t (loc ++ [name])

/-- What two trees have in common that are the same but for their hidden files. -/
theorem masked_cases (h : t.masked hidden loc = t'.masked hidden loc) :
    (∃ content modified content' modified', t = .file content modified ∧
      t' = .file content' modified' ∧
      (hidden loc = false → content' = content ∧ modified' = modified)) ∨
    (∃ target, t = .link target ∧ t' = .link target) ∨
    ∃ modified entries modified' entries', t = .directory modified entries ∧
      t' = .directory modified' entries' ∧
      maskedEntries hidden loc entries = maskedEntries hidden loc entries' := by
  cases t <;> cases t' <;> by_cases hloc : hidden loc <;> simp_all [masked]

end Tree

namespace FileSystem

/-- A file system without what is in its hidden files and without the times of directories. -/
def masked (hidden : Location → Bool) (fs : FileSystem) : FileSystem :=
  ofRoot (fs.root.masked hidden [])

/-- Whether two file systems differ at most in what is in the hidden files, in when these were
modified, and in the times of directories. -/
def SameBut (hidden : Location → Bool) (fs fs' : FileSystem) : Prop :=
  fs.masked hidden = fs'.masked hidden

theorem tree?_masked (hidden : Location → Bool) (fs : FileSystem) (loc : Location) :
    (fs.masked hidden).tree? loc = (fs.tree? loc).map (Tree.masked hidden loc) :=
  Tree.get?_masked fs.root [] loc

namespace SameBut

variable {hidden : Location → Bool} {fs fs' : FileSystem} {here : Here}

/-- What is at a location in both. -/
theorem tree?_cases (h : SameBut hidden fs fs') (loc : Location) :
    (fs.tree? loc = none ∧ fs'.tree? loc = none) ∨
    ∃ t t', fs.tree? loc = some t ∧ fs'.tree? loc = some t' ∧
      t.masked hidden loc = t'.masked hidden loc := by
  have heq := congrArg (tree? · loc) h
  rw [tree?_masked, tree?_masked] at heq
  cases ht : fs.tree? loc <;> cases ht' : fs'.tree? loc <;> simp_all

theorem alike (h : SameBut hidden fs fs') : Alike fs.get? fs'.get? := by
  intro loc
  rw [get?_eq_map, get?_eq_map]
  obtain ⟨ht, ht'⟩ | ⟨t, t', ht, ht', hmasked⟩ := h.tree?_cases loc
  · exact .inl (by rw [ht, ht'])
  · rw [ht, ht']
    obtain ⟨_, _, _, _, rfl, rfl, -⟩ | ⟨_, rfl, rfl⟩ | ⟨_, _, _, _, rfl, rfl, -⟩ :=
      Tree.masked_cases hmasked
    · exact .inr ⟨_, _, _, _, rfl, rfl⟩
    · exact .inl rfl
    · exact .inl rfl

theorem get?_eq (h : SameBut hidden fs fs') {loc : Location} (hloc : hidden loc = false) :
    fs'.get? loc = fs.get? loc := by
  rw [get?_eq_map, get?_eq_map]
  obtain ⟨ht, ht'⟩ | ⟨t, t', ht, ht', hmasked⟩ := h.tree?_cases loc
  · rw [ht, ht']
  · rw [ht, ht']
    obtain ⟨_, _, _, _, rfl, rfl, hsame⟩ | ⟨_, rfl, rfl⟩ | ⟨_, _, _, _, rfl, rfl, -⟩ :=
      Tree.masked_cases hmasked
    · obtain ⟨rfl, rfl⟩ := hsame hloc
      rfl
    · rfl
    · rfl

theorem masked_of_locate (h : SameBut hidden fs fs') {purpose : Purpose} {text : Text}
    {loc : Location} {t t' : Tree} (hl : fs.locate here purpose text = .ok (.present loc t))
    (hl' : fs'.locate here purpose text = .ok (.present loc t')) :
    t.masked hidden loc = t'.masked hidden loc := by
  have ht := tree?_of_locate_present hl
  have ht' := tree?_of_locate_present hl'
  obtain ⟨hnone, -⟩ | ⟨s, s', hs, hs', hmasked⟩ := h.tree?_cases loc
  · cases hnone.symm.trans ht
  · cases hs.symm.trans ht
    cases hs'.symm.trans ht'
    exact hmasked

/-- A file that is not hidden is read in both. -/
theorem read_eq (h : SameBut hidden fs fs') {here : Here} {text : Text}
    (hseen : ∀ loc t, fs.locate here .target text = .ok (.present loc t) → hidden loc = false) :
    fs'.read here text = fs.read here text := by
  rw [read, read]
  obtain ⟨e, hl, hl'⟩ | ⟨loc, hl, hl'⟩ | ⟨gone, hl, hl'⟩ | ⟨loc, t, t', hl, hl', -⟩ :=
    h.alike.locate_cases here .target text <;> rw [hl, hl']
  obtain ⟨_, _, _, _, rfl, rfl, hsame⟩ | ⟨_, rfl, rfl⟩ | ⟨_, _, _, _, rfl, rfl, -⟩ :=
    Tree.masked_cases (h.masked_of_locate hl hl')
  · obtain ⟨rfl, rfl⟩ := hsame (hseen loc _ hl)
    rfl
  · rfl
  · rfl

end SameBut

/-! ## Scans -/

section Listings

variable {fs fs' : FileSystem} {here : Here} {text : List Text → Text} {shut : List Text → Bool}
  {hidden : Location → Bool}

mutual

/-- A walk looks at no file. -/
theorem listTree_masked (loc : Location) (names : List Text) : (t : Tree) →
    fs.listTree here text shut names (t.masked hidden loc) = fs.listTree here text shut names t
  | .file _ _ => by
    rw [Tree.masked]
    split <;> simp only [listTree]
  | .link _ => by rw [Tree.masked]
  | .directory _ entries => by
    simp only [Tree.masked, listTree, listEntries_masked loc names entries]

theorem listEntries_masked (loc : Location) (names : List Text) :
    (entries : List (Text × Tree)) →
    fs.listEntries here text shut names (Tree.maskedEntries hidden loc entries) =
      fs.listEntries here text shut names entries
  | [] => by simp only [Tree.maskedEntries]
  | (name, t) :: rest => by
    simp only [Tree.maskedEntries, listEntries, listTree_masked (loc ++ [name]) (names ++ [name]) t,
      listEntries_masked loc names rest]

end

mutual

theorem listTree_congr (h : ∀ t, fs'.linkListing here t = fs.linkListing here t)
    (names : List Text) : (t : Tree) →
    fs'.listTree here text shut names t = fs.listTree here text shut names t
  | .file _ _ => by simp only [listTree]
  | .link _ => by simp only [listTree, h]
  | .directory _ entries => by simp only [listTree, listEntries_congr h names entries]

theorem listEntries_congr (h : ∀ t, fs'.linkListing here t = fs.linkListing here t)
    (names : List Text) : (entries : List (Text × Tree)) →
    fs'.listEntries here text shut names entries = fs.listEntries here text shut names entries
  | [] => by simp only [listEntries]
  | (name, t) :: rest => by
    simp only [listEntries, listTree_congr h (names ++ [name]) t, listEntries_congr h names rest]

end

end Listings

namespace SameBut

variable {hidden : Location → Bool} {fs fs' : FileSystem} {here : Here}

theorem listing_eq (h : SameBut hidden fs fs') (here : Here) (text : List Text → Text)
    (shut : List Text → Bool) {loc : Location} {modified modified' : Int}
    {entries entries' : List (Text × Tree)}
    (hentries : Tree.maskedEntries hidden loc entries = Tree.maskedEntries hidden loc entries') :
    fs'.listing here text shut (.directory modified' entries') =
      fs.listing here text shut (.directory modified entries) := by
  calc fs'.listEntries here text shut [] entries'
      = fs.listEntries here text shut [] entries' :=
        listEntries_congr (h.alike.linkListing_eq here) [] _
    _ = fs.listEntries here text shut [] (Tree.maskedEntries hidden loc entries) := by
      rw [hentries, listEntries_masked]
    _ = fs.listEntries here text shut [] entries := listEntries_masked loc [] _

/-! ## Sources -/

theorem load_eq (h : SameBut hidden fs fs') {directory : Path}
    (hseen : ∀ loc t, fs.locate here .target (directory.child Config.fileName).text =
      .ok (.present loc t) → hidden loc = false) :
    Config.load fs' here directory = Config.load fs here directory := by
  rw [Config.load, Config.load, h.alike.hasEntry_eq, h.read_eq hseen]

theorem sourcesBelow_eq (h : SameBut hidden fs fs') (config : Config) (here : Here) (p : Path) :
    config.sourcesBelow fs' here p = config.sourcesBelow fs here p := by
  rw [Config.sourcesBelow, Config.sourcesBelow]
  cases config.extensionTexts with
  | error f => rfl
  | ok extensions => ?_
  obtain ⟨e, hl, hl'⟩ | ⟨loc, hl, hl'⟩ | ⟨gone, hl, hl'⟩ | ⟨loc, t, t', hl, hl', -⟩ :=
    h.alike.locate_cases here .target p.text
  · rw [hl, hl']
    cases e <;> rfl
  · rw [hl, hl']
  · rw [hl, hl']
  · rw [hl, hl']
    obtain ⟨_, _, _, _, rfl, rfl, -⟩ | ⟨_, rfl, rfl⟩ |
        ⟨_, entries, _, entries', rfl, rfl, hentries⟩ :=
      Tree.masked_cases (h.masked_of_locate hl hl')
    · rfl
    · rfl
    · cases here.absolute? p with
      | none => rfl
      | some q =>
        dsimp only
        rw [h.listing_eq here (Config.scanText p) (Config.isShut here p loc) hentries]

theorem collect_eq (h : SameBut hidden fs fs') (config : Config) (here : Here) (recurse : Bool)
    (inputs : List Text) :
    config.collect fs' here recurse inputs = config.collect fs here recurse inputs := by
  have hone : config.collectOne fs' here recurse = config.collectOne fs here recurse := by
    funext input
    rw [Config.collectOne, Config.collectOne, h.alike.isDirectory_eq, h.sourcesBelow_eq]
  rw [Config.collect, Config.collect, hone]

end SameBut
end FileSystem
end TagsFile
