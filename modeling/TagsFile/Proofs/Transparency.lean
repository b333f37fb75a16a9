import TagsFile.Proofs.Entries
import TagsFile.Proofs.Processing
import TagsFile.Proofs.Resolution

/-!
# Tags from a store are those of the source

Whatever becomes of sources, and whatever generators process them, a store gives the tags that the
source itself gives, as long as the time of a source tells of the changes of its bytes.

## Main definitions

* `Tells`: changes that the time of a source tells of.
* `History`: the files that sources and generators come to.
* `Faithful`: what is true of them.
-/

namespace TagsFile

open FileSystem

/-! ## Histories -/

/-- Whether the time of the source at `loc` tells of a change of the files: the source is then later
than the entry that it had, unless it has the bytes of before and was not later than the entry. This
also shuts out a source that is touched past its entry and then back, with the bytes from which the
entry was saved: the entry has its tags, but the times alone do not show it. -/
def Tells (here : Here) (root : Path) (loc : Location) (fs fs' : FileSystem) : Prop :=
  ∀ place bytes entryTime content time,
    fs.find here .target (Store.entryPath { root } loc.text).text =
      .ok (place, .file bytes entryTime) →
    fs'.get? loc = some (.file content time) →
    entryTime < time ∨ ∃ time', fs.get? loc = some (.file content time') ∧ time' ≤ entryTime

/-- A source that a generator may process: its resolved path is spelled as the file system spells
it, and if entries are sources themselves then their times tell of the change. -/
structure Admits (grammar : Option Grammar) (here : Here) (root : Path) (top : Location)
    (path : Text) (g : Generator) (w : World) : Prop where
  named : ∀ q, w.files.resolve here true (Path.ofText path) = .ok q →
    ∃ loc : Location, loc.IsNamed ∧ q = loc.path
  tells : ∀ loc : Location, loc.IsNamed → top <+: loc →
    Tells here root loc w.files (g.process grammar path w).2.2.files

/-- Sources of which each may be processed when its turn comes. -/
def AdmitsEach (grammar : Option Grammar) (here : Here) (root : Path) (top : Location) :
    List Text → Generator → World → Prop
  | [], _, _ => True
  | path :: paths, g, w => Admits grammar here root top path g w ∧
    ∀ tags g' w', g.process grammar path w = (.ok tags, g', w') →
      AdmitsEach grammar here root top paths g' w'

/-- The files that come of changes of sources and of generators whose stores have their root at
`top`. -/
inductive History (grammar : Option Grammar) (here : Here) (root : Path) (top : Location)
    (start : FileSystem) : FileSystem → Prop where
  | start : History grammar here root top start start
  | source {fs fs' : FileSystem} (h : History grammar here root top start fs)
      (hchange : SourceChange top fs fs')
      (htells : ∀ loc : Location, loc.IsNamed → Tells here root loc fs fs') :
      History grammar here root top start fs'
  | process {g : Generator} {w : World} {path : Text}
      (h : History grammar here root top start w.files) (hhere : w.here = here)
      (hroot : g.store.root = root) (henabled : g.store.enabled = true)
      (hadmits : Admits grammar here root top path g w) :
      History grammar here root top start (g.process grammar path w).2.2.files
  | processAll {g : Generator} {w : World} {paths : List Text}
      (h : History grammar here root top start w.files) (hhere : w.here = here)
      (hroot : g.store.root = root) (henabled : g.store.enabled = true)
      (hadmits : AdmitsEach grammar here root top paths g w) :
      History grammar here root top start (g.processAll grammar paths w).2.2.files

variable {grammar : Option Grammar} {here : Here} {root base : Path} {top dest loc : Location}
  {names : List Text} {start fs fs' : FileSystem} {m : Shelf} {s : Store}

/-! ## Faithful stores -/

/-- A map that has the tags of every source that is not later than its entry. -/
def Faithful (grammar : Option Grammar) (fs : FileSystem) (m : Shelf) : Prop :=
  ∀ (loc : Location) tags time content sourceTime, loc.IsNamed → m loc = some (tags, time) →
    fs.get? loc = some (.file content sourceTime) → sourceTime ≤ time →
    ∃ lines, Generator.extract grammar loc.text content = .ok (lines, tags)

theorem Tells.of_same (h : ∀ content time, fs'.get? loc = some (.file content time) →
    fs.get? loc = some (.file content time)) : Tells here root loc fs fs' := by
  intro place bytes entryTime content time _ hfile
  by_cases hle : time ≤ entryTime
  · exact .inr ⟨time, h content time hfile, hle⟩
  · exact .inl (by omega)

namespace Store

/-- The entry of a source is found at the place of its names. -/
theorem Spells.find_entry (h : Spells here base dest names fs m) (hloc : loc.IsNamed)
    {tags : List SourceTag} {time : Int} (hm : m loc = some (tags, time)) :
    ∃ place bytes, fs.find here .target
      (Store.entryPath { root := base.below names } loc.text).text =
      .ok (place, .file bytes time) := by
  have hfile := (h.entry loc hloc _ time).2 ⟨tags, hm, rfl⟩
  have hlocate := h.site.base.locate_file (show Purpose.target ≠ .output by decide)
    (by simp [entryNames_ne_nil]) (h.site.named_append (isName_entryNames hloc)) (h.site.unlinked _)
    (h.fits _ (by simp [hfile])) hfile
  refine ⟨dest ++ (names ++ entryNames loc), encodeEntry loc.text (tags.map Tag.raw), ?_⟩
  rw [entryPath_below rfl hloc, find, hlocate]

/-- An entry that is found is one of the map. -/
theorem Spells.of_find_entry (h : Spells here base dest names fs m) (hloc : loc.IsNamed)
    {place : Location} {bytes : List UInt8} {time : Int}
    (hfind : fs.find here .target (Store.entryPath { root := base.below names } loc.text).text =
      .ok (place, .file bytes time)) : ∃ tags, m loc = some (tags, time) := by
  rw [entryPath_below rfl hloc] at hfind
  have hpresent := locate_of_find hfind
  obtain ⟨e, hlocate⟩ | ⟨hlocate, -⟩ := h.site.base.locate_below_cases
    (show Purpose.target ≠ .output by decide) (by simp [entryNames_ne_nil])
    (h.site.named_append (isName_entryNames hloc)) (h.site.unlinked _)
  · cases hpresent.symm.trans hlocate
  · have htarget := Except.ok.inj (hlocate.symm.trans hpresent)
    rw [targetAt] at htarget
    split at htarget
    · rename_i tree htree
      cases htarget
      obtain ⟨tags, hm, -⟩ := (h.entry loc hloc bytes time).1 (by rw [get?_eq_map, htree]; rfl)
      exact ⟨tags, hm⟩
    · cases htarget

end Store

/-- Before there are entries, all times tell of a change. -/
theorem FreshRoot.tells (h : FreshRoot fs here root top) (hloc : loc.IsNamed) :
    Tells here root loc fs fs' := by
  intro place bytes entryTime content time hfind
  obtain ⟨base, dest, names, hsite, rfl, rfl, -, hfits, hnone⟩ := h.exists_site
  obtain ⟨tags, hm⟩ := (Store.Spells.of_fresh hsite hfits hnone).of_find_entry hloc hfind
  cases hm

/-- A change that all times tell of keeps a map faithful. -/
theorem Faithful.change (h : Faithful grammar fs m)
    (hspells : Store.Spells here base dest names fs m)
    (htells : ∀ loc : Location, loc.IsNamed → Tells here (base.below names) loc fs fs') :
    Faithful grammar fs' m := by
  intro loc tags time content sourceTime hloc hm hfile hle
  obtain ⟨place, bytes, hentry⟩ := hspells.find_entry hloc hm
  obtain hlate | ⟨time', hbefore, hle'⟩ := htells loc hloc _ _ _ _ _ hentry hfile
  · omega
  · exact h loc tags time content time' hloc hm hbefore hle'

theorem FileSystem.IsIn.steady (h : IsIn here fs) (hs : Steady fs fs') : IsIn here fs' := by
  intro hlost
  obtain ⟨tree, hfind, htree⟩ := h hlost
  have hbase : fs.Base here ⟨.here, []⟩ here.location := .of_find nofun hfind htree
  obtain ⟨tree', hlocate, -, htree'⟩ := (hbase.keep hs.keeps).locate_target
  have hdot : fs'.locate here .target "." = .ok (.present here.location tree') := hlocate
  exact ⟨tree', by rw [find, hdot], htree'⟩

/-! ## Every state -/

/-- What is true of the files in every state: those below the root spell a map that has the tags of
every source that is not later than its entry. -/
structure Truthful (grammar : Option Grammar) (here : Here) (base : Path) (dest : Location)
    (names : List Text) (fs : FileSystem) (m : Shelf) : Prop where
  isIn : IsIn here fs
  spells : Store.Spells here base dest names fs m
  faithful : Faithful grammar fs m

namespace Truthful

theorem source (h : Truthful grammar here base dest names fs m)
    (hchange : SourceChange (dest ++ names) fs fs')
    (htells : ∀ loc : Location, loc.IsNamed → Tells here (base.below names) loc fs fs') :
    Truthful grammar here base dest names fs' m where
  isIn := h.isIn.steady hchange.steady
  spells := h.spells.elsewhere hchange.steady hchange.get?_below
  faithful := h.faithful.change h.spells htells

/-- Saving the tags of a source. -/
theorem save (h : Truthful grammar here base dest names fs m) (hroot : s.root = base.below names)
    (henabled : s.enabled = true) (hloc : loc.IsNamed) {content : List UInt8} {sourceTime now : Int}
    (hfile : fs.get? loc = some (.file content sourceTime)) {lines : List LogLine}
    {tags : List SourceTag}
    (hextract : Generator.extract grammar loc.text content = .ok (lines, tags))
    {result : Except Fault Unit} {files : FileSystem}
    (hsave : s.save now here loc.text (tags.map Tag.raw) fs = (result, files))
    (htells : ∀ loc : Location, loc.IsNamed → dest ++ names <+: loc →
      Tells here (base.below names) loc fs files) :
    ∃ m', Truthful grammar here base dest names files m' := by
  have hsite := h.spells.site
  have hisIn := h.isIn.steady (Store.save_steady hsite hroot henabled hloc hsave)
  have hall : ∀ other : Location, other.IsNamed → Tells here (base.below names) other fs files := by
    intro other hother
    by_cases hbelow : dest ++ names <+: other
    · exact htells other hother hbelow
    · refine .of_same fun content time =>
        (Store.get?_save_file hsite hroot henabled hloc ?_ hsave).1
      rintro rfl
      rw [← List.append_assoc] at hbelow
      exact hbelow (List.prefix_append _ _)
  have hfaithful := h.faithful.change h.spells hall
  -- the source has still the bytes that the tags come of
  have hput (time : Int) : Faithful grammar files (m.put loc tags time) := by
    intro other tags' time content' time' hother hm hfile' hle
    rw [Shelf.put] at hm
    split at hm
    · rename_i heq
      subst heq
      cases hm
      have hbefore := (Store.get?_save_file hsite hroot henabled hloc
        (Store.entry_ne_source dest names other) hsave).1 hfile'
      rw [hfile] at hbefore
      cases hbefore
      exact ⟨lines, hextract⟩
    · exact hfaithful other tags' time content' time' hother hm hfile' hle
  cases result with
  | ok => exact ⟨_, hisIn, h.spells.save hroot henabled hloc hsave, hput _⟩
  | error f =>
    cases hwrite : (s.putEntry now here loc.text (tags.map Tag.raw) fs).1 with
    | error f' =>
      have hspells := h.spells.failToSave hroot henabled hloc hwrite
      rw [hsave] at hspells
      exact ⟨m, hisIn, hspells, hfaithful⟩
    | ok => exact ⟨_, hisIn, h.spells.failToStamp hroot henabled hloc hwrite hsave, hput now⟩

/-- Processing a source. -/
theorem process (h : Truthful grammar here base dest names fs m) {g : Generator} {w : World}
    {path : Text} (hfiles : w.files = fs) (hhere : w.here = here)
    (hroot : g.store.root = base.below names) (henabled : g.store.enabled = true)
    (hadmits : Admits grammar here (base.below names) (dest ++ names) path g w) :
    ∃ m', Truthful grammar here base dest names (g.process grammar path w).2.2.files m' := by
  subst hfiles hhere
  obtain ⟨f, -, hprocess⟩ | ⟨q, hresolve, hprocess⟩ := Generator.process_cases grammar g w path
  · rw [hprocess]
    exact ⟨m, h⟩
  obtain ⟨loc, hloc, rfl⟩ := hadmits.named q hresolve
  have htells := hadmits.tells
  rw [hprocess] at htells ⊢
  obtain ⟨f, -, heq⟩ | ⟨reason, f, log, -, -, heq⟩ | ⟨tags, log, -, heq⟩ |
    ⟨reason, content, lines, tags, log, result, files, -, hread, hextract, hsave, heq⟩ :=
    Generator.processResolved_cases grammar loc.path.text g w
  · rw [heq]
    exact ⟨m, h⟩
  · rw [heq]
    exact ⟨m, h⟩
  · rw [heq]
    exact ⟨m, h⟩
  · rw [heq] at htells ⊢
    obtain ⟨n, hn, hlink⟩ := get?_of_resolve h.isIn hloc hresolve
    obtain ⟨time, hfile, -⟩ := get?_of_read hloc (unlinked_of_get? hn hlink) hread
    exact h.save hroot henabled hloc hfile hextract hsave htells

/-- Processing one source after the other. -/
theorem processEach {g : Generator} {w : World} {paths : List Text}
    (h : Truthful grammar here base dest names w.files m) (hhere : w.here = here)
    (hroot : g.store.root = base.below names) (henabled : g.store.enabled = true)
    (hadmits : AdmitsEach grammar here (base.below names) (dest ++ names) paths g w) :
    ∃ m', Truthful grammar here base dest names (g.processEach grammar paths w).2.2.files m' := by
  induction paths generalizing g w m with
  | nil => exact ⟨m, h⟩
  | cons path paths ih =>
    obtain ⟨hfirst, hrest⟩ := hadmits
    obtain ⟨m', h'⟩ := h.process rfl hhere hroot henabled hfirst
    obtain ⟨hroot', henabled', hhere'⟩ := g.process_same grammar w path
    rw [Generator.processEach]
    split
    · rename_i heq
      rw [heq] at h'
      exact ⟨m', h'⟩
    · rename_i heq
      rw [heq] at h' hroot' henabled' hhere'
      exact ih h' (hhere'.trans hhere) (hroot'.trans hroot) (henabled'.trans henabled)
        (hrest _ _ _ heq)

theorem history (h : Truthful grammar here base dest names start m)
    (hrun : History grammar here (base.below names) (dest ++ names) start fs) :
    ∃ m', Truthful grammar here base dest names fs m' := by
  induction hrun with
  | start => exact ⟨m, h⟩
  | source _ hchange htells ih =>
    obtain ⟨m', h'⟩ := ih
    exact ⟨m', h'.source hchange htells⟩
  | process _ hhere hroot henabled hadmits ih =>
    obtain ⟨m', h'⟩ := ih
    exact h'.process rfl hhere hroot henabled hadmits
  | processAll _ hhere hroot henabled hadmits ih =>
    obtain ⟨m', h'⟩ := ih
    rw [(Generator.processAll_same grammar _ _ _).2.2.1]
    exact h'.processEach hhere hroot henabled hadmits

/-- What a lookup gives for a source that can be read and parsed: its tags, or nothing. -/
theorem load_cases (h : Truthful grammar here base dest names fs m)
    (hroot : s.root = base.below names)
    (henabled : s.enabled = true) (hloc : loc.IsNamed) {content : List UInt8} {sourceTime : Int}
    (hfile : fs.get? loc = some (.file content sourceTime))
    (htime : fs.modifiedAt here loc.text = .ok sourceTime) {lines : List LogLine}
    {tags : List SourceTag}
    (hextract : Generator.extract grammar loc.text content = .ok (lines, tags)) :
    s.load fs here loc.text = .ok (.hit (tags.map Tag.raw)) ∨
      ∃ reason, s.load fs here loc.text = .ok (.miss reason) := by
  obtain ⟨tags', time, sourceTime', hm, htime', hle, hload⟩ | ⟨-, hmiss⟩ :=
    h.spells.load_cases hroot henabled hloc
  · rw [htime, Except.ok.injEq] at htime'
    subst htime'
    obtain ⟨lines', hextract'⟩ := h.faithful loc tags' time content sourceTime hloc hm hfile hle
    rw [hextract] at hextract'
    cases hextract'
    rw [hload]
    exact Generator.ofBytes_encodeEntry here.depths hloc.unpaired_text hextract
  · exact .inr hmiss

end Truthful

namespace Generator

/-- In every state that sources and generators come to, processing a source with a store gives the
tags that processing it without one gives, and adds just these to the index. -/
theorem process_transparent (hfresh : FreshRoot start here root top) (hhere : IsIn here start)
    (hhistory : History grammar here root top start fs) {path : Text} (hloc : loc.IsNamed)
    (hpath : fs.resolve here true (Path.ofText path) = .ok loc.path) {g g' : Generator}
    {w w' : World} (hfiles : w.files = fs ∧ w'.files = fs) (hheres : w.here = here ∧ w'.here = here)
    (hroot : g.store.root = root) (henabled : g.store.enabled = true)
    (hdisabled : g'.store.enabled = false) {tags tags' : List RawTag}
    (hok : (g.process grammar path w).1 = .ok tags)
    (hok' : (g'.process grammar path w').1 = .ok tags') :
    tags = tags' ∧ (g.process grammar path w).2.1.index = g.index.add tags' ∧
      (g'.process grammar path w').2.1.index = g'.index.add tags' := by
  obtain ⟨base, dest, names, hsite, rfl, rfl, -, hfits, hnone⟩ := hfresh.exists_site
  obtain ⟨rfl, hfiles'⟩ := hfiles
  obtain ⟨rfl, hhere'⟩ := hheres
  have hstart : Truthful grammar w.here base dest names start .empty :=
    ⟨hhere, .of_fresh hsite hfits hnone, nofun⟩
  obtain ⟨m, h⟩ := hstart.history hhistory
  rw [process_of_resolve hpath] at hok ⊢
  rw [process_of_resolve (by rwa [hfiles', hhere'])] at hok' ⊢
  obtain ⟨hindex, hcases⟩ := processResolved_ok hok
  obtain ⟨hindex', hcases'⟩ := processResolved_ok hok'
  rw [Store.load_disabled hdisabled, hfiles', hhere'] at hcases'
  obtain ⟨hhit, -⟩ | ⟨-, content, lines, parsed, -, hread, hextract, rfl, -⟩ := hcases'
  · cases hhit
  have htags : tags = parsed.map Tag.raw := by
    obtain ⟨hhit, -⟩ | ⟨-, content', lines', parsed', -, hread', hextract', rfl, -⟩ := hcases
    · obtain ⟨n, hn, hlink⟩ := get?_of_resolve h.isIn hloc hpath
      obtain ⟨time, hfile, htime⟩ := get?_of_read hloc (unlinked_of_get? hn hlink) hread
      obtain hload | ⟨reason, hload⟩ := h.load_cases hroot henabled hloc hfile htime hextract
      · exact Lookup.hit.inj (Except.ok.inj (hhit.symm.trans hload))
      · cases hhit.symm.trans hload
    · cases hread.symm.trans hread'
      cases hextract.symm.trans hextract'
      rfl
  exact ⟨htags, htags ▸ hindex, hindex'⟩

open Store

/-- A grammar for sources of one class. -/
def oneClass : Grammar := fun source =>
  .node "program" true 0 source.length <|
    if source.isEmpty then [] else [.node "class" false 0 5 [], .node "name" true 6 7 []]

/-- The bytes of `class A`. -/
def classSource : List UInt8 := [99, 108, 97, 115, 115, 32, 65]

/-- The tag of the class. -/
def classTag (path : Text) : SourceTag where
  name := "A"
  path := path
  pattern := "let _s=@/ | /class A/; | let @/=_s\";\""
  kind := .classDecl
  line := 1
  scope := none
  extras := []
  access := none

theorem extract_classSource (path : Text) :
    (extract (some oneClass) path classSource).map Prod.snd = .ok [classTag path] := by
  cbv

theorem extract_empty :
    (extract (some oneClass) (Location.text ["a.php"]) []).map Prod.snd = .ok [] := by
  cbv

theorem exists_lines {result : Except Fault (List LogLine × List SourceTag)}
    {tags : List SourceTag} (h : result.map Prod.snd = .ok tags) :
    ∃ lines, result = .ok (lines, tags) := by
  cases result with
  | error f => cases h
  | ok pair =>
    cases h
    exact ⟨pair.1, rfl⟩

theorem resolve_filesWithSource (source : List UInt8) :
    (filesWithSource source).resolve Here.root true (Location.path ["a.php"]) =
      .ok (Location.path ["a.php"]) := by
  cbv

theorem resolve_filesAfterSave (source entry : List UInt8) (time : Int) :
    (filesAfterSave source time entry).resolve Here.root true (Location.path ["a.php"]) =
      .ok (Location.path ["a.php"]) := by
  cbv

theorem read_filesAfterSave (source entry : List UInt8) (time : Int) :
    (filesAfterSave source time entry).read Here.root (Location.text ["a.php"]) = .ok source := by
  cbv

theorem load_filesWithSource (source : List UInt8) :
    storeAtCache.load (filesWithSource source) Here.root (Location.text ["a.php"]) =
      .ok (.miss .noEntry) := by
  cbv

theorem read_filesWithSource (source : List UInt8) :
    (filesWithSource source).read Here.root (Location.text ["a.php"]) = .ok source := by
  cbv

/-- The bytes of the entry that comes of the class. -/
def classEntry (path : Text) : List UInt8 := encodeEntry path ([classTag path].map Tag.raw)

/-- The files that come of processing the class and then changing it. -/
def filesWithClass (source : List UInt8) (time : Int) : FileSystem :=
  filesAfterSave source time (classEntry (Location.text ["a.php"]))

theorem ofBytes_classEntry (depths : Depths) {path : Text} (h : path.unpaired) :
    ofBytes depths.values (classEntry path) = .ok (.hit [(classTag path).raw]) := by
  obtain ⟨lines, hextract⟩ := exists_lines (extract_classSource path)
  refine ofBytes_eq_hit.2 (decodeEntry_encodeEntry depths h ?_ ?_)
  · intro t ht text htext
    obtain rfl | hwhole := texts_of_extract hextract t ht text htext
    · exact h
    · exact hwhole.unpaired
  · intro t ht
    obtain rfl := List.mem_singleton.1 ht
    exact Nat.one_lt_pow (by decide) (by decide)

theorem load_filesWithClass (source : List UInt8) :
    storeAtCache.load (filesWithClass source 7) Here.root (Location.text ["a.php"]) =
      .ok (.hit [(classTag (Location.text ["a.php"])).raw]) := by
  have hfresh (entry : List UInt8) : storeAtCache.HasFresh (filesAfterSave source 7 entry) Here.root
      (Location.text ["a.php"]) entry := by
    refine ⟨rfl, ?_, 7, 7, ?_, ?_, Int.le_refl 7⟩
    · cbv
    · cbv
    · cbv
  rw [filesWithClass, (hfresh _).load_eq]
  exact ofBytes_classEntry Here.root.depths isNamed_source.unpaired_text

/-- A generator with a store at the root, and the files that it sees. -/
structure IsAtCache (g : Generator) (w : World) (files : FileSystem) : Prop where
  root : g.store.root = storeAtCache.root
  enabled : g.store.enabled = true
  here : w.here = Here.root
  files : w.files = files

section AtCache

variable {g : Generator} {w : World} {path : Text}

/-- The class is processed with a store that has nothing yet. -/
theorem process_filesWithSource (h : IsAtCache g w (filesWithSource classSource)) (hnow : w.now = 5)
    (hpath : Path.ofText path = Location.path ["a.php"]) :
    (g.process (some oneClass) path w).1 = .ok [(classTag (Location.text ["a.php"])).raw] ∧
      (g.process (some oneClass) path w).2.2.files =
        filesWithClass classSource 7 := by
  obtain ⟨lines, hextract⟩ := exists_lines (extract_classSource (Location.text ["a.php"]))
  have hresolve : w.files.resolve w.here true (Path.ofText path) =
      .ok (Location.path ["a.php"]) := by
    rw [h.files, h.here, hpath]
    exact resolve_filesWithSource classSource
  have hload := load_filesWithSource classSource
  have hread := read_filesWithSource classSource
  have hsave := save_filesWithSource classSource ([classTag (Location.text ["a.php"])].map Tag.raw)
  rw [process_of_resolve hresolve]
  rw [← h.files, ← h.here, ← load_congr h.root h.enabled] at hload
  rw [← h.files, ← h.here] at hread
  rw [← h.files, ← h.here, ← hnow, ← save_congr h.root h.enabled] at hsave
  obtain ⟨hok, -, hfiles, -⟩ := processResolved_of_miss hload hread hextract hsave
  exact ⟨hok, hfiles⟩

theorem process_filesWithClass {source : List UInt8} (h : IsAtCache g w (filesWithClass source 7))
    (hpath : Path.ofText path = Location.path ["a.php"]) :
    (g.process (some oneClass) path w).1 = .ok [(classTag (Location.text ["a.php"])).raw] := by
  have hresolve : w.files.resolve w.here true (Path.ofText path) =
      .ok (Location.path ["a.php"]) := by
    rw [h.files, h.here, hpath]
    exact resolve_filesAfterSave source _ 7
  have hload := load_filesWithClass source
  rw [process_of_resolve hresolve]
  rw [← h.files, ← h.here, ← load_congr h.root h.enabled] at hload
  exact processResolved_of_hit hload

end AtCache

theorem process_disabled {source : List UInt8} {lines : List LogLine} {tags : List SourceTag}
    (h : extract (some oneClass) (Location.text ["a.php"]) source = .ok (lines, tags)) :
    (process (some oneClass) (Location.text ["a.php"])
        { store := { storeAtCache with enabled := false } }
        { files := filesWithClass source 7 }).1 = .ok (tags.map Tag.raw) := by
  rw [process_of_resolve]
  · exact (processResolved_of_miss (load_disabled rfl _ _ _) (read_filesAfterSave source _ 7) h
      (save_disabled rfl _ _ _ _ _)).1
  · rw [Location.ofText_text isNamed_source]
    exact resolve_filesAfterSave source _ 7

theorem process_transparent_filesWithClass :
    ∃ tags, (process (some oneClass) (Location.text ["a.php"]) { store := storeAtCache }
          { files := filesWithClass classSource 7 }).1 = .ok tags ∧
      (process (some oneClass) (Location.text ["a.php"])
          { store := { storeAtCache with enabled := false } }
          { files := filesWithClass classSource 7 }).1 = .ok tags ∧
      (process (some oneClass) (Location.text ["a.php"]) { store := storeAtCache }
          { files := filesWithClass classSource 7 }).2.1.index.tags.map Tag.name =
        [.string "A"] := by
  have hpath := Location.ofText_text isNamed_source
  obtain ⟨lines, hextract⟩ := exists_lines (extract_classSource (Location.text ["a.php"]))
  have hhistory : History (some oneClass) Here.root storeAtCache.root ["cache"]
      (filesWithSource classSource) (filesWithClass classSource 7) := by
    have hprocess := process_filesWithSource (g := { store := storeAtCache })
      (w := { files := filesWithSource classSource, now := 5 }) ⟨rfl, rfl, rfl, rfl⟩ rfl hpath
    rw [← hprocess.2]
    refine .process .start rfl rfl rfl ⟨?_, ?_⟩
    · intro q hq
      rw [hpath, resolve_filesWithSource] at hq
      exact ⟨_, isNamed_source, (Except.ok.inj hq).symm⟩
    · intro loc hloc _
      exact (freshRoot_filesWithSource classSource).tells hloc
  have hisIn : IsIn Here.root (filesWithSource classSource) := by
    intro _
    exact ⟨.directory 0 [("a.php", .file classSource 7)], by cbv, rfl⟩
  have hresolve : (filesWithClass classSource 7).resolve Here.root true
      (Path.ofText (Location.text ["a.php"])) = .ok (Location.path ["a.php"]) := by
    rw [hpath]
    exact resolve_filesAfterSave classSource _ 7
  have hok : (process (some oneClass) (Location.text ["a.php"]) { store := storeAtCache }
      { files := filesWithClass classSource 7 }).1 = _ :=
    process_filesWithClass ⟨rfl, rfl, rfl, rfl⟩ hpath
  obtain ⟨heq, hindex, -⟩ := process_transparent (freshRoot_filesWithSource classSource) hisIn
    hhistory isNamed_source hresolve ⟨rfl, rfl⟩ ⟨rfl, rfl⟩ rfl rfl rfl hok
      (process_disabled hextract)
  refine ⟨_, hok, heq ▸ process_disabled hextract, ?_⟩
  rw [hindex]
  rfl

/-- A change that is hidden by giving the source its old time back: the entry is still taken for the
source, although the change itself made the source later than the entry. -/
theorem process_stale_touchedBack :
    (process (some oneClass) (Location.text ["a.php"]) { store := storeAtCache }
        { files := filesWithSource classSource, now := 5 }).2.2.files =
          filesWithClass classSource 7 ∧
    SourceChange ["cache"] (filesWithClass classSource 7) (filesWithClass [] 9) ∧
    SourceChange ["cache"] (filesWithClass [] 9) (filesWithClass [] 7) ∧
    (process (some oneClass) (Location.text ["a.php"]) { store := storeAtCache }
      { files := filesWithClass [] 7 }).1 = .ok [(classTag (Location.text ["a.php"])).raw] ∧
    (process (some oneClass) (Location.text ["a.php"])
      { store := { storeAtCache with enabled := false } } { files := filesWithClass [] 7 }).1 =
        .ok [] := by
  have hpath := Location.ofText_text isNamed_source
  obtain ⟨lines, hextract⟩ := exists_lines extract_empty
  have hout : ¬(["cache"] : Location) <+: ["a.php"] := by decide
  have hfile (source entry : List UInt8) (time : Int) :
      (filesAfterSave source time entry).get? ["a.php"] = some (.file source time) := rfl
  have hprocess := process_filesWithSource (g := { store := storeAtCache })
    (w := { files := filesWithSource classSource, now := 5 }) ⟨rfl, rfl, rfl, rfl⟩ rfl hpath
  refine ⟨hprocess.2, ?_, ?_, process_filesWithClass ⟨rfl, rfl, rfl, rfl⟩ hpath,
    process_disabled hextract⟩
  · have hchange := SourceChange.overwrite [] 9 hout
      (hfile classSource (classEntry (Location.text ["a.php"])) 7)
    rw [filesWithClass, filesWithClass]
    generalize classEntry _ = entry at hchange ⊢
    exact hchange
  · have hchange := SourceChange.touch 7 hout
      (hfile [] (classEntry (Location.text ["a.php"])) 9)
    rw [filesWithClass, filesWithClass]
    generalize classEntry _ = entry at hchange ⊢
    exact hchange

end Generator

end TagsFile
