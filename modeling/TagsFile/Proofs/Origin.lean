import TagsFile.Proofs.Entries
import TagsFile.Proofs.Footprint

/-!
# Where tags come from

With a store that has nothing in it, all tags come from the sources of the run. An entry that is
read while sources are processed has been written before, for one of them, wherever links in the
store lead.

## Main definitions

* `Store.IsBare`: a store without entries.
* `Generator.Traced`: all that is known while sources are processed.

## Main statements

* `Generator.Traced.processEach`: each tag of the index has the canonical path of a source.
-/

namespace TagsFile

open FileSystem

/-- The tags of a source have its path. -/
theorem Generator.path_of_extract {grammar : Option Grammar} {path : Text} {content : List UInt8}
    {lines : List LogLine} {tags : List SourceTag}
    (h : extract grammar path content = .ok (lines, tags)) : ∀ t ∈ tags, t.path = path := by
  cases grammar with
  | none => cases h
  | some grammar =>
    rw [extract, Extraction.tags_run] at h
    cases h
    intro t ht
    obtain ⟨d, -, rfl⟩ := List.mem_map.1 ht
    rfl

theorem FileSystem.exists_locate_of_read {fs : FileSystem} {here : Here} {text : Text}
    {content : List UInt8} (h : fs.read here text = .ok content) :
    ∃ loc time, fs.locate here .target text = .ok (.present loc (.file content time)) := by
  unfold FileSystem.read at h
  split at h <;> cases h
  exact ⟨_, _, ‹_›⟩

theorem FileSystem.unpaired_of_read {fs : FileSystem} {here : Here} {text : Text}
    {content : List UInt8} (h : fs.read here text = .ok content) : text.unpaired := by
  obtain ⟨loc, time, hlocate⟩ := exists_locate_of_read h
  cases hbytes : text.fileBytes? with
  | none => simp [locate, hbytes] at hlocate
  | some bytes => exact Text.unpaired_of_fileBytes? hbytes

/-- What can be read still can. -/
theorem FileSystem.Extends.exists_read {fs fs' : FileSystem} {here : Here} {text : Text}
    {content : List UInt8} (h : Extends fs fs') (hread : fs.read here text = .ok content) :
    ∃ content', fs'.read here text = .ok content' := by
  obtain ⟨loc, time, hlocate⟩ := exists_locate_of_read hread
  have hfind : fs.find here .target text = .ok (loc, .file content time) := by rw [find, hlocate]
  obtain ⟨tree, hfind', hnode⟩ := h.exists_find hfind
  obtain ⟨content', time', hfile⟩ := h.files loc content time (get?_of_find hfind)
  obtain rfl : tree = .file content' time' := by cases tree <;> simp_all [Tree.node]
  exact ⟨content', by rw [FileSystem.read, locate_of_find hfind']⟩

namespace Store

/-- Whether nothing is at any location where an entry may be. -/
def IsBare (s : Store) (fs : FileSystem) (here : Here) : Prop :=
  ∀ loc, s.MayHold fs here loc → fs.get? loc = none

variable {s : Store} {start : FileSystem} {here : Here}
  {written : Location → List UInt8 → Prop} {fs fs' : FileSystem}

/-- A fresh root has no entries. -/
theorem isBare_of_freshRoot {top : Location} (h : FreshRoot fs here s.root top) :
    s.IsBare fs here := by
  rintro loc ⟨-, labels, hne, hlabels, whole, hwhole, hreaches⟩
  obtain ⟨base, dest, names, hsite, hroot, rfl, -, -, hnone⟩ := h.exists_site
  have hplain : ∀ name ∈ names ++ labels, name.IsLabel := by
    intro name hname
    obtain hname | hname := List.mem_append.1 hname
    · exact (hsite.named name hname).isLabel
    · exact hlabels name hname
  have hbelow : s.root.below labels = base.below (names ++ labels) := by
    rw [hroot, Path.below, Path.below, Path.below, List.append_assoc]
  rw [hbelow] at hwhole
  obtain ⟨front, budget, rfl, hleads⟩ := hsite.base.toWay.exists_leads_of_namesFrom? (by simp [hne])
    (fun name hname => ⟨(hplain name hname).ne_empty, (hplain name hname).no_slash⟩) hwhole
  have hrest := hleads.reaches_of_append (by simp [hne]) hreaches
  have hnames := Text.map_respelled fun name hname => (hsite.named name hname).spelled
  rw [List.map_append, hnames] at hrest
  have hspelled : ∀ name ∈ names ++ labels.map Text.respelled,
      name ≠ "" ∧ name ≠ "." ∧ name ≠ ".." := by
    intro name hname
    obtain hname | hname := List.mem_append.1 hname
    · exact plain_of_isName hsite.named name hname
    · obtain ⟨label, hlabel, rfl⟩ := List.mem_map.1 hname
      obtain ⟨hempty, -, hdot, hup⟩ := hlabels label hlabel
      exact Text.respelled_plain ⟨hempty, hdot, hup⟩
  rw [hrest.eq_of_unlinked hspelled (hsite.unlinked _), ← List.append_assoc]
  exact hnone _ (by simpa using hne)

/-- The entries of a store that was bare take no link's place. -/
theorem Footprint.extends (h : s.Footprint start here written fs fs')
    (hlater : Later start.get? fs.get?) (hbare : s.IsBare start here) : Extends fs fs' where
  keeps loc := by
    obtain hsame | ⟨hnone, -, -⟩ | ⟨hold, hhold, -⟩ := h loc
    · rw [hsame]
      exact ⟨id, fun _ => id⟩
    · rw [hnone]
      exact ⟨nofun, nofun⟩
    · refine ⟨fun hdir => absurd hdir hold, fun target hlink => ?_⟩
      cases (hbare loc hhold).symm.trans (hlater.links loc target hlink)
  files loc content time hfile := by
    obtain hsame | ⟨hnone, -, -⟩ | ⟨-, -, content', time', hfile', -⟩ := h loc
    · exact ⟨content, time, hsame.trans hfile⟩
    · cases hnone.symm.trans hfile
    · exact ⟨content', time', hfile'⟩

/-- What is read at the path of an entry has been written since the store was bare. -/
theorem Footprint.written_of_read (h : s.Footprint start here written start fs)
    (hbare : s.IsBare start here) (henabled : s.enabled = true) {names : List Text}
    (hne : names ≠ []) (hnames : ∀ name ∈ names, name.IsLabel) {content : List UInt8}
    (hread : fs.read here (s.root.below names).text = .ok content) :
    ∃ loc, written loc content := by
  obtain ⟨loc, time, hlocate⟩ := exists_locate_of_read hread
  have hlater := h.later (.refl start.get?)
  have hnone := hbare loc ⟨henabled, names, hne, hnames, hlater.mayLead hlocate rfl⟩
  have hfile : fs.get? loc = some (.file content time) := by
    rw [get?_eq_map, tree?_of_locate_present hlocate]
    rfl
  obtain hsame | ⟨-, hdir, -⟩ | ⟨-, -, content', time', hfile', hwritten⟩ := h loc
  · rw [hnone, hfile] at hsame
    cases hsame
  · cases hdir.symm.trans hfile
  · cases hfile'.symm.trans hfile
    exact ⟨loc, hwritten⟩

theorem read_of_load {path : Text} {tags : List RawTag}
    (h : s.load fs here path = .ok (.hit tags)) : s.enabled = true ∧
      ∃ bytes, fs.read here (s.entryPath path).text = .ok bytes ∧
        decodeEntry here.depths.values bytes = .ok tags := by
  unfold load at h
  split at h
  · rename_i henabled
    refine ⟨henabled, ?_⟩
    dsimp only at h
    split at h <;> try cases h
    split at h <;> try cases h
    split at h <;> try cases h
    unfold readEntry at h
    split at h <;> try cases h
    rename_i bytes hread
    split at h <;> cases h
    exact ⟨bytes, hread, ‹_›⟩
  · cases h

end Store

namespace Generator

variable {grammar : Option Grammar} {s : Store} {start fs fs' : FileSystem} {here : Here}
  {sources : List Text}

/-- Whether a path is the canonical one of a source that can be read. -/
def IsSourcePath (fs : FileSystem) (here : Here) (sources : List Text) (path : Text) : Prop :=
  ∃ source ∈ sources, ∃ q content, fs.resolve here true (Path.ofText source) = .ok q ∧
    path = q.text ∧ fs.read here path = .ok content

theorem IsSourcePath.extend {path : Text} (h : IsSourcePath fs here sources path)
    (hfs : Extends fs fs') : IsSourcePath fs' here sources path := by
  obtain ⟨source, hsource, q, content, hresolve, hpath, hread⟩ := h
  obtain ⟨content', hread'⟩ := hfs.exists_read hread
  exact ⟨source, hsource, q, content', hfs.resolve hresolve, hpath, hread'⟩

/-- Whether some bytes are the entry of a source. -/
def IsEntry (fs : FileSystem) (here : Here) (sources : List Text) (content : List UInt8) : Prop :=
  ∃ (path : Text) (tags : List SourceTag), IsSourcePath fs here sources path ∧
    (∀ t ∈ tags, t.path = path ∧ ∀ text ∈ t.texts, Text.unpaired text) ∧
    content = Store.encodeEntry path (tags.map Tag.raw)

/-- While sources are processed with a store that was bare, its entries are those of sources and so
are the tags of the index. -/
structure Traced (s : Store) (start : FileSystem) (here : Here) (sources : List Text)
    (g : Generator) (w : World) : Prop where
  root : g.store.root = s.root
  enabled : g.store.enabled = s.enabled
  same : w.here = here
  footprint : s.Footprint start here (fun _ => IsEntry w.files here sources) start w.files
  tags : ∃ tags : List SourceTag, g.index.tags = tags.map Tag.raw ∧
    ∀ t ∈ tags, IsSourcePath w.files here sources t.path

namespace Traced

variable {g : Generator} {w : World}

theorem of_bare (s : Store) (sources : List Text) (w : World) :
    Traced s w.files w.here sources { store := s } w where
  root := rfl
  enabled := rfl
  same := rfl
  footprint := .refl w.files
  tags := ⟨[], rfl, nofun⟩

/-- The tags that come of a source have the path of this source or of another one. -/
theorem isSourcePath_of_process (h : Traced s start here sources g w) (hbare : s.IsBare start here)
    (hhere : here.location.IsNamed) {path : Text} (hpath : path ∈ sources) {tags : List RawTag}
    (hok : (g.process grammar path w).1 = .ok tags) :
    (g.process grammar path w).2.1.index = g.index.add tags ∧
      ∃ parsed : List SourceTag, tags = parsed.map Tag.raw ∧
        ∀ t ∈ parsed, IsSourcePath w.files here sources t.path := by
  obtain rfl := h.same
  obtain ⟨f, -, heq⟩ | ⟨q, hresolve, heq⟩ := process_cases grammar g w path
  · rw [heq] at hok
    cases hok
  · rw [heq] at hok ⊢
    obtain ⟨hindex, ⟨hload, -⟩ | ⟨_, content, lines, parsed, -, hread, hextract, rfl, -⟩⟩ :=
      processResolved_ok hok
    · refine ⟨hindex, ?_⟩
      obtain ⟨loc, rfl, hloc⟩ := isLabel_of_resolve hhere (Path.isSeparate_ofText path) hresolve
      obtain ⟨henabled, bytes, hread, hdecode⟩ := Store.read_of_load hload
      rw [Store.entryPath_text_path _ hloc, h.root] at hread
      obtain ⟨-, path, parsed, hsource, hparsed, rfl⟩ :=
        h.footprint.written_of_read hbare (h.enabled ▸ henabled) (Store.entryNames_ne_nil loc)
          (Store.isLabel_entryNames hloc) hread
      refine ⟨parsed, ?_, fun t ht => (hparsed t ht).1 ▸ hsource⟩
      obtain ⟨source, -, q, content, -, -, hcontent⟩ := hsource
      obtain hsame | herror := Store.decodeEntry_encodeEntry_cases w.here.depths
        (unpaired_of_read hcontent) fun t ht => (hparsed t ht).2
      · exact Except.ok.inj (hdecode.symm.trans hsame)
      · cases hdecode.symm.trans herror
    · refine ⟨hindex, parsed, rfl, fun t ht => ?_⟩
      rw [path_of_extract hextract t ht]
      exact ⟨path, hpath, q, content, hresolve, rfl, hread⟩

/-- One source. -/
theorem process (h : Traced s start here sources g w) (hbare : s.IsBare start here)
    (hhere : here.location.IsNamed) {path : Text} (hpath : path ∈ sources) {tags : List RawTag}
    (hok : (g.process grammar path w).1 = .ok tags) :
    Traced s start here sources (g.process grammar path w).2.1 (g.process grammar path w).2.2 := by
  obtain ⟨hindex, parsed, rfl, hparsed⟩ := h.isSourcePath_of_process hbare hhere hpath hok
  obtain ⟨tags, htags, hsources⟩ := h.tags
  obtain rfl := h.same
  obtain ⟨hroot, henabled, hsame⟩ := process_same grammar g w path
  have hlater := h.footprint.later (.refl start.get?)
  have hfootprint : s.Footprint start w.here (fun _ _ => True) w.files
      (g.process grammar path w).2.2.files :=
    footprint_process hhere h.root h.enabled hlater fun _ _ _ _ _ _ _ _ _ => trivial
  have hextends := hfootprint.extends hlater hbare
  refine ⟨hroot.trans h.root, henabled.trans h.enabled, hsame, ?_, tags ++ parsed, ?_,
    fun t ht => ?_⟩
  · refine (h.footprint.mono ?_).trans (footprint_process hhere h.root h.enabled hlater ?_)
    · rintro - content ⟨path, tags, hsource, hentry⟩
      exact ⟨path, tags, hsource.extend hextends, hentry⟩
    · intro q content lines tags _ hresolve hread hextract _
      have hsource : IsSourcePath w.files w.here sources q.text :=
        ⟨path, hpath, q, content, hresolve, rfl, hread⟩
      exact ⟨q.text, tags, hsource.extend hextends, fun t ht => ⟨path_of_extract hextract t ht,
        unpaired_of_extract (unpaired_of_read hread) hextract t ht⟩, rfl⟩
  · rw [hindex, TagIndex.add, htags, List.map_append]
  · obtain ht | ht := List.mem_append.1 ht
    · exact (hsources t ht).extend hextends
    · exact (hparsed t ht).extend hextends

/-- Sources one after the other. -/
theorem processEach {paths : List Text} (hpaths : ∀ path ∈ paths, path ∈ sources)
    (h : Traced s start here sources g w) (hbare : s.IsBare start here)
    (hhere : here.location.IsNamed) (hok : (g.processEach grammar paths w).1 = .ok ()) :
    Traced s start here sources (g.processEach grammar paths w).2.1
      (g.processEach grammar paths w).2.2 := by
  induction paths generalizing g w with
  | nil => exact h
  | cons path paths ih =>
    cases hstep : (g.process grammar path w).1 with
    | error f =>
      rw [Generator.processEach] at hok
      split at hok
      · cases hok
      · rename_i heq
        rw [heq] at hstep
        cases hstep
    | ok tags =>
      rw [processEach_cons paths hstep] at hok ⊢
      exact ih (fun path hpath => hpaths path (by simp [hpath]))
        (h.process hbare hhere (hpaths path (by simp)) hstep) hok

/-- All the sources of a run. -/
theorem processAll (hbare : s.IsBare w.files w.here) (hhere : w.here.location.IsNamed)
    {v : World} (h : { store := s : Generator }.processAll grammar sources w = (.ok (), g, v)) :
    Traced s w.files w.here sources g v := by
  obtain ⟨hok, hg, hfiles, hsame⟩ := processAll_same grammar { store := s } w sources
  rw [h] at hok hg hfiles hsame
  obtain ⟨hroot, henabled, hhere', hfootprint, htags⟩ :=
    (Traced.of_bare s sources w).processEach (fun _ => id) hbare hhere hok.symm
  rw [← hg] at hroot henabled htags
  rw [← hfiles] at hfootprint htags
  exact ⟨hroot, henabled, hsame.trans hhere', hfootprint, htags⟩

end Traced
end Generator
end TagsFile
