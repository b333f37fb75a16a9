import TagsFile.Proofs.SortedLines
import TagsFile.Proofs.Transparency

/-!
# The order of the sources does not matter

The entries that are written for one source are not seen by another: whatever has been processed
before, a source gives the tags that it gives alone. So sources in another order give the same tags
file.

## Main definitions

* `Generator.alone`: the tags of a source by itself.
* `Yields`: what a source at its resolved path gives.
* `Progress`: what processing sources has done to the files.
-/

namespace TagsFile

open FileSystem Store

/-- The tags that processing a source adds to the index of a new generator. -/
def Generator.alone (grammar : Option Grammar) (store : Store) (w : World) (path : Text) :
    List RawTag :=
  (Generator.process grammar path { store } w).2.1.index.tags

/-- What the source at a resolved path gives: the tags of a fresh entry, or its own. -/
inductive Yields (grammar : Option Grammar) (s : Store) (fs : FileSystem) (here : Here)
    (source : Text) : List RawTag → Prop where
  | hit {tags : List RawTag} (h : s.load fs here source = .ok (.hit tags)) :
      Yields grammar s fs here source tags
  | parse {reason : MissReason} {content : List UInt8} {lines : List LogLine}
      {tags : List SourceTag} (h : s.load fs here source = .ok (.miss reason))
      (hread : fs.read here source = .ok content)
      (hextract : Generator.extract grammar source content = .ok (lines, tags)) :
      Yields grammar s fs here source (tags.map Tag.raw)

variable {grammar : Option Grammar} {s : Store} {w : World} {fs₀ fs files : FileSystem}
  {here : Here} {base : Path} {dest loc : Location} {names : List Text}

namespace Generator

theorem alone_of_yields {path : Text} {q : Path} {tags : List RawTag}
    (hresolve : w.files.resolve w.here true (Path.ofText path) = .ok q)
    (h : Yields grammar s w.files w.here q.text tags) : alone grammar s w path = tags := by
  rw [alone, process_of_resolve hresolve]
  obtain ⟨f, hload, -⟩ | ⟨reason, f, log, hload, hf, -⟩ | ⟨tags', log, hload, heq⟩ |
    ⟨reason, content, lines, parsed, log, result, files, hload, hread, hextract, -, heq⟩ :=
    processResolved_cases grammar q.text { store := s } w
  · cases h with
    | hit h => cases h.symm.trans hload
    | parse h => cases h.symm.trans hload
  · cases h with
    | hit h => cases h.symm.trans hload
    | parse h hread hextract => cases hextract.symm.trans (hf _ hread)
  · cases h with
    | hit h =>
      cases h.symm.trans hload
      rw [heq]
      rfl
    | parse h => cases h.symm.trans hload
  · cases h with
    | hit h => cases h.symm.trans hload
    | parse h hread' hextract' =>
      cases hread.symm.trans hread'
      cases hextract.symm.trans hextract'
      rw [heq]
      rfl

theorem yields_of_ok {source : Text} {tags : List RawTag}
    (h : (processResolved grammar source { store := s } w).1 = .ok tags) :
    Yields grammar s w.files w.here source tags := by
  obtain ⟨-, ⟨hhit, -⟩ | ⟨reason, content, lines, parsed, hmiss, hread, hextract, rfl, -⟩⟩ :=
    processResolved_ok h
  · exact .hit hhit
  · exact .parse hmiss hread hextract

/-- A source that is processed alone adds the tags that it gives. -/
theorem alone_of_ok {path : Text} {tags : List RawTag}
    (h : (process grammar path { store := s } w).1 = .ok tags) : alone grammar s w path = tags := by
  obtain ⟨f, -, heq⟩ | ⟨q, -, heq⟩ := process_cases grammar { store := s } w path
  · simp [heq] at h
  · rw [heq] at h
    rw [alone, heq, (processResolved_ok h).1]
    rfl

end Generator

/-! ## What processing does to the files -/

/-- An entry that has been written for a source which had none, from the bytes of the source. -/
structure IsKept (grammar : Option Grammar) (s : Store) (here : Here) (fs₀ : FileSystem)
    (loc : Location) (bytes : List UInt8) : Prop where
  missed : ∃ reason, s.load fs₀ here loc.text = .ok (.miss reason)
  bytes : ∃ content lines tags, fs₀.read here loc.text = .ok content ∧
    Generator.extract grammar loc.text content = .ok (lines, tags) ∧
    bytes = Store.encodeEntry loc.text (tags.map Tag.raw)

/-- What processing sources has done to the files: all that was there is still there, sources and
entries are as they were, and some entries are new. -/
structure Progress (grammar : Option Grammar) (s : Store) (here : Here) (base : Path)
    (dest : Location) (names : List Text) (fs₀ fs : FileSystem) : Prop where
  site : fs.Site here base dest names
  extended : Extends fs₀ fs
  source : ∀ loc content time, ¬dest ++ names <+: loc →
    fs₀.get? loc = some (.file content time) → fs.get? loc = some (.file content time)
  entry : ∀ loc : Location, loc.IsNamed →
    (∀ bytes time, fs.get? (dest ++ (names ++ Store.entryNames loc)) = some (.file bytes time) ↔
      fs₀.get? (dest ++ (names ++ Store.entryNames loc)) = some (.file bytes time)) ∨
    ∃ bytes time, fs.get? (dest ++ (names ++ Store.entryNames loc)) = some (.file bytes time) ∧
      IsKept grammar s here fs₀ loc bytes

namespace Progress

theorem start (h : fs.Site here base dest names) :
    Progress grammar s here base dest names fs fs where
  site := h
  extended := .refl fs
  source _ _ _ _ hfile := hfile
  entry _ _ := .inl fun _ _ => .rfl

section Source

variable {content : List UInt8} {time : Int}

/-- An entry that was there is found as before. -/
theorem load_same (h : Progress grammar s here base dest names fs₀ fs)
    (h₀ : fs₀.Site here base dest names) (hroot : s.root = base.below names) (hloc : loc.IsNamed)
    (hout : ¬dest ++ names <+: loc) (hfile : fs₀.get? loc = some (.file content time))
    (hsame : ∀ bytes time,
      fs.get? (dest ++ (names ++ Store.entryNames loc)) = some (.file bytes time) ↔
        fs₀.get? (dest ++ (names ++ Store.entryNames loc)) = some (.file bytes time)) :
    s.load fs here loc.text = s.load fs₀ here loc.text ∨
      (∃ reason, s.load fs here loc.text = .ok (.miss reason)) ∧
        ∃ reason, s.load fs₀ here loc.text = .ok (.miss reason) := by
  have hfresh (bytes : List UInt8) :
      s.HasFresh fs here loc.text bytes ↔ s.HasFresh fs₀ here loc.text bytes := by
    simp only [Store.hasFresh_iff h.site hroot hloc, Store.hasFresh_iff h₀ hroot hloc, hsame,
      modifiedAt_source hloc hfile, modifiedAt_source hloc (h.source _ _ _ hout hfile)]
  obtain ⟨bytes, hbytes, hload⟩ | ⟨hnone, hmiss⟩ :=
    Store.load_cases fs here (Store.isUsable_root h.site hroot) hloc
  · left
    rw [hload, ((hfresh bytes).1 hbytes).load_eq]
  · obtain ⟨bytes, hbytes, -⟩ | ⟨-, hmiss₀⟩ :=
      Store.load_cases fs₀ here (Store.isUsable_root h₀ hroot) hloc
    · exact absurd ((hfresh bytes).2 hbytes) (hnone bytes)
    · exact .inr ⟨hmiss, hmiss₀⟩

/-- A lookup that misses has missed before anything was processed. -/
theorem missed (h : Progress grammar s here base dest names fs₀ fs)
    (h₀ : fs₀.Site here base dest names) (hroot : s.root = base.below names) (hloc : loc.IsNamed)
    (hout : ¬dest ++ names <+: loc) (hfile : fs₀.get? loc = some (.file content time))
    {reason : MissReason} (hmiss : s.load fs here loc.text = .ok (.miss reason)) :
    ∃ reason, s.load fs₀ here loc.text = .ok (.miss reason) := by
  obtain hsame | ⟨bytes, entryTime, -, hkept⟩ := h.entry loc hloc
  · obtain hload | ⟨-, hmiss₀⟩ := h.load_same h₀ hroot hloc hout hfile hsame
    · exact ⟨reason, hload.symm.trans hmiss⟩
    · exact hmiss₀
  · exact hkept.missed

/-- A source gives what it gave before anything was processed. -/
theorem yields (h : Progress grammar s here base dest names fs₀ fs)
    (h₀ : fs₀.Site here base dest names) (hroot : s.root = base.below names) (hloc : loc.IsNamed)
    (hout : ¬dest ++ names <+: loc) (hfile : fs₀.get? loc = some (.file content time))
    {tags : List RawTag} (hyields : Yields grammar s fs here loc.text tags) :
    Yields grammar s fs₀ here loc.text tags := by
  have hread (bytes : List UInt8) :
      fs.read here loc.text = .ok bytes ↔ fs₀.read here loc.text = .ok bytes := by
    rw [read_source hloc hfile, read_source hloc (h.source _ _ _ hout hfile)]
  cases hyields with
  | parse hmiss hbytes hextract =>
    obtain ⟨reason, hmiss₀⟩ := h.missed h₀ hroot hloc hout hfile hmiss
    exact .parse hmiss₀ ((hread _).1 hbytes) hextract
  | hit hhit =>
    obtain hsame | ⟨bytes, entryTime, hentry, hkept⟩ := h.entry loc hloc
    · obtain hload | ⟨⟨reason, hmiss⟩, -⟩ := h.load_same h₀ hroot hloc hout hfile hsame
      · exact .hit (hload.symm.trans hhit)
      · cases hhit.symm.trans hmiss
    · obtain ⟨reason, hmiss₀⟩ := hkept.missed
      obtain ⟨content', lines, parsed, hcontent, hextract, hwritten⟩ := hkept.bytes
      obtain ⟨found, hfresh, hload⟩ | ⟨-, reason', hmiss⟩ :=
        Store.load_cases fs here (Store.isUsable_root h.site hroot) hloc
      · obtain ⟨-, -, entryTime', -, hentry', -⟩ := (Store.hasFresh_iff h.site hroot hloc).1 hfresh
        have hbytes := hentry'.symm.trans hentry
        rw [Option.some.injEq, Node.file.injEq] at hbytes
        rw [hbytes.1, hwritten] at hload
        obtain hown | ⟨reason', hown⟩ :=
          Generator.ofBytes_encodeEntry here.depths hloc.unpaired_text hextract
        · cases hhit.symm.trans (hload.trans hown)
          exact .parse hmiss₀ hcontent hextract
        · cases hhit.symm.trans (hload.trans hown)
      · cases hhit.symm.trans hmiss

/-- What a directory gives is in an entry that was there before anything was processed. -/
theorem eq_of_directory (h : Progress grammar s here base dest names fs₀ fs)
    (h₀ : fs₀.Site here base dest names) (hroot : s.root = base.below names) (hloc : loc.IsNamed)
    (hdir : fs₀.get? loc = some .directory) {tags tags₀ : List RawTag}
    (hhit : s.load fs here loc.text = .ok (.hit tags))
    (hyields : Yields grammar s fs₀ here loc.text tags₀) : tags = tags₀ := by
  cases hyields with
  | parse _ hread => exact absurd hread (read_ne_of_directory hloc hdir _)
  | hit hhit₀ =>
    obtain ⟨bytes, hfresh, hload⟩ | ⟨-, reason, hmiss⟩ :=
      Store.load_cases fs here (Store.isUsable_root h.site hroot) hloc
    · obtain ⟨bytes₀, hfresh₀, hload₀⟩ | ⟨-, reason, hmiss⟩ :=
        Store.load_cases fs₀ here (Store.isUsable_root h₀ hroot) hloc
      · obtain ⟨-, -, time, -, hentry, -⟩ := (Store.hasFresh_iff h.site hroot hloc).1 hfresh
        obtain ⟨-, -, time₀, -, hentry₀, -⟩ := (Store.hasFresh_iff h₀ hroot hloc).1 hfresh₀
        obtain hsame | ⟨_, _, -, hkept⟩ := h.entry loc hloc
        · have hbytes := hentry₀.symm.trans ((hsame _ _).1 hentry)
          rw [Option.some.injEq, Node.file.injEq] at hbytes
          rw [hbytes.1, ← hload, hhit] at hload₀
          cases hhit₀.symm.trans hload₀
          rfl
        · obtain ⟨content, _, _, hread, -⟩ := hkept.bytes
          exact absurd hread (read_ne_of_directory hloc hdir content)
      · cases hhit₀.symm.trans hmiss
    · cases hhit.symm.trans hmiss

/-- Saving the tags of a source. -/
theorem save (h : Progress grammar s here base dest names fs₀ fs)
    (h₀ : fs₀.Site here base dest names) (hroot : s.root = base.below names)
    (henabled : s.enabled = true) (hloc : loc.IsNamed) (hout : ¬dest ++ names <+: loc)
    (hfile : fs₀.get? loc = some (.file content time)) {reason : MissReason}
    (hmiss : s.load fs here loc.text = .ok (.miss reason)) {bytes : List UInt8}
    (hread : fs.read here loc.text = .ok bytes) {lines : List LogLine} {tags : List SourceTag}
    (hextract : Generator.extract grammar loc.text bytes = .ok (lines, tags)) {now : Int}
    (hsave : s.save now here loc.text (tags.map Tag.raw) fs = (.ok (), files)) :
    Progress grammar s here base dest names fs₀ files := by
  have hsteady := Store.save_steady h.site hroot henabled hloc hsave
  obtain ⟨entryTime, hentry⟩ := Store.get?_save_entry h.site hroot henabled hloc hsave
  have hother {other : Location} (hne : other ≠ dest ++ (names ++ Store.entryNames loc))
      (content : List UInt8) (time : Int) : files.get? other = some (.file content time) ↔
        fs.get? other = some (.file content time) :=
    Store.get?_save_file h.site hroot henabled hloc hne hsave
  refine ⟨h.site.steady hsteady, h.extended.trans ⟨hsteady.keeps, ?_⟩, ?_, ?_⟩
  · intro other content' time' hfile'
    by_cases heq : other = dest ++ (names ++ Store.entryNames loc)
    · subst heq
      exact ⟨_, _, hentry⟩
    · exact ⟨content', time', (hother heq content' time').2 hfile'⟩
  · intro other content' time' hother' hfile'
    refine (hother ?_ content' time').2 (h.source other content' time' hother' hfile')
    rintro rfl
    rw [← List.append_assoc] at hother'
    exact hother' (List.prefix_append _ _)
  · intro other hnamed
    by_cases heq : other = loc
    · subst heq
      refine .inr ⟨_, _, hentry, h.missed h₀ hroot hloc hout hfile hmiss, bytes, lines, tags, ?_,
        hextract, rfl⟩
      rwa [read_source hloc hfile, ← read_source hloc (h.source _ _ _ hout hfile)]
    · have hplace : dest ++ (names ++ Store.entryNames other) ≠
          dest ++ (names ++ Store.entryNames loc) := by
        intro hplace
        exact heq (Store.entryNames_inj hnamed hloc
          (List.append_cancel_left (List.append_cancel_left hplace)))
      simpa only [hother hplace] using h.entry other hnamed

end Source

end Progress

/-! ## One source after the other -/

namespace Generator

/-- Whether processing a source keeps what is true of the files, and adds the tags that it adds
alone. -/
def KeepsAlone (grammar : Option Grammar) (s : Store) (w : World) (inv : FileSystem → Prop)
    (path : Text) : Prop :=
  ∀ (g : Generator) (v : World) (tags : List RawTag), inv v.files → v.here = w.here →
    g.store.root = s.root → g.store.enabled = s.enabled → (g.process grammar path v).1 = .ok tags →
    inv (g.process grammar path v).2.2.files ∧
      (g.process grammar path v).2.1.index = g.index.add (alone grammar s w path)

theorem processEach_index {inv : FileSystem → Prop} {paths : List Text}
    (hpaths : ∀ path ∈ paths, KeepsAlone grammar s w inv path) {g : Generator} {v : World}
    (hinv : inv v.files) (hhere : v.here = w.here) (hroot : g.store.root = s.root)
    (henabled : g.store.enabled = s.enabled) (hok : (g.processEach grammar paths v).1 = .ok ()) :
    (g.processEach grammar paths v).2.1.index.tags =
      g.index.tags ++ paths.flatMap (alone grammar s w) := by
  induction paths generalizing g v with
  | nil => simp [processEach]
  | cons path paths ih =>
    obtain ⟨hroot', henabled', hhere'⟩ := g.process_same grammar v path
    cases hfirst : (g.process grammar path v).1 with
    | error f =>
      rw [processEach] at hok
      split at hok
      · cases hok
      · rename_i heq
        simp [heq] at hfirst
    | ok tags =>
      obtain ⟨hinv', hindex⟩ := hpaths path (by simp) g v tags hinv hhere hroot henabled hfirst
      rw [processEach_cons paths hfirst] at hok ⊢
      rw [ih (fun path hpath => hpaths path (by simp [hpath])) hinv' (hhere'.trans hhere)
        (hroot'.trans hroot) (henabled'.trans henabled) hok, hindex]
      simp [TagIndex.add]

theorem keepsAlone_of_disabled (h : s.enabled = false) (path : Text) :
    KeepsAlone grammar s w (· = w.files) path := by
  intro g v tags hfiles hhere hroot henabled hok
  obtain ⟨f, -, heq⟩ | ⟨q, hresolve, heq⟩ := process_cases grammar g v path
  · simp [heq] at hok
  rw [heq] at hok ⊢
  obtain ⟨hindex, hcases⟩ := processResolved_ok hok
  rw [load_congr hroot henabled, load_disabled h, hfiles, hhere] at hcases
  obtain ⟨hhit, -⟩ | ⟨-, content, lines, parsed, -, hread, hextract, rfl, hsave⟩ := hcases
  · cases hhit
  rw [hfiles, hhere] at hresolve
  rw [save_disabled (henabled.trans h)] at hsave
  rw [alone_of_yields hresolve (.parse (load_disabled h _ _ _) hread hextract)]
  exact ⟨(Prod.mk.inj hsave).2.symm, hindex⟩

end Generator

/-- A source that is not at or below `top`: a file, or a directory that is processed when it comes
alone. -/
structure IsInput (grammar : Option Grammar) (s : Store) (w : World) (top : Location)
    (path : Text) (loc : Location) : Prop where
  named : loc.IsNamed
  resolves : w.files.resolve w.here true (Path.ofText path) = .ok loc.path
  outside : ¬top <+: loc
  node : (∃ content time, w.files.get? loc = some (.file content time)) ∨
    w.files.get? loc = some .directory ∧
      ∃ tags, (Generator.process grammar path { store := s } w).1 = .ok tags

/-- A source outside of the root gives its own tags, whatever has been processed before. -/
theorem Progress.keepsAlone (h₀ : w.files.Site w.here base dest names)
    (hroot : s.root = base.below names) (henabled : s.enabled = true) {path : Text}
    (hsource : IsInput grammar s w (dest ++ names) path loc) :
    Generator.KeepsAlone grammar s w (Progress grammar s w.here base dest names w.files) path := by
  intro g v tags h hhere hroot' henabled' hok
  have hresolve := h.extended.resolve hsource.resolves
  rw [← hhere] at hresolve
  rw [Generator.process_of_resolve hresolve] at hok ⊢
  obtain ⟨hindex, hcases⟩ := Generator.processResolved_ok hok
  rw [load_congr hroot' henabled', save_congr hroot' henabled', hhere] at hcases
  rw [hindex]
  obtain ⟨content, time, hfile⟩ | ⟨hdir, tags₀, halone⟩ := hsource.node
  · have halone (hyields : Yields grammar s v.files w.here loc.text tags) :=
      Generator.alone_of_yields hsource.resolves
        (h.yields h₀ hroot hsource.named hsource.outside hfile hyields)
    obtain ⟨hhit, hsame⟩ | ⟨reason, bytes, lines, parsed, hmiss, hread, hextract, rfl, hsave⟩ :=
      hcases
    · rw [halone (.hit hhit), hsame]
      exact ⟨h, rfl⟩
    · rw [halone (.parse hmiss hread hextract)]
      exact ⟨
        h.save h₀ hroot henabled hsource.named hsource.outside hfile hmiss hread hextract hsave,
        rfl⟩
  · obtain ⟨hhit, hsame⟩ | ⟨reason, bytes, lines, parsed, -, hread, -⟩ := hcases
    · have hyields := halone
      rw [Generator.process_of_resolve hsource.resolves] at hyields
      rw [Generator.alone_of_ok halone, hsame,
        h.eq_of_directory h₀ hroot hsource.named hdir hhit (Generator.yields_of_ok hyields)]
      exact ⟨h, rfl⟩
    · exact absurd hread
        (read_ne_of_directory hsource.named ((h.extended.keeps loc).1 hdir) bytes)

/-- Sources that lie apart from a store: none of them is at or below the root, and no link is on the
way from an existing directory to the root or below it. -/
def Apart (grammar : Option Grammar) (s : Store) (w : World) (paths : List Text) : Prop :=
  ∃ base dest names, w.files.Site w.here base dest names ∧ s.root = base.below names ∧
    ∀ path ∈ paths, ∃ loc, IsInput grammar s w (dest ++ names) path loc

theorem Apart.perm {paths paths' : List Text} (hperm : paths.Perm paths')
    (h : Apart grammar s w paths) : Apart grammar s w paths' := by
  obtain ⟨base, dest, names, hsite, hroot, hpaths⟩ := h
  exact ⟨base, dest, names, hsite, hroot, fun path hpath => hpaths path (hperm.mem_iff.2 hpath)⟩

namespace Generator

/-- The index of sources is made of what each of them gives alone. -/
theorem processAll_index {paths : List Text}
    (hapart : s.enabled = true → Apart grammar s w paths) {v : World}
    (hfiles : v.files = w.files) (hhere : v.here = w.here)
    (hok : (processAll grammar paths { store := s } v).1 = .ok ()) :
    (processAll grammar paths { store := s } v).2.1.index.tags =
      paths.flatMap (alone grammar s w) := by
  obtain ⟨hresult, hgenerator, -⟩ := processAll_same grammar { store := s } v paths
  rw [hresult] at hok
  rw [hgenerator]
  cases henabled : s.enabled with
  | false =>
    have halone : ∀ path ∈ paths, KeepsAlone grammar s w (· = w.files) path :=
      fun path _ => keepsAlone_of_disabled henabled path
    exact processEach_index halone hfiles hhere rfl rfl hok
  | true =>
    obtain ⟨base, dest, names, hsite, hroot, hpaths⟩ := hapart henabled
    have halone : ∀ path ∈ paths, KeepsAlone grammar s w
        (Progress grammar s w.here base dest names w.files) path := by
      intro path hpath
      obtain ⟨loc, hsource⟩ := hpaths path hpath
      exact Progress.keepsAlone hsite hroot henabled hsource
    have hstart : Progress grammar s w.here base dest names w.files v.files := by
      rw [hfiles]
      exact .start hsite
    exact processEach_index halone hstart hhere rfl rfl hok

/-- The tags file does not depend on the order of the sources: sources that are all processed, in
whatever order, add to the index what each of them adds alone. -/
theorem render_processAll_perm {paths paths' : List Text} (hperm : paths.Perm paths')
    (hapart : s.enabled = true → Apart grammar s w paths) {v v' : World}
    (hfiles : v.files = w.files ∧ v'.files = w.files) (hheres : v.here = w.here ∧ v'.here = w.here)
    (hok : (processAll grammar paths { store := s } v).1 = .ok ())
    (hok' : (processAll grammar paths' { store := s } v').1 = .ok ()) :
    (processAll grammar paths { store := s } v).2.1.index.tags =
        paths.flatMap (alone grammar s w) ∧
      (processAll grammar paths' { store := s } v').2.1.index.tags =
        paths'.flatMap (alone grammar s w) ∧
      (∀ path tags, (process grammar path { store := s } w).1 = .ok tags →
        alone grammar s w path = tags) ∧
      ∀ base text, (processAll grammar paths { store := s } v).2.1.render base = .ok text ↔
        (processAll grammar paths' { store := s } v').2.1.render base = .ok text := by
  have hindex := processAll_index hapart hfiles.1 hheres.1 hok
  have hindex' := processAll_index (fun henabled => (hapart henabled).perm hperm) hfiles.2
    hheres.2 hok'
  refine ⟨hindex, hindex', fun path tags => alone_of_ok, fun base text => ?_⟩
  have htags := hperm.flatMap_right (alone grammar s w)
  rw [← hindex, ← hindex'] at htags
  rw [render, render, mapError_eq_ok, mapError_eq_ok]
  exact ⟨TagIndex.render_perm htags, TagIndex.render_perm htags.symm⟩

/-! ## One class under two paths -/

theorem apart_filesWithSource {paths : List Text}
    (h : ∀ path ∈ paths, Path.ofText path = Location.path ["a.php"]) :
    Apart (some oneClass) storeAtCache
      { files := filesWithSource classSource, now := 5 } paths := by
  obtain ⟨base, dest, names, hsite, hroot, htop, -⟩ :=
    (freshRoot_filesWithSource classSource).exists_site
  refine ⟨base, dest, names, hsite, hroot,
    fun path hpath => ⟨["a.php"], isNamed_source, ?_, ?_, ?_⟩⟩
  · rw [h path hpath]
    exact resolve_filesWithSource classSource
  · rw [← htop]
    decide
  · exact .inl ⟨classSource, 7, rfl⟩

/-- The class is parsed under the first path and replayed under the second. -/
theorem processAll_filesWithSource {path path' : Text}
    (hpath : Path.ofText path = Location.path ["a.php"])
    (hpath' : Path.ofText path' = Location.path ["a.php"]) :
    (processAll (some oneClass) [path, path'] { store := storeAtCache }
      { files := filesWithSource classSource, now := 5 }).1 = .ok () := by
  have hfirst := process_filesWithSource (g := { store := storeAtCache })
    (w := { files := filesWithSource classSource, now := 5 }) ⟨rfl, rfl, rfl, rfl⟩ rfl hpath
  obtain ⟨hroot, henabled, hhere⟩ := process_same (some oneClass) { store := storeAtCache }
    { files := filesWithSource classSource, now := 5 } path
  have hsecond := process_filesWithClass ⟨hroot, henabled, hhere, hfirst.2⟩ hpath'
  rw [(processAll_same ..).1, processEach_cons _ hfirst.1, processEach_cons _ hsecond]
  rfl

theorem render_processAll_perm_filesWithSource :
    (processAll (some oneClass) ["/a.php", "/./a.php"] { store := storeAtCache }
        { files := filesWithSource classSource, now := 5 }).2.1.index.tags.map Tag.name =
      [.string "A", .string "A"] ∧
    ∀ base text, (processAll (some oneClass) ["/a.php", "/./a.php"] { store := storeAtCache }
        { files := filesWithSource classSource, now := 5 }).2.1.render base = .ok text ↔
      (processAll (some oneClass) ["/./a.php", "/a.php"] { store := storeAtCache }
        { files := filesWithSource classSource, now := 5 }).2.1.render base = .ok text := by
  have hpath : Path.ofText "/a.php" = Location.path ["a.php"] := rfl
  have hpath' : Path.ofText "/./a.php" = Location.path ["a.php"] := rfl
  have hpaths : ∀ path ∈ (["/a.php", "/./a.php"] : List Text),
      Path.ofText path = Location.path ["a.php"] := by
    intro path hmem
    rw [List.mem_cons, List.mem_singleton] at hmem
    obtain rfl | rfl := hmem
    · exact hpath
    · exact hpath'
  obtain ⟨hindex, -, halone, hrender⟩ := render_processAll_perm (.swap ..)
    (fun _ => apart_filesWithSource hpaths) ⟨rfl, rfl⟩ ⟨rfl, rfl⟩
    (processAll_filesWithSource hpath hpath') (processAll_filesWithSource hpath' hpath)
  refine ⟨?_, hrender⟩
  have hfirst {path : Text} (h : Path.ofText path = Location.path ["a.php"]) :=
    (process_filesWithSource (g := { store := storeAtCache })
      (w := { files := filesWithSource classSource, now := 5 }) ⟨rfl, rfl, rfl, rfl⟩ rfl h).1
  rw [hindex]
  simp only [List.flatMap_cons, List.flatMap_nil, halone _ _ (hfirst hpath),
    halone _ _ (hfirst hpath')]
  rfl

/-! ## An entry that is a link -/

namespace IsAtCache

variable {g : Generator} {path : Text} {q : Path}

theorem process_of_hit (h : IsAtCache g w files) {tags : List RawTag}
    (hresolve : files.resolve Here.root true (Path.ofText path) = .ok q)
    (hload : storeAtCache.load files Here.root q.text = .ok (.hit tags)) :
    (g.process grammar path w).1 = .ok tags ∧
      (g.process grammar path w).2.1.index = g.index.add tags := by
  rw [← h.files, ← h.here] at hresolve hload
  rw [← load_congr h.root h.enabled] at hload
  rw [process_of_resolve hresolve]
  have hok : (g.processResolved grammar q.text w).1 = .ok tags := processResolved_of_hit hload
  exact ⟨hok, (processResolved_ok hok).1⟩

theorem process_of_miss (h : IsAtCache g w files) {reason : MissReason} {content : List UInt8}
    {lines : List LogLine} {tags : List SourceTag} {files' : FileSystem}
    (hresolve : files.resolve Here.root true (Path.ofText path) = .ok q)
    (hload : storeAtCache.load files Here.root q.text = .ok (.miss reason))
    (hread : files.read Here.root q.text = .ok content)
    (hextract : extract grammar q.text content = .ok (lines, tags))
    (hsave : storeAtCache.save w.now Here.root q.text (tags.map Tag.raw) files = (.ok (), files')) :
    (g.process grammar path w).1 = .ok (tags.map Tag.raw) ∧
      (g.process grammar path w).2.1.index = g.index.add (tags.map Tag.raw) ∧
      IsAtCache (g.process grammar path w).2.1 (g.process grammar path w).2.2 files' ∧
      (g.process grammar path w).2.2.now = w.now + 1 := by
  rw [← h.files, ← h.here] at hresolve hload hread hsave
  rw [← load_congr h.root h.enabled] at hload
  rw [← save_congr h.root h.enabled] at hsave
  obtain ⟨hok, hindex, hfiles, hnow⟩ :=
    Generator.process_of_miss hresolve hload hread hextract hsave
  obtain ⟨hroot, henabled, hhere⟩ := process_same grammar g w path
  exact ⟨hok, hindex, ⟨hroot.trans h.root, henabled.trans h.enabled, hhere.trans h.here, hfiles⟩,
    hnow⟩

end IsAtCache

/-- Two sources with one class each, and a store with some entries. -/
def filesWithTwo (modified : Int) (entries : List (Text × Tree)) : FileSystem where
  entries := [("a.php", .file classSource 7), ("b.php", .file classSource 7),
    ("cache", .directory modified entries)]

/-- An entry of the first source that is a link to that of the second one. -/
def linkedEntry : Text × Tree := ("a.php.json", .link "b.php.json")

/-- Whether a text is the path of a source with one class. -/
structure HasClassAt (files : FileSystem) (text name : Text) : Prop where
  resolve : files.resolve Here.root true (Path.ofText text) = .ok (Location.path [name])
  read : files.read Here.root (Location.text [name]) = .ok classSource

theorem hasClassAt_filesWithTwo (modified : Int) (entries : List (Text × Tree)) :
    HasClassAt (filesWithTwo modified entries) "/a.php" "a.php" ∧
      HasClassAt (filesWithTwo modified entries) "/b.php" "b.php" := by
  refine ⟨⟨?_, ?_⟩, ⟨?_, ?_⟩⟩ <;> cbv

/-- The first source has its own tags if it comes first: its entry takes the place of the link. -/
theorem processEach_linkedEntry_forth :
    (processEach (some oneClass) ["/a.php", "/b.php"] { store := storeAtCache }
        { files := filesWithTwo 0 [linkedEntry], now := 5 }).1 = .ok () ∧
      (processEach (some oneClass) ["/a.php", "/b.php"] { store := storeAtCache }
        { files := filesWithTwo 0 [linkedEntry], now := 5 }).2.1.index =
          ⟨[(classTag (Location.text ["a.php"])).raw,
            (classTag (Location.text ["b.php"])).raw]⟩ := by
  obtain ⟨lines, hextract⟩ := exists_lines (extract_classSource (Location.text ["a.php"]))
  obtain ⟨lines', hextract'⟩ := exists_lines (extract_classSource (Location.text ["b.php"]))
  have hsave : storeAtCache.save 5 Here.root (Location.text ["a.php"])
      ([classTag (Location.text ["a.php"])].map Tag.raw) (filesWithTwo 0 [linkedEntry]) =
      (.ok (),
        filesWithTwo 5 [("a.php.json", .file (classEntry (Location.text ["a.php"])) 7)]) := by
    rw [Store.save, Store.putEntry, ← classEntry]
    generalize classEntry _ = entry
    cbv
  have hload : storeAtCache.load (filesWithTwo 0 [linkedEntry]) Here.root
      (Location.text ["a.php"]) = .ok (.miss .noEntry) := by
    cbv
  have hload' (entry : List UInt8) : storeAtCache.load
      (filesWithTwo 5 [("a.php.json", .file entry 7)]) Here.root (Location.text ["b.php"]) =
      .ok (.miss .noEntry) := by
    cbv
  have hsave' (entry : List UInt8) : storeAtCache.save 6 Here.root (Location.text ["b.php"])
      ([classTag (Location.text ["b.php"])].map Tag.raw)
      (filesWithTwo 5 [("a.php.json", .file entry 7)]) =
      (.ok (), filesWithTwo 6 [("b.php.json", .file (classEntry (Location.text ["b.php"])) 7),
        ("a.php.json", .file entry 7)]) := by
    rw [Store.save, Store.putEntry, ← classEntry]
    generalize classEntry _ = entry'
    cbv
  have hstart : IsAtCache { store := storeAtCache }
      { files := filesWithTwo 0 [linkedEntry], now := 5 } _ := ⟨rfl, rfl, rfl, rfl⟩
  obtain ⟨hok, hindex, hnext, hnow⟩ :=
    hstart.process_of_miss (hasClassAt_filesWithTwo _ _).1.resolve hload
      (hasClassAt_filesWithTwo _ _).1.read hextract hsave
  generalize classEntry (Location.text ["a.php"]) = entry at hnext
  have hlast := hsave' entry
  rw [show (6 : Int) = 5 + 1 from rfl, ← hnow] at hlast
  obtain ⟨hok', hindex', -⟩ := hnext.process_of_miss (hasClassAt_filesWithTwo _ _).2.resolve
    (hload' entry) (hasClassAt_filesWithTwo _ _).2.read hextract' hlast
  rw [processEach_cons _ hok, processEach_cons _ hok', processEach]
  exact ⟨rfl, by rw [hindex', hindex]; rfl⟩

/-- The first source has the tags of the second one if it comes last. -/
theorem processEach_linkedEntry_back :
    (processEach (some oneClass) ["/b.php", "/a.php"] { store := storeAtCache }
        { files := filesWithTwo 0 [linkedEntry], now := 5 }).1 = .ok () ∧
      (processEach (some oneClass) ["/b.php", "/a.php"] { store := storeAtCache }
        { files := filesWithTwo 0 [linkedEntry], now := 5 }).2.1.index =
          ⟨[(classTag (Location.text ["b.php"])).raw,
            (classTag (Location.text ["b.php"])).raw]⟩ := by
  obtain ⟨lines, hextract⟩ := exists_lines (extract_classSource (Location.text ["b.php"]))
  have hsave : storeAtCache.save 5 Here.root (Location.text ["b.php"])
      ([classTag (Location.text ["b.php"])].map Tag.raw) (filesWithTwo 0 [linkedEntry]) =
      (.ok (), filesWithTwo 5
        [("b.php.json", .file (classEntry (Location.text ["b.php"])) 7), linkedEntry]) := by
    rw [Store.save, Store.putEntry, ← classEntry]
    generalize classEntry _ = entry
    cbv
  have hfresh (entry : List UInt8) : storeAtCache.HasFresh
      (filesWithTwo 5 [("b.php.json", .file entry 7), linkedEntry]) Here.root
      (Location.text ["a.php"]) entry := by
    refine ⟨rfl, ?_, 7, 7, ?_, ?_, Int.le_refl 7⟩ <;> cbv
  have hload := (hfresh (classEntry (Location.text ["b.php"]))).load_eq
  have hmiss : storeAtCache.load (filesWithTwo 0 [linkedEntry]) Here.root
      (Location.text ["b.php"]) = .ok (.miss .noEntry) := by
    cbv
  have htext : Location.text ["b.php"] = Text.ofString "/b.php" := rfl
  rw [ofBytes_classEntry Here.root.depths (htext ▸ Text.unpaired_ofString _)] at hload
  have hstart : IsAtCache { store := storeAtCache }
      { files := filesWithTwo 0 [linkedEntry], now := 5 } _ := ⟨rfl, rfl, rfl, rfl⟩
  obtain ⟨hok, hindex, hnext, -⟩ := hstart.process_of_miss (hasClassAt_filesWithTwo _ _).2.resolve
    hmiss (hasClassAt_filesWithTwo _ _).2.read hextract hsave
  obtain ⟨hok', hindex'⟩ := hnext.process_of_hit (hasClassAt_filesWithTwo _ _).1.resolve hload
  rw [processEach_cons _ hok, processEach_cons _ hok', processEach]
  exact ⟨rfl, by rw [hindex', hindex]; rfl⟩

/-- Where the entry of one source is a link to that of another one, the order of the two shows in
the tags file. -/
theorem render_processAll_linkedEntry :
    let w : World := { files := filesWithTwo 0 [linkedEntry], now := 5 }
    let forth := processAll (some oneClass) ["/a.php", "/b.php"] { store := storeAtCache } w
    let back := processAll (some oneClass) ["/b.php", "/a.php"] { store := storeAtCache } w
    forth.1 = .ok () ∧ back.1 = .ok () ∧
      forth.2.1.index.tags.map Tag.path = [.string "/a.php", .string "/b.php"] ∧
      back.2.1.index.tags.map Tag.path = [.string "/b.php", .string "/b.php"] ∧
      ∃ text text', forth.2.1.render ⟨.root, []⟩ = .ok text ∧
        back.2.1.render ⟨.root, []⟩ = .ok text' ∧ text ≠ text' := by
  intro w forth back
  obtain ⟨hforth, hforthIndex⟩ := processEach_linkedEntry_forth
  obtain ⟨hback, hbackIndex⟩ := processEach_linkedEntry_back
  have hsame (paths : List Text) :=
    processAll_same (some oneClass) { store := storeAtCache } w paths
  have hindex : forth.2.1.index = _ := (congrArg index (hsame _).2.1).trans hforthIndex
  have hindex' : back.2.1.index = _ := (congrArg index (hsame _).2.1).trans hbackIndex
  refine ⟨(hsame _).1.trans hforth, (hsame _).1.trans hback, ?_, ?_, ?_⟩
  · rw [hindex]
    cbv
  · rw [hindex']
    cbv
  · rw [render, render, hindex, hindex']
    exact ⟨_, _, by cbv, by cbv, by decide⟩

end Generator

end TagsFile
