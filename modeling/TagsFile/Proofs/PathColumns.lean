import TagsFile.Proofs.FailedRun
import TagsFile.Proofs.Origin
import TagsFile.Proofs.OutputPlace
import TagsFile.Proofs.TagLine
import TagsFile.Proofs.WayBack

/-!
# Paths in a written tags file

The lines of a tags file see their sources from the directory in which the file is. That directory
is computed from the resolved path of the output before the output is written, and the paths are
made from texts. They lead back nevertheless: from the directory in which the file has been put, the
path of each line leads to a source of the run.

## Main definitions

* `CommandLine.LeadsBack`: a path column that leads to a source.

## Main statements

* `CommandLine.run_paths_lead_back`: all path columns of a run that ends with status zero.
-/

namespace TagsFile

open FileSystem Generator Store

theorem Text.eq_of_toString? {t : Text} {s : String} (h : t.toString? = some s) : t = s := by
  obtain ⟨cs, hcs, rfl⟩ := Option.map_eq_some_iff.1 h
  rw [Record.eq_of_mapM_char? hcs]
  simp [Text.ofString]

namespace CommandLine

variable {grammar : Option Grammar} {w v : World} {o : Options} {outfile : Text}

/-! ## Runs that succeed -/

/-- A run that ends with status zero has done what its options ask for. -/
theorem execute_of_run {arguments : List Text} {r : RunResult} {after : World}
    (hoptions : Options.ofArguments arguments = .ok o)
    (h : run grammar arguments w = (.ok r, after)) (hstatus : r.status = 0) :
    ∃ output, execute grammar o w = (.ok output, after) := by
  obtain ⟨stop, hstop, -⟩ | ⟨o', hoptions', ⟨output, hexecute, -⟩ | ⟨f, -, -, hone⟩⟩ := run_cases h
  · cases hoptions.symm.trans hstop
  · cases hoptions.symm.trans hoptions'
    exact ⟨output, hexecute⟩
  · omega

/-- The text of a tags file is that of a generator, seen from a base. -/
theorem exists_base_of_tagsText {g : Generator} {text : Text} (h : tagsText o g v = .ok text) :
    ∃ base, baseFor o v = .ok base ∧ g.render base = .ok text := by
  rw [tagsText] at h
  cases hbase : baseFor o v with
  | error f => simp [hbase, bind, Except.bind] at h
  | ok base => exact ⟨base, rfl, by simpa [hbase, bind, Except.bind] using h⟩

/-- What has been written when the tags of all sources have been made. -/
theorem exists_written_of_execute {sources : List Text} {store : Store} {g : Generator}
    {output : Text} {after : World} (houtfile : o.outfile = some outfile) (hname : outfile ≠ "-")
    (hsources : sourcesFor o w = .ok sources) (hstore : storeFor o w.environment = .ok store)
    (hprocessed : { store : Generator }.processAll grammar sources w = (.ok (), g, v))
    (h : execute grammar o w = (.ok output, after)) :
    ∃ (base : Path) (text : String), baseFor o v = .ok base ∧ g.render base = .ok text ∧
      v.files.replaceFile v.now v.here (Path.ofText outfile) (Text.Utf8.encode text) =
        (.ok (), after.files) ∧ after.here = v.here := by
  simp only [execute, hsources, hstore, hprocessed] at h
  cases htext : tagsText o g v with
  | error f => simp [htext] at h
  | ok text =>
    obtain ⟨base, hbase, hrender⟩ := exists_base_of_tagsText htext
    simp only [htext, writeOutput, houtfile, if_neg hname] at h
    cases hstring : text.toString? with
    | none =>
      simp only [hstring] at h
      split at h <;> cases h
    | some s =>
      obtain rfl := Text.eq_of_toString? hstring
      simp only [hstring] at h
      refine ⟨base, s, hbase, hrender, ?_⟩
      have hworld : (v.addLog [summary g]).files = v.files ∧ (v.addLog [summary g]).now = v.now ∧
          (v.addLog [summary g]).here = v.here := ⟨rfl, rfl, rfl⟩
      rw [hworld.1, hworld.2.1, hworld.2.2] at h
      split at h
      · cases h
      · rename_i files hreplace
        cases h
        exact ⟨hreplace, rfl⟩

/-- Without a base of its own, a tags file is seen from the directory of its resolved path. -/
theorem exists_resolve_of_baseFor (hbase : nonempty o.base = none)
    (houtfile : o.outfile = some outfile)
    (hname : outfile ≠ "-") {base : Path} (h : baseFor o v = .ok base) :
    ∃ q, v.files.resolve v.here false (Path.ofText outfile) = .ok q ∧ base = q.parent := by
  simp only [baseFor, hbase, houtfile, if_neg hname, baseFor.resolve] at h
  cases hresolve : v.files.resolve v.here false (Path.ofText outfile) with
  | error e => simp [hresolve, Except.mapError, Except.map] at h
  | ok q =>
    rw [hresolve] at h
    cases h
    exact ⟨q, rfl, rfl⟩

/-! ## Path columns -/

theorem isComponent_ofText (t : Text) : ∀ part ∈ (Path.ofText t).parts, IsComponent part := by
  intro part hpart
  obtain ⟨hempty, hslash⟩ := Path.isSeparate_ofText t part hpart
  obtain ⟨-, hkeep⟩ := List.mem_filter.1 hpart
  rw [Bool.and_eq_true, decide_eq_true_iff, decide_eq_true_iff] at hkeep
  exact ⟨hempty, hkeep.2, hslash⟩

/-- The lines of a tags file are those of the tags of its index, and all of their columns are made
of characters if the file is. -/
theorem exists_lines_of_render {g : Generator} {base : Path} {tags : List SourceTag} {text : String}
    (htags : g.index.tags = tags.map Tag.raw) (h : g.render base = .ok text) :
    (∃ lines, lines.Perm (tags.map (Tag.sourceLine base.text)) ∧
        Text.ofString text = renderLines lines) ∧
      ∀ t ∈ tags, (relativePath base.text t.path).IsWhole := by
  rw [render, TagIndex.render, TagIndex.lines, htags, Tag.mapM_lineFrom_raw] at h
  have htext : renderLines ((tags.map (Tag.sourceLine base.text)).mergeSort Text.le) = text :=
    Except.ok.inj h
  refine ⟨⟨_, List.mergeSort_perm _ _, htext.symm⟩, fun t ht => ?_⟩
  have hwhole : (renderLines ((tags.map (Tag.sourceLine base.text)).mergeSort Text.le)).IsWhole :=
    htext ▸ Text.isWhole_ofString text
  have hline : (t.sourceLine base.text).IsWhole :=
    (Text.isWhole_append.1 hwhole).1.of_join _ (List.mem_mergeSort.2 (List.mem_map_of_mem ht))
  exact hline.of_join _ (by simp [Tag.columns])

/-- The canonical path of something that can be read is its location, in the spelling of the file
system. -/
theorem asFileName?_of_read {fs : FileSystem} {here : Here} {loc : List Text} {content : List UInt8}
    (hloc : (Location.path loc).IsSeparate)
    (h : fs.read here (Location.path loc).text = .ok content) :
    (Location.path loc).text.asFileName? = some (Location.text (loc.map Text.respelled)) := by
  by_cases hne : loc = []
  · subst hne
    exact Text.asFileName?_ofString "/"
  obtain ⟨place, time, hlocate⟩ := exists_locate_of_read h
  cases hspelled : (Location.path loc).text.asFileName? with
  | none =>
    have hbytes : (Location.path loc).text.fileBytes? = none := by
      simpa [Text.asFileName?] using hspelled
    simp [locate, hbytes] at hlocate
  | some t =>
    have hlocs : (Path.mk .root (loc.map Text.respelled)).IsSeparate := by
      intro name hname
      obtain ⟨label, hlabel, rfl⟩ := List.mem_map.1 hname
      obtain ⟨hempty, hslash⟩ := hloc label hlabel
      rw [Ne, Text.respelled_eq_ofString (by simp)]
      exact ⟨hempty, Text.slash_notMem_respelled hslash⟩
    have hpieces : pieces t = pieces (Location.text (loc.map Text.respelled)) := by
      rw [pieces_respelled hspelled, Location.path, Path.pieces_text hloc hne, List.map_append,
        map_leading]
      exact (Path.pieces_text hlocs (by simpa using hne)).symm
    rw [← join_pieces t, hpieces, join_pieces]

/-- Whether the names of `column`, followed from the directory at `dir`, lead to a source whose
canonical path is `path`. -/
def LeadsBack (w : World) (sources : List Text) (dir : Location) (path column : Text) : Prop :=
  ∃ source ∈ sources, ∃ q loc tree, w.files.resolve w.here true (Path.ofText source) = .ok q ∧
    path = q.text ∧ path.asFileName? = some (Location.text loc) ∧
    w.files.followFrom { location := dir } .target (pieces column) = .ok (.present loc tree)

theorem leadsBack_of_isSourcePath {sources : List Text} {directory : Path} {path : Text}
    (ho : w.files.Orderly w.here) (hsource : IsSourcePath w.files w.here sources path)
    (hdirectory : directory.IsSeparate ∧ directory.anchor = .root)
    (hdir : w.files.get? (directory.parts.map Text.respelled) = some .directory)
    (hwalkable : Walkable (directory.parts.map Text.respelled))
    (hwhole : (relativePath directory.text path).IsWhole) :
    LeadsBack w sources (directory.parts.map Text.respelled) path
      (relativePath directory.text path) := by
  obtain ⟨source, hsource, q, content, hresolve, rfl, hread⟩ := hsource
  have hseparate := Path.isSeparate_ofText source
  obtain ⟨hlocable, n, hn, hlink⟩ := ho.exists_node_of_resolve hseparate hresolve
  obtain ⟨loc, rfl, hlabels⟩ := isLabel_of_resolve ho.named hseparate hresolve
  obtain ⟨anchor, base⟩ := directory
  obtain ⟨hbase, rfl⟩ := hdirectory
  have hloc : (Location.path loc).IsSeparate :=
    fun name hname => ⟨(hlabels name hname).ne_empty, (hlabels name hname).no_slash⟩
  have hleads := (@leads_of_get? _ [] _ _ hwalkable hdir nofun maxLinks).trans
    (leads_relativePath hbase hloc rfl hwhole.spelled hdir hn hlink hlocable maxLinks)
  obtain ⟨tree, -, -, htarget⟩ := targetAt_eq_present hn
  refine ⟨source, hsource, _, _, tree, hresolve, rfl, asFileName?_of_read hloc hread, ?_⟩
  rw [followFrom_eq_walk (leave?_nil _)]
  exact (congrArg (Except.map w.files.targetAt) hleads.walk_eq).trans (congrArg Except.ok htarget)

/-- In a run without a base of its own that ends with status zero, and whose store is bare or
disabled, the path column of every line leads back: followed from the directory in which the tags
file is, it comes to a source of the run. Where a link is at the path of the output when that is
written, the file takes its place while the lines are seen from the directory of what the link leads
to. -/
theorem run_paths_lead_back {arguments : List Text} {r : RunResult} {after : World} {store : Store}
    {sources : List Text} {g : Generator} {directory : Path} (ho : w.files.Orderly w.here)
    (hoptions : Options.ofArguments arguments = .ok o) (hbase : nonempty o.base = none)
    (houtfile : o.outfile = some outfile) (hname : outfile ≠ "-")
    (hrun : run grammar arguments w = (.ok r, after)) (hstatus : r.status = 0)
    (hstore : storeFor o w.environment = .ok store) (hbare : store.IsBare w.files w.here)
    (hsources : sourcesFor o w = .ok sources)
    (hprocessed : { store : Generator }.processAll grammar sources w = (.ok (), g, v))
    (hlink : ∀ loc target,
      v.files.find v.here .entry (Path.ofText outfile).text ≠ .ok (loc, .link target))
    (hdirectory : v.files.resolve v.here true (Path.ofText outfile).parent = .ok directory) :
    ∃ (dir : Location) (name : Text) (text : String) (time : Int) (tags : List SourceTag)
      (lines : List Text),
      after.files.find after.here .entry (Path.ofText outfile).text =
        .ok (dir ++ [name], .file (Text.Utf8.encode text) time) ∧
      Text.ofString text = renderLines lines ∧ g.index.tags = tags.map Tag.raw ∧
      lines.Perm (tags.map (Tag.sourceLine directory.text)) ∧
      ∀ t ∈ tags, LeadsBack after sources dir t.path (relativePath directory.text t.path) := by
  obtain ⟨output, hexecute⟩ := execute_of_run hoptions hrun hstatus
  obtain ⟨base, text, hfrom, hrender, hreplace, hafter⟩ :=
    exists_written_of_execute houtfile hname hsources hstore hprocessed hexecute
  obtain ⟨q, hq, rfl⟩ := exists_resolve_of_baseFor hbase houtfile hname hfrom
  have htraced := Traced.processAll hbare ho.named hprocessed
  have hsame := htraced.same
  obtain ⟨tags, htags, hpaths⟩ := htraced.tags
  have hprocess := htraced.footprint.extends (.refl w.files.get?) hbare
  have hov : v.files.Orderly v.here :=
    hsame ▸ ho.extend hprocess (htraced.footprint.later (.refl w.files.get?)).links
  have hp := isComponent_ofText outfile
  obtain ⟨dir, init, last, hplaces, hnolink, hextends, hoa, hfind⟩ :=
    exists_places_of_replaceFile hov hp hreplace hlink
  obtain ⟨rfl, hroot, rfl⟩ := hplaces.parent_of_resolve hov hp hnolink hq hdirectory
  obtain ⟨⟨lines, hperm, htext⟩, hwhole⟩ := exists_lines_of_render htags hrender
  have hparent : (Path.ofText outfile).parent.IsSeparate :=
    fun part hpart => Path.isSeparate_ofText outfile part (List.dropLast_subset _ hpart)
  obtain ⟨hwalkable, -⟩ := hov.exists_node_of_resolve hparent hdirectory
  obtain ⟨loc, hloc, hlabels⟩ := isLabel_of_resolve hov.named hparent hdirectory
  have hseparate : q.parent.IsSeparate := by
    rw [hloc]
    exact fun name hname => ⟨(hlabels name hname).ne_empty, (hlabels name hname).no_slash⟩
  rw [← hafter] at hfind hoa
  refine ⟨_, _, text, v.now, tags, lines, hfind, htext, htags, hperm, fun t ht => ?_⟩
  have hsource : IsSourcePath after.files after.here sources t.path := by
    rw [hafter, hsame]
    exact (hpaths t ht).extend hextends
  exact leadsBack_of_isSourcePath hoa hsource ⟨hseparate, hroot⟩
    ((hextends.keeps _).1 hplaces.directory) hwalkable (hwhole t ht)

/-! ## Output behind a link -/

/-- Options for output in a directory to which a link leads. -/
def behindLink : Options where
  paths := ["a.php"]
  outfile := some "l/tags"
  cacheDir := some "/cache"

/-- A source, a directory and a link to it. -/
def filesWithLink : FileSystem where
  entries := [("a.php", .file classSource 7), ("d", .directory 0 []), ("l", .link "d")]

/-- The same when the source has been saved. -/
def filesWithLinkSaved (entry : List UInt8) : FileSystem where
  modified := 5
  entries := [("cache", .directory 5 [("a.php.json", .file entry 7)]),
    ("a.php", .file classSource 7), ("d", .directory 0 []), ("l", .link "d")]

theorem processAll_behindLink :
    let outcome := processAll (some oneClass) ["a.php"] { store := storeAtCache }
      { files := filesWithLink, now := 5 }
    outcome.1 = .ok () ∧ outcome.2.1.index = ⟨[(classTag (Location.text ["a.php"])).raw]⟩ ∧
      (∃ entry, outcome.2.2.files = filesWithLinkSaved entry) ∧ outcome.2.2.here = Here.root := by
  intro outcome
  obtain ⟨lines, hextract⟩ := exists_lines (extract_classSource (Location.text ["a.php"]))
  have hresolve : filesWithLink.resolve Here.root true (Path.ofText "a.php") =
      .ok (Location.path ["a.php"]) := by
    cbv
  have hload : storeAtCache.load filesWithLink Here.root (Location.text ["a.php"]) =
      .ok (.miss .noEntry) := by
    cbv
  have hread : filesWithLink.read Here.root (Location.text ["a.php"]) = .ok classSource := by cbv
  have hsave (tags : List RawTag) :
      storeAtCache.save 5 Here.root (Location.text ["a.php"]) tags filesWithLink =
        (.ok (), filesWithLinkSaved (Store.encodeEntry (Location.text ["a.php"]) tags)) := by
    rw [Store.save, Store.putEntry]
    generalize Store.encodeEntry (Location.text ["a.php"]) tags = content
    cbv
  obtain ⟨hok, hindex, hfiles, hhere⟩ := processAll_of_miss
    (g := { store := storeAtCache }) (w := { files := filesWithLink, now := 5 })
    hresolve hload hread hextract (hsave _)
  exact ⟨hok, hindex, ⟨_, hfiles⟩, hhere⟩

theorem orderly_filesWithLink : filesWithLink.Orderly Here.root where
  isIn _ := ⟨filesWithLink.root, by cbv, rfl⟩
  there := rfl
  named := nofun
  spelled loc target h := by
    obtain rfl : target = "d" := by
      cases loc with
      | nil => cases h
      | cons name rest =>
        simp only [filesWithLink, FileSystem.get?_eq_map, FileSystem.tree?, FileSystem.root,
          Tree.get?, Tree.entries, Table.get?] at h
        repeat' split at h
        all_goals cases rest <;> simp_all [Tree.get?, Tree.node, Tree.entries, Table.get?]
    exact Text.asFileName?_ofString "d"

/-- Output in the directory to which the link leads. -/
theorem writeOutput_behindLink {v : World} {entry : List UInt8}
    (hfiles : v.files = filesWithLinkSaved entry) (hhere : v.here = Here.root) (text : String) :
    (writeOutput behindLink (Text.ofString text) v).1 = .ok [] := by
  have hstart (now : Int) (content : List UInt8) :
      (filesWithLinkSaved entry).startFile now Here.root (Path.ofText "l/tags") content =
        .ok (["d", ".tags.XXXXXXXX.tmp"], "/l/.tags.XXXXXXXX.tmp",
          (filesWithLinkSaved entry).create now ["d", ".tags.XXXXXXXX.tmp"]
            (.file content now)) := by
    cbv
  have hmove (now : Int) (content : List UInt8) :
      ((filesWithLinkSaved entry).create now ["d", ".tags.XXXXXXXX.tmp"]
        (.file content now)).moveTarget Here.root (Path.ofText "l/tags") = .ok ["d", "tags"] := by
    cbv
  rw [writeOutput_of_startFile rfl (by decide) (by rw [hfiles, hhere]; exact hstart ..), hhere,
    hmove]

theorem tagsText_behindLink {g : Generator} {v : World} {entry : List UInt8}
    (hindex : g.index = ⟨[(classTag (Location.text ["a.php"])).raw]⟩)
    (hfiles : v.files = filesWithLinkSaved entry) (hhere : v.here = Here.root) :
    tagsText behindLink g v = .ok (Text.ofString
      "A\t../a.php\tlet _s=@/ | /class A/; | let @/=_s\";\"\tc\tlineno:1\n") := by
  obtain ⟨store, index, parsed, cached⟩ := g
  obtain ⟨files, here, now, environment, log⟩ := v
  subst hindex hfiles hhere
  cbv

theorem run_paths_lead_back_behindLink :
    let w : World := { files := filesWithLink, now := 5 }
    ∃ r after, run (some oneClass) ["--cache-dir", "/cache", "-f", "l/tags", "a.php"] w =
        (.ok r, after) ∧ r.status = 0 ∧
      ∃ dir name text time, after.files.find after.here .entry (Path.ofText "l/tags").text =
          .ok (dir ++ [name], .file (Text.Utf8.encode text) time) ∧
        LeadsBack after ["a.php"] dir (Location.text ["a.php"]) "../a.php" := by
  intro w
  have hoptions : Options.ofArguments ["--cache-dir", "/cache", "-f", "l/tags", "a.php"] =
      .ok behindLink := by
    cbv
  have hsources : sourcesFor behindLink w = .ok ["a.php"] := by cbv
  have hstore : storeFor behindLink w.environment = .ok storeAtCache := by cbv
  have hbare : storeAtCache.IsBare w.files w.here :=
    isBare_of_freshRoot (freshRoot_atCache filesWithLink.root (by cbv) rfl (by cbv))
  obtain ⟨hok, hindex, ⟨entry, hfiles⟩, hhere⟩ := processAll_behindLink
  have hwritten : (execute (some oneClass) behindLink w).1 = .ok [] := by
    rw [execute_eq_writeOutput hsources hstore hok (tagsText_behindLink hindex hfiles hhere)]
    apply writeOutput_behindLink
    · exact hfiles
    · exact hhere
  obtain ⟨r, hrun, hstatus⟩ := run_of_ok hoptions hwritten
  obtain ⟨⟨result, g, v⟩, hprocessed⟩ : ∃ outcome, processAll (some oneClass) ["a.php"]
      { store := storeAtCache } { files := filesWithLink, now := 5 } = outcome := ⟨_, rfl⟩
  rw [hprocessed] at hok hindex hfiles hhere
  dsimp only at hok hindex hfiles hhere
  subst hok
  have hlink (loc : Location) (target : Text) :
      v.files.find v.here .entry (Path.ofText "l/tags").text ≠ .ok (loc, .link target) := by
    have hnone : (filesWithLinkSaved entry).find Here.root .entry (Path.ofText "l/tags").text =
        .error (.system .noEntry) := by
      cbv
    simp [hfiles, hhere, hnone]
  have hdirectory : v.files.resolve v.here true (Path.ofText "l/tags").parent =
      .ok (Location.path ["d"]) := by
    rw [hfiles, hhere]
    cbv
  obtain ⟨dir, name, text, time, tags, lines, hfind, -, htags, -, hback⟩ :=
    run_paths_lead_back orderly_filesWithLink hoptions rfl rfl (by decide) hrun hstatus hstore hbare
      hsources hprocessed hlink hdirectory
  refine ⟨r, _, hrun, hstatus, dir, name, text, time, hfind, ?_⟩
  rw [hindex] at htags
  obtain ⟨t, rest, rfl, ht, -⟩ := List.map_eq_cons_iff.1 htags.symm
  have hpath : t.path = Location.text ["a.php"] := Json.string.inj (congrArg Tag.path ht)
  have hcolumn : relativePath (Location.path ["d"]).text (Location.text ["a.php"]) =
      "../a.php" := by
    cbv
  have hleads := hback t (by simp)
  rwa [hpath, hcolumn] at hleads

end CommandLine
end TagsFile
