import TagsFile.CommandLine.Run
import TagsFile.Proofs.Footprint
import TagsFile.Proofs.Transparency

/-!
# What a failed run leaves behind

A run fails before it writes, while it makes tags or when it writes. In no case does it leave
anything where the tags file was to be: all that it has changed are the directories and the entries
of its store.

## Main statements

* `CommandLine.run_failed_keeps`: all the changes of a run that reports a failure.
-/

namespace TagsFile.CommandLine

open FileSystem Store Generator

variable {grammar : Option Grammar} {w : World}

/-- Output that cannot be written is not there, and neither is its temporary file. -/
theorem get?_writeOutput_error {o : Options} {text : Text} {f : Fault}
    (h : (writeOutput o text w).1 = .error f) (hreport : f.report? ≠ none) (loc : Location) :
    (writeOutput o text w).2.files.get? loc = w.files.get? loc := by
  rw [writeOutput] at h ⊢
  split
  · rfl
  · rename_i outfile hfile
    simp only [hfile] at h
    split
    · rfl
    · rename_i hname
      simp only [hname, if_false] at h
      cases htext : text.toString? with
      | none =>
        simp only [htext] at h ⊢
        split
        · rfl
        · rename_i hstart
          -- a text without bytes ends a run without a report
          rw [hstart] at h
          cases h
          exact absurd rfl hreport
      | some text =>
        simp only [htext] at h ⊢
        obtain ⟨e, -, hsame⟩ | ⟨made, place, target, -, -, -, hok, -⟩ :=
          w.files.replaceFile_cases w.now w.here (Path.ofText outfile) (Text.Utf8.encode text)
        · split
          · rename_i hreplace
            simpa [hreplace, World.withFiles] using hsame loc
          · rename_i hreplace
            rw [hreplace] at h
            cases h
        · split
          · rename_i hreplace
            rw [hreplace] at hok
            cases hok
          · rename_i hreplace
            rw [hreplace] at h
            cases h

/-- A text is written once its temporary file is there, unless that cannot take its name. -/
theorem writeOutput_of_startFile {o : Options} {outfile temporary : Text} {text : String}
    {loc : Location} {made : FileSystem} (houtfile : o.outfile = some outfile)
    (hname : outfile ≠ "-")
    (hstart : w.files.startFile w.now w.here (Path.ofText outfile) (Text.Utf8.encode text) =
      .ok (loc, temporary, made)) :
    (writeOutput o (Text.ofString text) w).1 =
      match made.moveTarget w.here (Path.ofText outfile) with
      | .ok _ => .ok []
      | .error e => .error (.ofPathError ⟨e, [temporary, (Path.ofText outfile).text]⟩) := by
  rw [writeOutput, houtfile]
  dsimp only
  rw [if_neg hname, Text.toString?_ofString]
  dsimp only
  rw [replaceFile, hstart]
  dsimp only
  cases made.moveTarget w.here (Path.ofText outfile) <;> rfl

/-- A run that fails with a report has at most used its store. -/
theorem footprint_execute {o : Options} {f : Fault} (hhere : w.here.location.IsNamed)
    (h : (execute grammar o w).1 = .error f) (hreport : f.report? ≠ none) :
    (execute grammar o w).2.files = w.files ∨
      ∃ store, storeFor o w.environment = .ok store ∧
        store.Footprint w.files w.here (fun _ _ => True) w.files (execute grammar o w).2.files := by
  rw [execute] at h ⊢
  cases hsources : sourcesFor o w with
  | error f => exact .inl rfl
  | ok sources =>
    cases hstore : storeFor o w.environment with
    | error f => exact .inl rfl
    | ok store =>
      right
      refine ⟨store, rfl, ?_⟩
      simp only [hsources, hstore] at h ⊢
      have hprocessed := (Generator.footprint_processAll grammar store sources hhere).mono
        fun _ _ _ => trivial
      split
      · rename_i hprocess
        rwa [hprocess] at hprocessed
      · rename_i g w' hprocess
        rw [hprocess] at h hprocessed
        dsimp only at h
        split
        · exact hprocessed
        · rename_i text htext
          rw [htext] at h
          exact hprocessed.trans (.of_same (get?_writeOutput_error h hreport))

/-- How a run ends that has a result: its arguments ask for nothing to be done, it has done what
they ask for, or it has failed with a report. -/
theorem run_cases {arguments : List Text} {r : RunResult} {after : World}
    (h : run grammar arguments w = (.ok r, after)) :
    (∃ stop, Options.ofArguments arguments = .error stop ∧ after = w) ∨
      ∃ o, Options.ofArguments arguments = .ok o ∧
        ((∃ output, execute grammar o w = (.ok output, after) ∧ r.status = 0) ∨
          ∃ f, execute grammar o w = (.error f, after) ∧ f.report? ≠ none ∧ r.status = 1) := by
  rw [run] at h
  split at h
  · rename_i stop hstop
    cases h
    exact .inl ⟨stop, hstop, rfl⟩
  · rename_i o hoptions
    refine .inr ⟨o, hoptions, ?_⟩
    cases hexecute : execute grammar o w with
    | mk result world =>
      rw [hexecute] at h
      cases result with
      | ok output =>
        cases h
        exact .inl ⟨output, rfl, rfl⟩
      | error f =>
        dsimp only at h
        split at h
        · rename_i report hreport
          cases h
          exact .inr ⟨f, rfl, by simp [hreport], rfl⟩
        · cases h

/-- A run that ends with another status than zero has changed nothing but this: where nothing was on
the way to the entries of its store there may be directories, and where such entries are there may
be files. -/
theorem run_failed_keeps {arguments : List Text} {r : RunResult} {after : World}
    (hhere : w.here.location.IsNamed) (h : run grammar arguments w = (.ok r, after))
    (hstatus : r.status ≠ 0) (loc : Location) :
    after.files.get? loc = w.files.get? loc ∨
      ∃ o store, Options.ofArguments arguments = .ok o ∧ storeFor o w.environment = .ok store ∧
        (store.MayPass w.files w.here loc ∧ w.files.get? loc = none ∧
            after.files.get? loc = some .directory ∨
          store.MayHold w.files w.here loc ∧ w.files.get? loc ≠ some .directory ∧
            ∃ content time, after.files.get? loc = some (.file content time)) := by
  obtain ⟨stop, -, rfl⟩ | ⟨o, hoptions, ⟨output, -, hzero⟩ | ⟨f, hexecute, hreport, -⟩⟩ :=
    run_cases h
  · exact .inl rfl
  · exact absurd hzero hstatus
  · have hchanges := footprint_execute hhere (congrArg Prod.fst hexecute) hreport
    rw [hexecute] at hchanges
    obtain hsame | ⟨store, hstore, hfootprint⟩ := hchanges
    · exact .inl (congrArg (get? · loc) hsame)
    · obtain hsame | ⟨hnone, hdir, hpass⟩ | ⟨hold, hhold, content, time, hfile, -⟩ := hfootprint loc
      · exact .inl hsame
      · exact .inr ⟨o, store, hoptions, hstore, .inl ⟨hpass, hnone, hdir⟩⟩
      · exact .inr ⟨o, store, hoptions, hstore, .inr ⟨hhold, hold, content, time, hfile⟩⟩

/-- Sources whose tags are made go on to the output. -/
theorem execute_eq_writeOutput {o : Options} {sources : List Text} {store : Store} {text : Text}
    (hsources : sourcesFor o w = .ok sources) (hstore : storeFor o w.environment = .ok store)
    (hok : ({ store : Generator }.processAll grammar sources w).1 = .ok ())
    (htext : tagsText o ({ store : Generator }.processAll grammar sources w).2.1
      ({ store : Generator }.processAll grammar sources w).2.2 = .ok text) :
    execute grammar o w = writeOutput o text
      (({ store : Generator }.processAll grammar sources w).2.2.addLog
        [summary ({ store : Generator }.processAll grammar sources w).2.1]) := by
  obtain ⟨⟨result, g, v⟩, heq⟩ : ∃ outcome,
      { store : Generator }.processAll grammar sources w = outcome := ⟨_, rfl⟩
  rw [heq] at hok htext ⊢
  cases hok
  simp only [execute, hsources, hstore, heq, htext]

theorem run_of_error {arguments : List Text} {o : Options} {f : Fault} {report : Report}
    (hoptions : Options.ofArguments arguments = .ok o) (h : (execute grammar o w).1 = .error f)
    (hreport : f.report? = some report) :
    (run grammar arguments w).1.toOption.map RunResult.status = some 1 ∧
      (run grammar arguments w).2 = (execute grammar o w).2 := by
  cases hexecute : execute grammar o w with
  | mk result after =>
    rw [hexecute] at h
    cases h
    simp only [run, hoptions, hexecute, hreport]
    exact ⟨rfl, trivial⟩

theorem run_of_ok {arguments : List Text} {o : Options} {output : Text}
    (hoptions : Options.ofArguments arguments = .ok o) (h : (execute grammar o w).1 = .ok output) :
    ∃ r, run grammar arguments w = (.ok r, (execute grammar o w).2) ∧ r.status = 0 := by
  cases hexecute : execute grammar o w with
  | mk result after =>
    rw [hexecute] at h
    cases h
    simp only [run, hoptions, hexecute]
    exact ⟨_, rfl, rfl⟩

/-! ## Output above a store -/

/-- Options for output where a directory of the store is still to be made. -/
def aboveStore : Options where
  paths := ["/a.php"]
  outfile := some "/out"
  cacheDir := some "/out/cache"

/-- The store that they ask for. -/
def storeBelowOutput : Store where
  root := ⟨.root, ["out", "cache"]⟩

/-- The source and its entry, when the directories of the store have been made. -/
def filesBelowOutput (entry : List UInt8) : FileSystem where
  modified := 5
  entries := [("out", .directory 5 [("cache", .directory 5 [("a.php.json", .file entry 7)])]),
    ("a.php", .file classSource 7)]

theorem save_aboveStore (tags : List RawTag) :
    storeBelowOutput.save 5 Here.root (Location.text ["a.php"]) tags
        (filesWithSource classSource) =
      (.ok (), filesBelowOutput (encodeEntry (Location.text ["a.php"]) tags)) := by
  rw [Store.save, Store.putEntry]
  generalize encodeEntry (Location.text ["a.php"]) tags = content
  cbv

/-- What the source has come to when it has been processed: its class is in the index, and `files`
are left. -/
structure HasOneClass (files : FileSystem) (g : Generator) (v : World) : Prop where
  index : g.index = ⟨[(classTag (Location.text ["a.php"])).raw]⟩
  files : v.files = files
  here : v.here = Here.root

theorem processAll_aboveStore :
    let outcome := processAll (some oneClass) ["/a.php"] { store := storeBelowOutput }
      { files := filesWithSource classSource, now := 5 }
    outcome.1 = .ok () ∧ ∃ entry, HasOneClass (filesBelowOutput entry) outcome.2.1 outcome.2.2 := by
  intro outcome
  obtain ⟨lines, hextract⟩ := exists_lines (extract_classSource (Location.text ["a.php"]))
  have hresolve : (filesWithSource classSource).resolve Here.root true (Path.ofText "/a.php") =
      .ok (Location.path ["a.php"]) := by
    cbv
  have hload : storeBelowOutput.load (filesWithSource classSource) Here.root
      (Location.text ["a.php"]) = .ok (.miss .noEntry) := by
    cbv
  obtain ⟨hok, hindex, hfiles, hhere⟩ := processAll_of_miss
    (g := { store := storeBelowOutput }) (w := { files := filesWithSource classSource, now := 5 })
    hresolve hload (read_filesWithSource classSource) hextract (save_aboveStore _)
  exact ⟨hok, _, hindex, hfiles, hhere⟩

theorem tagsText_aboveStore {g : Generator} {v : World} {entry : List UInt8}
    (h : HasOneClass (filesBelowOutput entry) g v) :
    tagsText aboveStore g v =
      .ok (Text.ofString "A\ta.php\tlet _s=@/ | /class A/; | let @/=_s\";\"\tc\tlineno:1\n") := by
  obtain ⟨store, index, parsed, cached⟩ := g
  obtain ⟨files, here, now, environment, log⟩ := v
  obtain ⟨rfl, rfl, rfl⟩ := h
  cbv

/-- The tags file cannot be written where a directory of the store has been made. -/
theorem writeOutput_aboveStore {v : World} {entry : List UInt8}
    (hfiles : v.files = filesBelowOutput entry) (hhere : v.here = Here.root) (text : String) :
    (writeOutput aboveStore (Text.ofString text) v).1 =
      .error (.system .isDirectory ["/.out.XXXXXXXX.tmp", "/out"]) := by
  have hstart (now : Int) (content : List UInt8) :
      (filesBelowOutput entry).startFile now Here.root (Path.ofText "/out") content =
        .ok ([".out.XXXXXXXX.tmp"], "/.out.XXXXXXXX.tmp",
          (filesBelowOutput entry).create now [".out.XXXXXXXX.tmp"] (.file content now)) := by
    cbv
  have hmove (now : Int) (content : List UInt8) :
      ((filesBelowOutput entry).create now [".out.XXXXXXXX.tmp"]
        (.file content now)).moveTarget Here.root (Path.ofText "/out") =
          .error (.system .isDirectory) := by
    cbv
  rw [writeOutput_of_startFile rfl (by decide) (by rw [hfiles, hhere]; exact hstart ..), hhere,
    hmove]
  rfl

theorem execute_aboveStore :
    let w : World := { files := filesWithSource classSource, now := 5 }
    let outcome := execute (some oneClass) aboveStore w
    outcome.1 = .error (.system .isDirectory ["/.out.XXXXXXXX.tmp", "/out"]) ∧
      ∃ entry, ∀ loc, outcome.2.files.get? loc = (filesBelowOutput entry).get? loc := by
  intro w outcome
  have hsources : sourcesFor aboveStore w = .ok ["/a.php"] := by cbv
  have hstore : storeFor aboveStore w.environment = .ok storeBelowOutput := rfl
  obtain ⟨hok, entry, habove⟩ := processAll_aboveStore
  have hwritten : outcome = _ :=
    execute_eq_writeOutput hsources hstore hok (tagsText_aboveStore habove)
  have herror : outcome.1 = .error (.system .isDirectory ["/.out.XXXXXXXX.tmp", "/out"]) := by
    rw [hwritten]
    apply writeOutput_aboveStore
    · exact habove.files
    · exact habove.here
  refine ⟨herror, entry, fun loc => ?_⟩
  rw [hwritten] at herror ⊢
  rw [get?_writeOutput_error herror (by simp [Fault.report?])]
  exact congrArg (get? · loc) habove.files

theorem ofArguments_aboveStore :
    Options.ofArguments ["--cache-dir", "/out/cache", "-f", "/out", "/a.php"] = .ok aboveStore := by
  cbv

theorem run_failed_keeps_aboveStore :
    let w : World := { files := filesWithSource classSource, now := 5 }
    let outcome := run (some oneClass) ["--cache-dir", "/out/cache", "-f", "/out", "/a.php"] w
    outcome.1.toOption.map RunResult.status = some 1 ∧ ∀ loc,
      outcome.2.files.get? loc = w.files.get? loc ∨
      storeBelowOutput.MayPass w.files w.here loc ∧ w.files.get? loc = none ∧
        outcome.2.files.get? loc = some .directory ∨
      storeBelowOutput.MayHold w.files w.here loc ∧ w.files.get? loc ≠ some .directory ∧
        ∃ content time, outcome.2.files.get? loc = some (.file content time) := by
  intro w outcome
  obtain ⟨hstatus, -⟩ := run_of_error ofArguments_aboveStore execute_aboveStore.1 rfl
  refine ⟨hstatus, fun loc => ?_⟩
  obtain ⟨⟨result, after⟩, hrun⟩ : ∃ result, outcome = result := ⟨_, rfl⟩
  obtain ⟨r, rfl, hr⟩ : ∃ r, result = .ok r ∧ r.status = 1 := by
    have hmap : outcome.1.toOption.map RunResult.status = some 1 := hstatus
    rw [hrun] at hmap
    cases result with
    | error f => cases hmap
    | ok r => exact ⟨r, rfl, Option.some.inj hmap⟩
  rw [hrun]
  obtain hsame | ⟨o, store, hoptions, hstore, hchange⟩ :=
    run_failed_keeps (w := w) nofun hrun (by simp [hr]) loc
  · exact .inl hsame
  · cases ofArguments_aboveStore.symm.trans hoptions
    have hbelow : storeFor aboveStore w.environment = .ok storeBelowOutput := rfl
    cases hbelow.symm.trans hstore
    exact .inr hchange

/-- A directory of the store stands where the tags file was to be. -/
theorem run_aboveStore_fails :
    let w : World := { files := filesWithSource classSource, now := 5 }
    let outcome := run (some oneClass) ["--cache-dir", "/out/cache", "-f", "/out", "/a.php"] w
    outcome.1.toOption.map RunResult.status = some 1 ∧ w.files.get? ["out"] = none ∧
      outcome.2.files.get? ["out"] = some .directory := by
  intro w outcome
  obtain ⟨herror, entry, hfiles⟩ := execute_aboveStore
  obtain ⟨hstatus, hafter⟩ := run_of_error ofArguments_aboveStore herror rfl
  refine ⟨hstatus, rfl, ?_⟩
  rw [hafter, hfiles]
  rfl

end TagsFile.CommandLine
