import TagsFile.Proofs.FailedRun
import TagsFile.Proofs.Masking

/-!
# What a run touches and what it reads

A run writes its tags file and the entries of its store, and nothing else, however it ends. One
exception is left over from a text that has no bytes: the temporary file of the tags file stays
then. A run without a store reads nothing but its project file and its sources.

## Main definitions

* `CommandLine.Touches`: the changes that a run may make at a location.
* `CommandLine.Reads`: the locations whose files a run reads.

## Main statements

* `CommandLine.run_touches_only`: all the changes of a run, and all that a run without a store
  depends on.
-/

namespace TagsFile

namespace FileSystem

/-- A temporary file stands where nothing was, under one of its names. -/
theorem exists_locate_of_makeTemporary {fs fs' : FileSystem} {now : Int} {directory : Path}
    {name text : Text} {content : List UInt8} {fuel n : Nat} {loc : Location}
    (h : fs.makeTemporary now directory name content fuel n = .ok (loc, text, fs')) :
    ∃ m, fs.locate Here.root .entry (directory.child (temporaryName name m)).text =
      .ok (.vacant loc) := by
  induction fuel generalizing n with
  | zero => cases h
  | succ fuel ih =>
    rw [makeTemporary] at h
    split at h
    · cases h
    · rename_i hlocate
      cases h
      exact ⟨n, hlocate⟩
    · exact ih h

theorem Later.startFile {fs₀ fs made : FileSystem} (h : Later fs₀.get? fs.get?) {now : Int}
    {here : Here} {p : Path} {content : List UInt8} {loc : Location} {text : Text}
    (hstart : fs.startFile now here p content = .ok (loc, text, made)) :
    ∃ directory n, here.absolute? p.parent = some directory ∧
      fs₀.EndsAt Here.root (directory.child (temporaryName p.name n)).text loc := by
  rw [FileSystem.startFile] at hstart
  split at hstart
  · cases hstart
  · rename_i directory hdirectory
    obtain ⟨n, hlocate⟩ := exists_locate_of_makeTemporary hstart
    exact ⟨directory, n, hdirectory, h.endsAt hlocate rfl⟩

end FileSystem

namespace CommandLine

open FileSystem Store Generator

variable {grammar : Option Grammar} {w : World} {o : Options} {loc : Location}

/-! ## Changes -/

/-- The path of the tags file, unless the tags go to the output stream. -/
def outputPath? (o : Options) : Option Path :=
  (o.outfile.filter fun outfile : Text => outfile ≠ "-").map Path.ofText

/-- The changes that a run may make at a location. -/
inductive Touches (o : Options) (w : World) (outcome : Outcome World RunResult)
    (loc : Location) : Prop where
  /-- A new directory on the way to the entries of the store. -/
  | directory {store : Store} (hcache : o.noCache = false)
      (hstore : storeFor o w.environment = .ok store) (hpass : store.MayPass w.files w.here loc)
      (hbefore : w.files.get? loc = none) (hafter : outcome.2.files.get? loc = some .directory)
  /-- An entry of the store. -/
  | entry {store : Store} {path : Text} {content : List UInt8} {time : Int}
      (hcache : o.noCache = false) (hstore : storeFor o w.environment = .ok store)
      (hhold : store.MayHold w.files w.here loc)
      (hends : w.files.EndsAt w.here (store.entryPath path).text loc)
      (hbefore : w.files.get? loc ≠ some .directory)
      (hafter : outcome.2.files.get? loc = some (.file content time))
  /-- The tags file, when the run succeeds. -/
  | output {p : Path} {r : RunResult} {content : List UInt8} {time : Int}
      (hpath : outputPath? o = some p) (hends : w.files.EndsAt w.here p.text loc)
      (hresult : outcome.1 = .ok r) (hstatus : r.status = 0)
      (hbefore : w.files.get? loc ≠ some .directory)
      (hafter : outcome.2.files.get? loc = some (.file content time))
  /-- The temporary file of a text that has no bytes. -/
  | temporary {p directory : Path} {n : Nat} {time : Int} (hpath : outputPath? o = some p)
      (hdirectory : w.here.absolute? p.parent = some directory)
      (hends : w.files.EndsAt Here.root (directory.child (temporaryName p.name n)).text loc)
      (hresult : outcome.1 = .error .unencodable) (hbefore : w.files.get? loc = none)
      (hafter : outcome.2.files.get? loc = some (.file [] time))

/-! ## Writing the tags file -/

/-- How a text is written to the path of the tags file. -/
theorem writeOutput_of_path {p : Path} (h : outputPath? o = some p) (text : Text) (w : World) :
    writeOutput o text w =
      match text.toString? with
      | none =>
        match w.files.startFile w.now w.here p [] with
        | .error e => (.error (.ofPathError e), w)
        | .ok (_, _, files) => (.error .unencodable, w.withFiles files)
      | some text =>
        let (result, files) := w.files.replaceFile w.now w.here p (Text.Utf8.encode text)
        ((result.map fun _ => []).mapError .ofPathError, w.withFiles files) := by
  obtain ⟨outfile, hfile, rfl⟩ := Option.map_eq_some_iff.1 h
  obtain ⟨hfile, hname⟩ := Option.filter_eq_some_iff.1 hfile
  rw [writeOutput, hfile]
  refine (if_neg (by simpa using hname)).trans ?_
  dsimp only
  cases text.toString? with
  | none => rfl
  | some text =>
    dsimp only
    generalize w.files.replaceFile w.now w.here (Path.ofText outfile) (Text.Utf8.encode text) =
      replaced
    obtain ⟨_ | _, files⟩ := replaced <;> rfl

/-- Without such a path no file is touched, and the world makes no difference. -/
theorem writeOutput_of_none (h : outputPath? o = none) (text : Text) :
    ∃ result, ∀ w, writeOutput o text w = (result, w) := by
  cases hfile : o.outfile with
  | none => exact ⟨.error .noOutputName, fun w => by rw [writeOutput, hfile]⟩
  | some outfile =>
    have hname : outfile = "-" := by simpa [outputPath?, hfile] using h
    exact ⟨.ok text, fun w => by simp only [writeOutput, hfile, if_pos hname]⟩

theorem get?_writeOutput {start : FileSystem} (h : Later start.get? w.files.get?) (o : Options)
    (text : Text) (loc : Location) :
    (writeOutput o text w).2.files.get? loc = w.files.get? loc ∨
    ∃ p, outputPath? o = some p ∧
      ((writeOutput o text w).1 = .ok [] ∧ start.EndsAt w.here p.text loc ∧
          w.files.get? loc ≠ some .directory ∧
          (∃ content time, (writeOutput o text w).2.files.get? loc = some (.file content time)) ∨
        (writeOutput o text w).1 = .error .unencodable ∧ w.files.get? loc = none ∧
          (∃ directory n, w.here.absolute? p.parent = some directory ∧
            start.EndsAt Here.root (directory.child (temporaryName p.name n)).text loc) ∧
          ∃ time, (writeOutput o text w).2.files.get? loc = some (.file [] time)) := by
  cases hpath : outputPath? o with
  | none =>
    obtain ⟨result, hsame⟩ := writeOutput_of_none hpath text
    exact .inl (by rw [hsame])
  | some p =>
    rw [writeOutput_of_path hpath]
    cases text.toString? with
    | none =>
      dsimp only
      cases hstart : w.files.startFile w.now w.here p [] with
      | error e => exact .inl rfl
      | ok started =>
        obtain ⟨place, name, made⟩ := started
        have hmade := get?_startFile hstart loc
        by_cases hloc : loc = place
        · subst hloc
          rw [if_pos rfl] at hmade
          refine .inr ⟨p, rfl, .inr ⟨rfl, (startFile_eq_ok hstart).2.1, ?_, w.now, hmade⟩⟩
          exact h.startFile hstart
        · rw [if_neg hloc] at hmade
          exact .inl hmade
    | some text =>
      dsimp only
      obtain ⟨e, herror, hsame⟩ | ⟨target, hok, hends, hold, hget⟩ :=
        h.replaceFile_cases w.now w.here p (Text.Utf8.encode text)
      · exact .inl (hsame loc)
      · by_cases hloc : loc = target
        · subst hloc
          have hafter := hget loc
          rw [if_pos rfl] at hafter
          refine .inr ⟨p, rfl, .inl ⟨?_, hends, hold, _, _, hafter⟩⟩
          rw [hok]
          rfl
        · have hafter := hget loc
          rw [if_neg hloc] at hafter
          exact .inl hafter

/-! ## Whole runs -/

theorem enabled_of_storeFor {env : Environment} {store : Store} (h : storeFor o env = .ok store) :
    store.enabled = !o.noCache := by
  rw [storeFor] at h
  split at h
  · cases h
    rfl
  · cases h

/-- How a run with options ends. -/
theorem run_of_options (grammar : Option Grammar) (w : World) {arguments : List Text}
    (h : Options.ofArguments arguments = .ok o) :
    (run grammar arguments w).2 = (execute grammar o w).2 ∧
      (∀ output, (execute grammar o w).1 = .ok output →
        ∃ r, (run grammar arguments w).1 = .ok r ∧ r.status = 0) ∧
      ∀ f, (execute grammar o w).1 = .error f → f.report? = none →
        (run grammar arguments w).1 = .error f := by
  cases hexecute : execute grammar o w with
  | mk result after =>
    cases result with
    | ok output =>
      simp only [run, h, hexecute]
      exact ⟨trivial, fun _ _ => ⟨_, rfl, rfl⟩, fun _ hf => by cases hf⟩
    | error f =>
      simp only [run, h, hexecute]
      refine ⟨?_, ?_, ?_⟩
      · cases f.report? <;> rfl
      · rintro _ ⟨⟩
      · rintro f' hf hreport
        cases hf
        rw [hreport]

/-- What the store has changed and the output has not. -/
theorem touches_of_footprint {store : Store} {files : FileSystem}
    {outcome : Outcome World RunResult} (hstore : storeFor o w.environment = .ok store)
    (h : store.Footprint w.files w.here
      (fun loc _ => ∃ path, w.files.EndsAt w.here (store.entryPath path).text loc) w.files files)
    (hafter : outcome.2.files.get? loc = files.get? loc) :
    outcome.2.files.get? loc = w.files.get? loc ∨ Touches o w outcome loc := by
  have hcache (henabled : store.enabled = true) : o.noCache = false := by
    simpa [enabled_of_storeFor hstore] using henabled
  obtain hsame | ⟨hnone, hdir, hpass⟩ | ⟨hold, hhold, content, time, hfile, path, hends⟩ := h loc
  · exact .inl (hafter.trans hsame)
  · exact .inr (.directory (hcache hpass.1) hstore hpass hnone (hafter.trans hdir))
  · exact .inr (.entry (hcache hhold.1) hstore hhold hends hold (hafter.trans hfile))

theorem run_touches (hhere : w.here.location.IsNamed) {arguments : List Text}
    (hoptions : Options.ofArguments arguments = .ok o) (loc : Location) :
    (run grammar arguments w).2.files.get? loc = w.files.get? loc ∨
      Touches o w (run grammar arguments w) loc := by
  obtain ⟨hafter, hok, herror⟩ := run_of_options grammar w hoptions
  generalize run grammar arguments w = outcome at hafter hok herror ⊢
  cases hsources : sourcesFor o w with
  | error f =>
    simp only [execute, hsources] at hafter
    exact .inl (by rw [hafter])
  | ok sources =>
    cases hstore : storeFor o w.environment with
    | error f =>
      simp only [execute, hsources, hstore] at hafter
      exact .inl (by rw [hafter])
    | ok store =>
      have hprocessed := footprint_processAll grammar store sources hhere
      have hsame := here_processAll grammar { store } w sources
      simp only [execute, hsources, hstore] at hafter hok herror
      obtain ⟨⟨result, g, v⟩, hprocess⟩ : ∃ outcome,
        { store : Generator }.processAll grammar sources w = outcome := ⟨_, rfl⟩
      rw [hprocess] at hafter hok herror hprocessed hsame
      dsimp only at hprocessed hsame
      cases result with
      | error f =>
        dsimp only at hafter
        exact touches_of_footprint hstore hprocessed (by rw [hafter])
      | ok =>
        dsimp only at hafter hok herror
        cases htext : tagsText o g v with
        | error f =>
          rw [htext] at hafter
          exact touches_of_footprint hstore hprocessed (by rw [hafter])
        | ok text =>
          rw [htext] at hafter hok herror
          dsimp only at hafter hok herror
          obtain hkept | ⟨p, hpath, hwritten | htemporary⟩ :=
            get?_writeOutput (w := v.addLog [summary g]) (hprocessed.later (.refl _)) o text loc
          · exact touches_of_footprint hstore hprocessed (by rw [hafter, hkept]; rfl)
          · obtain ⟨hresult, hends, hold, content, time, hfile⟩ := hwritten
            obtain ⟨r, hr, hstatus⟩ := hok _ hresult
            exact .inr (.output hpath (hsame ▸ hends) hr hstatus
              (fun hdir => hold (hprocessed.keep_directory hdir)) (hafter ▸ hfile))
          · obtain ⟨hresult, hnone, ⟨directory, n, hdirectory, hends⟩, time, hfile⟩ := htemporary
            exact .inr (.temporary hpath (hsame ▸ hdirectory) hends (herror _ hresult rfl)
              (hprocessed.eq_none hnone) (hafter ▸ hfile))

/-! ## What a run without a store depends on -/

/-- The locations whose files a run reads: the project file and the sources. -/
def Reads (o : Options) (w : World) (loc : Location) : Prop :=
  (∃ directory t, workingDirectory w = .ok directory ∧
    w.files.locate w.here .target (directory.child Config.fileName).text =
      .ok (.present loc t)) ∨
  ∃ sources source q t, sourcesFor o w = .ok sources ∧ source ∈ sources ∧
    w.files.resolve w.here true (Path.ofText source) = .ok q ∧
    w.files.locate w.here .target q.text = .ok (.present loc t)

variable {hidden : Location → Bool} {files : FileSystem} {g : Generator}

/-- Whether the second outcome is the first over `files`, and the first has left its own files as
they were. -/
structure SameOver {α : Type} (start files : FileSystem)
    (outcome outcome' : Outcome (Generator × World) α) : Prop where
  kept : outcome.2.2.files = start
  store : outcome.2.1.store.enabled = false
  eq : outcome' = (outcome.1, outcome.2.1, { outcome.2.2 with files })

theorem parse_sameOver (grammar : Option Grammar) (hdisabled : g.store.enabled = false)
    (h : SameBut hidden w.files files) {path : Text}
    (hseen : ∀ loc t, w.files.locate w.here .target path = .ok (.present loc t) →
      hidden loc = false) :
    SameOver w.files files (g.parse grammar path w) (g.parse grammar path { w with files }) := by
  simp only [parse, h.read_eq hseen]
  cases w.files.read w.here path with
  | error e => cases e <;> exact ⟨rfl, hdisabled, rfl⟩
  | ok content =>
    dsimp only
    cases extract grammar path content with
    | error f => exact ⟨rfl, hdisabled, rfl⟩
    | ok extracted =>
      simp only [save_disabled hdisabled]
      exact ⟨rfl, hdisabled, rfl⟩

theorem process_sameOver (grammar : Option Grammar) (hdisabled : g.store.enabled = false)
    (h : SameBut hidden w.files files) {path : Text}
    (hseen : ∀ q loc t, w.files.resolve w.here true (Path.ofText path) = .ok q →
      w.files.locate w.here .target q.text = .ok (.present loc t) → hidden loc = false) :
    SameOver w.files files (g.process grammar path w)
      (g.process grammar path { w with files }) := by
  have hresolve := h.alike.resolve_eq w.here true (Path.ofText path)
  simp only [process, resolveSource, hresolve]
  cases hq : w.files.resolve w.here true (Path.ofText path) with
  | error e =>
    split
    · exact ⟨rfl, hdisabled, rfl⟩
    · rename_i hsource
      split at hsource
      · contradiction
      · cases hsource
      · cases hsource
  | ok q =>
    simp only [processResolved, load_disabled hdisabled]
    generalize Lookup.logLines _ _ _ = lines
    exact parse_sameOver grammar (w := w.addLog lines) ((enabled_counted ..).trans hdisabled) h
      (hseen q · · hq)

theorem processEach_sameOver (grammar : Option Grammar) (hdisabled : g.store.enabled = false)
    (h : SameBut hidden w.files files) {sources : List Text}
    (hseen : ∀ source ∈ sources, ∀ q loc t,
      w.files.resolve w.here true (Path.ofText source) = .ok q →
      w.files.locate w.here .target q.text = .ok (.present loc t) → hidden loc = false) :
    SameOver w.files files (g.processEach grammar sources w)
      (g.processEach grammar sources { w with files }) := by
  induction sources generalizing g w with
  | nil => exact ⟨rfl, hdisabled, rfl⟩
  | cons source sources ih =>
    obtain ⟨hsource, hsources⟩ := List.forall_mem_cons.1 hseen
    have hfirst := process_sameOver grammar hdisabled h hsource
    obtain ⟨-, -, hhere⟩ := process_same grammar g w source
    rw [processEach, processEach, hfirst.eq]
    obtain ⟨⟨result, g', v⟩, hprocess⟩ : ∃ outcome, g.process grammar source w = outcome :=
      ⟨_, rfl⟩
    rw [hprocess] at hfirst hhere ⊢
    obtain ⟨hkept, hstore, -⟩ := hfirst
    dsimp only at hkept hstore hhere
    cases result with
    | error f => exact ⟨hkept, hstore, rfl⟩
    | ok tags =>
      dsimp only
      obtain ⟨hkept', hstore', heq⟩ := ih (w := v) hstore (hkept ▸ h) (by rwa [hkept, hhere])
      exact ⟨hkept'.trans hkept, hstore', heq⟩

theorem processAll_sameOver (grammar : Option Grammar) (hdisabled : g.store.enabled = false)
    (h : SameBut hidden w.files files) {sources : List Text}
    (hseen : ∀ source ∈ sources, ∀ q loc t,
      w.files.resolve w.here true (Path.ofText source) = .ok q →
      w.files.locate w.here .target q.text = .ok (.present loc t) → hidden loc = false) :
    SameOver w.files files (g.processAll grammar sources w)
      (g.processAll grammar sources { w with files }) := by
  obtain ⟨hkept, hstore, heq⟩ := processEach_sameOver grammar hdisabled h hseen
  rw [processAll, processAll, heq]
  obtain ⟨⟨result, g', v⟩, hprocess⟩ : ∃ outcome, g.processEach grammar sources w = outcome :=
    ⟨_, rfl⟩
  rw [hprocess] at hkept hstore ⊢
  cases result with
  | error f => exact ⟨hkept, hstore, rfl⟩
  | ok => exact ⟨hkept, hstore, rfl⟩

theorem sourcesFor_eq (h : SameBut hidden w.files files)
    (hseen : ∀ loc, Reads o w loc → hidden loc = false) :
    sourcesFor o { w with files } = sourcesFor o w := by
  have hdirectory : workingDirectory { w with files } = workingDirectory w := rfl
  simp only [sourcesFor, hdirectory]
  cases hok : workingDirectory w with
  | error f => simp only [bind, Except.bind]
  | ok directory =>
    have hload : Config.load files w.here directory = Config.load w.files w.here directory :=
      h.load_eq fun loc t hlocate => hseen loc (.inl ⟨directory, t, hok, hlocate⟩)
    simp only [bind, Except.bind, hload, h.collect_eq]

theorem tagsText_eq (h : SameBut hidden w.files files) (o : Options) (g : Generator) :
    tagsText o g { w with files } = tagsText o g w := by
  have hdirectory : workingDirectory { w with files } = workingDirectory w := rfl
  have hresolve : baseFor.resolve { w with files } = baseFor.resolve w := by
    funext p
    rw [baseFor.resolve, baseFor.resolve, h.alike.resolve_eq]
  rw [tagsText, tagsText, baseFor, baseFor, hdirectory, hresolve]

/-- Whether two outcomes differ at most at hidden locations. -/
structure SameSeen {α : Type} (hidden : Location → Bool) (outcome outcome' : Outcome World α) :
    Prop where
  result : outcome'.1 = outcome.1
  log : outcome'.2.log = outcome.2.log
  get? (loc : Location) (hloc : hidden loc = false) :
    outcome'.2.files.get? loc = outcome.2.files.get? loc

/-- Nothing has happened to the files of either. -/
theorem sameSeen_of_sameBut {α : Type} (h : SameBut hidden w.files files)
    (result : Except Fault α) :
    SameSeen hidden (result, w) (result, { w with files }) :=
  ⟨rfl, rfl, fun _ hloc => h.get?_eq hloc⟩

theorem writeOutput_sameSeen (h : SameBut hidden w.files files) (o : Options) (text : Text) :
    SameSeen hidden (writeOutput o text w) (writeOutput o text { w with files }) := by
  cases hpath : outputPath? o with
  | none =>
    obtain ⟨result, hsame⟩ := writeOutput_of_none hpath text
    rw [hsame, hsame]
    exact sameSeen_of_sameBut h result
  | some p =>
    rw [writeOutput_of_path hpath, writeOutput_of_path hpath]
    cases text.toString? with
    | none =>
      dsimp only
      obtain ⟨e, hstart, hstart'⟩ | ⟨place, name, made, made', hstart, hstart'⟩ :=
        h.alike.startFile_cases w.now w.here p []
      · rw [hstart, hstart']
        exact sameSeen_of_sameBut h _
      · rw [hstart, hstart']
        refine ⟨rfl, rfl, fun loc hloc => ?_⟩
        exact (get?_startFile hstart' loc).trans
          (by rw [h.get?_eq hloc]; exact (get?_startFile hstart loc).symm)
    | some text =>
      dsimp only
      obtain ⟨hresult, hget⟩ :=
        h.alike.replaceFile_eq w.now w.here p (Text.Utf8.encode text)
      generalize w.files.replaceFile w.now w.here p (Text.Utf8.encode text) = replaced at *
      generalize files.replaceFile w.now w.here p (Text.Utf8.encode text) = replaced' at *
      exact ⟨by rw [hresult], rfl, fun loc hloc => hget loc (h.get?_eq hloc)⟩

theorem execute_sameSeen (hcache : o.noCache = true) (h : SameBut hidden w.files files)
    (hseen : ∀ loc, Reads o w loc → hidden loc = false) :
    SameSeen hidden (execute grammar o w) (execute grammar o { w with files }) := by
  rw [execute, execute, sourcesFor_eq h hseen]
  cases hsources : sourcesFor o w with
  | error f => exact sameSeen_of_sameBut h _
  | ok sources =>
    dsimp only
    cases hstore : storeFor o w.environment with
    | error f => exact sameSeen_of_sameBut h _
    | ok store =>
      have hdisabled : store.enabled = false := by simp [enabled_of_storeFor hstore, hcache]
      obtain ⟨hkept, -, heq⟩ := processAll_sameOver grammar (g := { store }) hdisabled h
        fun source hsource q loc t hq hlocate =>
          hseen loc (.inr ⟨sources, source, q, t, hsources, hsource, hq, hlocate⟩)
      dsimp only
      rw [heq]
      obtain ⟨⟨result, g, v⟩, hprocess⟩ : ∃ outcome,
        { store : Generator }.processAll grammar sources w = outcome := ⟨_, rfl⟩
      rw [hprocess] at hkept ⊢
      have hv : SameBut hidden v.files files := hkept ▸ h
      cases result with
      | error f => exact sameSeen_of_sameBut hv _
      | ok =>
        dsimp only
        rw [tagsText_eq hv]
        cases tagsText o g v with
        | error f => exact sameSeen_of_sameBut hv _
        | ok text => exact writeOutput_sameSeen (w := v.addLog [summary g]) hv o text

/-- The result of a run and its messages come from what it executes. -/
theorem SameSeen.run {arguments : List Text} (hoptions : Options.ofArguments arguments = .ok o)
    (h : SameSeen hidden (execute grammar o w) (execute grammar o { w with files })) :
    SameSeen hidden (run grammar arguments w) (run grammar arguments { w with files }) := by
  obtain ⟨⟨result, v⟩, hexecute⟩ : ∃ outcome, execute grammar o w = outcome := ⟨_, rfl⟩
  obtain ⟨⟨result', v'⟩, hexecute'⟩ : ∃ outcome, execute grammar o { w with files } = outcome :=
    ⟨_, rfl⟩
  rw [hexecute, hexecute'] at h
  obtain ⟨hresult, hlog, hget⟩ := h
  dsimp only at hresult hlog hget
  subst hresult
  simp only [CommandLine.run, hoptions, hexecute, hexecute', hlog]
  cases result' with
  | ok output => exact ⟨rfl, hlog, hget⟩
  | error f =>
    dsimp only
    cases f.report? with
    | none => exact ⟨rfl, hlog, hget⟩
    | some r => exact ⟨rfl, hlog, hget⟩

/-- A run touches nothing but its tags file and its store, and without a store its tags do not
depend on files that are neither its project file nor sources. -/
theorem run_touches_only (hhere : w.here.location.IsNamed) (arguments : List Text) :
    (∀ loc, (run grammar arguments w).2.files.get? loc = w.files.get? loc ∨
      ∃ o, Options.ofArguments arguments = .ok o ∧ Touches o w (run grammar arguments w) loc) ∧
    ∀ o, Options.ofArguments arguments = .ok o → o.noCache = true →
      ∀ hidden files, SameBut hidden w.files files → (∀ loc, Reads o w loc → hidden loc = false) →
        SameSeen hidden (run grammar arguments w) (run grammar arguments { w with files }) := by
  refine ⟨fun loc => ?_, fun o hoptions hcache hidden files hsame hseen => ?_⟩
  · cases hoptions : Options.ofArguments arguments with
    | error stop =>
      left
      simp only [run, hoptions]
    | ok o => exact (run_touches hhere hoptions loc).imp_right fun htouches => ⟨o, rfl, htouches⟩
  · exact (execute_sameSeen hcache hsame hseen).run hoptions

/-! ## A store that is not used -/

/-- Options for a store that is there and not used. -/
def besideStore : Options where
  paths := ["/a.php"]
  outfile := some "/tags"
  cacheDir := some "/cache"
  noCache := true

theorem ofArguments_besideStore :
    Options.ofArguments ["--no-cache", "--cache-dir", "/cache", "-f", "/tags", "/a.php"] =
      .ok besideStore := by
  cbv

theorem sourcesFor_besideStore (entry : List UInt8) :
    sourcesFor besideStore { files := filesAfterSave classSource 7 entry, now := 5 } =
      .ok ["/a.php"] := by
  cbv

theorem reads_besideStore (entry : List UInt8) {loc : Location}
    (h : Reads besideStore { files := filesAfterSave classSource 7 entry, now := 5 } loc) :
    loc = ["a.php"] := by
  obtain ⟨directory, t, hdirectory, hlocate⟩ | ⟨sources, source, q, t, hsources, hsource, hq,
    hlocate⟩ := h
  · cases hdirectory
    have hvacant : (filesAfterSave classSource 7 entry).locate Here.root .target
        ((Location.path []).child Config.fileName).text = .ok (.vacant [Config.fileName]) := by
      cbv
    cases hvacant.symm.trans hlocate
  · cases (sourcesFor_besideStore entry).symm.trans hsources
    obtain rfl := List.mem_singleton.1 hsource
    cases (resolve_filesAfterSave classSource entry 7).symm.trans hq
    have hpresent : (filesAfterSave classSource 7 entry).locate Here.root .target
        (Location.path ["a.php"]).text = .ok (.present ["a.php"] (.file classSource 7)) := by
      cbv
    cases hpresent.symm.trans hlocate
    rfl

theorem sameBut_besideStore (entry entry' : List UInt8) :
    SameBut (fun loc => loc.head? = some "cache") (filesAfterSave classSource 7 entry)
      (filesAfterSave classSource 7 entry') := rfl

/-- The store that is not used. -/
def unusedStore : Store where
  root := ⟨.root, ["cache"]⟩
  enabled := false

theorem processAll_besideStore (entry : List UInt8) :
    let outcome := processAll (some oneClass) ["/a.php"] { store := unusedStore }
      { files := filesAfterSave classSource 7 entry, now := 5 }
    outcome.1 = .ok () ∧
      HasOneClass (filesAfterSave classSource 7 entry) outcome.2.1 outcome.2.2 := by
  obtain ⟨lines, hextract⟩ := exists_lines (extract_classSource (Location.text ["a.php"]))
  have hresolve : (filesAfterSave classSource 7 entry).resolve Here.root true
      (Path.ofText "/a.php") = .ok (Location.path ["a.php"]) :=
    resolve_filesAfterSave classSource entry 7
  obtain ⟨hok, hindex, hfiles, hhere⟩ := processAll_of_miss
    (g := { store := unusedStore }) (w := { files := filesAfterSave classSource 7 entry, now := 5 })
    hresolve (load_disabled rfl ..)
    (read_filesAfterSave classSource entry 7) hextract (save_disabled rfl ..)
  exact ⟨hok, hindex, hfiles, hhere⟩

theorem tagsText_besideStore {g : Generator} {v : World} {entry : List UInt8}
    (h : HasOneClass (filesAfterSave classSource 7 entry) g v) :
    tagsText besideStore g v =
      .ok (Text.ofString "A\ta.php\tlet _s=@/ | /class A/; | let @/=_s\";\"\tc\tlineno:1\n") := by
  obtain ⟨store, index, parsed, cached⟩ := g
  obtain ⟨files, here, now, environment, log⟩ := v
  obtain ⟨rfl, rfl, rfl⟩ := h
  cbv

theorem writeOutput_besideStore {v : World} {entry : List UInt8}
    (hfiles : v.files = filesAfterSave classSource 7 entry) (hhere : v.here = Here.root)
    (text : String) : (writeOutput besideStore (Text.ofString text) v).1 = .ok [] := by
  have hstart (now : Int) (content : List UInt8) :
      (filesAfterSave classSource 7 entry).startFile now Here.root (Path.ofText "/tags") content =
        .ok ([".tags.XXXXXXXX.tmp"], "/.tags.XXXXXXXX.tmp",
          (filesAfterSave classSource 7 entry).create now [".tags.XXXXXXXX.tmp"]
            (.file content now)) := by
    cbv
  have hmove (now : Int) (content : List UInt8) :
      ((filesAfterSave classSource 7 entry).create now [".tags.XXXXXXXX.tmp"]
        (.file content now)).moveTarget Here.root (Path.ofText "/tags") = .ok ["tags"] := by
    cbv
  rw [writeOutput_of_startFile rfl (by decide) (by rw [hfiles, hhere]; exact hstart ..), hhere,
    hmove]

theorem execute_besideStore (entry : List UInt8) :
    (execute (some oneClass) besideStore
      { files := filesAfterSave classSource 7 entry, now := 5 }).1 = .ok [] := by
  obtain ⟨hok, hclass⟩ := processAll_besideStore entry
  rw [execute_eq_writeOutput (sourcesFor_besideStore entry) rfl hok (tagsText_besideStore hclass)]
  apply writeOutput_besideStore
  · exact hclass.files
  · exact hclass.here

theorem endsAt_besideStore {files : FileSystem} {p : Path}
    (hpath : outputPath? besideStore = some p)
    (h : files.EndsAt Here.root p.text loc) : loc = ["tags"] := by
  obtain rfl : p = Location.path ["tags"] := Option.some.inj (hpath.symm.trans rfl)
  obtain ⟨names, hnames, hends⟩ := h
  obtain rfl : names = ["", "tags"] := Option.some.inj (hnames.symm.trans (by cbv))
  exact (hends.of_stay (.inl rfl)).eq_of_last (by decide)

theorem run_touches_only_besideStore :
    let arguments : List Text := ["--no-cache", "--cache-dir", "/cache", "-f", "/tags", "/a.php"]
    let w : World := { files := filesAfterSave classSource 7 [], now := 5 }
    let w' : World := { files := filesAfterSave classSource 7 [0], now := 5 }
    (run (some oneClass) arguments w).1.toOption.map RunResult.status = some 0 ∧
      (∀ loc : Location, loc ≠ ["tags"] →
        (run (some oneClass) arguments w).2.files.get? loc = w.files.get? loc) ∧
      (run (some oneClass) arguments w').1 = (run (some oneClass) arguments w).1 ∧
      (run (some oneClass) arguments w').2.files.get? ["tags"] =
        (run (some oneClass) arguments w).2.files.get? ["tags"] := by
  intro arguments w w'
  obtain ⟨htouches, hreads⟩ :=
    @run_touches_only (some oneClass) w (fun _ => nofun) arguments
  obtain ⟨r, hrun, hstatus⟩ := run_of_ok ofArguments_besideStore (execute_besideStore [])
  have hsame := hreads besideStore ofArguments_besideStore rfl _ _ (sameBut_besideStore [] [0])
    fun loc hloc => by rw [reads_besideStore [] hloc]; decide
  refine ⟨?_, fun loc hloc => ?_, hsame.result, hsame.get? ["tags"] (by decide)⟩
  · rw [hrun]
    exact congrArg some hstatus
  · obtain hkept | ⟨o, hoptions, htouch⟩ := htouches loc
    · exact hkept
    · cases ofArguments_besideStore.symm.trans hoptions
      cases htouch with
      | directory hcache | entry hcache => cases hcache
      | output hpath hends => exact absurd (endsAt_besideStore hpath hends) hloc
      | temporary _ _ _ hresult =>
        rw [hrun] at hresult
        cases hresult

end CommandLine
end TagsFile
