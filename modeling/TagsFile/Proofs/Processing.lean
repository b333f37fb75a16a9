import TagsFile.Proofs.EntryText
import TagsFile.Proofs.Lookup
import TagsFile.Proofs.Wholeness

/-!
# What processing does

A source that is processed is looked up in the store, and parsed and saved if the store does not
have it. Nothing else happens to the index, the counts and the files.

## Main statements

* `Generator.parse_cases`, `Generator.processResolved_cases`: all that can come of a source.
* `Generator.processResolved_ok`: what comes of one that is processed without a fault.
-/

namespace TagsFile

namespace Store

@[simp] theorem root_counted (s : Store) (found : Lookup) : (s.counted found).root = s.root := by
  cases found <;> rfl

@[simp] theorem enabled_counted (s : Store) (found : Lookup) :
    (s.counted found).enabled = s.enabled := by
  cases found <;> rfl

/-- What a store has does not depend on what it has counted. -/
theorem load_congr {s s' : Store} (hroot : s.root = s'.root) (henabled : s.enabled = s'.enabled) :
    s.load = s'.load := by
  obtain ⟨root, enabled, hits, misses⟩ := s
  obtain ⟨root', enabled', hits', misses'⟩ := s'
  cases hroot
  cases henabled
  rfl

theorem save_congr {s s' : Store} (hroot : s.root = s'.root) (henabled : s.enabled = s'.enabled) :
    s.save = s'.save := by
  obtain ⟨root, enabled, hits, misses⟩ := s
  obtain ⟨root', enabled', hits', misses'⟩ := s'
  cases hroot
  cases henabled
  rfl

theorem load_disabled {s : Store} (h : s.enabled = false) (files : FileSystem) (here : Here)
    (path : Text) : s.load files here path = .ok (.miss .disabled) := by
  simp [load, h]

theorem save_disabled {s : Store} (h : s.enabled = false) (now : Int) (here : Here) (path : Text)
    (tags : List RawTag) (files : FileSystem) :
    s.save now here path tags files = (.ok (), files) := by
  simp [save, h]

end Store

namespace Generator

variable (grammar : Option Grammar) (source : Text) (g : Generator) (w : World)

/-- A source is not parsed, or its tags are added to the index and then saved. -/
theorem parse_cases :
    (∃ f, (∀ content, w.files.read w.here source = .ok content →
        extract grammar source content = .error f) ∧ g.parse grammar source w = (.error f, g, w)) ∨
    ∃ content lines tags log result files, w.files.read w.here source = .ok content ∧
      extract grammar source content = .ok (lines, tags) ∧
      g.store.save w.now w.here source (tags.map Tag.raw) w.files = (result, files) ∧
      g.parse grammar source w = (result.map fun _ => tags.map Tag.raw,
        { g with
          index := g.index.add (tags.map Tag.raw)
          parsed := if result.isOk then g.parsed + 1 else g.parsed },
        { w.withFiles files with log }) := by
  rw [parse]
  split
  · rename_i f hread
    exact .inl ⟨_, by simp [hread], rfl⟩
  · rename_i e hread
    exact .inl ⟨_, by simp [hread], rfl⟩
  · rename_i content hread
    split
    · rename_i f hextract
      exact .inl ⟨f, by simp [hread, hextract], rfl⟩
    · rename_i lines tags hextract
      right
      have hworld : (w.addLog lines).now = w.now ∧ (w.addLog lines).here = w.here ∧
          (w.addLog lines).files = w.files := ⟨rfl, rfl, rfl⟩
      obtain ⟨⟨result, files⟩, hsave⟩ : ∃ outcome,
          g.store.save w.now w.here source (tags.map Tag.raw) w.files = outcome := ⟨_, rfl⟩
      dsimp only
      rw [hworld.1, hworld.2.1, hworld.2.2, hsave]
      cases result with
      | error f => exact ⟨content, lines, tags, _, _, files, hread, hextract, hsave, rfl⟩
      | ok =>
        dsimp only
        generalize LogLine.mk logSource _ = line
        exact ⟨content, lines, tags, _, _, files, hread, hextract, hsave, rfl⟩

/-- All that can come of a source at its resolved path: nothing but a fault, of the lookup or of the
source, the tags of a fresh entry, or its own tags, added to the index and then saved. -/
theorem processResolved_cases :
    (∃ f, g.store.load w.files w.here source = .error f ∧
      g.processResolved grammar source w = (.error f, g, w)) ∨
    (∃ reason f log, g.store.load w.files w.here source = .ok (.miss reason) ∧
      (∀ content, w.files.read w.here source = .ok content →
        extract grammar source content = .error f) ∧
      g.processResolved grammar source w =
        (.error f, { g with store := g.store.counted (.miss reason) }, { w with log })) ∨
    (∃ tags log, g.store.load w.files w.here source = .ok (.hit tags) ∧
      g.processResolved grammar source w = (.ok tags,
        { g with
          store := g.store.counted (.hit tags)
          index := g.index.add tags
          cached := g.cached + 1 },
        { w with log })) ∨
    ∃ reason content lines tags log result files,
      g.store.load w.files w.here source = .ok (.miss reason) ∧
      w.files.read w.here source = .ok content ∧
      extract grammar source content = .ok (lines, tags) ∧
      g.store.save w.now w.here source (tags.map Tag.raw) w.files = (result, files) ∧
      g.processResolved grammar source w = (result.map fun _ => tags.map Tag.raw,
        { g with
          store := g.store.counted (.miss reason)
          index := g.index.add (tags.map Tag.raw)
          parsed := if result.isOk then g.parsed + 1 else g.parsed },
        { w.withFiles files with log }) := by
  rw [processResolved]
  split
  · rename_i f hload
    exact .inl ⟨f, hload, rfl⟩
  · rename_i found hload
    right
    cases found with
    | hit tags => exact .inr (.inl ⟨tags, _, hload, rfl⟩)
    | miss reason =>
      dsimp only
      generalize hlog :
        w.addLog ((Lookup.miss reason).logLines source (g.store.entryPath source).text) = w'
      obtain ⟨f, hf, hparse⟩ | ⟨content, lines, tags, log, result, files, hread, hextract, hsave,
        hparse⟩ :=
        parse_cases grammar source { g with store := g.store.counted (.miss reason) } w'
      · subst hlog
        exact .inl ⟨reason, f, _, hload, hf, hparse⟩
      · subst hlog
        rw [Store.save_congr (g.store.root_counted _) (g.store.enabled_counted _)] at hsave
        exact .inr (.inr ⟨reason, content, lines, tags, log, result, files, hload, hread, hextract,
          hsave, hparse⟩)

variable {grammar source g w} in
/-- The tags of a source that is processed are those of a fresh entry, or its own, which are then
saved, and they are added to the index. -/
theorem processResolved_ok {tags : List RawTag}
    (h : (g.processResolved grammar source w).1 = .ok tags) :
    (g.processResolved grammar source w).2.1.index = g.index.add tags ∧
    (g.store.load w.files w.here source = .ok (.hit tags) ∧
        (g.processResolved grammar source w).2.2.files = w.files ∨
      ∃ reason content lines parsed, g.store.load w.files w.here source = .ok (.miss reason) ∧
        w.files.read w.here source = .ok content ∧
        extract grammar source content = .ok (lines, parsed) ∧ tags = parsed.map Tag.raw ∧
        g.store.save w.now w.here source (parsed.map Tag.raw) w.files =
          (.ok (), (g.processResolved grammar source w).2.2.files)) := by
  obtain ⟨f, -, heq⟩ | ⟨reason, f, log, -, -, heq⟩ | ⟨tags', log, hload, heq⟩ |
    ⟨reason, content, lines, parsed, log, result, files, hload, hread, hextract, hsave, heq⟩ :=
    processResolved_cases grammar source g w
  · simp [heq] at h
  · simp [heq] at h
  · rw [heq] at h ⊢
    cases h
    exact ⟨rfl, .inl ⟨hload, rfl⟩⟩
  · rw [heq] at h ⊢
    cases result with
    | error f => cases h
    | ok =>
      cases h
      exact ⟨rfl, .inr ⟨reason, content, lines, parsed, hload, hread, hextract, rfl, hsave⟩⟩

variable {grammar source g w} in
theorem processResolved_of_hit {tags : List RawTag}
    (h : g.store.load w.files w.here source = .ok (.hit tags)) :
    (g.processResolved grammar source w).1 = .ok tags := by
  rw [processResolved, h]

variable {grammar source g w} in
theorem processResolved_of_miss {reason : MissReason} {content : List UInt8} {lines : List LogLine}
    {tags : List SourceTag} {result : Except Fault Unit} {files : FileSystem}
    (h : g.store.load w.files w.here source = .ok (.miss reason))
    (hread : w.files.read w.here source = .ok content)
    (hextract : extract grammar source content = .ok (lines, tags))
    (hsave : g.store.save w.now w.here source (tags.map Tag.raw) w.files = (result, files)) :
    (g.processResolved grammar source w).1 = result.map (fun _ => tags.map Tag.raw) ∧
      (g.processResolved grammar source w).2.1.index = g.index.add (tags.map Tag.raw) ∧
      (g.processResolved grammar source w).2.2.files = files ∧
      (g.processResolved grammar source w).2.2.now = w.now + 1 := by
  obtain ⟨f, hload, -⟩ | ⟨reason', f, log, -, hf, -⟩ | ⟨tags', log, hload, -⟩ |
    ⟨reason', content', lines', tags', log, result, files', hload, hread', hextract', hsave',
      heq⟩ :=
    processResolved_cases grammar source g w
  · cases h.symm.trans hload
  · cases hextract.symm.trans (hf content hread)
  · cases h.symm.trans hload
  · cases hread.symm.trans hread'
    cases hextract.symm.trans hextract'
    cases hsave.symm.trans hsave'
    rw [heq]
    exact ⟨rfl, rfl, rfl, rfl⟩

/-- A path that does not resolve is not processed. -/
theorem process_cases (path : Text) :
    (∃ f, (∀ q, w.files.resolve w.here true (Path.ofText path) ≠ .ok q) ∧
      g.process grammar path w = (.error f, g, w)) ∨
    ∃ q, w.files.resolve w.here true (Path.ofText path) = .ok q ∧
      g.process grammar path w = g.processResolved grammar q.text w := by
  rw [process, resolveSource]
  cases w.files.resolve w.here true (Path.ofText path) with
  | ok q => exact .inr ⟨q, rfl, rfl⟩
  | error e =>
    left
    split
    · exact ⟨_, nofun, rfl⟩
    · rename_i hsource
      split at hsource
      · contradiction
      · cases hsource
      · cases hsource

variable {grammar g w} in
theorem process_of_resolve {path : Text} {q : Path}
    (h : w.files.resolve w.here true (Path.ofText path) = .ok q) :
    g.process grammar path w = g.processResolved grammar q.text w := by
  rw [process, resolveSource, h]

variable {grammar g w} in
theorem process_of_miss {path : Text} {q : Path} {reason : MissReason} {content : List UInt8}
    {lines : List LogLine} {tags : List SourceTag} {files : FileSystem}
    (hresolve : w.files.resolve w.here true (Path.ofText path) = .ok q)
    (h : g.store.load w.files w.here q.text = .ok (.miss reason))
    (hread : w.files.read w.here q.text = .ok content)
    (hextract : extract grammar q.text content = .ok (lines, tags))
    (hsave : g.store.save w.now w.here q.text (tags.map Tag.raw) w.files = (.ok (), files)) :
    (g.process grammar path w).1 = .ok (tags.map Tag.raw) ∧
      (g.process grammar path w).2.1.index = g.index.add (tags.map Tag.raw) ∧
      (g.process grammar path w).2.2.files = files ∧
      (g.process grammar path w).2.2.now = w.now + 1 := by
  rw [process_of_resolve hresolve]
  exact processResolved_of_miss h hread hextract hsave

/-! ## Entries of processed sources -/

variable {grammar} in
theorem unpaired_of_extract {path : Text} (hpath : path.unpaired) {content : List UInt8}
    {lines : List LogLine} {tags : List SourceTag}
    (h : extract grammar path content = .ok (lines, tags)) :
    ∀ t ∈ tags, ∀ text ∈ t.texts, Text.unpaired text := by
  intro t ht text htext
  obtain rfl | hwhole := texts_of_extract h t ht text htext
  · exact hpath
  · exact hwhole.unpaired

variable {grammar} in
/-- The entry of a source gives back its tags, unless a line has too many digits to be read. -/
theorem ofBytes_encodeEntry (depths : Depths) {path : Text} (hpath : path.unpaired)
    {content : List UInt8} {lines : List LogLine} {tags : List SourceTag}
    (h : extract grammar path content = .ok (lines, tags)) :
    Store.ofBytes depths.values (Store.encodeEntry path (tags.map Tag.raw)) =
        .ok (.hit (tags.map Tag.raw)) ∨
      ∃ reason, Store.ofBytes depths.values (Store.encodeEntry path (tags.map Tag.raw)) =
        .ok (.miss reason) := by
  obtain hdecode | hdecode :=
    Store.decodeEntry_encodeEntry_cases depths hpath (unpaired_of_extract hpath h)
  · exact .inl (Store.ofBytes_eq_hit.2 hdecode)
  · refine .inr ⟨.corrupt .notJson, ?_⟩
    rw [Store.ofBytes, hdecode]

/-! ## Sources one after the other -/

/-- Processing goes on with the same store and from the same working directory. -/
theorem process_same (path : Text) :
    (g.process grammar path w).2.1.store.root = g.store.root ∧
      (g.process grammar path w).2.1.store.enabled = g.store.enabled ∧
      (g.process grammar path w).2.2.here = w.here := by
  obtain ⟨f, -, h⟩ | ⟨q, -, h⟩ := process_cases grammar g w path
  · simp [h]
  · rw [h]
    obtain ⟨f, -, h⟩ | ⟨reason, f, log, -, -, h⟩ | ⟨tags, log, -, h⟩ |
      ⟨reason, content, lines, tags, log, result, files, -, -, -, -, h⟩ :=
      processResolved_cases grammar q.text g w
    · simp [h]
    · simp [h]
    · simp [h]
    · simp [h, World.withFiles]

variable {grammar g w} in
theorem processEach_cons {path : Text} {tags : List RawTag} (paths : List Text)
    (h : (g.process grammar path w).1 = .ok tags) :
    g.processEach grammar (path :: paths) w =
      processEach grammar paths (g.process grammar path w).2.1 (g.process grammar path w).2.2 := by
  rw [processEach]
  split
  · rename_i heq
    simp [heq] at h
  · rename_i heq
    rw [heq]

/-- In the end only the log tells that all sources have been processed. -/
theorem processAll_same (paths : List Text) :
    (g.processAll grammar paths w).1 = (g.processEach grammar paths w).1 ∧
      (g.processAll grammar paths w).2.1 = (g.processEach grammar paths w).2.1 ∧
      (g.processAll grammar paths w).2.2.files = (g.processEach grammar paths w).2.2.files ∧
      (g.processAll grammar paths w).2.2.here = (g.processEach grammar paths w).2.2.here := by
  rw [processAll]
  split
  · rename_i heq
    simp [heq]
  · rename_i heq
    simp [heq, World.addLog]

theorem here_processAll (paths : List Text) :
    (g.processAll grammar paths w).2.2.here = w.here := by
  rw [(processAll_same grammar g w paths).2.2.2]
  induction paths generalizing g w with
  | nil => rfl
  | cons path paths ih =>
    obtain ⟨-, -, hhere⟩ := process_same grammar g w path
    rw [processEach]
    split
    · rename_i heq
      rwa [heq] at hhere
    · rename_i heq
      rw [heq] at hhere
      exact (ih ..).trans hhere

variable {grammar g w} in
/-- A source alone that the store does not have. -/
theorem processAll_of_miss {path : Text} {q : Path} {reason : MissReason} {content : List UInt8}
    {lines : List LogLine} {tags : List SourceTag} {files : FileSystem}
    (hresolve : w.files.resolve w.here true (Path.ofText path) = .ok q)
    (h : g.store.load w.files w.here q.text = .ok (.miss reason))
    (hread : w.files.read w.here q.text = .ok content)
    (hextract : extract grammar q.text content = .ok (lines, tags))
    (hsave : g.store.save w.now w.here q.text (tags.map Tag.raw) w.files = (.ok (), files)) :
    (g.processAll grammar [path] w).1 = .ok () ∧
      (g.processAll grammar [path] w).2.1.index = g.index.add (tags.map Tag.raw) ∧
      (g.processAll grammar [path] w).2.2.files = files ∧
      (g.processAll grammar [path] w).2.2.here = w.here := by
  obtain ⟨hok, hindex, hfiles, -⟩ := process_of_miss hresolve h hread hextract hsave
  obtain ⟨-, -, hhere⟩ := process_same grammar g w path
  obtain ⟨hresult, hgenerator, hsame, hsame'⟩ := processAll_same grammar g w [path]
  rw [processEach_cons _ hok, processEach] at hresult hgenerator hsame hsame'
  exact ⟨hresult, (congrArg index hgenerator).trans hindex, hsame.trans hfiles, hsame'.trans hhere⟩

end Generator
end TagsFile
