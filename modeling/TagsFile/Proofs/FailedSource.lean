import TagsFile.Proofs.Reach
import TagsFile.Proofs.Transparency

/-!
# What a failed source leaves behind

A source that cannot be read or parsed changes nothing. One whose entry cannot be written has its
tags in the index. If the entry could not be put into its place, no file has been changed or added.
If it could be put there but not be given the time of its source, it stays there, complete and with
the time at which it was written. Only what succeeds is counted.

## Main definitions

* `FileSystem.Widens`: a change that at most makes directories.
* `Store.Unstampable`: why an entry cannot be given a time.
* `Store.LeavesUnwritten`: what is left of an entry that cannot be written or stamped.
* `Generator.Effects`: what one source does.
* `Generator.Calls`: the generators that come of one source after the other.

## Main statements

* `FileSystem.replaceFile_found`: a replaced file is found by its path, unless a link was there.
* `Store.save_failure`: what is left behind by a save that fails.
* `Generator.calls_effects`: what each source does, and what the counts are.
-/

namespace TagsFile

namespace FileSystem

variable {node node' : Location → Option Node} {fs fs' made : FileSystem} {here : Here} {p : Path}
  {now : Int} {content : List UInt8}

/-! ## Files that have been replaced -/

/-- A text that is a path for one purpose and in one file system leads along the same names for all
purposes and in all of them. -/
theorem locate_of_walk {purpose purpose' : Purpose} {text : Text} {target : Target}
    {loc dest : Location} {names : List Text} (h : fs.locate here purpose text = .ok target)
    (hloc : target.location? = some loc) (hnames : namesFrom? here text = some names)
    (hwalk : walk fs'.get? purpose' maxLinks [] names = .ok dest) :
    fs'.locate here purpose' text = .ok (fs'.targetAt dest) := by
  obtain ⟨gone, hlocate⟩ | ⟨e, -, hlocate⟩ | ⟨names', hnames', hlocate⟩ := locate_along here text
  · cases h.symm.trans (hlocate fs purpose)
    cases hloc
  · cases h.symm.trans (hlocate fs purpose)
  · cases hnames.symm.trans hnames'
    rw [hlocate, hwalk]
    rfl

/-- A way to an entry stays while all directories and links on it do, and it leads to a file that
has come there. -/
theorem walk_target_of_entry (hk : Keeps node node') {budget : Nat} {loc dest : Location}
    {names : List Text} (hwalk : walk node .entry budget loc names = .ok dest)
    {content : List UInt8} {time : Int} (hfile : node' dest = some (.file content time)) :
    walk node' .target budget loc names = .ok dest := by
  fun_induction walk node .entry budget loc names with
  | case1 =>
    rw [walk]
    exact hwalk
  | case2 budget loc name rest hloc hname ih =>
    rw [walk, if_pos ((hk loc).1 hloc), if_pos hname]
    exact ih hwalk
  | case3 budget loc rest hloc hname ih =>
    rw [walk, if_pos ((hk loc).1 hloc), if_neg hname, if_pos rfl]
    exact ih hwalk
  | case6 budget loc name hloc hname hup hlong hnone =>
    cases hwalk
    rw [walk_cons ((hk loc).1 hloc) (plain_iff.2 ⟨hname, hup⟩) (Nat.le_of_not_lt hlong) (by decide),
      hfile]
    exact walk.eq_1 ..
  | case8 budget loc name rest hloc hname hup hslash hlong target hlink =>
    -- a link that comes last is still there, and no file is
    cases hwalk
    cases hfile.symm.trans ((hk _).2 target hlink)
  | case10 loc name rest hloc hname hup hslash hlong target hlink hlast budget ih =>
    rw [walk_cons ((hk loc).1 hloc) (plain_iff.2 ⟨hname, hup⟩) (Nat.le_of_not_lt hlong) (by decide),
      (hk _).2 target hlink]
    simpa using ih hwalk
  | case11 budget loc name rest hloc hname hup hslash hlong n hlink hnode ih =>
    have hnext := ih hwalk
    rw [walk_cons ((hk loc).1 hloc) (plain_iff.2 ⟨hname, hup⟩) (Nat.le_of_not_lt hlong) (by decide)]
    cases n with
    | link target => exact absurd rfl (hlink target)
    | directory => rw [(hk _).1 hnode]; exact hnext
    | file content' time' =>
      cases rest with
      | nil =>
        rw [walk] at hwalk
        cases hwalk
        rw [hfile]
        exact hnext
      | cons next rest => simp [walk, hnode] at hwalk
  | _ => cases hwalk

/-- A file that has been put into its place is found there by its path, unless its place was that of
a link. -/
theorem replaceFile_found (now : Int) (here : Here) (p : Path) (content : List UInt8)
    (fs : FileSystem) :
    (∃ e, (fs.replaceFile now here p content).1 = .error e ∧
      ∀ loc, (fs.replaceFile now here p content).2.get? loc = fs.get? loc) ∨
    ∃ target, (fs.replaceFile now here p content).1 = .ok () ∧
      fs.get? target ≠ some .directory ∧
      (∀ loc, (fs.replaceFile now here p content).2.get? loc =
        if loc = target then some (.file content now) else fs.get? loc) ∧
      ((∃ text, fs.get? target = some (.link text)) ∨
        (fs.replaceFile now here p content).2.find here .target p.text =
          .ok (target, .file content now)) := by
  obtain hsame | ⟨made, place, target, hnone, hmade, hmove, hok, hget⟩ :=
    fs.replaceFile_cases now here p content
  · exact .inl hsame
  · obtain ⟨-, -, hdir⟩ := get?_of_moveTarget hmove
    have hold : fs.get? target ≠ some .directory := by
      intro hold
      rw [hmade, if_neg (by rintro rfl; cases hnone.symm.trans hold)] at hdir
      exact hdir hold
    refine .inr ⟨target, hok, hold, hget, or_iff_not_imp_left.2 fun hlink => ?_⟩
    generalize (fs.replaceFile now here p content).2 = fs' at hget ⊢
    have hkeeps : Keeps made.get? fs'.get? := by
      intro loc
      by_cases htarget : loc = target
      · subst htarget
        refine ⟨fun hnode => absurd hnode hdir, fun text hnode => ?_⟩
        rw [hmade] at hnode
        split at hnode
        · cases hnode
        · exact absurd ⟨text, hnode⟩ hlink
      · rw [hmade, hget, if_neg htarget]
        split
        · exact ⟨fun hnode => (by cases hnode), fun text hnode => (by cases hnode)⟩
        · exact ⟨id, fun _ => id⟩
    have hfile : fs'.get? target = some (.file content now) := by rw [hget, if_pos rfl]
    obtain ⟨found, hlocate, hfound⟩ := exists_locate_of_moveTarget hmove
    obtain ⟨names, hnames, hwalk⟩ := exists_walk_of_location? hlocate hfound
    obtain ⟨tree, htree, -, htarget⟩ := targetAt_eq_present hfile
    obtain rfl : tree = .file content now := by cases tree <;> simp_all [Tree.node]
    rw [find, locate_of_walk hlocate hfound hnames (walk_target_of_entry hkeeps hwalk hfile),
      htarget]

/-! ## New directories -/

/-- Directories may have been made, and nothing else has been done. -/
def Widens (fs fs' : FileSystem) : Prop :=
  ∀ loc, fs'.get? loc = fs.get? loc ∨ fs.get? loc = none ∧ fs'.get? loc = some .directory

theorem Widens.refl (fs : FileSystem) : Widens fs fs := fun _ => .inl rfl

theorem Widens.trans {fs'' : FileSystem} (h : Widens fs fs') (h' : Widens fs' fs'') :
    Widens fs fs'' := by
  intro loc
  obtain hsame | ⟨hnone, hdir⟩ := h' loc
  · rw [hsame]
    exact h loc
  · obtain hsame | ⟨-, hdir'⟩ := h loc
    · exact .inr ⟨hsame ▸ hnone, hdir⟩
    · cases hnone.symm.trans hdir'

theorem widens_makeWithin (depth : Nat) (p : Path) :
    Widens fs (fs.makeWithin now here depth p).2 := by
  have hmakes := makes_makeWithin now here depth p fs
  generalize (fs.makeWithin now here depth p).2 = made at hmakes ⊢
  induction hmakes with
  | nothing => exact .refl fs
  | next _ _ hmake ih =>
    obtain ⟨place, -, hnone, hget⟩ := get?_makeDirectory hmake
    refine ih.trans fun loc => ?_
    rw [hget]
    split
    · rename_i heq
      exact .inr ⟨heq ▸ hnone, rfl⟩
    · exact .inl rfl

end FileSystem

namespace Store

open FileSystem

/-- Why the entry at a path cannot be given a time: nothing is found by the path, or the system
denies another time to what is found. -/
inductive Unstampable (fs : FileSystem) (here : Here) (entry : Text) : Prop where
  | unfound {e : SystemError} (hfind : fs.find here .target entry = .error (.system e))
  | denied {place : Location} {tree : Tree} {e : SystemError}
      (hfind : fs.find here .target entry = .ok (place, tree))
      (hdenied : here.denied.times.get? place = some e)

/-- What a store leaves behind that cannot write the entry at a path, or cannot stamp it. Of an
entry that is not put into its place, that is at most directories on the way. One that is put there
but cannot be stamped stays, with all its bytes and the time of writing, instead of what was there;
its path leads to it unless it has taken the place of a link. -/
inductive LeavesUnwritten (here : Here) (entry : Text) (bytes : List UInt8) (now : Int)
    (fs : FileSystem) : FileSystem → Prop where
  | nothing {fs' : FileSystem} (hfs : Widens fs fs') : LeavesUnwritten here entry bytes now fs fs'
  | unstamped {fs' : FileSystem} {place : Location}
      (hwas : fs.get? place ≠ some .directory)
      (hentry : fs'.get? place = some (.file bytes now))
      (hothers : ∀ loc, loc ≠ place → fs'.get? loc = fs.get? loc ∨
        fs.get? loc = none ∧ fs'.get? loc = some .directory)
      (hplace : (∃ text, fs.get? place = some (.link text)) ∨
        fs'.find here .target entry = .ok (place, .file bytes now))
      (hwhy : Unstampable fs' here entry) :
      LeavesUnwritten here entry bytes now fs fs'

variable {s : Store} {fs fs' : FileSystem} {here : Here} {now : Int} {source entry : Text}
  {tags : List RawTag}

/-- What has no time is not found. -/
theorem find_of_modifiedAt {e : FileError} (h : fs.modifiedAt here entry = .error e) :
    fs.find here .target entry = .error e := by
  rw [modifiedAt] at h
  rw [find]
  split at h <;> simp_all

/-- If an entry cannot be given a time, no other file is given one. -/
theorem stamp_failure {f : Failure} (h : (stamp here entry source fs).1 = .error (.failure f)) :
    (∃ e, f = .unwritableEntry (.string entry) (.string e)) ∧ Unstampable fs here entry ∧
      (stamp here entry source fs).2 = fs := by
  rw [stamp] at h ⊢
  cases hsource : fs.modifiedAt here source with
  | error e => cases e <;> simp [hsource] at h
  | ok sourceTime =>
    simp only [hsource] at h ⊢
    cases hentry : fs.modifiedAt here entry with
    | error e =>
      simp only [hentry, Except.error.injEq] at h ⊢
      obtain ⟨e, rfl, hf⟩ := unwritable_eq_failure h
      exact ⟨⟨_, hf⟩, .unfound (find_of_modifiedAt hentry), trivial⟩
    | ok entryTime =>
      simp only [hentry] at h ⊢
      split at h
      · rename_i hlate
        rw [if_pos hlate]
        cases htouch : fs.touch here entry sourceTime with
        | ok => simp [htouch] at h
        | error e =>
          simp only [htouch, Except.error.injEq] at h ⊢
          obtain ⟨e, rfl, hf⟩ := unwritable_eq_failure h
          refine ⟨⟨_, hf⟩, ?_, trivial⟩
          rw [touch] at htouch
          split at htouch
          · rename_i hfind
            exact .unfound (hfind.trans (congrArg _ (Except.error.inj htouch)))
          · rename_i hfind
            split at htouch
            · rename_i hdenied
              exact .denied hfind hdenied
            · cases htouch
      · cases h

/-- What comes of writing an entry: it is in its place, or at most directories have been made. -/
theorem putEntry_found (s : Store) (now : Int) (here : Here) (source : Text) (tags : List RawTag)
    (fs : FileSystem) :
    (∃ fault, (s.putEntry now here source tags fs).1 = .error fault ∧
      (∀ f, fault = .failure f → ∃ path e, f = .unwritableEntry (.string path) (.string e)) ∧
      Widens fs (s.putEntry now here source tags fs).2) ∨
    (s.putEntry now here source tags fs).1 = .ok () ∧
      ∃ place, fs.get? place ≠ some .directory ∧
        (s.putEntry now here source tags fs).2.get? place =
          some (.file (encodeEntry source tags) now) ∧
        (∀ loc, loc ≠ place → (s.putEntry now here source tags fs).2.get? loc = fs.get? loc ∨
          fs.get? loc = none ∧
            (s.putEntry now here source tags fs).2.get? loc = some .directory) ∧
        ((∃ text, fs.get? place = some (.link text)) ∨
          (s.putEntry now here source tags fs).2.find here .target (s.entryPath source).text =
            .ok (place, .file (encodeEntry source tags) now)) := by
  have hmade : Widens fs (fs.makeDirectories now here (s.entryPath source).parent).2 :=
    widens_makeWithin here.depths.parents _
  have hcases := (fs.makeDirectories now here (s.entryPath source).parent).2.replaceFile_found now
    here (s.entryPath source) (encodeEntry source tags)
  have hputs := puts_putEntry s now here source tags fs
  generalize s.putEntry now here source tags fs = outcome at hputs ⊢
  cases hputs with
  | unmade hmake hfault => exact .inl ⟨_, rfl, hfault, by simpa [hmake] using hmade⟩
  | unplaced hmake hreplace hfault =>
    rw [hmake] at hmade hcases
    rw [hreplace] at hcases
    obtain ⟨e, -, hsame⟩ | ⟨place, hok, -⟩ := hcases
    · exact .inl ⟨_, rfl, hfault, hmade.trans fun loc => .inl (hsame loc)⟩
    · cases hok
  | placed hmake hreplace =>
    rw [hmake] at hmade hcases
    rw [hreplace] at hcases
    obtain ⟨e, herror, -⟩ | ⟨place, -, hdir, hget, hfound⟩ := hcases
    · cases herror
    · refine .inr ⟨rfl, place, ?_, by rw [hget, if_pos rfl], fun loc hloc => ?_, ?_⟩
      · intro hold
        obtain hsame | ⟨hnone, -⟩ := hmade place
        · exact hdir (hsame.trans hold)
        · cases hnone.symm.trans hold
      · rw [hget, if_neg hloc]
        exact hmade loc
      · refine hfound.imp_left (Exists.imp fun text hlink => ?_)
        obtain hsame | ⟨-, hnew⟩ := hmade place
        · exact hsame.symm.trans hlink
        · cases hlink.symm.trans hnew

/-- A failure that is reported of a save is that of an entry, or of a directory for it. -/
theorem save_failure {f : Failure} (h : (s.save now here source tags fs).1 = .error (.failure f)) :
    (∃ path e, f = .unwritableEntry (.string path) (.string e)) ∧
      LeavesUnwritten here (s.entryPath source).text (encodeEntry source tags) now fs
        (s.save now here source tags fs).2 := by
  rw [save] at h ⊢
  split at h
  · rename_i henabled
    rw [if_pos henabled]
    have hcases := putEntry_found s now here source tags fs
    cases hput : s.putEntry now here source tags fs with
    | mk result written =>
      rw [hput] at hcases
      simp only [hput] at h ⊢
      obtain ⟨fault, rfl, hreported, hfs⟩ | ⟨rfl, place, hwas, hentry, hothers, hplace⟩ := hcases
      · cases h
        exact ⟨hreported f rfl, .nothing hfs⟩
      · obtain ⟨⟨e, rfl⟩, hwhy, hfiles⟩ := stamp_failure h
        refine ⟨⟨_, _, rfl⟩, ?_⟩
        simp only [hfiles]
        exact .unstamped hwas hentry hothers hplace hwhy
  · cases h

end Store

namespace Generator

variable {grammar : Option Grammar} {path source : Text} {g : Generator} {w : World}

/-- The generator with a store that keeps nothing. -/
def withoutStore (g : Generator) : Generator :=
  { g with store := { g.store with enabled := false } }

/-- What one source does to a generator and to the files, whatever comes of it. -/
structure Effects (grammar : Option Grammar) (path : Text) (g : Generator) (w : World) : Prop where
  /-- The tags are added to the index, and one of the counts grows. -/
  success : ∀ tags, (g.process grammar path w).1 = .ok tags →
    (g.process grammar path w).2.1.index.tags = g.index.tags ++ tags ∧
    ∃ q, resolveSource w.files w.here path = .ok q ∧
      (g.store.load w.files w.here q = .ok (.hit tags) ∧
          (g.process grammar path w).2.1.cached = g.cached + 1 ∧
          (g.process grammar path w).2.1.parsed = g.parsed ∨
        ∃ reason, g.store.load w.files w.here q = .ok (.miss reason) ∧
          (g.process grammar path w).2.1.parsed = g.parsed + 1 ∧
          (g.process grammar path w).2.1.cached = g.cached)
  fault : ∀ f, (g.process grammar path w).1 = .error f →
    (g.process grammar path w).2.1.parsed = g.parsed ∧
      (g.process grammar path w).2.1.cached = g.cached
  /-- A source that cannot be read or parsed changes nothing. -/
  unread : ∀ f, (g.process grammar path w).1 = .error (.failure f) →
    (∀ entry reason, f ≠ .unwritableEntry entry reason) →
      (g.process grammar path w).2.1.index = g.index ∧
        (g.process grammar path w).2.2.files = w.files
  /-- The tags of a source whose entry cannot be written are in the index. -/
  unwritten : ∀ entry reason,
    (g.process grammar path w).1 = .error (.failure (.unwritableEntry entry reason)) →
      ∃ q tags, resolveSource w.files w.here path = .ok q ∧
        (g.withoutStore.process grammar path w).1 = .ok tags ∧
        (g.process grammar path w).2.1.index.tags = g.index.tags ++ tags ∧
        Store.LeavesUnwritten w.here (g.store.entryPath q).text (Store.encodeEntry q tags) w.now
          w.files (g.process grammar path w).2.2.files

/-- The generators that come of calls on a new one, each in some world, and how many of the calls
succeeded. -/
inductive Calls (s : Store) : Generator → Nat → Prop where
  | start : Calls s { store := s } 0
  | call {g : Generator} {n : Nat} (h : Calls s g n) (grammar : Option Grammar) (path : Text)
      (w : World) :
      Calls s (g.process grammar path w).2.1
        (if (g.process grammar path w).1.isOk then n + 1 else n)

/-! ## Reported failures -/

/-- No failure is reported of a lookup. -/
theorem load_ne_failure (s : Store) (files : FileSystem) (here : Here) (path : Text) (f : Failure) :
    s.load files here path ≠ .error (.failure f) := by
  intro h
  rw [Store.load] at h
  split at h
  · dsimp only at h
    split at h
    · cases h
    · cases h
    · split at h
      · cases h
      · cases h
      · split at h
        · cases h
        · rw [Store.readEntry] at h
          split at h
          · cases h
          · cases h
          · split at h <;> cases h
  · cases h

theorem resolveSource_ne_unwritable (files : FileSystem) (here : Here) (path : Text)
    (entry reason : Json) :
    resolveSource files here path ≠ .error (.failure (.unwritableEntry entry reason)) := by
  intro h
  rw [resolveSource] at h
  split at h
  · cases h
  · cases h
  · rename_i e _ _
    cases e with
    | file e => cases e <;> cases h
    | loop | tooDeep => cases h

/-- No tokens keep an extraction from its tags. -/
theorem extract_ne_unwritable (grammar : Option Grammar) (path : Text) (content : List UInt8)
    (entry reason : Json) :
    extract grammar path content ≠ .error (.failure (.unwritableEntry entry reason)) := by
  intro h
  cases grammar with
  | none => cases h
  | some grammar =>
    simp [extract, Extraction.tags_run, Except.mapError, bind, Except.bind, pure, Except.pure] at h

/-- A source whose entry cannot be written has been read and parsed. -/
theorem exists_extract_of_parse {entry reason : Json}
    (h : (g.parse grammar source w).1 = .error (.failure (.unwritableEntry entry reason))) :
    ∃ content lines tags, w.files.read w.here source = .ok content ∧
      extract grammar source content = .ok (lines, tags) := by
  rw [parse] at h
  split at h
  · cases h
  · cases h
  · rename_i content hread
    split at h
    · rename_i f hextract
      obtain rfl : f = .failure (.unwritableEntry entry reason) := Except.error.inj h
      exact absurd hextract (extract_ne_unwritable grammar source content entry reason)
    · rename_i lines tags hextract
      exact ⟨content, lines, tags, hread, hextract⟩

theorem exists_extract_of_processResolved {entry reason : Json}
    (h : (g.processResolved grammar source w).1 =
      .error (.failure (.unwritableEntry entry reason))) :
    ∃ content lines tags, w.files.read w.here source = .ok content ∧
      extract grammar source content = .ok (lines, tags) := by
  rw [processResolved] at h
  split at h
  · rename_i f hload
    cases h
    exact absurd hload (load_ne_failure g.store w.files w.here source _)
  · rename_i found hload
    cases found with
    | hit tags => cases h
    | miss reason => exact exists_extract_of_parse (w := w.addLog _) h

/-- What is left behind by a source whose entry cannot be written. -/
theorem processResolved_unwritable {entry reason : Json}
    (h : (g.processResolved grammar source w).1 =
      .error (.failure (.unwritableEntry entry reason))) :
    ∃ content lines tags, w.files.read w.here source = .ok content ∧
      extract grammar source content = .ok (lines, tags) ∧
      (g.processResolved grammar source w).2.1.index = g.index.add (tags.map Tag.raw) ∧
      Store.LeavesUnwritten w.here (g.store.entryPath source).text
        (Store.encodeEntry source (tags.map Tag.raw)) w.now w.files
        (g.processResolved grammar source w).2.2.files := by
  obtain ⟨content, lines, tags, hread, hextract⟩ := exists_extract_of_processResolved h
  refine ⟨content, lines, tags, hread, hextract, ?_⟩
  obtain ⟨f, hload, heq⟩ | ⟨_, f, log, -, hf, heq⟩ | ⟨tags, log, -, heq⟩ |
    ⟨_, content', lines', tags', log, result, files, -, hread', hextract', hsave, heq⟩ :=
    processResolved_cases grammar source g w
  · rw [heq] at h
    cases h
    exact absurd hload (load_ne_failure g.store w.files w.here source _)
  · cases (hf content hread).symm.trans hextract
  · rw [heq] at h
    cases h
  · cases hread.symm.trans hread'
    cases hextract.symm.trans hextract'
    rw [heq] at h ⊢
    cases result with
    | ok => cases h
    | error f =>
      cases h
      have hleft := Store.save_failure (congrArg Prod.fst hsave)
      rw [hsave] at hleft
      exact ⟨rfl, hleft.2⟩

/-- A failure that is not that of an entry leaves the index and the files as they were. -/
theorem processResolved_unread {f : Failure}
    (h : (g.processResolved grammar source w).1 = .error (.failure f))
    (hf : ∀ entry reason, f ≠ .unwritableEntry entry reason) :
    (g.processResolved grammar source w).2.1.index = g.index ∧
      (g.processResolved grammar source w).2.2.files = w.files := by
  obtain ⟨f', -, heq⟩ | ⟨_, f', log, -, -, heq⟩ | ⟨tags, log, -, heq⟩ |
    ⟨_, content, lines, tags, log, result, files, -, -, -, hsave, heq⟩ :=
    processResolved_cases grammar source g w
  · rw [heq]
    exact ⟨rfl, rfl⟩
  · rw [heq]
    exact ⟨rfl, rfl⟩
  · rw [heq] at h
    cases h
  · rw [heq] at h
    cases result with
    | ok => cases h
    | error f' =>
      cases h
      obtain ⟨⟨path, e, rfl⟩, -⟩ := Store.save_failure (congrArg Prod.fst hsave)
      exact absurd rfl (hf _ _)

theorem processResolved_fault {f : Fault} (h : (g.processResolved grammar source w).1 = .error f) :
    (g.processResolved grammar source w).2.1.parsed = g.parsed ∧
      (g.processResolved grammar source w).2.1.cached = g.cached := by
  obtain ⟨f', -, heq⟩ | ⟨_, f', log, -, -, heq⟩ | ⟨tags, log, -, heq⟩ |
    ⟨_, content, lines, tags, log, result, files, -, -, -, -, heq⟩ :=
    processResolved_cases grammar source g w
  · rw [heq]
    exact ⟨rfl, rfl⟩
  · rw [heq]
    exact ⟨rfl, rfl⟩
  · rw [heq] at h
    cases h
  · rw [heq] at h ⊢
    cases result with
    | ok => cases h
    | error => exact ⟨rfl, rfl⟩

/-- A source is counted as cached if its tags come from the store, else as parsed. -/
theorem processResolved_counts {tags : List RawTag}
    (h : (g.processResolved grammar source w).1 = .ok tags) :
    g.store.load w.files w.here source = .ok (.hit tags) ∧
        (g.processResolved grammar source w).2.1.cached = g.cached + 1 ∧
        (g.processResolved grammar source w).2.1.parsed = g.parsed ∨
      ∃ reason, g.store.load w.files w.here source = .ok (.miss reason) ∧
        (g.processResolved grammar source w).2.1.parsed = g.parsed + 1 ∧
        (g.processResolved grammar source w).2.1.cached = g.cached := by
  obtain ⟨f', -, heq⟩ | ⟨_, f', log, -, -, heq⟩ | ⟨tags', log, hload, heq⟩ |
    ⟨reason, content, lines, tags', log, result, files, hload, -, -, -, heq⟩ :=
    processResolved_cases grammar source g w
  · rw [heq] at h
    cases h
  · rw [heq] at h
    cases h
  · rw [heq] at h ⊢
    cases h
    exact .inl ⟨hload, rfl, rfl⟩
  · rw [heq] at h ⊢
    cases result with
    | error => cases h
    | ok => exact .inr ⟨reason, hload, rfl, rfl⟩

/-! ## One call after the other -/

theorem process_withoutStore {q : Text} {content : List UInt8} {lines : List LogLine}
    {tags : List SourceTag} (hresolve : resolveSource w.files w.here path = .ok q)
    (hread : w.files.read w.here q = .ok content)
    (hextract : extract grammar q content = .ok (lines, tags)) :
    (g.withoutStore.process grammar path w).1 = .ok (tags.map Tag.raw) := by
  rw [process, hresolve]
  exact (processResolved_of_miss (Store.load_disabled rfl _ _ _) hread hextract
    (Store.save_disabled rfl _ _ _ _ _)).1

theorem effects (grammar : Option Grammar) (path : Text) (g : Generator) (w : World) :
    Effects grammar path g w := by
  cases hresolve : resolveSource w.files w.here path with
  | error f =>
    have heq : g.process grammar path w = (.error f, g, w) := by rw [process, hresolve]
    constructor
    · intro tags h
      rw [heq] at h
      cases h
    · intro f h
      rw [heq]
      exact ⟨rfl, rfl⟩
    · intro f h hf
      rw [heq]
      exact ⟨rfl, rfl⟩
    · intro entry reason h
      rw [heq] at h
      cases h
      exact absurd hresolve (resolveSource_ne_unwritable _ _ _ _ _)
  | ok q =>
    have heq : g.process grammar path w = g.processResolved grammar q w := by rw [process, hresolve]
    constructor
    · intro tags h
      rw [heq] at h ⊢
      exact ⟨congrArg TagIndex.tags (processResolved_ok h).1, q, hresolve, processResolved_counts h⟩
    · intro f h
      rw [heq] at h ⊢
      exact processResolved_fault h
    · intro f h hf
      rw [heq] at h ⊢
      exact processResolved_unread h hf
    · intro entry reason h
      rw [heq] at h ⊢
      obtain ⟨content, lines, tags, hread, hextract, hindex, hleft⟩ := processResolved_unwritable h
      exact ⟨q, tags.map Tag.raw, hresolve, process_withoutStore hresolve hread hextract,
        congrArg TagIndex.tags hindex, hleft⟩

theorem Calls.counts {s : Store} {n : Nat} (h : Calls s g n) : g.parsed + g.cached = n := by
  induction h with
  | start => rfl
  | @call g n _ grammar path w ih =>
    have heffects := effects grammar path g w
    cases hresult : (g.process grammar path w).1 with
    | error f =>
      obtain ⟨hparsed, hcached⟩ := heffects.fault f hresult
      rw [hparsed, hcached]
      exact ih
    | ok tags =>
      obtain ⟨-, q, -, ⟨-, hcached, hparsed⟩ | ⟨reason, -, hparsed, hcached⟩⟩ :=
        heffects.success tags hresult
      · rw [hcached, hparsed, ← ih]
        exact (Nat.add_assoc _ _ _).symm
      · rw [hcached, hparsed, ← ih]
        exact Nat.add_right_comm _ _ _

/-- On one generator, every call has the effects of a source on the index, the counts and the files,
and the counts add up to the calls that have succeeded. -/
theorem calls_effects {s : Store} {n : Nat} (h : Calls s g n) (grammar : Option Grammar)
    (path : Text) (w : World) : g.parsed + g.cached = n ∧ Effects grammar path g w :=
  ⟨h.counts, effects grammar path g w⟩

/-! ## An entry behind the link in its place -/

/-- A store whose root is seen through a link that stands in the place of an entry. -/
def storeBehindLink : Store where
  root := ⟨.root, ["c", "a.php.json", ".."]⟩

/-- A source with one class, and what stands in the place of an entry. -/
def filesBehindLink (source : Text) (modified : Int) (entry : Tree) : FileSystem where
  entries := [(source, .file classSource 7),
    ("c", .directory modified [("a.php.json", entry), ("q", .directory 0 [])])]

/-- The link is replaced, and then its path leads nowhere. -/
theorem save_filesBehindLink (tags : List RawTag) :
    storeBehindLink.save 5 Here.root (Location.text ["a.php"]) tags
        (filesBehindLink "a.php" 0 (.link "q")) =
      (.error (.failure (.unwritableEntry (.string "/c/a.php.json/../a.php.json")
        (.string "Not a directory"))),
        filesBehindLink "a.php" 5
          (.file (Store.encodeEntry (Location.text ["a.php"]) tags) 5)) := by
  rw [Store.save, Store.putEntry]
  generalize Store.encodeEntry _ _ = entry
  cbv

theorem process_filesBehindLink {g : Generator} (hroot : g.store.root = storeBehindLink.root)
    (henabled : g.store.enabled = true) :
    (g.process (some oneClass) (Location.text ["a.php"])
        { files := filesBehindLink "a.php" 0 (.link "q"), now := 5 }).1 =
      .error (.failure (.unwritableEntry (.string "/c/a.php.json/../a.php.json")
        (.string "Not a directory"))) ∧
    (g.process (some oneClass) (Location.text ["a.php"])
        { files := filesBehindLink "a.php" 0 (.link "q"), now := 5 }).2.2.files =
      filesBehindLink "a.php" 5 (.file (classEntry (Location.text ["a.php"])) 5) := by
  obtain ⟨lines, hextract⟩ := exists_lines (extract_classSource (Location.text ["a.php"]))
  have hresolve : (filesBehindLink "a.php" 0 (.link "q")).resolve Here.root true
      (Path.ofText (Location.text ["a.php"])) = .ok (Location.path ["a.php"]) := by
    cbv
  have hload : storeBehindLink.load (filesBehindLink "a.php" 0 (.link "q")) Here.root
      (Location.text ["a.php"]) = .ok (.miss .stale) := by
    cbv
  have hread : (filesBehindLink "a.php" 0 (.link "q")).read Here.root (Location.text ["a.php"]) =
      .ok classSource := by
    cbv
  have hsave := save_filesBehindLink ([classTag (Location.text ["a.php"])].map Tag.raw)
  rw [← Store.load_congr hroot henabled] at hload
  rw [← Store.save_congr hroot henabled] at hsave
  rw [process_of_resolve hresolve]
  obtain ⟨hresult, -, hfiles, -⟩ := processResolved_of_miss (g := g)
    (w := { files := filesBehindLink "a.php" 0 (.link "q"), now := 5 }) hload hread hextract hsave
  exact ⟨hresult, hfiles⟩

/-- Where the path of an entry leads through a link in its own place, a source fails whose entry has
come there instead of the link. -/
theorem process_unwritable_adds_entry :
    let w : World := { files := filesBehindLink "a.php" 0 (.link "q"), now := 5 }
    let outcome := process (some oneClass) (Location.text ["a.php"]) { store := storeBehindLink } w
    (∃ entry reason, outcome.1 = .error (.failure (.unwritableEntry entry reason))) ∧
      (∀ content time, w.files.get? ["c", "a.php.json"] ≠ some (.file content time)) ∧
      ∃ content time, outcome.2.2.files.get? ["c", "a.php.json"] = some (.file content time) := by
  intro w outcome
  obtain ⟨hresult, hfiles⟩ := process_filesBehindLink (g := { store := storeBehindLink }) rfl rfl
  refine ⟨⟨_, _, hresult⟩, ?_, classEntry (Location.text ["a.php"]), 5, ?_⟩
  · intro content time h
    cases h
  · rw [show outcome.2.2.files = _ from hfiles]
    rfl

/-- The generator that has processed another source in the same store. -/
def generatorBehindLink : Generator :=
  (process (some oneClass) (Location.text ["b.php"]) { store := storeBehindLink }
    { files := filesBehindLink "b.php" 0 (.link "q"), now := 5 }).2.1

theorem calls_generatorBehindLink : Calls storeBehindLink generatorBehindLink 1 := by
  obtain ⟨lines, hextract⟩ := exists_lines (extract_classSource (Location.text ["b.php"]))
  have hresolve : (filesBehindLink "b.php" 0 (.link "q")).resolve Here.root true
      (Path.ofText (Location.text ["b.php"])) = .ok (Location.path ["b.php"]) := by
    cbv
  have hload : storeBehindLink.load (filesBehindLink "b.php" 0 (.link "q")) Here.root
      (Location.text ["b.php"]) = .ok (.miss .noEntry) := by
    cbv
  have hread : (filesBehindLink "b.php" 0 (.link "q")).read Here.root (Location.text ["b.php"]) =
      .ok classSource := by
    cbv
  have hsave (tags : List RawTag) : (storeBehindLink.save 5 Here.root (Location.text ["b.php"])
      tags (filesBehindLink "b.php" 0 (.link "q"))).1 = .ok () := by
    rw [Store.save, Store.putEntry]
    generalize Store.encodeEntry _ _ = entry
    cbv
  have hok := (process_of_miss (g := { store := storeBehindLink })
    (w := { files := filesBehindLink "b.php" 0 (.link "q"), now := 5 }) hresolve hload hread
    hextract (Prod.ext (hsave _) rfl)).1
  have hcalls := Calls.call (.start (s := storeBehindLink)) (some oneClass)
    (Location.text ["b.php"]) { files := filesBehindLink "b.php" 0 (.link "q"), now := 5 }
  rw [hok] at hcalls
  exact hcalls

/-! ## An entry that is denied its time -/

/-- A source that is later than its entry, which the system denies another time. -/
def worldDenied : World where
  files := Store.filesAfterSave classSource 8 []
  here := { location := [], denied := { times := [(["cache", "a.php.json"], .notPermitted)] } }
  now := 5

/-- The source with an entry that has been written but not stamped. -/
def filesUnstamped (entry : List UInt8) : FileSystem where
  modified := 5
  entries := [("cache", .directory 5 [("a.php.json", .file entry 5)]),
    ("a.php", .file classSource 8)]

/-- An entry that cannot be stamped takes the place of the one before. -/
theorem save_worldDenied (tags : List RawTag) :
    Store.storeAtCache.save worldDenied.now worldDenied.here (Location.text ["a.php"]) tags
        worldDenied.files =
      (.error (.failure (.unwritableEntry (.string "/cache/a.php.json")
        (.string "Operation not permitted"))),
        filesUnstamped (Store.encodeEntry (Location.text ["a.php"]) tags)) := by
  rw [Store.save, Store.putEntry]
  generalize Store.encodeEntry _ _ = entry
  cbv

theorem process_worldDenied :
    (process (some oneClass) (Location.text ["a.php"]) { store := Store.storeAtCache }
        worldDenied).1 =
      .error (.failure (.unwritableEntry (.string "/cache/a.php.json")
        (.string "Operation not permitted"))) ∧
    (process (some oneClass) (Location.text ["a.php"]) { store := Store.storeAtCache }
        worldDenied).2.2.files =
      filesUnstamped (classEntry (Location.text ["a.php"])) := by
  obtain ⟨lines, hextract⟩ := exists_lines (extract_classSource (Location.text ["a.php"]))
  have hresolve : worldDenied.files.resolve worldDenied.here true
      (Path.ofText (Location.text ["a.php"])) = .ok (Location.path ["a.php"]) := by
    cbv
  have hload : Store.storeAtCache.load worldDenied.files worldDenied.here
      (Location.text ["a.php"]) = .ok (.miss .stale) := by
    cbv
  have hread : worldDenied.files.read worldDenied.here (Location.text ["a.php"]) =
      .ok classSource := by
    cbv
  rw [process_of_resolve hresolve]
  obtain ⟨hresult, -, hfiles, -⟩ := processResolved_of_miss (g := { store := Store.storeAtCache })
    hload hread hextract (save_worldDenied _)
  exact ⟨hresult, hfiles⟩

/-- After another source, an entry comes instead of a link; and with a new generator, one that is
denied its time comes instead of the entry before. -/
theorem calls_effects_generatorBehindLink :
    (generatorBehindLink.parsed + generatorBehindLink.cached = 1 ∧
      ∃ q tags, resolveSource (filesBehindLink "a.php" 0 (.link "q")) Here.root
          (Location.text ["a.php"]) = .ok q ∧
        (generatorBehindLink.withoutStore.process (some oneClass) (Location.text ["a.php"])
          { files := filesBehindLink "a.php" 0 (.link "q"), now := 5 }).1 = .ok tags ∧
        (generatorBehindLink.process (some oneClass) (Location.text ["a.php"])
          { files := filesBehindLink "a.php" 0 (.link "q"), now := 5 }).2.1.index.tags =
            generatorBehindLink.index.tags ++ tags ∧
        Store.LeavesUnwritten Here.root (generatorBehindLink.store.entryPath q).text
          (Store.encodeEntry q tags) 5 (filesBehindLink "a.php" 0 (.link "q"))
          (filesBehindLink "a.php" 5 (.file (classEntry (Location.text ["a.php"])) 5))) ∧
    ∃ q tags, resolveSource worldDenied.files worldDenied.here (Location.text ["a.php"]) = .ok q ∧
      Store.LeavesUnwritten worldDenied.here (Store.storeAtCache.entryPath q).text
        (Store.encodeEntry q tags) worldDenied.now worldDenied.files
        (filesUnstamped (classEntry (Location.text ["a.php"]))) := by
  obtain ⟨hroot, henabled, -⟩ := process_same (some oneClass) { store := storeBehindLink }
    { files := filesBehindLink "b.php" 0 (.link "q"), now := 5 } (Location.text ["b.php"])
  obtain ⟨hresult, hfiles⟩ := process_filesBehindLink (g := generatorBehindLink) hroot henabled
  obtain ⟨hcounts, heffects⟩ := calls_effects calls_generatorBehindLink (some oneClass)
    (Location.text ["a.php"]) { files := filesBehindLink "a.php" 0 (.link "q"), now := 5 }
  have hleft := heffects.unwritten _ _ hresult
  rw [hfiles] at hleft
  obtain ⟨hdenied, hunstamped⟩ := process_worldDenied
  obtain ⟨-, heffects'⟩ := calls_effects (.start (s := Store.storeAtCache)) (some oneClass)
    (Location.text ["a.php"]) worldDenied
  obtain ⟨q, tags, hresolve, -, -, hleft'⟩ := heffects'.unwritten _ _ hdenied
  rw [hunstamped] at hleft'
  exact ⟨⟨hcounts, hleft⟩, q, tags, hresolve, hleft'⟩

end Generator
end TagsFile
