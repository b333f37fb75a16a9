import TagsFile.Proofs.Changes
import TagsFile.Proofs.EntryPlace

/-!
# What the operations of a store do to its files

The root of a store lies along some names below a path that leads to a directory. As long as no
links stand on the way there and below it, each operation is told by the nodes before and after it.

## Main definitions

* `FileSystem.Site`: where the root of a store may be.
* `Store.stampTime`, `Store.Stamps`: the time that the entry of a source gets.
* `Store.Puts`: how far the writing of an entry comes.

## Main statements

* `Store.save_cases`: saving fails before the entry is written, and no file is changed, or else the
  entry is in its place, even if it cannot be stamped.
-/

namespace TagsFile

namespace FileSystem

/-- A place for the root of a store: `names` below a path that leads to the directory at `dest`,
without links on the way and below. -/
structure Site (fs : FileSystem) (here : Here) (base : Path) (dest : Location)
    (names : List Text) : Prop where
  base : fs.Base here base dest
  named : ∀ name ∈ names, Text.IsName name
  unlinked : ∀ rest, Unlinked fs.get? dest (names ++ rest)

variable {fs fs' : FileSystem} {here : Here} {base : Path} {dest : Location} {names : List Text}

theorem Site.named_append (h : fs.Site here base dest names) {rest : List Text}
    (hrest : ∀ name ∈ rest, Text.IsName name) : ∀ name ∈ names ++ rest, Text.IsName name := by
  intro name hname
  obtain hname | hname := List.mem_append.1 hname
  · exact h.named name hname
  · exact hrest name hname

theorem below_below (base : Path) (names rest : List Text) :
    (base.below names).below rest = base.below (names ++ rest) := by
  simp [Path.below]

end FileSystem

namespace Store

open FileSystem

/-! ## Stamping -/

/-- The time of an entry that is written at `now`: no earlier than that of its source, if the source
is there. -/
def stampTime (now : Int) : Except FileError Int → Int
  | .ok sourceTime => max now sourceTime
  | .error _ => now

/-- What comes of stamping the entry at `place`, which is written at `now`, with the time that the
entry has then. An entry that is denied the later time of its source keeps its own. -/
inductive Stamps (here : Here) (place : Location) (now : Int) (source : Except FileError Int) :
    Except Fault Unit → Int → Prop where
  | stamped : Stamps here place now source (.ok ()) (stampTime now source)
  | denied {sourceTime : Int} {e : SystemError} {fault : Fault} (hsource : source = .ok sourceTime)
      (hlate : now < sourceTime) (hdenied : here.denied.times.get? place = some e) :
      Stamps here place now source (.error fault) now

theorem Stamps.eq_stampTime {here : Here} {place : Location} {now time : Int}
    {source : Except FileError Int} {result : Except Fault Unit}
    (h : Stamps here place now source result time) (hok : result = .ok ()) :
    time = stampTime now source := by
  cases h with
  | stamped => rfl
  | denied => cases hok

variable {s : Store} {fs : FileSystem} {here : Here} {base : Path} {dest : Location}
  {names : List Text} {now : Int} {loc : Location}

/-- Looking for a source gives a time or an error of the file system. -/
theorem modifiedAt_text_ne_badPath (hloc : loc.IsNamed) (f : PathFault) :
    fs.modifiedAt here loc.text ≠ .error (.badPath f) := by
  have hlocate : fs.locate here .target loc.text ≠ .error (.badPath f) := by
    rw [Location.text, locate_text hloc.isProper]
    split
    · simp
    · cases fs.followFrom (startOf here loc.path) .target (pieces loc.path.text) <;>
        simp [Except.mapError]
  intro h
  rw [modifiedAt] at h
  split at h <;> simp_all

/-- A stamp changes nothing, or it gives the entry another time. -/
theorem stamp_files (here : Here) (entry path : Text) (fs : FileSystem) :
    (stamp here entry path fs).2 = fs ∨
      ∃ time, fs.touch here entry time = .ok (stamp here entry path fs).2 := by
  rw [stamp]
  split
  · exact .inl rfl
  · exact .inl rfl
  · split
    · exact .inl rfl
    · split
      · split
        · exact .inl rfl
        · rename_i htouch
          exact .inr ⟨_, htouch⟩
      · exact .inl rfl

/-- An entry gets the time of its source if that is later and not denied. -/
theorem stamp_cases {entry : List Text} (h : fs.Base here base dest) (hne : entry ≠ [])
    (hnames : ∀ name ∈ entry, Text.IsName name) (hlinks : Unlinked fs.get? dest entry)
    (hfits : Fits base entry) {content : List UInt8}
    (hfile : fs.get? (dest ++ entry) = some (.file content now)) (hloc : loc.IsNamed) :
    ∃ time, Stamps here (dest ++ entry) now
        ((stamp here (base.below entry).text loc.text fs).2.modifiedAt here loc.text)
        (stamp here (base.below entry).text loc.text fs).1 time ∧
      ∀ other, (stamp here (base.below entry).text loc.text fs).2.get? other =
        if other = dest ++ entry then some (.file content time) else fs.get? other := by
  have hlocate := h.locate_file (show Purpose.target ≠ .output by decide) hne hnames hlinks hfits
    hfile
  have hfind : fs.find here .target (base.below entry).text =
      .ok (dest ++ entry, .file content now) := by
    rw [find, hlocate]
  have hentry : fs.modifiedAt here (base.below entry).text = .ok now := by
    rw [modifiedAt, hlocate]
    rfl
  have hsame : ∀ other, fs.get? other =
      if other = dest ++ entry then some (.file content now) else fs.get? other := by
    intro other
    split
    · rename_i heq
      rw [heq, hfile]
    · rfl
  cases hsource : fs.modifiedAt here loc.text with
  | error e =>
    cases e with
    | badPath f => exact absurd hsource (modifiedAt_text_ne_badPath hloc f)
    | system e =>
      simp only [stamp, hsource]
      exact ⟨now, .stamped, hsame⟩
  | ok sourceTime =>
    by_cases hlate : now < sourceTime
    · cases hdenied : here.denied.times.get? (dest ++ entry) with
      | some e =>
        have htouch : fs.touch here (base.below entry).text sourceTime = .error (.system e) := by
          simp only [touch, hfind, hdenied]
        simp only [stamp, hsource, hentry, hlate, if_true, htouch]
        exact ⟨now, .denied rfl hlate hdenied, hsame⟩
      | none =>
        have htouch : fs.touch here (base.below entry).text sourceTime =
            .ok (fs.retime (dest ++ entry) sourceTime) := by
          simp only [touch, hfind, hdenied]
        have htime := modifiedAt_retime hfile sourceTime hsource (by omega)
        have hmax : stampTime now (.ok sourceTime) = sourceTime := by
          rw [stampTime]
          omega
        simp only [stamp, hsource, hentry, hlate, if_true, htouch, htime]
        exact ⟨_, .stamped, hmax.symm ▸ get?_retime hfile sourceTime⟩
    · have hmax : stampTime now (.ok sourceTime) = now := by
        rw [stampTime]
        omega
      simp only [stamp, hsource, hentry, hlate, if_false]
      exact ⟨_, .stamped, hmax.symm ▸ hsame⟩

/-- An entry that has been put in its place gets its time. -/
theorem stamp_replaced {made files : FileSystem} {entry : List Text}
    (h : made.Base here base dest) (hne : entry ≠ []) (hnames : ∀ name ∈ entry, Text.IsName name)
    (hlinks : Unlinked made.get? dest entry) (hfits : Fits base entry)
    (hold : made.get? (dest ++ entry) ≠ some .directory) {content : List UInt8}
    (hget : ∀ other, files.get? other =
      if other = dest ++ entry then some (.file content now) else made.get? other)
    (hloc : loc.IsNamed) :
    ∃ time, Stamps here (dest ++ entry) now
        ((stamp here (base.below entry).text loc.text files).2.modifiedAt here loc.text)
        (stamp here (base.below entry).text loc.text files).1 time ∧
      ∀ other, (stamp here (base.below entry).text loc.text files).2.get? other =
        if other = dest ++ entry then some (.file content time) else made.get? other := by
  have hkeeps : Keeps made.get? files.get? := by
    intro other
    rw [hget]
    split
    · rename_i heq
      subst heq
      exact ⟨fun hd => absurd hd hold, fun target hl =>
        absurd hl (hlinks _ (List.prefix_refl _) target)⟩
    · exact ⟨id, fun _ => id⟩
  have hlinks' : Unlinked files.get? dest entry := by
    intro front hfront target
    rw [hget]
    split
    · simp
    · exact hlinks front hfront target
  obtain ⟨time, hstamps, hafter⟩ := stamp_cases (h.keep hkeeps) hne hnames hlinks' hfits
    (by rw [hget, if_pos rfl]) hloc
  refine ⟨time, hstamps, fun other => ?_⟩
  rw [hafter]
  split
  · rfl
  · rename_i hother
    rw [hget, if_neg hother]

theorem entryPath_below (hroot : s.root = base.below names) (hloc : loc.IsNamed) :
    s.entryPath loc.text = base.below (names ++ entryNames loc) := by
  rw [entryPath_text s hloc, hroot, below_below]

/-! ## Saving -/

/-- An error of the file system is reported as that of an entry. -/
theorem unwritable_eq_failure {path : Text} {e : FileError} {f : Failure}
    (h : unwritable path e = .failure f) :
    ∃ e', e = .system e' ∧ f = .unwritableEntry (.string path) (.string e'.text) := by
  cases e with
  | system e =>
    cases h
    exact ⟨e, rfl, rfl⟩
  | badPath => cases h

/-- How far the writing of the entry of a source comes: its directories cannot be made, its file
cannot be replaced, or it is in its place. A failure that is reported is that of an entry, or of a
directory for it. -/
inductive Puts (s : Store) (now : Int) (here : Here) (path : Text) (tags : List RawTag)
    (fs : FileSystem) : Outcome FileSystem Unit → Prop where
  | unmade {e : NestedError} {fault : Fault} {made : FileSystem}
      (hmake : fs.makeDirectories now here (s.entryPath path).parent = (.error e, made))
      (hfault : ∀ f, fault = .failure f →
        ∃ path e, f = .unwritableEntry (.string path) (.string e)) :
      Puts s now here path tags fs (.error fault, made)
  | unplaced {e : PathError} {fault : Fault} {made files : FileSystem}
      (hmake : fs.makeDirectories now here (s.entryPath path).parent = (.ok (), made))
      (hreplace : made.replaceFile now here (s.entryPath path) (encodeEntry path tags) =
        (.error e, files))
      (hfault : ∀ f, fault = .failure f →
        ∃ path e, f = .unwritableEntry (.string path) (.string e)) :
      Puts s now here path tags fs (.error fault, files)
  | placed {made files : FileSystem}
      (hmake : fs.makeDirectories now here (s.entryPath path).parent = (.ok (), made))
      (hreplace : made.replaceFile now here (s.entryPath path) (encodeEntry path tags) =
        (.ok (), files)) :
      Puts s now here path tags fs (.ok (), files)

theorem puts_putEntry (s : Store) (now : Int) (here : Here) (path : Text) (tags : List RawTag)
    (fs : FileSystem) : Puts s now here path tags fs (s.putEntry now here path tags fs) := by
  have hreported {path : Text} {e : FileError} (f : Failure) (h : unwritable path e = .failure f) :
      ∃ path e, f = .unwritableEntry (.string path) (.string e) := by
    obtain ⟨e, -, rfl⟩ := unwritable_eq_failure h
    exact ⟨_, _, rfl⟩
  rw [putEntry]
  split
  · rename_i hmake
    exact .unmade hmake (by simp)
  · rename_i hmake
    exact .unmade hmake hreported
  · rename_i hmake
    split
    · rename_i hreplace
      exact .unplaced hmake hreplace hreported
    · rename_i hreplace
      exact .placed hmake hreplace

/-- Writing an entry makes directories, and if it succeeds the entry is in the last of them. -/
theorem putEntry_cases (now : Int) (h : fs.Site here base dest names)
    (hroot : s.root = base.below names) (hloc : loc.IsNamed) (tags : List RawTag) :
    ∃ made, Grows base dest (names ++ loc.dropLast) fs made ∧
      ((∃ e, (s.putEntry now here loc.text tags fs).1 = .error e ∧
          ∀ other, (s.putEntry now here loc.text tags fs).2.get? other = made.get? other) ∨
        (s.putEntry now here loc.text tags fs).1 = .ok () ∧ Fits base (names ++ entryNames loc) ∧
          made.get? (dest ++ (names ++ loc.dropLast)) = some .directory ∧
          made.get? (dest ++ (names ++ entryNames loc)) ≠ some .directory ∧
          ∀ other, (s.putEntry now here loc.text tags fs).2.get? other =
            if other = dest ++ (names ++ entryNames loc) then
              some (.file (encodeEntry loc.text tags) now)
            else made.get? other) := by
  have hentry := entryPath_below hroot hloc
  have hparent : (base.below (names ++ entryNames loc)).parent =
      base.below (names ++ loc.dropLast) := by
    rw [entryNames, ← List.append_assoc, parent_below]
  have hnames := h.named_append (isName_entryNames hloc)
  have hdirs : ∀ name ∈ names ++ loc.dropLast, Text.IsName name :=
    h.named_append fun name hname => hloc name (List.dropLast_subset _ hname)
  have hne : names ++ entryNames loc ≠ [] := by simp [entryNames_ne_nil]
  obtain ⟨hgrows, hdir⟩ := makeWithin_below now h.base hdirs (h.unlinked _) here.depths.parents
  rw [← hparent, ← hentry, ← makeDirectories] at hgrows hdir
  have hreplaced := replaceFile_below now (encodeEntry loc.text tags)
    (h.base.keep hgrows.keeps) hne hnames (hgrows.unlinked (h.unlinked (entryNames loc)))
  rw [← hentry] at hreplaced
  refine ⟨_, hgrows, ?_⟩
  have hputs := puts_putEntry s now here loc.text tags fs
  generalize s.putEntry now here loc.text tags fs = outcome at hputs ⊢
  cases hputs with
  | unmade hmake => exact .inl ⟨_, rfl, fun _ => by rw [hmake]⟩
  | unplaced hmake hreplace =>
    rw [hmake] at hreplaced ⊢
    simp only [hreplace, reduceCtorEq, false_and, or_false] at hreplaced
    obtain ⟨_, -, hget⟩ := hreplaced
    exact .inl ⟨_, rfl, hget⟩
  | placed hmake hreplace =>
    rw [hmake] at hreplaced hdir ⊢
    simp only [hreplace, reduceCtorEq, false_and, exists_false, false_or] at hreplaced
    obtain ⟨-, hfits, -, hold, hget⟩ := hreplaced
    exact .inr ⟨rfl, hfits, hdir rfl, hold, hget⟩

theorem save_of_putEntry_error (henabled : s.enabled = true) {path : Text} {tags : List RawTag}
    {e : Fault} (h : (s.putEntry now here path tags fs).1 = .error e) :
    s.save now here path tags fs = (.error e, (s.putEntry now here path tags fs).2) := by
  rw [save, if_pos henabled]
  split
  · rename_i hput
    rw [hput] at h ⊢
    cases h
    rfl
  · rename_i hput
    rw [hput] at h
    cases h

theorem save_of_putEntry_ok (henabled : s.enabled = true) {path : Text} {tags : List RawTag}
    (h : (s.putEntry now here path tags fs).1 = .ok ()) : s.save now here path tags fs =
      stamp here (s.entryPath path).text path (s.putEntry now here path tags fs).2 := by
  rw [save, if_pos henabled]
  split
  · rename_i hput
    rw [hput] at h
    cases h
  · rename_i hput
    rw [hput]

/-- Saving makes directories. If it comes to writing the entry, the entry is in the last of them,
with the time that it gets from the stamp. -/
theorem save_cases (now : Int) (h : fs.Site here base dest names)
    (hroot : s.root = base.below names) (henabled : s.enabled = true) (hloc : loc.IsNamed)
    (tags : List RawTag) :
    ∃ made, Grows base dest (names ++ loc.dropLast) fs made ∧
      ((∃ e, (s.putEntry now here loc.text tags fs).1 = .error e ∧
          (s.save now here loc.text tags fs).1 = .error e ∧
          ∀ other, (s.save now here loc.text tags fs).2.get? other = made.get? other) ∨
        (s.putEntry now here loc.text tags fs).1 = .ok () ∧ Fits base (names ++ entryNames loc) ∧
          made.get? (dest ++ (names ++ loc.dropLast)) = some .directory ∧
          made.get? (dest ++ (names ++ entryNames loc)) ≠ some .directory ∧
          ∃ time, Stamps here (dest ++ (names ++ entryNames loc)) now
              ((s.save now here loc.text tags fs).2.modifiedAt here loc.text)
              (s.save now here loc.text tags fs).1 time ∧
            ∀ other, (s.save now here loc.text tags fs).2.get? other =
              if other = dest ++ (names ++ entryNames loc) then
                some (.file (encodeEntry loc.text tags) time)
              else made.get? other) := by
  obtain ⟨made, hgrows, ⟨e, hput, hget⟩ | ⟨hput, hfits, hdir, hold, hget⟩⟩ :=
    putEntry_cases now h hroot hloc tags
  · have hsave := save_of_putEntry_error henabled hput
    refine ⟨made, hgrows, .inl ⟨e, hput, by rw [hsave], ?_⟩⟩
    rw [hsave]
    exact hget
  · have hsave := save_of_putEntry_ok henabled hput
    rw [entryPath_below hroot hloc] at hsave
    refine ⟨made, hgrows, .inr ⟨hput, hfits, hdir, hold, ?_⟩⟩
    rw [hsave]
    exact stamp_replaced (h.base.keep hgrows.keeps) (by simp [entryNames_ne_nil])
      (h.named_append (isName_entryNames hloc))
      (hgrows.unlinked (h.unlinked (entryNames loc))) hfits hold hget hloc

/-! ## Removing -/

/-- The entry of a source is not there after it has been taken away, and all else is. -/
theorem get?_invalidate (now : Int) (h : fs.Site here base dest names)
    (hroot : s.root = base.below names) (hloc : loc.IsNamed)
    (hdir : fs.get? (dest ++ (names ++ entryNames loc)) ≠ some .directory)
    (hfits : fs.get? (dest ++ (names ++ entryNames loc)) ≠ none →
      Fits base (names ++ entryNames loc))
    (other : Location) : (s.invalidate now here loc.text fs).2.get? other =
      if other = dest ++ (names ++ entryNames loc) then none else fs.get? other := by
  have hentry := entryPath_below hroot hloc
  have hne : names ++ entryNames loc ≠ [] := by simp [entryNames_ne_nil]
  have hnames := h.named_append (isName_entryNames hloc)
  simp only [invalidate, hentry]
  cases hnode : fs.get? (dest ++ (names ++ entryNames loc)) with
  | none =>
    have hunlink (fs' : FileSystem) :
        fs.unlink now here (base.below (names ++ entryNames loc)).text ≠ .ok fs' := by
      obtain ⟨e, hlocate⟩ | ⟨hlocate, -⟩ :=
        h.base.locate_below_cases (show Purpose.entry ≠ .output by decide) hne hnames
          (h.unlinked _)
      · simp [unlink, hlocate]
      · simp [unlink, hlocate, targetAt_eq_vacant hnode]
    have hsame : fs.get? other =
        if other = dest ++ (names ++ entryNames loc) then none else fs.get? other := by
      split
      · rename_i heq
        rw [heq, hnode]
      · rfl
    split
    · rename_i fs' hok
      exact absurd hok (hunlink fs')
    · exact hsame
    · exact hsame
  | some n =>
    cases n with
    | directory => exact absurd hnode hdir
    | link target => exact absurd hnode (h.unlinked _ _ (List.prefix_refl _) target)
    | file content time =>
      have hlocate := h.base.locate_file (show Purpose.entry ≠ .output by decide) hne hnames
        (h.unlinked _) (hfits (by simp [hnode])) hnode
      have habove := get?_dropLast_of_file hne hnode
      rw [← List.dropLast_append_of_ne_nil hne] at habove
      simp only [unlink, hlocate]
      exact get?_remove_leaf now (by simp [hne]) habove hdir other

end Store
end TagsFile
