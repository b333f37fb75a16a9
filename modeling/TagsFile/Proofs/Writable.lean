import TagsFile.Proofs.Changes
import TagsFile.Proofs.Resolution

/-!
# Where files can be written

A directory is made below a base if no file stands on the way, the names and the path are short
enough, and there are not too many names. A file is written in a directory if the name of one of the
temporary files beside it is free, and no directory has the name of the file itself.

## Main definitions

* `FileSystem.Passable`: a way along which directories are, or can be made.
* `FileSystem.temporaryNames`: where the temporary files beside a file are.
* `FileSystem.Agrees`: a base that leads to the same directory when its path is made absolute.
-/

namespace TagsFile.FileSystem

variable {fs made : FileSystem} {here : Here} {base r : Path} {dest loc : Location}
  {names front : List Text} {now : Int} {content : List UInt8}

/-! ## Short paths -/

theorem join_prefix_append (hne : names ≠ []) (more : List Text) :
    Text.join "/" names <+: Text.join "/" (names ++ more) := by
  induction names with
  | nil => exact absurd rfl hne
  | cons name names ih =>
    cases names with
    | nil =>
      cases more with
      | nil => exact List.prefix_refl _
      | cons next more =>
        rw [List.singleton_append, Text.join_cons_cons, Text.join_singleton, List.append_assoc]
        exact List.prefix_append ..
    | cons next names =>
      rw [List.cons_append, List.cons_append, Text.join_cons_cons, Text.join_cons_cons,
        List.prefix_append_right_inj]
      exact ih (List.cons_ne_nil next names)

theorem fileLength_le_of_front {a b : Text} (h : a <+: b) (hb : b.asFileName? = some b) :
    a.fileLength ≤ b.fileLength := by
  obtain ⟨c, rfl⟩ := h
  obtain ⟨bytes, hbytes, -⟩ := Text.asFileName?_eq_some.1 hb
  have happend := hbytes
  rw [Text.fileBytes?_append] at happend
  obtain ⟨first, hfirst, hmap⟩ := Option.bind_eq_some_iff.1 happend
  obtain ⟨rest, -, rfl⟩ := Option.map_eq_some_iff.1 hmap
  simp [Text.fileLength, hbytes, hfirst]

/-- What is short enough as a whole is so up to every name. -/
theorem Fits.of_front (hfits : Fits base names) (h : fs.Base here base dest)
    (hnames : ∀ name ∈ names, Text.IsName name) (hfront : front <+: names) : Fits base front := by
  refine ⟨?_, fun name hname => hfits.names name (hfront.subset hname)⟩
  have hproper := h.proper_below hnames
  have hproper' := h.proper_below fun name hname => hnames name (hfront.subset hname)
  obtain ⟨rest, rfl⟩ := hfront
  by_cases hempty : base.parts ++ front = []
  · obtain ⟨-, rfl⟩ := List.append_eq_nil_iff.1 hempty
    simpa [Path.below] using h.short
  · have hprefix : (base.below front).text <+: (base.below (front ++ rest)).text := by
      rw [Path.below, Path.below, Path.text_eq hproper'.isSeparate hempty,
        Path.text_eq hproper.isSeparate (by simp_all), List.prefix_append_right_inj,
        ← List.append_assoc]
      exact join_prefix_append hempty rest
    exact (fileLength_le_of_front hprefix (Path.asFileName?_text hproper)).trans_lt hfits.path

/-! ## Making directories -/

theorem Grows.get?_of_length_lt {rest : List Text} (h : Grows base dest names fs made)
    (hlength : names.length < rest.length) : made.get? (dest ++ rest) = fs.get? (dest ++ rest) := by
  obtain hsame | ⟨-, -, front, hfront, -, -, heq⟩ := h (dest ++ rest)
  · exact hsame
  · rw [List.append_cancel_left heq] at hlength
    exact absurd hfront.length_le (by omega)

/-- A way along which there are directories as far as there is anything. -/
def Passable (fs : FileSystem) (dest : Location) (names : List Text) : Prop :=
  ∀ front, front <+: names →
    fs.get? (dest ++ front) = none ∨ fs.get? (dest ++ front) = some .directory

theorem Passable.unlinked (h : Passable fs dest names) : Unlinked fs.get? dest names := by
  intro front hfront target hlink
  obtain hnone | hdir := h front hfront
  · cases hnone.symm.trans hlink
  · cases hdir.symm.trans hlink

theorem Passable.of_front (h : Passable fs dest names) (hfront : front <+: names) :
    Passable fs dest front := fun _ hfront' => h _ (hfront'.trans hfront)

theorem Passable.grow {more : List Text} (h : Passable fs dest names)
    (hgrows : Grows base dest more fs made) : Passable made dest names := by
  intro front hfront
  obtain hsame | ⟨-, hdir, -⟩ := hgrows (dest ++ front)
  · rw [hsame]
    exact h front hfront
  · exact .inr hdir

/-- A walk ends at the first directory that is missing. -/
theorem walk_eq_noEntry {purpose : Purpose} {budget : Nat} (hpurpose : purpose ≠ .output)
    (hloc : fs.get? loc = some .directory)
    (hnames : ∀ name ∈ names, name ≠ "" ∧ name ≠ "." ∧ name ≠ "..")
    (hshort : ∀ name ∈ names, name.fileLength ≤ maxName) (hpass : Passable fs loc names)
    (hnone : fs.get? (loc ++ names.dropLast) = none) :
    walk fs.get? purpose budget loc names = .error .noEntry := by
  induction names generalizing loc with
  | nil => simp [hloc] at hnone
  | cons name rest ih =>
    have hrest : rest ≠ [] := by
      rintro rfl
      simp [hloc] at hnone
    rw [walk_cons hloc (hnames name (by simp)) (hshort name (by simp)) hpurpose]
    obtain hmissing | hdir := hpass [name] (by simp)
    · rw [hmissing]
      exact if_neg hrest
    · rw [hdir]
      refine ih hdir (fun n hn => hnames n (by simp [hn])) (fun n hn => hshort n (by simp [hn]))
        (fun front hfront => ?_) ?_
      · rw [List.append_assoc]
        exact hpass (name :: front) (List.cons_prefix_cons.2 ⟨rfl, hfront⟩)
      · rwa [List.dropLast_cons_of_ne_nil hrest, List.append_cons] at hnone

theorem Base.locate_noEntry (h : fs.Base here base dest) {purpose : Purpose}
    (hpurpose : purpose ≠ .output) (hnames : ∀ name ∈ names, Text.IsName name)
    (hfits : Fits base names) (hpass : Passable fs dest names)
    (hnone : fs.get? (dest ++ names.dropLast) = none) :
    fs.locate here purpose (base.below names).text = .error (.system .noEntry) := by
  have hne : names ≠ [] := by
    rintro rfl
    simp [h.directory] at hnone
  obtain ⟨budget, hlocate⟩ := h.exists_locate_below
  rw [hlocate purpose names hpurpose hne hnames, if_neg (by have := hfits.path; omega),
    walk_eq_noEntry hpurpose h.directory (plain_of_isName hnames) hfits.names hpass hnone]
  rfl

/-- In a directory that is there another one is made, or is there already. -/
theorem makeDirectory_or (now : Int) (h : fs.Base here base dest) (hne : names ≠ [])
    (hnames : ∀ name ∈ names, Text.IsName name) (hfits : Fits base names)
    (hpass : Passable fs dest names) (hdir : fs.get? (dest ++ names.dropLast) = some .directory) :
    (∃ made, fs.makeDirectory now here (base.below names).text = .ok made) ∨
      fs.makeDirectory now here (base.below names).text = .error (.system .alreadyExists) ∧
        fs.orDirectory (.system .alreadyExists) here (base.below names).text = .ok () := by
  have hlocate {purpose : Purpose} (hpurpose : purpose ≠ .output) :=
    h.locate_below hpurpose hne hnames hpass.unlinked hfits hdir
  obtain hnone | hnode := hpass names (List.prefix_refl _)
  · left
    rw [makeDirectory, hlocate (by decide), targetAt_eq_vacant hnone]
    exact ⟨_, rfl⟩
  · right
    obtain ⟨tree, htree, -, htarget⟩ := targetAt_eq_present hnode
    simp only [makeDirectory, orDirectory, isDirectory,
      hlocate (show Purpose.entry ≠ .output by decide),
      hlocate (show Purpose.target ≠ .output by decide), htarget, htree]
    exact ⟨trivial, rfl⟩

/-- A directory is made with those above it, if there are not too many of them. -/
theorem makeWithin_eq_ok (now : Int) (h : fs.Base here base dest)
    (hnames : ∀ name ∈ names, Text.IsName name) (hfits : Fits base names)
    (hpass : Passable fs dest names) {depth : Nat} (hpos : 0 < depth)
    (hdepth : names.length ≤ depth) :
    (fs.makeWithin now here depth (base.below names)).1 = .ok () := by
  induction depth generalizing names with
  | zero => cases hpos
  | succ depth ih =>
    rcases List.eq_nil_or_concat names with rfl | ⟨init, last, rfl⟩
    · obtain ⟨loc, tree, hlocate⟩ := h.locate_entry
      obtain ⟨tree', hlocate', -, htree⟩ := h.locate_target
      simp only [makeWithin, makeDirectory, orDirectory, isDirectory, Path.below, List.append_nil,
        hlocate, hlocate']
      simp [htree, Except.mapError]
    · rw [List.concat_eq_append] at *
      have hne : init ++ [last] ≠ [] := by simp
      have hparts : (base.below (init ++ [last])).parts ≠ [] := by simp [Path.below]
      have hfront : init <+: init ++ [last] := List.prefix_append ..
      have hinit : ∀ name ∈ init, Text.IsName name :=
        fun name hname => hnames name (by simp [hname])
      obtain hnone | hdir := hpass init hfront
      · -- the directory above is missing, so it is not the base
        have hpos' : 0 < init.length := by
          apply List.length_pos_iff.2
          rintro rfl
          simp [h.directory] at hnone
        rw [List.length_append, List.length_singleton] at hdepth
        have hmake : fs.makeDirectory now here (base.below (init ++ [last])).text =
            .error (.system .noEntry) := by
          rw [makeDirectory, h.locate_noEntry (by decide) hnames hfits hpass
            (by rwa [List.dropLast_concat])]
        obtain ⟨hgrows, habove⟩ :=
          makeWithin_below now h hinit (hpass.of_front hfront).unlinked depth
        have hok := ih hinit (hfits.of_front h hnames hfront) (hpass.of_front hfront) (by omega)
          (by omega)
        cases hresult : fs.makeWithin now here depth (base.below init) with
        | mk result above =>
          rw [hresult] at hgrows habove hok
          obtain ⟨made, hagain⟩ | ⟨hagain, hthere⟩ := makeDirectory_or now
            (h.keep hgrows.keeps) hne hnames hfits (hpass.grow hgrows)
            (by rw [List.dropLast_concat]; exact habove hok)
          · simp_all [makeWithin, parent_below]
          · simp_all [makeWithin, parent_below, Except.mapError]
      · obtain ⟨made, hmake⟩ | ⟨hmake, hthere⟩ :=
          makeDirectory_or now h hne hnames hfits hpass (by rwa [List.dropLast_concat])
        · simp [makeWithin, hmake]
        · simp [makeWithin, hmake, hthere, Except.mapError]

/-! ## Temporary files -/

/-- The names of the `n`th temporary file beside the file with some names. -/
def temporaryNames (names : List Text) (n : Nat) : List Text :=
  names.dropLast ++ [temporaryName (names.getLast?.getD "") n]

theorem temporaryName_eq (name : Text) (n : Nat) : ∃ mark : String,
    (∀ c ∈ mark.toList, c ≠ '/' ∧ c ≠ '\x00') ∧ temporaryName name n =
      Text.ofString "." ++ (name ++ .char '.' :: (Text.ofString mark ++ Text.ofString ".tmp")) := by
  refine ⟨String.ofList ((if n = 0 then [] else Nat.toDigits 10 n) ++
    List.replicate (8 - (if n = 0 then [] else Nat.toDigits 10 n).length) 'X'), fun c hc => ?_,
    by simp [temporaryName, Text.ofString]⟩
  rw [String.toList_ofList, List.mem_append] at hc
  obtain hdigit | hfill := hc
  · split at hdigit
    · cases hdigit
    · have hdigit := Nat.isDigit_of_mem_toDigits (by decide) (by decide) hdigit
      constructor <;> rintro rfl <;> cases hdigit
  · rw [List.eq_of_mem_replicate hfill]
    decide

theorem isName_temporaryName {name : Text} (h : name.IsName) (n : Nat) :
    Text.IsName (temporaryName name n) := by
  obtain ⟨mark, hmark, heq⟩ := temporaryName_eq name n
  have hlength : 4 < (temporaryName name n).length := by
    simp only [heq, Text.ofString, List.length_append, List.length_cons, List.length_map]
    have htail : ".tmp".toList.length = 4 := rfl
    omega
  have hne {other : Text} (hother : other.length < 5) : temporaryName name n ≠ other := by
    rintro rfl
    omega
  have hnotMem {c : Char} (hname : .char c ∉ name) (hmark : c ∉ mark.toList)
      (hother : c ∉ ['.', 't', 'm', 'p']) : .char c ∉ temporaryName name n := by
    simp_all [Text.ofString]
  refine { ne_empty := hne (by decide), no_slash := ?_, no_nul := ?_, spelled := ?_,
           ne_here := hne (by decide), ne_up := hne (by decide) }
  · exact hnotMem h.no_slash (fun hmem => (hmark _ hmem).1 rfl) (by decide)
  · exact hnotMem h.no_nul (fun hmem => (hmark _ hmem).2 rfl) (by decide)
  · rw [heq]
    exact Text.asFileName?_ofString_append _ <| Text.asFileName?_append h.spelled (by decide) <|
      Text.asFileName?_ofString_append _ (Text.asFileName?_ofString _)

theorem temporaryName_zero_ne_one (name : Text) : temporaryName name 0 ≠ temporaryName name 1 := by
  simp only [temporaryName, List.append_assoc, ne_eq, List.append_cancel_left_eq,
    List.append_cancel_right_eq]
  decide

/-- A temporary file does not have the name of an entry. -/
theorem isEntryName_temporaryName (name : Text) (n : Nat) :
    Store.isEntryName (temporaryName name n) = false := by
  obtain ⟨mark, -, heq⟩ := temporaryName_eq name n
  rw [Store.isEntryName, ← Bool.not_eq_true, List.isSuffixOf_iff_suffix]
  rintro ⟨front, hfront⟩
  have hback := congrArg List.reverse (hfront.trans heq)
  simp [Text.ofString] at hback

theorem isName_temporaryNames (hnames : ∀ name ∈ names, Text.IsName name) (hne : names ≠ [])
    (n : Nat) : ∀ name ∈ temporaryNames names n, Text.IsName name := by
  intro name hname
  obtain hname | hname := List.mem_append.1 hname
  · exact hnames name (List.dropLast_subset _ hname)
  · obtain rfl := List.mem_singleton.1 hname
    rw [List.getLast?_eq_some_getLast hne]
    exact isName_temporaryName (hnames _ (List.getLast_mem hne)) n

/-- A base that leads to the directory at `dest`, as does the absolute path that is made of it. -/
structure Agrees (fs : FileSystem) (here : Here) (base r : Path) (dest : Location) : Prop where
  absolute : here.absolute? base = some r
  near : fs.Base here base dest
  far : fs.Base Here.root r dest

theorem Agrees.keep {fs' : FileSystem} (h : fs.Agrees here base r dest)
    (hk : Keeps fs.get? fs'.get?) : fs'.Agrees here base r dest :=
  ⟨h.absolute, h.near.keep hk, h.far.keep hk⟩

/-- Names stay behind a path that is made absolute. -/
theorem absolute?_below (h : here.absolute? base = some r)
    (hnames : ∀ name ∈ names, Text.IsName name) :
    here.absolute? (base.below names) = some (r.below names) := by
  have hup : (".." : Text) ∉ names := fun hmem => (hnames _ hmem).ne_up rfl
  have habsolute (front : List Text) :
      (base.below names).absolute front = (base.absolute front).below names := by
    show Path.mk _ _ = Path.mk _ _
    rw [Path.below, List.foldl_append, foldl_pushPart_names hup, List.reverse_append,
      List.reverse_reverse]
    rfl
  have hanchor : (base.below names).isAbsolute = base.isAbsolute := rfl
  rw [Here.absolute?] at h
  rw [Here.absolute?, hanchor]
  split at h
  · rename_i habs
    cases h
    rw [if_pos habs, habsolute]
  · rename_i habs
    obtain ⟨front, hfront, rfl⟩ := Option.map_eq_some_iff.1 h
    rw [if_neg habs, hfront, Option.map_some, habsolute]

/-- A temporary file is made if one of its names is free. -/
theorem makeTemporary_of_free {directory : Path} {name : Text} {place : Nat → Location}
    {fuel n free : Nat} (hfuel : free < fuel)
    (hlocate : ∀ m ≤ n + free, fs.locate Here.root .entry
      (directory.child (temporaryName name m)).text = .ok (fs.targetAt (place m)))
    (hfree : fs.get? (place (n + free)) = none) :
    ∃ started, fs.makeTemporary now directory name content fuel n = .ok started := by
  induction fuel generalizing n free with
  | zero => cases hfuel
  | succ fuel ih =>
    rw [makeTemporary, hlocate n (by omega)]
    cases hnode : fs.get? (place n) with
    | none =>
      rw [targetAt_eq_vacant hnode]
      exact ⟨_, rfl⟩
    | some node =>
      obtain ⟨tree, -, -, htarget⟩ := targetAt_eq_present hnode
      rw [htarget]
      cases free with
      | zero => cases hfree.symm.trans hnode
      | succ free =>
        refine @ih (n + 1) free (by omega) (fun m hm => hlocate m (by omega)) ?_
        rwa [Nat.add_assoc, Nat.add_comm 1]

theorem startFile_of_free (now : Int) (content : List UInt8) (h : fs.Agrees here base r dest)
    (hne : names ≠ []) (hnames : ∀ name ∈ names, Text.IsName name)
    (hlinks : ∀ rest, Unlinked fs.get? dest rest)
    (hdir : fs.get? (dest ++ names.dropLast) = some .directory) {free : Nat}
    (hfuel : free < maxTemporaries) (hfits : ∀ n ≤ free, Fits r (temporaryNames names n))
    (hfree : fs.get? (dest ++ temporaryNames names free) = none) :
    ∃ place text made, fs.startFile now here (base.below names) content =
      .ok (place, text, made) := by
  have hparent : (base.below names).parent = base.below names.dropLast := by
    rw [Path.parent, Path.below, List.dropLast_append_of_ne_nil hne]
    rfl
  have hname : (base.below names).name = names.getLast?.getD "" := by
    rw [Path.name, Path.below, List.getLast?_append_of_ne_nil _ hne]
  have hfront : ∀ name ∈ names.dropLast, Text.IsName name :=
    fun name hmem => hnames name (List.dropLast_subset _ hmem)
  have hplace (n : Nat) (hn : n ≤ 0 + free) : fs.locate Here.root .entry
      ((r.below names.dropLast).child (temporaryName (names.getLast?.getD "") n)).text =
        .ok (fs.targetAt (dest ++ temporaryNames names n)) := by
    have hnames' := isName_temporaryNames hnames hne n
    have hchild : (r.below names.dropLast).child (temporaryName (names.getLast?.getD "") n) =
        r.below (temporaryNames names n) := by
      rw [Path.child, Store.ofText_of_isLabel (hnames' _ (by simp [temporaryNames])).isLabel]
      simp [Path.join, Path.isAbsolute, Path.below, temporaryNames]
    rw [hchild]
    exact h.far.locate_below (by decide) (by simp [temporaryNames]) hnames' (hlinks _)
      (hfits n (by omega)) (by rwa [temporaryNames, List.dropLast_concat])
  rw [startFile, hparent, absolute?_below h.absolute hfront, hname]
  obtain ⟨⟨place, text, made⟩, hstart⟩ := makeTemporary_of_free hfuel hplace (by rwa [Nat.zero_add])
  exact ⟨place, text, made, hstart⟩

/-- A file is moved onto a name that no directory has. -/
theorem moveTarget_eq_ok (h : fs.Base here base dest) (hne : names ≠ [])
    (hnames : ∀ name ∈ names, Text.IsName name) (hlinks : Unlinked fs.get? dest names)
    (hfits : Fits base names) (hdir : fs.get? (dest ++ names.dropLast) = some .directory)
    (hfile : fs.get? (dest ++ names) ≠ some .directory) :
    fs.moveTarget here (base.below names) = .ok (dest ++ names) := by
  have hlocate := h.locate_below (show Purpose.entry ≠ .output by decide) hne hnames hlinks hfits
    hdir
  have hends : endsAtDirectory (base.below names) = false := by
    have hup := (hnames _ (List.getLast_mem hne)).ne_up
    simp [endsAtDirectory, Path.below, List.getLast?_append_of_ne_nil _ hne,
      List.getLast?_eq_some_getLast hne, hup]
  cases hnode : fs.get? (dest ++ names) with
  | none => simp [moveTarget, hlocate, targetAt_eq_vacant hnode]
  | some n =>
    obtain ⟨tree, htree, -, htarget⟩ := targetAt_eq_present hnode
    rw [hnode, ← htree] at hfile
    simp_all [moveTarget]

/-- A file is replaced if one of the names for its temporary file is free. -/
theorem replaceFile_eq_ok (now : Int) (content : List UInt8) (h : fs.Agrees here base r dest)
    (hne : names ≠ []) (hnames : ∀ name ∈ names, Text.IsName name)
    (hlinks : ∀ rest, Unlinked fs.get? dest rest)
    (hfits : Fits base names) (hdir : fs.get? (dest ++ names.dropLast) = some .directory)
    (hfile : fs.get? (dest ++ names) ≠ some .directory) {free : Nat}
    (hfuel : free < maxTemporaries) (hroom : ∀ n ≤ free, Fits r (temporaryNames names n))
    (hfree : fs.get? (dest ++ temporaryNames names free) = none) :
    (fs.replaceFile now here (base.below names) content).1 = .ok () := by
  obtain ⟨place, text, made, hstart⟩ := 
    startFile_of_free now content h hne hnames hlinks hdir hfuel hroom hfree
  have hmade := get?_startFile hstart
  have hnone := (startFile_eq_ok hstart).2.1
  have hdirs {loc : Location} : made.get? loc = some .directory ↔
      fs.get? loc = some .directory := by
    rw [hmade]
    split <;> simp_all
  have hkeeps : Keeps fs.get? made.get? := by
    intro loc
    rw [hmade]
    split <;> simp_all
  have hlinks' : Unlinked made.get? dest names := by
    intro front hfront target
    rw [hmade]
    split
    · simp
    · exact hlinks names front hfront target
  have hmove := moveTarget_eq_ok (h.near.keep hkeeps) hne hnames hlinks' hfits (hdirs.2 hdir)
    (mt hdirs.1 hfile)
  obtain ⟨e, herror, -⟩ | ⟨target, -, hok, -⟩ := replaceFile_of_startFile hstart
  · cases hmove.symm.trans herror
  · exact hok

end TagsFile.FileSystem
