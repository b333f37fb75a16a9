import TagsFile.Config.Collect
import TagsFile.Proofs.Exclusion
import TagsFile.Proofs.LineBreaks
import TagsFile.Proofs.TreeWalk

/-!
# Towers of directories

Directories inside each other, with a file in every one of them. How deep they go and how long their
paths get can be told exactly.

## Main definitions

* `tower`: the entries of the directory at the top.
* `filesInTower`: a file system that is a tower.

## Main statements

* `nodeAt?_tower`: what is where in a tower.
* `Config.includes_tower`: the default patterns exclude nothing in such a file system.
* `Config.fileLength_tower`: how long the paths of its directories are.
-/

namespace TagsFile

/-- The entries of a directory with `n` more below it, each inside the one before and listed before
the file beside it. -/
def tower (name file : Text) : Nat → List (Text × Tree)
  | 0 => [(file, .file [] 0)]
  | n + 1 => [(name, .directory 0 (tower name file n)), (file, .file [] 0)]

theorem wellFormed_tower {name file : Text} (hname : name.IsName) (hfile : file.IsName)
    (hne : name ≠ file) (n : Nat) : (Tree.directory 0 (tower name file n)).WellFormed := by
  induction n with
  | zero =>
    refine .directory (by simp [tower]) ?_ ?_
    · simp [tower, hfile]
    · simpa [tower] using .file [] 0
  | succ n ih =>
    refine .directory (by simp [tower, hne]) ?_ ?_
    · simp only [tower, List.mem_cons, Prod.mk.injEq, List.not_mem_nil, or_false]
      rintro other t (⟨rfl, -⟩ | ⟨rfl, -⟩)
      · exact hname
      · exact hfile
    · simp only [tower, List.mem_cons, Prod.mk.injEq, List.not_mem_nil, or_false]
      rintro other t (⟨-, rfl⟩ | ⟨-, rfl⟩)
      · exact ih
      · exact .file [] 0

theorem nodeAt?_file {names : List Text} {node : Node} :
    (Tree.file [] 0).nodeAt? names = some node ↔ names = [] ∧ node = .file [] 0 := by
  cases names <;> simp [Tree.nodeAt?_cons, Tree.entries, Tree.node, eq_comm]

/-- In a tower there are only its directories and their files. -/
theorem nodeAt?_tower {name file : Text} (hne : name ≠ file) {n : Nat} {names : List Text}
    {node : Node} : (Tree.directory 0 (tower name file n)).nodeAt? names = some node ↔
      ∃ k ≤ n, names = List.replicate k name ∧ node = .directory ∨
        names = List.replicate k name ++ [file] ∧ node = .file [] 0 := by
  induction n generalizing names with
  | zero =>
    simp only [Nat.le_zero_eq, exists_eq_left, List.replicate_zero, List.nil_append]
    cases names with
    | nil => grind [Tree.node]
    | cons first rest =>
      simp only [Tree.nodeAt?_cons, Tree.entries, tower, Table.get?]
      by_cases hfirst : file = first
      · simp [hfirst, nodeAt?_file]
      · simp [hfirst, Ne.symm hfirst]
  | succ n ih =>
    cases names with
    | nil =>
      constructor
      · intro h
        exact ⟨0, by omega, .inl ⟨rfl, (Option.some.inj h).symm⟩⟩
      · rintro ⟨k, -, ⟨-, rfl⟩ | ⟨hnil, -⟩⟩
        · rfl
        · simp at hnil
    | cons first rest =>
      simp only [Tree.nodeAt?_cons, Tree.entries, tower, Table.get?]
      constructor
      · intro h
        split at h
        · rename_i hfirst
          obtain ⟨k, hk, hrest⟩ := ih.1 h
          refine ⟨k + 1, by omega, ?_⟩
          simpa [List.replicate_succ, ← hfirst] using hrest
        · split at h
          · rename_i hfirst
            obtain ⟨rfl, rfl⟩ := nodeAt?_file.1 h
            exact ⟨0, by omega, .inr ⟨by simp [hfirst], rfl⟩⟩
          · cases h
      · rintro ⟨k, hk, h⟩
        cases k with
        | zero =>
          obtain ⟨hnil, -⟩ | ⟨hfile, rfl⟩ := h
          · cases hnil
          · obtain ⟨rfl, rfl⟩ : first = file ∧ rest = [] := by simpa using hfile
            rw [if_neg hne, if_pos rfl]
            rfl
        | succ k =>
          rw [List.replicate_succ, List.cons_append, List.cons.injEq, List.cons.injEq] at h
          obtain rfl : first = name := by grind
          rw [if_pos rfl]
          exact ih.2 ⟨k, by omega, by grind⟩

/-! ## Paths in towers -/

/-- An ASCII text has as many bytes as characters. -/
theorem Text.fileLength_of_ascii {t : Text} (h : ∀ c ∈ t, c.toNat < 0x80) :
    t.fileLength = t.length := by
  suffices hbytes : ∃ bytes, t.fileBytes? = some bytes ∧ bytes.length = t.length by
    obtain ⟨bytes, hbytes, hlength⟩ := hbytes
    simp [fileLength, hbytes, hlength]
  induction t with
  | nil => exact ⟨[], rfl, rfl⟩
  | cons c t ih =>
    obtain ⟨hc, ht⟩ := List.forall_mem_cons.1 h
    obtain ⟨bytes, hbytes, hlength⟩ := ih ht
    cases c with
    | char a =>
      have hone : (String.utf8EncodeChar a).length = 1 := by
        rw [String.length_utf8EncodeChar, Char.utf8Size_eq_one_iff, UInt32.le_iff_toNat_le]
        exact Nat.le_of_lt_succ hc
      refine ⟨String.utf8EncodeChar a ++ bytes, ?_, by simp [hone, hlength, Nat.add_comm]⟩
      rw [← List.singleton_append, fileBytes?_append, fileBytes?_singleton, hbytes]
      rfl
    | surrogate n =>
      rw [CodePoint.toNat] at hc
      omega

namespace Config

theorem mem_of_mem_normalizePath {p : Text} {c : CodePoint} (h : c ∈ normalizePath p) :
    c ∈ p ∨ c = .char '/' := by
  have hslashes : c ∈ withSlashes p := by
    have hdot : c ∈ withoutDot (withSlashes p) := by
      rw [normalizePath_eq, dropSlashes, List.mem_reverse] at h
      exact List.mem_reverse.1 (List.dropWhile_subset _ h)
    rw [withoutDot] at hdot
    split at hdot
    · exact List.mem_of_mem_drop hdot
    · exact hdot
  obtain ⟨b, hb, rfl⟩ := List.mem_map.1 hslashes
  split
  · exact .inr rfl
  · exact .inl hb

/-- The default patterns exclude no path that has none of these letters. -/
theorem includes_default {p : Text}
    (h : ∀ c ∈ p, c ≠ .char 'g' ∧ c ≠ .char 'c' ∧ c ≠ .char 'm') :
    default.includes p = .ok true := by
  have hpatterns : default.HasPatterns ["**/" ++ (".git" ++ "/**"), "app/cache" ++ "/**",
      "**/" ++ ("node_modules" ++ "/**")] := rfl
  have hletters : ∀ c ∈ betweenSlashes (normalizePath p),
      c ≠ .char 'g' ∧ c ≠ .char 'c' ∧ c ≠ .char 'm' := by
    intro c hc
    obtain rfl | hc : c = .char '/' ∨ c ∈ normalizePath p := by
      simpa [betweenSlashes, or_comm] using hc
    · decide
    · obtain hc | rfl := mem_of_mem_normalizePath hc
      · exact h c hc
      · decide
  have hgit : ¬excludedBy (normalizePath p) ("**/" ++ (".git" ++ "/**")) = true := by
    intro hexcluded
    have hliteral : Glob.IsLiteral ".git" := by simp [Glob.IsLiteral, Text.ofString]
    have hbetween := (excludedBy_anywhere_iff hliteral _).1 hexcluded
    exact (hletters (.char 'g') (hbetween.subset (by decide))).1 rfl
  have hcache : ¬excludedBy (normalizePath p) ("app/cache" ++ "/**") = true := by
    intro hexcluded
    have hliteral : Glob.IsLiteral "app/cache" := by simp [Glob.IsLiteral, Text.ofString]
    have hfront := (excludedBy_directory_iff (by decide) hliteral _).1 hexcluded
    have hmem : .char 'c' ∈ normalizePath p ++ [.char '/'] :=
      (eq_or_slash_iff.1 hfront).subset (by decide)
    exact (hletters (.char 'c') (List.mem_cons_of_mem _ hmem)).2.1 rfl
  have hmodules : ¬excludedBy (normalizePath p) ("**/" ++ ("node_modules" ++ "/**")) = true := by
    intro hexcluded
    have hliteral : Glob.IsLiteral "node_modules" := by simp [Glob.IsLiteral, Text.ofString]
    have hbetween := (excludedBy_anywhere_iff hliteral _).1 hexcluded
    exact (hletters (.char 'm') (hbetween.subset (by decide))).2.2 rfl
  rw [includes_eq hpatterns]
  simp only [List.any_cons, List.any_nil, Bool.eq_false_iff.2 hgit, Bool.eq_false_iff.2 hcache,
    Bool.eq_false_iff.2 hmodules, Bool.or_false, Bool.not_false]

end Config

/-! ## Towers at the root -/

/-- A name with as many letters. -/
def towerName (width : Nat) : Text := List.replicate width (.char 'd')

/-- A tower at the root, with `height` directories. -/
def filesInTower (width height : Nat) : FileSystem where
  entries := tower (towerName width) "a.php" height

theorem isName_towerName {width : Nat} (h : 0 < width) : (towerName width).IsName := by
  have hstring : Text.ofString (String.ofList (List.replicate width 'd')) = towerName width := by
    simp [Text.ofString, towerName]
  rw [← hstring]
  refine Text.isName_ofString ?_ ?_ ?_ ?_
  · intro c hc
    obtain rfl : c = 'd' := by simpa [h.ne'] using hc
    decide
  all_goals
    intro heq
    have hlist := congrArg String.toList heq
    rw [String.toList_ofList] at hlist
    cases width with
    | zero => omega
    | succ width => simp [List.replicate_succ] at hlist

theorem isName_towerFile : Text.IsName "a.php" :=
  Text.isName_ofString (by simp) (by decide) (by decide) (by decide)

theorem towerName_ne (width : Nat) : towerName width ≠ "a.php" := by
  cases width with
  | zero => decide
  | succ width => simp [towerName, List.replicate_succ, Text.ofString]

theorem wellFormed_filesInTower {width : Nat} (h : 0 < width) (height : Nat) :
    (filesInTower width height).WellFormed :=
  wellFormed_tower (isName_towerName h) isName_towerFile (towerName_ne width) height

theorem get?_filesInTower {width height : Nat} {names : List Text} {node : Node} :
    (filesInTower width height).get? names = some node ↔
      ∃ k ≤ height, names = List.replicate k (towerName width) ∧ node = .directory ∨
        names = List.replicate k (towerName width) ++ [("a.php" : Text)] ∧ node = .file [] 0 :=
  nodeAt?_tower (towerName_ne width)

theorem get?_towerFile (width : Nat) {height k : Nat} (hk : k ≤ height) :
    (filesInTower width height).get? (List.replicate k (towerName width) ++ [("a.php" : Text)]) =
      some (.file [] 0) :=
  get?_filesInTower.2 ⟨k, hk, .inr ⟨rfl, rfl⟩⟩

theorem locate_root (fs : FileSystem) (here : Here) :
    fs.locate here .target (Path.ofText "/").text =
      .ok (.present [] (.directory fs.modified fs.entries)) := by
  cbv

namespace Config

variable {width : Nat}

/-- Whatever is in a tower has a path of a few letters. -/
theorem mem_join_tower {names : List Text}
    (hnames : ∀ name ∈ names, name = towerName width ∨ name = "a.php") {c : CodePoint}
    (hc : c ∈ Text.join "/" names) : c ∈ ("/ad.hp" : Text) := by
  obtain hc | ⟨name, hname, hc⟩ := Text.mem_join hc
  · obtain rfl : c = .char '/' := by simpa [Text.ofString] using hc
    decide
  · obtain rfl | rfl := hnames name hname
    · obtain rfl := List.eq_of_mem_replicate hc
      decide
    · have hletters : ∀ c ∈ ("a.php" : Text), c ∈ ("/ad.hp" : Text) := by decide
      exact hletters c hc

/-- The default patterns exclude nothing on the way to a file of a tower. -/
theorem includes_tower {k : Nat} {front : List Text}
    (hfront : front <+: List.replicate k (towerName width) ++ [("a.php" : Text)]) :
    default.includes (Text.join "/" front) = .ok true := by
  have hnames : ∀ name ∈ front, name = towerName width ∨ name = "a.php" := by
    intro name hname
    obtain hname | hname := List.mem_append.1 (hfront.subset hname)
    · exact .inl (List.eq_of_mem_replicate hname)
    · exact .inr (List.mem_singleton.1 hname)
  have hletters : ∀ c ∈ ("/ad.hp" : Text), c ≠ .char 'g' ∧ c ≠ .char 'c' ∧ c ≠ .char 'm' := by
    decide
  exact includes_default fun c hc => hletters c (mem_join_tower hnames hc)

theorem fileLength_tower {k : Nat} (hk : 0 < k) :
    (scanText (.ofText "/") (List.replicate k (towerName width))).fileLength = k * (width + 1) := by
  have hne : List.replicate k (towerName width) ≠ [] := by simp [hk.ne']
  have htext : scanText (.ofText "/") (List.replicate k (towerName width)) =
      .char '/' :: Text.join "/" (List.replicate k (towerName width)) := rfl
  have hascii : ∀ c ∈ scanText (.ofText "/") (List.replicate k (towerName width)),
      c.toNat < 0x80 := by
    intro c hc
    have hletters : ∀ c ∈ ("/ad.hp" : Text), c.toNat < 0x80 := by decide
    obtain rfl | hc := List.mem_cons.1 hc
    · decide
    · exact hletters c
        (mem_join_tower (fun name hname => .inl (List.eq_of_mem_replicate hname)) hc)
  rw [Text.fileLength_of_ascii hascii, htext, slash_join hne, List.length_flatMap]
  simp [towerName]

end Config
end TagsFile
