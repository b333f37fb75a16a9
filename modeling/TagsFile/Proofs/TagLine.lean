import TagsFile.Proofs.ByteOrder
import TagsFile.Proofs.FileName

/-!
# The line of a tag

A line holds the name of its tag, the path of its file and the other columns, with tabs between
them. Lines are sorted as a whole, and yet their names are sorted too: a name that is the front of
another one is followed by a tab, which comes before every character of a name.

## Main definitions

* `Tag.columns`: the columns of the line of a source's tag.
* `nameColumn`: the text before the first tab of a line.

## Main statements

* `TagIndex.lines_ascending`: the lines of an index are those of its tags in ascending order, and
  their names are in ascending order as well.
-/

namespace TagsFile

/-! ## Columns -/

namespace Tag

/-- The columns of the line of a source's tag, with `path` for the path of its file. -/
def columns (t : SourceTag) (path : Text) : List Text :=
  [t.name, path, t.pattern, t.kind.letter, "lineno:" ++ Text.ofString (toString t.line)] ++
    t.scope.toList ++ t.extras ++ (t.access.map fun a : Text => "access:" ++ a).toList

/-- The line of a source's tag, seen from `base`. -/
def sourceLine (base : Text) (t : SourceTag) : Text :=
  Text.join "\t" (t.columns (relativePath base t.path))

theorem joinColumns_map_string (texts : List Text) :
    joinColumns (texts.map .string) = .ok (Text.join "\t" texts) := by
  have h : (texts.map Json.string).mapM Json.string? = some texts := by
    induction texts with
    | nil => rfl
    | cons t texts ih => simp [Json.string?, ih]
  rw [joinColumns, h]

/-- The tag of a source always has a line. -/
@[simp] theorem lineFrom_raw (base : Text) (t : SourceTag) :
    lineFrom base t.raw = .ok (t.sourceLine base) := by
  have hcolumns : t.raw.fields (.string (relativePath base t.path)) =
      (t.columns (relativePath base t.path)).map .string := by
    simp [fields, columns, raw, map, Json.literal, Json.ofInt, Json.literalItem, Number.literal,
      Option.toList_map]
  rw [sourceLine, ← joinColumns_map_string, ← hcolumns]
  rfl

theorem mapM_lineFrom_raw (base : Text) (tags : List SourceTag) :
    (tags.map raw).mapM (lineFrom base) = .ok (tags.map (sourceLine base)) := by
  induction tags with
  | nil => rfl
  | cons t tags ih => exact mapM_cons_eq_ok.2 ⟨_, _, lineFrom_raw base t, ih, rfl⟩

/-- A line starts with the name of its tag and the path of its file. -/
theorem lineFrom_eq_ok {base line : Text} {t : RawTag} (h : lineFrom base t = .ok line) :
    ∃ name path rest, t.name = .string name ∧ t.path = .string path ∧
      line = name ++ .char '\t' :: (relativePath base path ++ .char '\t' :: rest) := by
  rw [lineFrom] at h
  split at h
  · rename_i path hpath
    rw [joinColumns] at h
    split at h
    · rename_i texts htexts
      simp only [fields, List.cons_append, List.mapM_cons, Option.pure_def, Option.bind_eq_bind,
        Option.bind_eq_some_iff, Json.string?, Option.some.injEq] at htexts
      obtain ⟨name, hname, _, ⟨_, rfl, _, ⟨pattern, -, more, -, rfl⟩, rfl⟩, rfl⟩ := htexts
      refine ⟨name, path, Text.join "\t" (pattern :: more), ?_, hpath, ?_⟩
      · cases hvalue : t.name <;> simp_all
      · obtain rfl := Except.ok.inj h
        rw [Text.join_cons_cons, Text.join_cons_cons]
        simp [Text.ofString]
    · cases h
  · cases h

end Tag

/-! ## Order -/

/-- The text of a line before its first tab. -/
def nameColumn (line : Text) : Text := line.takeWhile (· ≠ .char '\t')

theorem nameColumn_append {name : Text} (h : .char '\t' ∉ name) (rest : Text) :
    nameColumn (name ++ .char '\t' :: rest) = name := by
  rw [nameColumn, List.takeWhile_append_of_pos]
  · simp
  · intro c hc
    simpa using fun heq : c = .char '\t' => h (heq ▸ hc)

/-- Where every code point of the first text is above the tab, the order of two texts with a tab
behind them is their own. -/
theorem Text.le_of_le_append_tab {a b r s : Text} (ha : ∀ c ∈ a, 9 < c.toNat)
    (h : le (a ++ .char '\t' :: r) (b ++ .char '\t' :: s) = true) : le a b = true := by
  induction a generalizing b with
  | nil => rfl
  | cons c a ih =>
    have hc : 9 < c.toNat := ha c (by simp)
    cases b with
    | nil =>
      have hne : c ≠ .char '\t' := by rintro rfl; exact absurd hc (by decide)
      have hle : c.toNat ≤ (CodePoint.char '\t').toNat := by simpa [le, hne, CodePoint.le] using h
      have htab : (CodePoint.char '\t').toNat = 9 := rfl
      omega
    | cons d b =>
      simp only [List.cons_append, le] at h ⊢
      split at h
      · rename_i heq
        rw [if_pos heq]
        exact ih (fun e he => ha e (by simp [he])) h
      · rename_i hne
        rwa [if_neg hne]

/-- What can be done to each item of a list. -/
theorem mapM_eq_ok_map {α β ε : Type} {f : α → Except ε β} {g : α → β} {items : List α}
    (h : ∀ item ∈ items, f item = .ok (g item)) : items.mapM f = .ok (items.map g) := by
  induction items with
  | nil => rfl
  | cons item items ih =>
    have hrest := ih fun other hother => h other (by simp [hother])
    exact mapM_cons_eq_ok.2 ⟨_, _, h item (by simp), hrest, rfl⟩

namespace TagIndex

/-- The lines of an index are those of its tags in ascending order, by code points and by bytes.
Where every code point of the names is above the tab, the first columns are the names, and they are
in ascending order as well. -/
theorem lines_ascending {index : TagIndex} {base : Text}
    (h : ∀ tag ∈ index.tags, ∃ line, Tag.lineFrom base tag = .ok line) :
    ∃ (sorted : List RawTag) (lines : List Text), sorted.Perm index.tags ∧
      sorted.mapM (Tag.lineFrom base) = .ok lines ∧ index.lines base = .ok lines ∧
      Text.Ascending lines ∧
      ((∀ tag ∈ index.tags, ∀ name, tag.name = .string name → ∀ c ∈ name, 9 < c.toNat) →
        sorted.map Tag.name = (lines.map nameColumn).map Json.string ∧
          Text.Ascending (lines.map nameColumn)) ∧
      ∀ (a b : Text) (x y : List UInt8), a.utf8? = some x → b.utf8? = some y →
        (List.le x y ↔ List.le a.points b.points) := by
  -- sorting the lines is sorting the tags by their lines
  let lineOf (tag : RawTag) : Text := (Tag.lineFrom base tag).toOption.getD []
  have hline (tag) (htag : tag ∈ index.tags) : Tag.lineFrom base tag = .ok (lineOf tag) := by
    obtain ⟨line, hok⟩ := h tag htag
    simp [lineOf, hok, Except.toOption]
  let sorted := index.tags.mergeSort fun a b => Text.le (lineOf a) (lineOf b)
  have hperm : sorted.Perm index.tags := List.mergeSort_perm ..
  have hsorted (tag) (htag : tag ∈ sorted) : Tag.lineFrom base tag = .ok (lineOf tag) :=
    hline tag (hperm.mem_iff.1 htag)
  have hlines : (index.tags.map lineOf).mergeSort Text.le = sorted.map lineOf := by
    symm
    apply List.map_mergeSort
    exact fun _ _ _ _ => rfl
  have hle : (sorted.map lineOf).Pairwise fun a b => Text.le a b = true := by
    rw [← hlines]
    exact @List.pairwise_mergeSort Text Text.le (fun _ _ _ => Text.le_trans) Text.le_total _
  refine ⟨sorted, sorted.map lineOf, hperm, mapM_eq_ok_map hsorted, ?_, Text.ascending_of_le hle,
    fun hnames => ?_, fun _ _ _ _ => Text.le_utf8?_iff⟩
  · rw [lines, mapM_eq_ok_map hline]
    exact congrArg Except.ok hlines
  · have hname (tag) (htag : tag ∈ sorted) : ∃ name rest, tag.name = .string name ∧
        lineOf tag = name ++ .char '\t' :: rest ∧ nameColumn (lineOf tag) = name ∧
        ∀ c ∈ name, 9 < c.toNat := by
      obtain ⟨name, path, rest, hname, -, heq⟩ := Tag.lineFrom_eq_ok (hsorted tag htag)
      have hpoints := hnames tag (hperm.mem_iff.1 htag) name hname
      have htab : .char '\t' ∉ name := fun hmem => absurd (hpoints _ hmem) (by decide)
      exact ⟨name, _, hname, heq, by rw [heq, nameColumn_append htab], hpoints⟩
    constructor
    · rw [List.map_map, List.map_map]
      refine List.map_congr_left fun tag htag => ?_
      obtain ⟨name, rest, hname, -, hcolumn, -⟩ := hname tag htag
      rw [hname, Function.comp, Function.comp, hcolumn]
    · rw [List.map_map]
      refine Text.ascending_of_le (List.pairwise_map.2 ?_)
      refine (List.pairwise_map.1 hle).imp_of_mem fun {a b} ha hb hab => ?_
      obtain ⟨name, rest, -, heq, hcolumn, hpoints⟩ := hname a ha
      obtain ⟨name', rest', -, heq', hcolumn', -⟩ := hname b hb
      rw [Function.comp, Function.comp, hcolumn, hcolumn']
      rw [heq, heq'] at hab
      exact Text.le_of_le_append_tab hpoints hab

/-- The tag of a class with some name. -/
def classNamed (name : Text) : SourceTag where
  name
  path := "/a.php"
  pattern := "/class/"
  kind := .classDecl
  line := 1
  scope := none
  extras := []
  access := none

/-- The tags of a name, of another one that starts with it and of a third one with longer bytes. -/
def threeClasses : List RawTag := [classNamed "日", classNamed "ab", classNamed "a"].map Tag.raw

theorem lines_ascending_threeClasses : ∃ lines, (TagIndex.mk threeClasses).lines "/" = .ok lines ∧
    Text.Ascending lines ∧ Text.Ascending (lines.map nameColumn) := by
  have hprintable (tag) (htag : tag ∈ threeClasses) : ∃ line, Tag.lineFrom "/" tag = .ok line := by
    obtain ⟨t, -, rfl⟩ := List.mem_map.1 htag
    exact ⟨_, Tag.lineFrom_raw _ t⟩
  obtain ⟨sorted, lines, -, -, hlines, hascending, hnames, -⟩ :=
    @lines_ascending ⟨threeClasses⟩ "/" hprintable
  refine ⟨lines, hlines, hascending, (hnames ?_).2⟩
  simp only [threeClasses, List.map_cons, List.map_nil, List.forall_mem_cons, Tag.raw, Tag.map,
    classNamed, Json.string.injEq, forall_eq']
  exact ⟨by decide, by decide, by decide, nofun⟩

end TagIndex
end TagsFile
