import TagsFile.Proofs.Discipline
import TagsFile.Proofs.Escaping
import TagsFile.Proofs.Provenance
import TagsFile.Proofs.TagLine
import TagsFile.Proofs.WayBack

/-!
# One line for each tag

Line breaks stand in many tokens, but in no column of a tag: a pattern has them replaced, a
signature has them collapsed, and scopes are labelled by names. So a tags file has as many lines as
tags, and each of them starts with the name of its tag and the path of its file.

## Main definitions

* `Text.IsColumn`: texts without line breaks and tabs.
* `columnRules`: what such names make of the texts of declarations.

## Main statements

* `Extraction.render_lines`: the lines of the tags file of a list of tokens.
-/

namespace TagsFile

/-! ## Texts -/

namespace Text

/-- Whether a text can stand between two tabs of a line. -/
structure IsColumn (t : Text) : Prop where
  no_break : .char '\n' ∉ t
  no_tab : .char '\t' ∉ t

theorem mem_join {c : CodePoint} {separator : Text} {texts : List Text}
    (h : c ∈ join separator texts) : c ∈ separator ∨ ∃ t ∈ texts, c ∈ t := by
  induction texts with
  | nil => cases h
  | cons a texts ih =>
    cases texts with
    | nil => exact .inr ⟨a, by simp, by simpa using h⟩
    | cons b texts =>
      rw [join_cons_cons, List.mem_append, List.mem_append] at h
      grind

theorem mem_collapse {c : CodePoint} {inRun : Bool} {t : Text} (h : c ∈ t.collapse inRun) :
    c = .char ' ' ∨ ¬c.satisfies isBlank := by
  fun_induction collapse inRun t <;> grind

theorem break_notMem_collapseBlanks (t : Text) : .char '\n' ∉ t.collapseBlanks := by
  intro h
  obtain heq | hblank := mem_collapse h
  · exact absurd heq (by decide)
  · exact hblank (by decide)

end Text

open Text

theorem break_notMem_searchCommand (pattern : Text) : .char '\n' ∉ searchCommand pattern := by
  simp only [searchCommand, List.mem_append, not_or]
  exact ⟨⟨by decide, break_notMem_escapePattern _⟩, by decide⟩

theorem subset_of_mem_splitAtEach [DecidableEq α] {mark : α} {cs : List α} :
    ∀ piece ∈ splitAtEach mark cs, ∀ c ∈ piece, c ∈ cs := by
  fun_induction splitAtEach mark cs <;> grind

theorem length_splitAtEach [DecidableEq α] (mark : α) (cs : List α) :
    (splitAtEach mark cs).length = cs.count mark + 1 := by
  fun_induction splitAtEach mark cs <;> grind [splitAtEach_ne_nil]

/-- A relative path brings dots and slashes to those of its destination. -/
theorem mem_relativePath {c : CodePoint} {base dest : Text} (h : c ∈ relativePath base dest) :
    c = .char '.' ∨ c = .char '/' ∨ c ∈ dest := by
  obtain hslash | ⟨piece, hpiece, hc⟩ := mem_join h
  · exact .inr (.inl (List.mem_singleton.1 hslash))
  obtain hup | hdown := List.mem_append.1 hpiece
  · obtain ⟨_, -, rfl⟩ := List.mem_map.1 hup
    have hdots : c ∈ [CodePoint.char '.', .char '.'] := hc
    grind
  · obtain ⟨common, -, hcommon⟩ := exists_common (segments base) (segments dest)
    have hsegment : piece ∈ segments dest := by
      rw [hcommon]
      exact List.mem_append_right common hdown
    have hkept := subset_of_mem_splitAtEach piece hsegment c hc
    rw [dropSlashes, List.mem_reverse] at hkept
    exact .inr (.inr (List.mem_reverse.1 ((List.dropWhile_suffix _).subset hkept)))

theorem Text.IsColumn.relativePath {dest : Text} (h : dest.IsColumn) (base : Text) :
    (TagsFile.relativePath base dest).IsColumn := by
  constructor <;> intro hmem <;> obtain heq | heq | hdest := mem_relativePath hmem
  · cases heq
  · cases heq
  · exact h.no_break hdest
  · cases heq
  · cases heq
  · exact h.no_tab hdest

theorem break_notMem_toString (n : Int) : .char '\n' ∉ ofString (toString n) := by
  have hdigits (m : Nat) : '\n' ∉ Nat.toDigits 10 m := by
    intro h
    exact absurd (Nat.isDigit_of_mem_toDigits (by decide) (by decide) h) (by decide)
  have hrepr : '\n' ∉ n.repr.toList := by
    rw [Int.repr_eq_if]
    split <;> simp [Nat.repr_eq_ofList_toDigits, hdigits]
  simpa [ofString] using hrepr

/-! ## Tags -/

/-- Where names can stand in columns, signatures and access words have no line breaks. Nothing is
said of snippets, which are escaped later. -/
def columnRules : TextRules where
  token t := t.kind = .name ∨ t.kind = .variableName → t.text.IsColumn
  name := IsColumn
  snippet _ := True
  signature t := .char '\n' ∉ t
  access t := .char '\n' ∉ t
  name_token _ h := h
  snippet_empty := trivial
  snippet_append _ _ _ _ := trivial
  signature_collapse ts _ := break_notMem_collapseBlanks _
  access_word kind a h := by
    unfold Extraction.accessOf? at h
    split at h <;> cases h <;> decide

theorem break_notMem_label? {scopes : ScopeStack} (h : ∀ f ∈ scopes, f.name.IsColumn) {label : Text}
    (hlabel : scopes.label? = some label) : .char '\n' ∉ label := by
  obtain ⟨frame, -, rfl⟩ := Option.map_eq_some_iff.1 hlabel
  simp only [List.mem_append, not_or]
  refine ⟨⟨by cases frame.kind <;> decide, by decide⟩, fun hmem => ?_⟩
  obtain hsep | ⟨name, hname, hbreak⟩ := mem_join hmem
  · exact absurd hsep (by decide)
  · obtain ⟨f, hf, rfl⟩ := List.mem_map.1 hname
    exact (h f hf).no_break hbreak

theorem Declaration.Obeys.break_notMem_columns {d : Declaration} (h : d.Obeys columnRules)
    (file : Text) {path : Text} (hpath : path.IsColumn) :
    ∀ column ∈ (d.tag file).columns path, .char '\n' ∉ column := by
  intro column hcolumn
  simp only [Tag.columns, Declaration.tag, List.mem_append, List.mem_cons, List.not_mem_nil,
    or_false, Option.mem_toList, Option.map_eq_some_iff] at hcolumn
  obtain ((hfixed | hscope) | ⟨signature, hsignature, rfl⟩) | ⟨access, haccess, rfl⟩ := hcolumn
  · obtain rfl | rfl | rfl | rfl | rfl := hfixed
    · exact h.name.no_break
    · exact hpath.no_break
    · exact break_notMem_searchCommand _
    · cases d.kind <;> decide
    · simpa using ⟨by decide, break_notMem_toString d.line⟩
  · exact break_notMem_label? (fun f hf => (h.scopes f hf).1) hscope
  · have hsig : .char '\n' ∉ signature := h.signature signature hsignature
    simpa using ⟨by decide, hsig⟩
  · have hacc : .char '\n' ∉ access := h.access access haccess
    simpa using ⟨by decide, hacc⟩

/-- Lines without line breaks are the pieces of their tags file between its line breaks. -/
theorem splitAtEach_renderLines {lines : List Text} (hne : lines ≠ [])
    (h : ∀ line ∈ lines, .char '\n' ∉ line) :
    splitAtEach (.char '\n') (renderLines lines) = lines ++ [[]] := by
  have hsplit : splitAtEach (.char '\n') (Text.join "\n" lines) = lines := splitAtEach_join hne h
  have happend := splitAtEach_append (.char '\n') (Text.join "\n" lines) []
  rw [hsplit] at happend
  exact happend

theorem Declaration.Obeys.break_notMem_sourceLine {d : Declaration} (h : d.Obeys columnRules)
    {path : Text} (hpath : path.IsColumn) (base : Text) :
    .char '\n' ∉ (d.tag path).sourceLine base := by
  intro hmem
  obtain htab | ⟨column, hcolumn, hbreak⟩ := mem_join hmem
  · exact absurd htab (by decide)
  · exact h.break_notMem_columns path (hpath.relativePath base) column hcolumn hbreak

/-- In a tags file that holds the tags of a list of tokens, there are as many line breaks as tags,
the last one at the end, and between them stand the lines of the tags, each with the name of its tag
before the first tab and the path of the file before the second one. -/
theorem Extraction.render_lines {tokens : List Token} {path : Text} (base : Text)
    (hnames : ∀ t ∈ tokens, t.kind = .name ∨ t.kind = .variableName → t.text.IsColumn)
    (hpath : path.IsColumn) :
    ∃ tags : List SourceTag, (run tokens []).tags path = .ok tags ∧
      (tags ≠ [] → ∃ (text : Text) (perTag lines : List Text),
        (TagIndex.mk (tags.map Tag.raw)).render base = .ok text ∧
        text.count (.char '\n') = tags.length ∧ text.getLast? = some (.char '\n') ∧
        (tags.map Tag.raw).mapM (Tag.lineFrom base) = .ok perTag ∧ lines.Perm perTag ∧
        splitAtEach (.char '\n') text = lines ++ [[]] ∧
        ∀ tag ∈ tags, ∃ rest, Tag.lineFrom base tag.raw =
            .ok (tag.name ++ .char '\t' :: (relativePath base path ++ .char '\t' :: rest)) ∧
          .char '\t' ∉ tag.name ∧ .char '\t' ∉ relativePath base path) := by
  have hobeys := obeys_run (R := columnRules) hnames
  refine ⟨_, tags_run tokens [] path, fun hne => ?_⟩
  generalize hdecl : (run tokens []).declarations = ds at hobeys hne ⊢
  let tags := ds.map (Declaration.tag path)
  let lines := (tags.map (Tag.sourceLine base)).mergeSort Text.le
  have hperm : lines.Perm (tags.map (Tag.sourceLine base)) := List.mergeSort_perm ..
  have hsplit : splitAtEach (.char '\n') (renderLines lines) = lines ++ [[]] := by
    apply splitAtEach_renderLines
    · intro hnil
      rw [hnil] at hperm
      exact hne (List.map_eq_nil_iff.1 hperm.nil_eq.symm)
    · intro line hline
      obtain ⟨tag, htag, rfl⟩ := List.mem_map.1 (hperm.mem_iff.1 hline)
      obtain ⟨d, hd, rfl⟩ := List.mem_map.1 htag
      exact (hobeys d hd).break_notMem_sourceLine hpath base
  refine ⟨renderLines lines, tags.map (Tag.sourceLine base), lines, ?_, ?_, ?_,
    Tag.mapM_lineFrom_raw base tags, hperm, hsplit, ?_⟩
  · rw [TagIndex.render, TagIndex.lines, Tag.mapM_lineFrom_raw]
    rfl
  · have hlength := congrArg List.length hsplit
    rw [length_splitAtEach, List.length_append, hperm.length_eq, List.length_map] at hlength
    exact Nat.succ.inj hlength
  · exact List.getLast?_concat
  · intro tag htag
    obtain ⟨d, hd, rfl⟩ := List.mem_map.1 htag
    have hline := Tag.lineFrom_raw base (d.tag path)
    obtain ⟨name, file, rest, hname, hfile, heq⟩ := Tag.lineFrom_eq_ok hline
    cases hname
    cases hfile
    rw [heq] at hline
    exact ⟨rest, hline, (hobeys d hd).name.no_tab, (hpath.relativePath base).no_tab⟩

/-- A class with a function, and line breaks wherever they can stand. -/
def brokenClass : List Token :=
  [⟨.classWord, "class", 1⟩, ⟨.comment, "/*\n*/", 1⟩, ⟨.name, "A", 2⟩, ⟨.symbol, "\x7b", 2⟩,
    ⟨.functionWord, "function", 3⟩, ⟨.blank, "\n", 3⟩, ⟨.name, "f", 4⟩, ⟨.symbol, "(", 4⟩,
    ⟨.blank, "\n\t", 4⟩, ⟨.variableName, "$x", 5⟩, ⟨.symbol, ")", 5⟩, ⟨.symbol, ";", 5⟩,
    ⟨.symbol, "\x7d", 6⟩]

theorem Extraction.render_lines_brokenClass : ∃ (tags : List SourceTag) (text : Text),
    (run brokenClass []).tags "/a.php" = .ok tags ∧
      (TagIndex.mk (tags.map Tag.raw)).render "/" = .ok text ∧ text.count (.char '\n') = 2 := by
  have hnames : ∀ t ∈ brokenClass, t.kind = .name ∨ t.kind = .variableName → t.text.IsColumn := by
    intro t ht hkind
    constructor <;> revert t <;> decide
  have hlength : (run brokenClass []).declarations.length = 2 := by cbv
  obtain ⟨tags, htags, hrender⟩ := @render_lines brokenClass "/a.php" "/" hnames
    ⟨by decide, by decide⟩
  have htwo : tags.length = 2 := by
    rw [tags_run] at htags
    rw [← Except.ok.inj htags, List.length_map, hlength]
  obtain ⟨text, perTag, lines, htext, hcount, -⟩ := hrender (by rintro rfl; cases htwo)
  exact ⟨tags, text, htags, htext, hcount.trans htwo⟩

end TagsFile
