import TagsFile.Generator
import TagsFile.Proofs.Discipline
import TagsFile.Proofs.EntryText
import TagsFile.Proofs.FileName
import TagsFile.Proofs.Flattening
import TagsFile.Proofs.Provenance

/-!
# Texts without halves of pairs

Whatever the bytes of a source are, its tokens are made of characters, and so is all that is put
together from them. An entry can therefore hold the tags of every source.

## Main definitions

* `Text.IsWhole`: texts that are made of characters.
* `Declaration.IsWhole`: declarations all of whose texts are.
-/

namespace TagsFile

/-! ## Texts -/

namespace Text

/-- Whether a text is made of characters. -/
def IsWhole (t : Text) : Prop := ∀ c ∈ t, ∃ char, c = CodePoint.char char

theorem isWhole_nil : IsWhole [] := nofun

theorem isWhole_map_char (cs : List Char) : IsWhole (cs.map .char) := by
  intro c hc
  obtain ⟨char, -, rfl⟩ := List.mem_map.1 hc
  exact ⟨char, rfl⟩

theorem isWhole_ofString (s : String) : IsWhole s := isWhole_map_char s.toList

theorem isWhole_append {a b : Text} : IsWhole (a ++ b) ↔ IsWhole a ∧ IsWhole b :=
  List.forall_mem_append

theorem IsWhole.unpaired {t : Text} (h : t.IsWhole) : t.unpaired := by
  apply unpaired_of_forall
  intro c hc
  obtain ⟨char, rfl⟩ := h c hc
  have hvalid : char.toNat < 0xD800 ∨ 0xDFFF < char.toNat ∧ char.toNat < 0x110000 := char.valid
  rw [← Bool.not_eq_true, Json.isHighSurrogate, Bool.and_eq_true, decide_eq_true_iff,
    decide_eq_true_iff, CodePoint.toNat]
  omega

theorem isWhole_join {separator : Text} (hseparator : separator.IsWhole) {texts : List Text}
    (htexts : ∀ t ∈ texts, IsWhole t) : IsWhole (join separator texts) := by
  induction texts with
  | nil => exact isWhole_nil
  | cons a texts ih =>
    cases texts with
    | nil => simpa using htexts a (by simp)
    | cons b texts =>
      rw [join_cons_cons]
      exact isWhole_append.2 ⟨isWhole_append.2 ⟨htexts a (by simp), hseparator⟩,
        ih fun t ht => htexts t (by simp [ht])⟩

theorem IsWhole.of_join {separator : Text} {texts : List Text}
    (h : IsWhole (join separator texts)) : ∀ t ∈ texts, IsWhole t := by
  induction texts with
  | nil => nofun
  | cons a texts ih =>
    cases texts with
    | nil => simpa using h
    | cons b texts =>
      rw [join_cons_cons, isWhole_append, isWhole_append] at h
      intro t ht
      obtain rfl | ht := List.mem_cons.1 ht
      · exact h.1.1
      · exact ih h.2 t ht

/-- A text that is made of characters is in the spelling of the file system. -/
theorem IsWhole.spelled {t : Text} (h : t.IsWhole) : t.asFileName? = some t := by
  obtain ⟨s, rfl⟩ : ∃ s : String, t = s := by
    induction t with
    | nil => exact ⟨"", rfl⟩
    | cons c t ih =>
      obtain ⟨s, rfl⟩ := ih fun d hd => h d (by simp [hd])
      obtain ⟨char, rfl⟩ := h c (by simp)
      exact ⟨String.ofList (char :: s.toList), by simp [ofString]⟩
  exact asFileName?_ofString s

theorem IsWhole.collapse {t : Text} (h : t.IsWhole) (inRun : Bool) :
    (t.collapse inRun).IsWhole := by
  fun_induction Text.collapse inRun t with
  | case1 => exact h
  | case2 c rest _ ih => exact ih fun d hd => h d (by simp [hd])
  | case3 inRun c rest _ _ ih =>
    intro d hd
    obtain rfl | hd := List.mem_cons.1 hd
    · exact ⟨' ', rfl⟩
    · exact ih (fun d hd => h d (by simp [hd])) d hd
  | case4 inRun c rest _ ih =>
    intro d hd
    obtain rfl | hd := List.mem_cons.1 hd
    · exact h d (by simp)
    · exact ih (fun d hd => h d (by simp [hd])) d hd

end Text

open Text

theorem isWhole_replacePoint (c : CodePoint) {replacement t : Text} (hr : replacement.IsWhole)
    (ht : t.IsWhole) : (replacePoint c replacement t).IsWhole := by
  intro d hd
  obtain ⟨e, he, hd⟩ := List.mem_flatMap.1 hd
  split at hd
  · exact hr d hd
  · obtain rfl := List.mem_singleton.1 hd
    exact ht d he

theorem isWhole_escapePattern {pattern : Text} (h : pattern.IsWhole) :
    (escapePattern pattern).IsWhole := by
  simp only [escapePattern, patternEscapes, List.foldl_cons, List.foldl_nil]
  repeat' apply isWhole_replacePoint
  all_goals first | exact isWhole_ofString _ | exact h

theorem isWhole_searchCommand {pattern : Text} (h : pattern.IsWhole) :
    (searchCommand pattern).IsWhole :=
  isWhole_append.2 ⟨isWhole_append.2 ⟨isWhole_ofString _, isWhole_escapePattern h⟩,
    isWhole_ofString _⟩

/-! ## Tokens -/

theorem isWhole_tokenize (source : List UInt8) (tree : SyntaxTree) :
    ∀ t ∈ tokenize source tree, t.text.IsWhole := by
  have hemit (f : Flattening) (kind : TokenKind) (n : Nat) (h : ∀ t ∈ f.tokens, t.text.IsWhole) :
      ∀ t ∈ (f.emit kind n).tokens, t.text.IsWhole := by
    intro t ht
    obtain ht | rfl := Array.mem_push.1 ht
    · exact h t ht
    · exact isWhole_map_char _
  have hgap (f : Flattening) (start : Nat) (h : ∀ t ∈ f.tokens, t.text.IsWhole) :
      ∀ t ∈ (f.emitGap start).tokens, t.text.IsWhole := by
    rw [Flattening.emitGap]
    split
    · exact h
    · exact hemit f _ _ h
  intro t ht
  refine hgap _ _ ?_ t (Array.mem_toList_iff.1 ht)
  exact Flattening.flatten_keeps (fun f => ∀ t ∈ f.tokens, t.text.IsWhole) (fun _ => True)
    (fun f start _ _ h => hgap f start h) (fun f kind stop _ _ _ h => hemit f kind _ h)
    (fun _ _ => trivial) (by simp)

/-! ## Declarations -/

/-- Whether the texts of some scopes are whole. -/
def ScopeStack.IsWhole (s : ScopeStack) : Prop :=
  ∀ f ∈ s, f.name.IsWhole ∧ ∀ t, f.pattern = some t → t.IsWhole

/-- Whether the texts of a declaration are whole. -/
structure Declaration.IsWhole (d : Declaration) : Prop where
  name : d.name.IsWhole
  snippet : d.snippet.IsWhole
  scopes : d.scopes.IsWhole
  signature : ∀ t, d.signature = some t → t.IsWhole
  access : ∀ t, d.access = some t → t.IsWhole

theorem Declaration.IsWhole.texts_tag {d : Declaration} (h : d.IsWhole) (path : Text) :
    ∀ t ∈ (d.tag path).texts, t = path ∨ t.IsWhole := by
  intro t ht
  simp only [Tag.texts, Declaration.tag, List.mem_append, List.mem_cons, List.not_mem_nil, or_false,
    Option.mem_toList, Option.map_eq_some_iff, ScopeStack.label?] at ht
  rcases ht with (((rfl | rfl | rfl) | ⟨f, hf, rfl⟩) | ⟨signature, hs, rfl⟩) | ht
  · exact .inr h.name
  · exact .inl rfl
  · refine .inr (isWhole_searchCommand (isWhole_join (isWhole_ofString _) fun t ht => ?_))
    obtain ht | ht := List.mem_append.1 ht
    · obtain ⟨f, hf, hpattern⟩ := List.mem_filterMap.1 ht
      exact (h.scopes f hf).2 t hpattern
    · obtain rfl := List.mem_singleton.1 ht
      exact h.snippet
  · refine .inr (isWhole_append.2 ⟨isWhole_append.2 ⟨?_, isWhole_ofString _⟩, ?_⟩)
    · cases f.kind <;> exact isWhole_ofString _
    · refine isWhole_join (isWhole_ofString _) fun t ht => ?_
      obtain ⟨g, hg, rfl⟩ := List.mem_map.1 ht
      exact (h.scopes g hg).1
  · exact .inr (isWhole_append.2 ⟨isWhole_ofString _, h.signature signature hs⟩)
  · exact .inr (h.access t ht)

/-- Whole tokens give whole texts. -/
def wholeRules : TextRules where
  token t := t.text.IsWhole
  name := IsWhole
  snippet := IsWhole
  signature := IsWhole
  access := IsWhole
  name_token _ h _ := h
  snippet_empty := isWhole_nil
  snippet_append _ _ hs ht := isWhole_append.2 ⟨hs, ht⟩
  signature_collapse ts h := by
    apply IsWhole.collapse
    intro c hc
    obtain ⟨t, ht, hc⟩ := List.mem_flatMap.1 hc
    exact h t ht c hc
  access_word kind a h := by
    unfold Extraction.accessOf? at h
    split at h <;> cases h <;> exact isWhole_ofString _

/-- The texts of a source's tags are whole, its path apart. -/
theorem Generator.texts_of_extract {grammar : Option Grammar} {path : Text} {content : List UInt8}
    {lines : List LogLine} {tags : List SourceTag}
    (h : extract grammar path content = .ok (lines, tags)) :
    ∀ t ∈ tags, ∀ text ∈ t.texts, text = path ∨ text.IsWhole := by
  cases grammar with
  | none => cases h
  | some grammar =>
    rw [extract, Extraction.tags_run] at h
    cases h
    intro t ht
    obtain ⟨d, hd, rfl⟩ := List.mem_map.1 ht
    have hobeys := Extraction.obeys_run (R := wholeRules) (isWhole_tokenize content _) d hd
    have hwhole : d.IsWhole :=
      ⟨hobeys.name, hobeys.snippet, hobeys.scopes, hobeys.signature, hobeys.access⟩
    exact hwhole.texts_tag path

end TagsFile
