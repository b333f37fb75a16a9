import TagsFile.Proofs.Functions

/-!
# What a visibility word declares

A statement that begins with a visibility word goes on to the first function, constant, semicolon or
block. Up to there every variable is a property, and nothing else is declared. This holds on all
lists of tokens, well formed or not.

## Main definitions

* `Extraction.VisibleStop`: how the statement ends, once its properties have been declared.

## Main statements

* `Extraction.visible_declares_exactly`: all that a visibility word does to an extraction.
-/

namespace TagsFile

/-- A heading takes no name that it does not give. -/
theorem Cursor.givesName_of_toName {c : Cursor} (h : c.toName.1 ≠ none) :
    ∃ gap name rest, GivesName c.rest.tail gap name rest := by
  fun_induction toName c with
  | case1 c | case3 c => exact absurd rfl h
  | case2 c t ts hrest hname =>
    exact ⟨[], t, ts, (rest_advance c).symm.trans hrest, by simp, hname⟩
  | case4 c t ts hrest hname hends ih =>
    obtain ⟨gap, name, rest, hgives⟩ := ih h
    have hgap : t.isGap = true := by simp [isGap_iff, hname, hends]
    exact ⟨t :: gap, name, rest, tail_eq_cons hrest hgives.split,
      List.forall_mem_cons.2 ⟨hgap, hgives.gap_isGap⟩, hgives.name_kind⟩

namespace Extraction

variable {e : Extraction} {v t : Token} {ts : List Token}

/-- A constant is declared without access by the name that its heading gives. Without a name nothing
is declared. -/
theorem constant_declares (hrest : e.cursor.rest = t :: ts) :
    (∀ gap name rest, GivesName ts gap name rest →
      Adds [{ name := name.text, kind := .constantDecl, line := t.line,
              snippet := snippetOf (t :: (gap ++ [name])), scopes := e.scopes }] e e.constant) ∧
    ((∀ gap name rest, ¬GivesName ts gap name rest) → Adds [] e e.constant) := by
  refine ⟨fun gap name rest hgives => ?_, fun hnone => ?_⟩
  · obtain ⟨-, -, hreads⟩ := named_eq .constantDecl hgives.gap_isGap hgives.name_kind
      (hrest.trans (congrArg (t :: ·) hgives.split))
    exact ⟨hreads.scopes, hreads.fault, hreads.declarations⟩
  · have hname : e.cursor.startCollect.toName.1 = none := by
      by_contra hfound
      obtain ⟨gap, name, rest, hgives⟩ := Cursor.givesName_of_toName hfound
      exact hnone gap name rest (tail_startCollect hrest ▸ hgives)
    rw [constant, named_eq_toName, line_of_rest hrest]
    simp only [hname]
    exact adds_cursor e _

theorem line_stopCollect (hrest : e.cursor.rest = t :: ts) :
    e.stopCollect.line = (t.line, e.stopCollect) := line_of_rest hrest

/-- A function begins its own snippet. -/
theorem function_stopCollect (access : Option Text) (hrest : e.cursor.rest = t :: ts) :
    e.stopCollect.function access = e.function access := by
  rw [function_eq, function_eq, line_stopCollect hrest, line_of_rest hrest]
  rfl

/-- What is done at the end of a visibility statement, where the access `access` is in force. -/
inductive VisibleStop (access : Option Text) (e : Extraction) : Extraction → Prop where
  | unended (hrest : e.cursor.rest = []) : VisibleStop access e e
  | semicolon {t : Token} {ts : List Token} (hrest : e.cursor.rest = t :: ts)
      (ht : t.isSymbol ";" = true) : VisibleStop access e e
  | function {t : Token} {ts : List Token} (hrest : e.cursor.rest = t :: ts)
      (ht : t.kind = .functionWord) : VisibleStop access e (e.function access)
  | constant {t : Token} {ts : List Token} (hrest : e.cursor.rest = t :: ts)
      (ht : t.kind = .constWord)
      (hnamed : ∀ gap name rest, GivesName ts gap name rest →
        Adds [{ name := name.text, kind := .constantDecl, line := t.line,
                snippet := snippetOf (t :: (gap ++ [name])), scopes := e.scopes, access := none }]
          e e.constant)
      (hunnamed : (∀ gap name rest, ¬GivesName ts gap name rest) → Adds [] e e.constant) :
      VisibleStop access e e.constant
  | block {t : Token} {ts : List Token} {e' : Extraction} (hrest : e.cursor.rest = t :: ts)
      (ht : t.opensBlock = true) (hadds : Adds [] e e') (hstop : BlockStop ts e'.cursor.rest) :
      VisibleStop access e e'

theorem ends_of_staysVisible (h : t.staysVisible = false) :
    t.kind = .functionWord ∨ t.kind = .constWord ∨ t.isSymbol ";" = true ∨ t.opensBlock = true := by
  by_contra hnone
  simp_all [Token.staysVisible]

/-- At the first token that does not stay in the statement, the properties are done. -/
theorem visibleStop_properties (access : Option Text) (first : Bool)
    (h : ∀ t ts, e.cursor.rest = t :: ts → t.staysVisible = false) :
    VisibleStop access e.stopCollect (e.properties access first) := by
  cases hrest : e.cursor.rest with
  | nil =>
    rw [properties_end access first hrest]
    exact .unended hrest
  | cons t ts =>
    have hcons := properties_cons access first hrest
    rcases ends_of_staysVisible (h t ts hrest) with hkind | hkind | hsemicolon | hopens
    · simp only [hkind, accessOf?] at hcons
      rw [show e.properties access first = e.function access from hcons,
        ← function_stopCollect access hrest]
      exact .function hrest hkind
    · simp only [hkind, accessOf?] at hcons
      rw [show e.properties access first = e.stopCollect.constant from hcons]
      obtain ⟨hnamed, hunnamed⟩ := constant_declares (e := e.stopCollect) hrest
      exact .constant hrest hkind hnamed hunnamed
    · simp only [Cursor.kind_of_isSymbol hsemicolon, accessOf?, hsemicolon] at hcons
      rw [show e.properties access first = e.stopCollect from hcons]
      exact .semicolon hrest hsemicolon
    · have hnot : t.isSymbol ";" = false := by
        obtain hbrace | hkind := Bool.or_eq_true_iff.1 hopens
        · exact Cursor.isSymbol_of_isSymbol hbrace (by decide)
        · simp [Token.isSymbol, of_decide_eq_true hkind]
      have hskip : e.properties access first = e.stopCollect.skipBlock := by
        rcases kind_of_opensBlock hopens with hkind | hkind <;>
          simpa [hkind, accessOf?, hnot, hopens] using hcons
      have hstop := Cursor.blockStop_skipBlock e.stopCollect.cursor
      rw [show e.stopCollect.cursor.rest.tail = ts by simp [stopCollect, hrest]] at hstop
      rw [hskip]
      exact .block hrest hopens (adds_cursor _ _) hstop

/-- All that a visibility word `v` does. Every variable up to the end of its statement is a property
with the access of the last visibility word before it; the first of them has the snippet from `v`
on, and the others have their own text. Nothing else is declared before the end, where the last
access is in force for a function. -/
theorem visible_declares_exactly (hrest : e.cursor.rest = v :: ts)
    (hv : (accessOf? v.kind).isSome = true) :
    ∃ e' : Extraction, Adds (propertiesIn e.scopes [v] (ts.takeWhile Token.staysVisible)) e e' ∧
      e'.cursor.rest = ts.dropWhile Token.staysVisible ∧
      VisibleStop (accessAfter (v :: ts.takeWhile Token.staysVisible)) e' e.visible := by
  have hword : v.staysVisible = true ∧ v.kind ≠ .variableName := by
    rcases kind_of_accessOf? hv with hkind | hkind | hkind | hkind <;>
      simp [Token.staysVisible, Token.isSymbol, Token.opensBlock, hkind]
  have hsplit : e.startCollect.cursor.rest =
      (v :: ts.takeWhile Token.staysVisible) ++ ts.dropWhile Token.staysVisible := by
    rw [List.cons_append, List.takeWhile_append_dropWhile]
    exact hrest
  have hspan : ∀ t ∈ v :: ts.takeWhile Token.staysVisible, t.staysVisible = true :=
    List.forall_mem_cons.2 ⟨hword.1, fun t ht => List.mem_takeWhile_imp ht⟩
  obtain ⟨e', hend, hread, heq⟩ := @properties_span _ [] _ e.startCollect hspan
    (fun _ t ts ht => Cursor.collects_startCollect (c := e.cursor) ht) hsplit
  rw [propertiesIn, if_neg hword.2] at hread
  refine ⟨e'.stopCollect, ⟨hread.scopes, hread.fault, hread.declarations⟩, hend, ?_⟩
  have hstop : ∀ t rest, e'.cursor.rest = t :: rest → t.staysVisible = false := by
    intro t rest ht
    rw [hend] at ht
    have hhead := List.head?_dropWhile_not Token.staysVisible ts
    rw [ht] at hhead
    simpa using hhead
  rw [visible]
  exact heq ▸ visibleStop_properties _ _ hstop

/-- Two properties behind different visibility words, of which the second has a block. -/
def hookedProperties : Extraction where
  cursor := { rest := [⟨.privateWord, "private", 1⟩, ⟨.blank, "\n", 1⟩,
    ⟨.variableName, "$a", 2⟩, ⟨.varWord, "var", 2⟩, ⟨.variableName, "$b", 3⟩,
    ⟨.symbol, "\x7b", 3⟩, ⟨.variableName, "$c", 3⟩, ⟨.symbol, "\x7d", 3⟩,
    ⟨.variableName, "$d", 4⟩] }
  scopes := [⟨.classScope, "A", some "class A"⟩]

theorem visible_declares_exactly_hookedProperties :
    ∃ e' : Extraction,
      Adds [{ name := "$a", kind := .propertyDecl, line := 2, snippet := "private\n",
              scopes := hookedProperties.scopes, access := some "private" },
            { name := "$b", kind := .propertyDecl, line := 3, snippet := "$b",
              scopes := hookedProperties.scopes, access := some "public" }] hookedProperties e' ∧
        e'.cursor.rest = [⟨.symbol, "\x7b", 3⟩, ⟨.variableName, "$c", 3⟩, ⟨.symbol, "\x7d", 3⟩,
          ⟨.variableName, "$d", 4⟩] ∧
        VisibleStop (some "public") e' hookedProperties.visible :=
  @visible_declares_exactly hookedProperties ⟨.privateWord, "private", 1⟩ _ rfl (by decide)

end Extraction
end TagsFile
