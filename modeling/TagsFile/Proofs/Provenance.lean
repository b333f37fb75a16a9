import Mathlib
import TagsFile.Declaration.Extraction

/-!
# Where the texts of declarations come from

All texts of an extraction come from its tokens: a name is the text of one token, a snippet is put
together from several, and a signature is what the blanks of several are collapsed to. A rule about
these texts that holds of what tokens give therefore holds of all that is declared.

## Main definitions

* `TextRules`: rules for the texts of an extraction that follow from a rule for its tokens.
* `Extraction.Obeys`: extractions that obey them.

## Main statements

* `Extraction.Obeys.items`: what is declared obeys the rules that the tokens obey.
-/

namespace TagsFile

/-- Rules for the texts of an extraction, by what the texts are for. Texts that come from tokens
which obey their rule obey theirs. -/
structure TextRules where
  token : Token → Prop
  name : Text → Prop
  snippet : Text → Prop
  signature : Text → Prop
  access : Text → Prop
  name_token : ∀ t, token t → t.kind = .name ∨ t.kind = .variableName → name t.text
  snippet_empty : snippet ""
  snippet_append : ∀ s t, snippet s → token t → snippet (s ++ t.text)
  signature_collapse : ∀ ts : List Token, (∀ t ∈ ts, token t) →
    signature (Text.collapseBlanks (ts.flatMap Token.text))
  access_word : ∀ kind a, Extraction.accessOf? kind = some a → access a

variable {R : TextRules}

theorem forall_none {P : Text → Prop} : ∀ t, (none : Option Text) = some t → P t :=
  fun _ h => nomatch h

theorem TextRules.snippet_token (R : TextRules) {t : Token} (h : R.token t) : R.snippet t.text :=
  R.snippet_append "" t R.snippet_empty h

/-! ## Cursors -/

namespace Cursor

/-- Whether the tokens from a cursor on and its snippet obey the rules. -/
structure Obeys (R : TextRules) (c : Cursor) : Prop where
  tokens : ∀ t ∈ c.rest, R.token t
  snippet : R.snippet c.snippet

variable {c : Cursor}

theorem Obeys.head (h : c.Obeys R) {t : Token} {ts : List Token} (hrest : c.rest = t :: ts) :
    R.token t :=
  h.tokens t (by simp [hrest])

theorem Obeys.advance (h : c.Obeys R) : c.advance.Obeys R where
  tokens t ht := h.tokens t (List.mem_of_mem_tail (c.rest_advance ▸ ht))
  snippet := by
    rw [Cursor.advance]
    split
    · exact h.snippet
    · rename_i first rest hrest
      rw [record]
      split
      · exact h.snippet
      · rename_i t ts hts
        split
        · apply R.snippet_append _ _ h.snippet
          grind [h.tokens]
        · exact h.snippet

theorem Obeys.startCollect (h : c.Obeys R) : c.startCollect.Obeys R where
  tokens := h.tokens
  snippet := by
    rw [Cursor.startCollect, current?]
    cases hrest : c.rest with
    | nil => exact R.snippet_empty
    | cons t ts => exact R.snippet_token (h.head hrest)

theorem Obeys.stopCollect (h : c.Obeys R) : c.stopCollect.Obeys R := ⟨h.tokens, h.snippet⟩

theorem Obeys.skipTo (h : c.Obeys R) (texts : List Text) : (c.skipTo texts).2.Obeys R := by
  fun_induction Cursor.skipTo texts c with
  | case1 | case2 => exact h.advance
  | case3 c t ts _ _ ih => exact ih h.advance

theorem Obeys.skipBlock (h : c.Obeys R) : c.skipBlock.Obeys R := by
  have hblocks (depth : Nat) : (c.skipBlocks depth).Obeys R := by
    fun_induction skipBlocks depth c with
    | case1 | case3 => exact h.advance
    | case2 _ c _ _ _ _ ih | case4 _ c _ _ _ _ _ _ ih | case5 _ c _ _ _ _ _ ih => exact ih h.advance
  exact hblocks 1

theorem Obeys.toName (h : c.Obeys R) :
    (∀ name, c.toName.1 = some name → R.name name) ∧ c.toName.2.Obeys R := by
  fun_induction Cursor.toName c with
  | case1 | case3 => exact ⟨by simp, h.advance⟩
  | case2 c t ts hrest hkind =>
    refine ⟨?_, h.advance⟩
    rintro _ ⟨⟩
    exact R.name_token t (h.advance.head hrest) (.inl hkind)
  | case4 c t ts hrest _ _ ih => exact ih h.advance

/-- A group is the text of some tokens one after the other. -/
theorem group_eq (depth : Int) (c : Cursor) :
    ∃ ts : List Token, ts ⊆ c.rest ∧ (c.group depth).1 = ts.flatMap Token.text := by
  fun_induction Cursor.group depth c with
  | case1 => exact ⟨[], by simp, rfl⟩
  | case2 depth c t ts hrest => exact ⟨[t], by simp [hrest], by simp⟩
  | case3 depth c t ts hrest _ inner texts c' hgroup ih =>
    obtain ⟨us, hsub, htext⟩ := ih
    refine ⟨t :: us, ?_, by simp [← htext, hgroup]⟩
    rw [rest_advance] at hsub
    simp only [List.cons_subset, hrest, List.mem_cons, true_or, true_and]
    exact fun u hu => List.mem_cons_of_mem t (by simpa [hrest] using hsub hu)

theorem Obeys.parameters (h : c.Obeys R) :
    R.signature c.parameters.1 ∧ c.parameters.2.Obeys R := by
  constructor
  · obtain ⟨ts, hsub, htext⟩ := c.group_eq 0
    have hsignature := R.signature_collapse ts fun t ht => h.tokens t (hsub ht)
    rwa [← htext] at hsignature
  · have hgroup (depth : Int) : (c.group depth).2.Obeys R := by
      fun_induction Cursor.group depth c with
      | case1 | case2 => exact h
      | case3 depth c t ts hrest _ inner texts c' hgroup ih => simpa [hgroup] using ih h.advance
    exact hgroup 0

end Cursor

/-- Whether what is known of a function obeys the rules. -/
structure FunctionParts.Obeys (R : TextRules) (p : FunctionParts) : Prop where
  name : ∀ t, p.name = some t → R.name t
  pattern : ∀ t, p.pattern = some t → R.snippet t
  signature : ∀ t, p.signature = some t → R.signature t

namespace FunctionParts

variable {p : FunctionParts} {text : Text}

theorem Obeys.takePattern (h : p.Obeys R) (ht : R.snippet text) : (p.takePattern text).Obeys R := by
  rw [FunctionParts.takePattern]
  split
  · exact ⟨h.name, by rintro _ ⟨⟩; exact ht, h.signature⟩
  · exact h

theorem Obeys.takeName (h : p.Obeys R) (ht : R.name text) : (p.takeName text).Obeys R := by
  rw [FunctionParts.takeName]
  split
  · exact ⟨by rintro _ ⟨⟩; exact ht, h.pattern, h.signature⟩
  · exact h

theorem Obeys.takeSignature (h : p.Obeys R) (ht : R.signature text) :
    (p.takeSignature text).Obeys R := by
  rw [FunctionParts.takeSignature]
  split
  · exact ⟨h.name, h.pattern, by rintro _ ⟨⟩; exact ht⟩
  · exact h

end FunctionParts

theorem Cursor.Obeys.functionParts {c : Cursor} {p : FunctionParts} (hp : p.Obeys R)
    (hc : c.Obeys R) : (c.functionParts p).1.Obeys R ∧ (c.functionParts p).2.Obeys R := by
  have hnext {p : FunctionParts} {c : Cursor} (hc : c.Obeys R) :
      (if p.afterName then c.advance.stopCollect else c.advance).Obeys R := by
    split
    · exact hc.advance.stopCollect
    · exact hc.advance
  fun_induction Cursor.functionParts p c with
  | case1 p c => exact ⟨hp, hc.advance⟩
  | case2 p c t ts hrest next q hkind ih =>
    have hname := R.name_token t (hc.advance.head hrest) (.inl hkind)
    exact ih ((hp.takePattern hc.advance.snippet).takeName hname) (hnext hc)
  | case3 p c t ts hrest next q _ _ ih =>
    have hparameters := Obeys.parameters (hnext hc : next.Obeys R)
    exact ih ((hp.takePattern hc.advance.snippet).takeSignature hparameters.1) hparameters.2
  | case4 p c t ts hrest next q =>
    have hq : q.Obeys R := hp.takePattern hc.advance.snippet
    exact ⟨⟨hq.name, hq.pattern, hq.signature⟩, Obeys.skipBlock (hnext hc)⟩
  | case5 p c t ts hrest next q =>
    have hq : q.Obeys R := hp.takePattern hc.advance.snippet
    exact ⟨⟨hq.name, hq.pattern, hq.signature⟩, hnext hc⟩
  | case6 p c t ts hrest next q _ _ _ _ ih =>
    exact ih (hp.takePattern hc.advance.snippet) (hnext hc)

/-! ## Extractions -/

/-- Whether the names and patterns of some scopes obey the rules. -/
def ScopeStack.Obeys (R : TextRules) (s : ScopeStack) : Prop :=
  ∀ f ∈ s, R.name f.name ∧ ∀ t, f.pattern = some t → R.snippet t

/-- Whether the texts of a declaration obey the rules. -/
structure Declaration.Obeys (R : TextRules) (d : Declaration) : Prop where
  name : R.name d.name
  snippet : R.snippet d.snippet
  scopes : d.scopes.Obeys R
  signature : ∀ t, d.signature = some t → R.signature t
  access : ∀ t, d.access = some t → R.access t

namespace Extraction

/-- Whether all texts of an extraction obey the rules. -/
structure Obeys (R : TextRules) (e : Extraction) : Prop where
  cursor : e.cursor.Obeys R
  scopes : e.scopes.Obeys R
  declarations : ∀ d ∈ e.declarations, d.Obeys R

variable {e : Extraction}

theorem Obeys.move (h : e.Obeys R) {cursor : Cursor} (hc : cursor.Obeys R) :
    Obeys R { e with cursor } :=
  ⟨hc, h.scopes, h.declarations⟩

theorem Obeys.advance (h : e.Obeys R) : e.advance.Obeys R := h.move h.cursor.advance

theorem Obeys.startCollect (h : e.Obeys R) : e.startCollect.Obeys R := h.move h.cursor.startCollect

theorem Obeys.stopCollect (h : e.Obeys R) : e.stopCollect.Obeys R := h.move h.cursor.stopCollect

theorem Obeys.skipBlock (h : e.Obeys R) : e.skipBlock.Obeys R := h.move h.cursor.skipBlock

theorem Obeys.line (h : e.Obeys R) : e.line.2.Obeys R := by
  rw [Extraction.line]
  split
  · exact h
  · exact ⟨h.cursor, h.scopes, h.declarations⟩

theorem Obeys.enter (h : e.Obeys R) {frame : ScopeFrame} (hname : R.name frame.name)
    (hpattern : ∀ t, frame.pattern = some t → R.snippet t) : (e.enter frame).Obeys R where
  cursor := h.cursor
  scopes f hf := by
    obtain hf | hf := List.mem_append.1 hf
    · exact h.scopes f hf
    · obtain rfl := List.mem_singleton.1 hf
      exact ⟨hname, hpattern⟩
  declarations := h.declarations

theorem Obeys.leave (h : e.Obeys R) : e.leave.Obeys R := by
  rw [Extraction.leave]
  split
  · rename_i frame scopes hpop
    obtain ⟨last, hlast, heq⟩ := Option.map_eq_some_iff.1 hpop
    cases heq
    exact ⟨h.cursor, fun f hf => h.scopes f (List.dropLast_subset _ hf), h.declarations⟩
  · exact ⟨h.cursor, h.scopes, h.declarations⟩

theorem Obeys.declare (h : e.Obeys R) {name snippet : Text} {signature access : Option Text}
    (hname : R.name name) (hsnippet : R.snippet snippet)
    (hsignature : ∀ t, signature = some t → R.signature t)
    (haccess : ∀ t, access = some t → R.access t) (kind : TagKind) (line : Int) :
    (e.declare name kind line snippet signature access).Obeys R where
  cursor := h.cursor
  scopes := h.scopes
  declarations d hd := by
    obtain hd | hd := List.mem_append.1 hd
    · exact h.declarations d hd
    · obtain rfl := List.mem_singleton.1 hd
      exact ⟨hname, hsnippet, h.scopes, hsignature, haccess⟩

theorem Obeys.function (h : e.Obeys R) {access : Option Text}
    (haccess : ∀ t, access = some t → R.access t) : (e.function access).Obeys R := by
  have hparts := Cursor.Obeys.functionParts (p := {}) ⟨nofun, nofun, nofun⟩
    h.line.cursor.startCollect
  have hmoved := h.line.move hparts.2.stopCollect
  rw [Extraction.function]
  dsimp only
  split
  · rename_i name pattern _ hname hpattern
    exact hmoved.declare (hparts.1.name _ hname) (hparts.1.pattern _ hpattern) hparts.1.signature
      haccess _ _
  · exact hmoved

theorem Obeys.named (h : e.Obeys R) (kind : TagKind) :
    (∀ name, (e.named kind).1 = some name → R.name name) ∧ R.snippet (e.named kind).2.1 ∧
      (e.named kind).2.2.Obeys R := by
  have hname := h.line.cursor.startCollect.toName
  have hmoved := h.line.move hname.2.stopCollect
  rw [Extraction.named]
  dsimp only
  split
  · rename_i name heq
    refine ⟨?_, hname.2.snippet, hmoved.declare (hname.1 _ heq) hname.2.snippet
      forall_none forall_none _ _⟩
    rintro _ ⟨⟩
    exact hname.1 _ heq
  · exact ⟨nofun, hname.2.snippet, hmoved⟩

theorem Obeys.properties (h : e.Obeys R) {access : Option Text}
    (haccess : ∀ t, access = some t → R.access t) (first : Bool) :
    (e.properties access first).Obeys R := by
  fun_induction Extraction.properties access first e with
  | case1 => exact h.stopCollect
  | case2 access first e t ts hrest _ ih => exact ih h.advance (R.access_word t.kind)
  | case3 access first e t ts hrest _ hkind e' ih =>
    have hstart : e'.Obeys R := by
      cases first
      · exact h.startCollect.stopCollect
      · exact h.stopCollect
    have hname := R.name_token t (h.cursor.head hrest) (.inr hkind)
    exact ih (hstart.declare hname hstart.cursor.snippet forall_none haccess _ _).advance
      haccess
  | case4 access first e => exact h.function haccess
  | case5 access first e => exact (h.stopCollect.named _).2.2
  | case6 access first e => exact h.stopCollect
  | case7 access first e => exact h.stopCollect.skipBlock
  | case8 access first e t ts _ _ _ _ _ _ _ ih => exact ih h.advance haccess

theorem Obeys.members (h : e.Obeys R) (skipsBlocks : Bool) : (e.members skipsBlocks).Obeys R := by
  fun_induction Extraction.members skipsBlocks e with
  | case1 | case6 => exact h.advance
  | case2 e t ts _ _ ih => exact ih (h.advance.startCollect.properties forall_none true)
  | case3 e t ts _ _ _ ih => exact ih (h.advance.named _).2.2
  | case4 e t ts _ _ _ _ ih => exact ih (h.advance.function (R.access_word .publicWord))
  | case5 e t ts _ _ _ _ _ ih => exact ih h.advance.skipBlock
  | case7 e t ts _ _ _ _ _ _ ih => exact ih h.advance

theorem Obeys.toBody (h : e.Obeys R) : e.toBody.2.Obeys R := h.move (h.cursor.skipTo _)

theorem Obeys.type (h : e.Obeys R) (kind : TagKind) (scope : ScopeKind) (skipsBlocks : Bool) :
    (e.type kind scope skipsBlocks).Obeys R := by
  obtain ⟨hname, hpattern, hnamed⟩ := h.named kind
  rw [Extraction.type]
  dsimp only
  split
  · rw [anonymousBody]
    repeat' split
    all_goals first
      | exact hnamed
      | exact hnamed.skipBlock
      | exact hnamed.toBody.skipBlock
      | exact hnamed.toBody
  · rename_i name heq
    have hinner : ((e.named kind).2.2.enter ⟨scope, name, some (e.named kind).2.1⟩).Obeys R :=
      hnamed.enter (hname _ heq) (by rintro _ ⟨⟩; exact hpattern)
    split
    · exact (hinner.toBody.members skipsBlocks).leave
    · exact hinner.toBody.leave

theorem Obeys.declaration (h : e.Obeys R) (t : Token) : (e.declaration t).Obeys R := by
  rw [Extraction.declaration]
  split
  · exact h.type ..
  · exact h.type ..
  · exact h.function nofun
  · exact (h.named _).2.2
  · exact h

theorem Obeys.namespaceBody (h : e.Obeys R) (depth : Nat) : (e.namespaceBody depth).Obeys R := by
  fun_induction Extraction.namespaceBody depth e with
  | case1 | case2 => exact h.advance
  | case3 depth e t ts _ _ _ ih | case4 depth e t ts _ _ _ ih => exact ih h.advance
  | case5 depth e t ts _ _ _ ih => exact ih (h.advance.declaration t)

theorem Obeys.enterNamespace (h : e.Obeys R) {last? : Option (Text × Int)}
    (hlast : ∀ last, last? = some last → R.name last.1) : (e.enterNamespace last?).Obeys R := by
  unfold Extraction.enterNamespace
  dsimp only
  split
  · exact h.stopCollect
  · rename_i name line
    have hname := hlast _ rfl
    refine (h.stopCollect.declare hname h.cursor.snippet forall_none forall_none _ _).enter hname ?_
    rintro _ ⟨⟩
    exact h.cursor.snippet

theorem Obeys.namespaceHeading (h : e.Obeys R) (outer : Nat) {last? : Option (Text × Int)}
    (hlast : ∀ last, last? = some last → R.name last.1) :
    (e.namespaceHeading outer last?).Obeys R := by
  fun_induction Extraction.namespaceHeading outer last? e with
  | case1 last? e => exact h.advance.stopCollect
  | case2 last? e t ts hrest hkind ih =>
    refine ih h.advance ?_
    rintro _ ⟨⟩
    exact R.name_token t (h.advance.cursor.head hrest) (.inl hkind)
  | case3 last? e t ts hrest _ _ ih =>
    refine ih ?_ hlast
    unfold enterSegment
    split
    · exact h.advance
    · exact h.advance.enter (hlast _ rfl) (by simp)
  | case4 last? e t ts hrest _ _ _ =>
    have hbody := (h.advance.enterNamespace hlast).namespaceBody 0
    rw [leaveTo_eq]
    exact ⟨hbody.cursor, fun f hf => hbody.scopes f (List.mem_of_mem_take hf), hbody.declarations⟩
  | case5 last? e => exact h.advance.enterNamespace hlast
  | case6 last? e t ts hrest _ _ _ _ ih => exact ih h.advance hlast

theorem Obeys.items (h : e.Obeys R) : e.items.Obeys R := by
  fun_induction Extraction.items e with
  | case1 e => exact h
  | case2 e t ts hrest ih =>
    refine ih (Obeys.advance ?_)
    rw [item]
    split
    · have houter : Obeys R { e with scopes := [] } := ⟨h.cursor, nofun, h.declarations⟩
      exact houter.startCollect.namespaceHeading _ nofun
    · exact h.declaration t

/-- What is declared in a list of tokens obeys the rules that the tokens obey. -/
theorem obeys_run {tokens : List Token} (h : ∀ t ∈ tokens, R.token t) :
    ∀ d ∈ (run tokens []).declarations, d.Obeys R :=
  have hstart : Obeys R { cursor := { rest := tokens } } := ⟨⟨h, R.snippet_empty⟩, nofun, nofun⟩
  hstart.items.declarations

end Extraction
end TagsFile
