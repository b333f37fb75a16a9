import TagsFile.Proofs.CursorWalk

/-!
# The declarations of a program are recovered

An extraction over the tokens of a well-formed program finds the declarations of the program, each
inside its scopes, and ends inside the scopes in which the program ends. The proof follows the
program: every part is read through its last token, adds its declarations, and leaves the scopes as
they were.

## Main definitions

* `Extraction.Reads`: what the reading of one part does.
-/

namespace TagsFile
namespace Extraction

/-- From `e` to `e'` some tokens have been read, with the declarations `ds` in them: `rest` is what
follows the token that is now the current one. -/
structure Reads (rest : List Token) (ds : List Declaration) (e e' : Extraction) : Prop where
  rest_eq : e'.cursor.rest.tail = rest
  declarations : e'.declarations = e.declarations ++ ds
  scopes : e'.scopes = e.scopes
  fault : e'.fault = e.fault

theorem Reads.trans {rest rest' : List Token} {ds ds' : List Declaration} {e e' e'' : Extraction}
    (h : Reads rest ds e e') (h' : Reads rest' ds' e' e'') : Reads rest' (ds ++ ds') e e'' :=
  ⟨h'.rest_eq, by rw [h'.declarations, h.declarations, List.append_assoc],
    h'.scopes.trans h.scopes, h'.fault.trans h.fault⟩

@[simp] theorem scopes_advance (e : Extraction) : e.advance.scopes = e.scopes := rfl

@[simp] theorem cursor_advance (e : Extraction) : e.advance.cursor = e.cursor.advance := rfl

theorem reads_advance (e : Extraction) : Reads e.cursor.rest.tail.tail [] e e.advance :=
  ⟨by simp [advance], by simp [advance], rfl, rfl⟩

theorem Reads.of_advance {rest : List Token} {ds : List Declaration} {e e' : Extraction}
    (h : Reads rest ds e.advance e') : Reads rest ds e e' :=
  ⟨h.rest_eq, h.declarations, h.scopes, h.fault⟩

theorem Reads.enter {rest : List Token} {ds : List Declaration} {e e' : Extraction}
    (h : Reads rest ds e e') (frame : ScopeFrame) :
    Reads rest ds (e.enter frame) (e'.enter frame) :=
  ⟨h.rest_eq, h.declarations, by simp [Extraction.enter, h.scopes], h.fault⟩

/-- A part without declarations, behind which one token is passed over. -/
theorem Reads.advance {t : Token} {rest : List Token} {ds : List Declaration} {e e' : Extraction}
    (h : Reads (t :: rest) ds e e') : Reads rest ds e e'.advance := by
  have hlast := reads_advance e'
  rw [h.rest_eq] at hlast
  simpa using h.trans hlast

theorem reads_skipBlock (b : Block) {e : Extraction} {rest : List Token}
    (h : e.cursor.rest = b.tokens ++ rest) : Reads rest [] e e.skipBlock := by
  have hskip := Cursor.rest_skipBlock b.nested b.closes_closing
    (show e.cursor.rest.tail = b.body ++ b.closing :: rest by simp [h, Group.tokens])
  exact ⟨by simp [skipBlock, hskip], by simp [skipBlock], rfl, rfl⟩

/-! ## Constants and functions -/

theorem line_of_rest {e : Extraction} {t : Token} {ts : List Token} (h : e.cursor.rest = t :: ts) :
    e.line = (t.line, e) := by
  simp [line, Cursor.current?, h]

/-- A heading is read through its name, which is declared. -/
theorem named_eq (kind : TagKind) {e : Extraction} {word name : Token} {gap rest : List Token}
    (hgap : ∀ t ∈ gap, t.isGap = true) (hname : name.kind = .name)
    (h : e.cursor.rest = word :: (gap ++ name :: rest)) :
    (e.named kind).1 = some name.text ∧
      (e.named kind).2.1 = snippetOf (word :: (gap ++ [name])) ∧
      Reads rest [{ name := name.text, kind, line := word.line,
                    snippet := snippetOf (word :: (gap ++ [name])), scopes := e.scopes }]
        e (e.named kind).2.2 := by
  obtain ⟨hfound, hrest, hcollects⟩ := Cursor.toName_gap hgap hname
    (show e.cursor.startCollect.rest.tail = gap ++ name :: rest by simp [h])
    (Cursor.collects_startCollect h)
  have hsnippet := hcollects.snippet
  rw [List.nil_append] at hsnippet
  rw [named, line_of_rest h]
  simp only [hfound]
  exact ⟨trivial, hsnippet, by simp [declare, hrest], by simp [declare, hsnippet], rfl, rfl⟩

theorem reads_constant (c : Constant) {e : Extraction} {rest : List Token}
    (h : e.cursor.rest = c.tokens ++ rest) :
    Reads rest [c.declaration e.scopes] e e.constant :=
  (named_eq .constantDecl c.gap_isGap c.name_kind
    (show e.cursor.rest = c.word :: (c.gap ++ c.name :: rest) by simp [h, Constant.tokens])).2.2

theorem reads_function (f : Function) (access : Option Text) {e : Extraction} {rest : List Token}
    (h : e.cursor.rest = f.tokens ++ rest) :
    Reads rest [f.declaration access e.scopes] e (e.function access) := by
  obtain ⟨hparts, hrest⟩ := Cursor.functionParts_eq f h
  rw [function, line_of_rest (t := f.word) h]
  simp only [hparts]
  exact ⟨by simpa [declare] using hrest, rfl, rfl, rfl⟩

/-! ## Members -/

theorem properties_cons (access : Option Text) (first : Bool) {e : Extraction} {t : Token}
    {ts : List Token} (h : e.cursor.rest = t :: ts) : e.properties access first =
      if (accessOf? t.kind).isSome then e.advance.properties (accessOf? t.kind) first
      else if t.kind = .variableName then
        let e' := (if first then e else e.startCollect).stopCollect
        (e'.declare t.text .propertyDecl t.line e'.cursor.snippet none access).advance.properties
          access false
      else if t.kind = .functionWord then e.function access
      else if t.kind = .constWord then e.stopCollect.constant
      else if t.isSymbol ";" then e.stopCollect
      else if t.opensBlock then e.stopCollect.skipBlock
      else e.advance.properties access first := by
  rw [properties]
  split <;> simp_all

theorem kind_of_accessOf? {kind : TokenKind} (h : (accessOf? kind).isSome = true) :
    kind = .privateWord ∨ kind = .protectedWord ∨ kind = .publicWord ∨ kind = .varWord := by
  cases kind <;> simp_all [accessOf?]

theorem accessAfter_concat (before : List Token) (t : Token) :
    accessAfter (before ++ [t]) = (accessOf? t.kind).or (accessAfter before) := by
  cases h : accessOf? t.kind <;> simp [accessAfter, List.filterMap_append, h]

theorem kind_of_opensBlock {t : Token} (h : t.opensBlock = true) :
    t.kind = .symbol ∨ t.kind = .curlyOpen := by
  simp only [Token.opensBlock, Bool.or_eq_true, decide_eq_true_eq] at h
  exact h.imp_left Cursor.kind_of_isSymbol

/-- The end of a visibility statement, once its properties have been declared. -/
theorem reads_visibleEnd (ending : VisibleEnd) (access : Option Text) (first : Bool)
    {e : Extraction} {rest : List Token} (h : e.cursor.rest = Visible.endTokens ending ++ rest) :
    Reads rest (Visible.endDeclarations access e.scopes ending) e (e.properties access first) := by
  cases ending with
  | semicolon t ht =>
    have hkind := Cursor.kind_of_isSymbol ht
    rw [properties_cons access first (t := t) h]
    simp only [hkind, accessOf?, ht]
    exact ⟨by simp [stopCollect, h, Visible.endTokens],
      by simp [stopCollect, Visible.endDeclarations], rfl, rfl⟩
  | constant c =>
    rw [properties_cons access first (t := c.word) h]
    simp only [c.word_kind, accessOf?]
    obtain ⟨hrest, hdecl, hscopes, hfault⟩ := reads_constant c (e := e.stopCollect) h
    exact ⟨hrest, hdecl, hscopes, hfault⟩
  | function f =>
    rw [properties_cons access first (t := f.word) h]
    simp only [f.word_kind, accessOf?]
    exact reads_function f access h
  | block b =>
    obtain ⟨hrest, hdecl, hscopes, hfault⟩ := reads_skipBlock b (e := e.stopCollect) h
    have hnot : b.opening.isSymbol ";" = false := by
      obtain hbrace | hkind := Bool.or_eq_true_iff.1 b.opens_opening
      · exact Cursor.isSymbol_of_isSymbol hbrace (by decide)
      · simp [Token.isSymbol, of_decide_eq_true hkind]
    rw [properties_cons access first (t := b.opening) h, hnot, b.opens_opening]
    rcases kind_of_opensBlock b.opens_opening with hkind | hkind <;>
      simp only [hkind, accessOf?] <;> exact ⟨hrest, hdecl, hscopes, hfault⟩

/-- A property is declared with the snippet if it is the first one, else with its own text. -/
theorem properties_variable (access : Option Text) (first : Bool) {e : Extraction} {t : Token}
    {ts : List Token} (h : e.cursor.rest = t :: ts) (hkind : t.kind = .variableName) :
    ∃ e', e.properties access first = e'.properties access false ∧ e'.cursor.rest = ts ∧
      Reads ts.tail [{ name := t.text, kind := .propertyDecl, line := t.line,
                       snippet := if first then e.cursor.snippet else t.text, scopes := e.scopes,
                       access }] e e' := by
  have hstep := properties_cons access first h
  simp only [hkind, accessOf?] at hstep
  refine ⟨_, hstep, ?_, ?_⟩
  · cases first <;> simp [advance, declare, stopCollect, startCollect, h]
  · cases first <;>
      exact ⟨by simp [advance, declare, stopCollect, startCollect, h],
        by simp [advance, declare, stopCollect, startCollect, Cursor.startCollect,
          Cursor.current?, h],
        rfl, rfl⟩

/-- The properties of a visibility statement, of which the tokens `before` have been read, and then
what follows. Up to the first property the snippet from the visibility word on is collected. -/
theorem properties_span {span before after : List Token} {e : Extraction}
    (hspan : ∀ t ∈ span, t.staysVisible = true)
    (hcollects : before.any (·.kind = .variableName) = false →
      ∀ t ts, e.cursor.rest = t :: ts → Cursor.Collects (before ++ [t]) e.cursor)
    (h : e.cursor.rest = span ++ after) :
    ∃ e' : Extraction, e'.cursor.rest = after ∧
      Reads after.tail (propertiesIn e.scopes before span) e e' ∧
      e.properties (accessAfter before) (!before.any (·.kind = .variableName)) =
        e'.properties (accessAfter (before ++ span))
          (!(before ++ span).any (·.kind = .variableName)) := by
  induction span generalizing e before with
  | nil =>
    rw [List.append_nil]
    exact ⟨e, h, ⟨congrArg List.tail h, (List.append_nil _).symm, rfl, rfl⟩, rfl⟩
  | cons t span ih =>
    have hstays := hspan t (by simp)
    have hspan' : ∀ s ∈ span, s.staysVisible = true := fun s hs => hspan s (by simp [hs])
    simp only [Token.staysVisible, ne_eq, decide_not, Bool.and_eq_true, Bool.not_eq_eq_eq_not,
      Bool.not_true, decide_eq_false_iff_not] at hstays
    obtain ⟨⟨⟨hfunction, hconst⟩, hsemicolon⟩, hopens⟩ := hstays
    have hassoc : before ++ t :: span = before ++ [t] ++ span := by simp
    by_cases hkind : t.kind = .variableName
    · obtain ⟨e', hstep, hrest, hread⟩ := properties_variable (accessAfter before)
        (!before.any (·.kind = .variableName)) h hkind
      have hsnippet : (if !before.any (·.kind = .variableName) then e.cursor.snippet else t.text) =
          if before.any (·.kind = .variableName) then t.text else snippetOf (before ++ [t]) := by
        cases hany : before.any (·.kind = .variableName) with
        | true => rfl
        | false => exact (hcollects hany t _ h).snippet
      have haccess : accessAfter (before ++ [t]) = accessAfter before := by
        rw [accessAfter_concat, hkind]; rfl
      have hany : (before ++ [t]).any (·.kind = .variableName) = true := by simp [hkind]
      obtain ⟨e'', hrest', hmore, heq⟩ := @ih (before ++ [t]) e' hspan' (by simp [hany]) hrest
      rw [hsnippet] at hread
      rw [hread.scopes] at hmore
      rw [haccess, hany, ← hassoc] at heq
      rw [hstep, propertiesIn, if_pos hkind]
      exact ⟨e'', hrest', hread.trans hmore, heq⟩
    · have hstep : e.properties (accessAfter before) (!before.any (·.kind = .variableName)) =
          e.advance.properties (accessAfter (before ++ [t]))
            (!(before ++ [t]).any (·.kind = .variableName)) := by
        rw [properties_cons _ _ h, accessAfter_concat]
        cases haccess : accessOf? t.kind <;>
          simp [hkind, hfunction, hconst, hsemicolon, hopens]
      have hcollects' : (before ++ [t]).any (·.kind = .variableName) = false → ∀ s ts,
          e.advance.cursor.rest = s :: ts →
            Cursor.Collects (before ++ [t] ++ [s]) e.advance.cursor := by
        intro hany s ts hs
        have hbefore : before.any (·.kind = .variableName) = false := by simp_all
        exact (hcollects hbefore t _ h).advance_concat (by simpa [advance] using hs)
      obtain ⟨e', hrest, hmore, heq⟩ := ih hspan' hcollects' (by simp [advance, h])
      rw [← hassoc] at heq
      rw [hstep, propertiesIn, if_neg hkind, List.nil_append]
      exact ⟨e', hrest, (reads_advance e).trans hmore, heq⟩

/-- The properties of a visibility statement, of which the tokens `before` have been read, and its
end. -/
theorem reads_properties (ending : VisibleEnd) {span before : List Token} {e : Extraction}
    {rest : List Token} (hspan : ∀ t ∈ span, t.staysVisible = true)
    (hcollects : before.any (·.kind = .variableName) = false →
      ∀ t ts, e.cursor.rest = t :: ts → Cursor.Collects (before ++ [t]) e.cursor)
    (h : e.cursor.rest = span ++ (Visible.endTokens ending ++ rest)) :
    Reads rest (propertiesIn e.scopes before span ++
        Visible.endDeclarations (accessAfter (before ++ span)) e.scopes ending)
      e (e.properties (accessAfter before) (!before.any (·.kind = .variableName))) := by
  obtain ⟨e', hrest, hread, heq⟩ := properties_span hspan hcollects h
  have hend := reads_visibleEnd ending (accessAfter (before ++ span))
    (!(before ++ span).any (·.kind = .variableName)) hrest
  rw [hread.scopes] at hend
  exact heq ▸ hread.trans hend

theorem reads_visible (v : Visible) {e : Extraction} {rest : List Token}
    (h : e.cursor.rest = v.tokens ++ rest) :
    Reads rest (v.declarations e.scopes) e e.visible := by
  have hword : v.word.staysVisible = true ∧ v.word.kind ≠ .variableName := by
    rcases kind_of_accessOf? v.word_visibility with hkind | hkind | hkind | hkind <;>
      simp [Token.staysVisible, Token.isSymbol, Token.opensBlock, hkind]
  have hspan : ∀ t ∈ v.word :: v.span, t.staysVisible = true :=
    List.forall_mem_cons.2 ⟨hword.1, v.span_stays⟩
  have hrest : e.startCollect.cursor.rest =
      (v.word :: v.span) ++ (Visible.endTokens v.ending ++ rest) := by
    simp [startCollect, h, Visible.tokens]
  have hread := @reads_properties v.ending _ [] e.startCollect rest hspan
    (fun _ t ts ht => Cursor.collects_startCollect (c := e.cursor) ht) hrest
  rw [propertiesIn, if_neg hword.2] at hread
  exact ⟨hread.rest_eq, hread.declarations, hread.scopes, hread.fault⟩

theorem members_next (skipsBlocks : Bool) {e : Extraction} {t : Token} {ts : List Token}
    (h : e.cursor.rest.tail = t :: ts) : e.members skipsBlocks =
      if (accessOf? t.kind).isSome then e.advance.visible.members skipsBlocks
      else if t.kind = .constWord then e.advance.constant.members skipsBlocks
      else if t.kind = .functionWord then
        (e.advance.function (some "public")).members skipsBlocks
      else if skipsBlocks && t.opensBlock then e.advance.skipBlock.members skipsBlocks
      else if t.closesBlock then e.advance
      else e.advance.members skipsBlocks := by
  rw [members]
  split <;> simp_all [advance]

/-- A member is read, and the members behind it are read on from there. -/
theorem reads_member {skipsBlocks : Bool} (m : Member)
    (hm : skipsBlocks = false → m.isBlock = false) {e : Extraction} {rest : List Token}
    (h : e.cursor.rest.tail = m.tokens ++ rest) :
    ∃ e', Reads rest (m.declarations e.scopes) e e' ∧
      e.members skipsBlocks = e'.members skipsBlocks := by
  have hadvance : e.advance.cursor.rest = m.tokens ++ rest := by simpa [advance] using h
  cases m with
  | filler t ht =>
    simp only [Token.isMemberFiller, Bool.and_eq_true,
      Bool.not_eq_eq_eq_not, Bool.not_true, Option.isNone_iff_eq_none, ne_eq, decide_not,
      decide_eq_false_iff_not] at ht
    refine ⟨e.advance, ⟨by simp [h, Member.tokens], by simp [advance, Member.declarations],
      rfl, rfl⟩, ?_⟩
    rw [members_next skipsBlocks (t := t) h]
    simp [ht]
  | constant c =>
    refine ⟨_, (reads_constant c hadvance).of_advance, ?_⟩
    rw [members_next skipsBlocks (t := c.word) h]
    simp [c.word_kind, accessOf?]
  | function f =>
    refine ⟨_, (reads_function f (some "public") hadvance).of_advance, ?_⟩
    rw [members_next skipsBlocks (t := f.word) h]
    simp [f.word_kind, accessOf?]
  | block b =>
    cases skipsBlocks with
    | false => simp [Member.isBlock] at hm
    | true =>
      refine ⟨_, (reads_skipBlock b hadvance).of_advance, ?_⟩
      rw [members_next true (t := b.opening) h]
      rcases kind_of_opensBlock b.opens_opening with hkind | hkind <;>
        simp [hkind, accessOf?, b.opens_opening]
  | visible v =>
    refine ⟨_, (reads_visible v hadvance).of_advance, ?_⟩
    rw [members_next skipsBlocks (t := v.word) h, if_pos v.word_visibility]

theorem reads_members {skipsBlocks : Bool} {members : List Member}
    (hmembers : skipsBlocks = false → ∀ m ∈ members, m.isBlock = false) {closing : Token}
    (hcloses : closing.closesBlock = true) {e : Extraction} {rest : List Token}
    (h : e.cursor.rest.tail = members.flatMap Member.tokens ++ closing :: rest) :
    Reads rest (members.flatMap (Member.declarations e.scopes)) e (e.members skipsBlocks) := by
  induction members generalizing e with
  | nil =>
    have hkind := Cursor.kind_of_isSymbol hcloses
    have hopens := Cursor.opensBlock_of_closesBlock hcloses
    have hread := reads_advance e
    rw [h] at hread
    rw [members_next skipsBlocks (t := closing) h]
    simpa [hkind, hopens, hcloses, accessOf?] using hread
  | cons m members ih =>
    obtain ⟨e', hread, heq⟩ := reads_member m (fun hs => hmembers hs m (by simp))
      (show e.cursor.rest.tail = m.tokens ++
        (members.flatMap Member.tokens ++ closing :: rest) by simpa using h)
    have hmore := ih (fun hs m hm => hmembers hs m (by simp [hm])) hread.rest_eq
    rw [hread.scopes] at hmore
    rw [heq]
    simpa using hread.trans hmore

/-! ## Types -/

/-- What is read inside of a scope leaves the scopes as they were once the scope is left. -/
theorem Reads.leave {frame : ScopeFrame} {rest : List Token} {ds : List Declaration}
    {e e' : Extraction} (h : Reads rest ds (e.enter frame) e') : Reads rest ds e e'.leave := by
  have hpop : e'.scopes.pop? = some (frame, e.scopes) := by
    rw [h.scopes]; exact ScopeStack.pop?_push e.scopes frame
  have hleave : e'.leave = { e' with scopes := e.scopes } := by
    unfold Extraction.leave; split <;> simp_all
  rw [hleave]
  exact ⟨h.rest_eq, h.declarations, rfl, h.fault⟩

theorem reads_body (d : TypeDecl) {e : Extraction} {rest : List Token}
    (h : e.cursor.rest.tail = d.heading ++ d.opening ::
      (d.members.flatMap Member.tokens ++ d.closing :: rest)) :
    e.toBody.1 = true ∧
      Reads rest (d.members.flatMap (Member.declarations e.scopes)) e
        (e.toBody.2.members d.isClass) := by
  have hbrace : d.opening.text = "\x7b" := by
    have := d.opening_isBrace
    simp_all [Token.isSymbol]
  obtain ⟨hfound, hrest⟩ := Cursor.skipTo_eq hbrace d.heading_text h
  have hread := reads_members d.members_fit d.closes_closing
    (show e.toBody.2.cursor.rest.tail = d.members.flatMap Member.tokens ++ d.closing :: rest by
      rw [toBody, hrest, List.tail_cons])
  exact ⟨hfound, hread.rest_eq, hread.declarations, hread.scopes, hread.fault⟩

theorem reads_type (d : TypeDecl) {e : Extraction} {rest : List Token}
    (h : e.cursor.rest = d.tokens ++ rest) :
    Reads rest (d.declarations e.scopes) e (e.type d.kind d.scopeKind d.isClass) := by
  obtain ⟨hname, hpattern, hread⟩ := named_eq d.kind d.gap_isGap d.name_kind
    (show e.cursor.rest = d.word :: (d.gap ++ d.name :: (d.heading ++ d.opening ::
      (d.members.flatMap Member.tokens ++ d.closing :: rest))) by simp [h, TypeDecl.tokens])
  rw [type]
  generalize e.named d.kind = heading at hname hpattern hread
  obtain ⟨name?, pattern, e₁⟩ := heading
  dsimp only at hname hpattern hread
  subst hname hpattern
  obtain ⟨hfound, hbody⟩ := reads_body d (e := e₁.enter d.frame) hread.rest_eq
  have hmembers := hbody.leave
  have hscopes : (e₁.enter d.frame).scopes = e.scopes.push d.frame := by rw [enter, hread.scopes]
  rw [hscopes] at hmembers
  have hfound' : ((e₁.enter ⟨d.scopeKind, d.name.text,
      some (snippetOf (d.word :: (d.gap ++ [d.name])))⟩).toBody).1 = true := hfound
  simp only [hfound', if_true]
  exact hread.trans hmembers

/-! ## Declarations outside of types -/

/-- The keyword of a declaration. -/
def entryWord : Entry → Token
  | .constant c => c.word
  | .function f => f.word
  | .type d => d.word

theorem exists_tokens_eq_entryWord (x : Entry) : ∃ ts, x.tokens = entryWord x :: ts := by
  cases x <;> exact ⟨_, rfl⟩

theorem kind_entryWord (x : Entry) :
    (entryWord x).kind = .constWord ∨ (entryWord x).kind = .functionWord ∨
      (entryWord x).kind = .classWord ∨ (entryWord x).kind = .interfaceWord := by
  cases x with
  | constant c => exact .inl c.word_kind
  | function f => exact .inr (.inl f.word_kind)
  | type d =>
    have hkind := d.word_kind
    cases hclass : d.isClass <;> simp_all [entryWord]

theorem reads_declaration (x : Entry) {e : Extraction} {rest : List Token}
    (h : e.cursor.rest = x.tokens ++ rest) :
    Reads rest (x.declarations e.scopes) e (e.declaration (entryWord x)) := by
  cases x with
  | constant c =>
    rw [declaration, show (entryWord (.constant c)).kind = .constWord from c.word_kind]
    exact reads_constant c h
  | function f =>
    rw [declaration, show (entryWord (.function f)).kind = .functionWord from f.word_kind]
    exact reads_function f none h
  | type d =>
    have hread := reads_type d h
    have hkind := d.word_kind
    cases hclass : d.isClass <;>
      simp_all [declaration, entryWord, TypeDecl.kind, TypeDecl.scopeKind, Entry.declarations]

/-! ## Namespaces -/

theorem namespaceBody_next (depth : Nat) {e : Extraction} {t : Token} {ts : List Token}
    (h : e.cursor.rest.tail = t :: ts) : e.namespaceBody depth =
      if t.closesBlock then
        if depth = 0 then e.advance else e.advance.namespaceBody (depth - 1)
      else if t.opensBlock then e.advance.namespaceBody (depth + 1)
      else (e.advance.declaration t).namespaceBody depth := by
  rw [namespaceBody]
  split <;> simp_all [advance]

theorem declaration_of_not_isDeclaring {t : Token} (h : t.isDeclaring = false) (e : Extraction) :
    e.declaration t = e := by
  rcases t with ⟨kind, text, line⟩
  cases kind <;> simp_all [declaration, Token.isDeclaring]

mutual

/-- An element of a namespace is read, and what is behind it is read on from there. -/
theorem reads_element (x : Element) (depth : Nat) {e : Extraction} {rest : List Token}
    (h : e.cursor.rest.tail = x.tokens ++ rest) :
    ∃ e', Reads rest (x.declarations e.scopes) e e' ∧
      e.namespaceBody depth = e'.namespaceBody depth := by
  cases x with
  | filler t ht =>
    have hread := reads_advance e
    rw [h, Element.tokens] at hread
    refine ⟨e.advance, by simpa [Element.declarations] using hread, ?_⟩
    rw [namespaceBody_next depth (t := t) h, ht.2.1, ht.2.2,
      declaration_of_not_isDeclaring ht.1]
    simp
  | entry x =>
    obtain ⟨ts, hts⟩ := exists_tokens_eq_entryWord x
    have hread := (reads_declaration x (e := e.advance)
      (show e.advance.cursor.rest = x.tokens ++ rest by
        simpa [advance, Element.tokens] using h)).of_advance
    refine ⟨_, hread, ?_⟩
    rw [namespaceBody_next depth (show e.cursor.rest.tail = entryWord x :: (ts ++ rest) by
      simpa [Element.tokens, hts] using h)]
    rcases kind_entryWord x with hkind | hkind | hkind | hkind <;>
      simp [Token.closesBlock, Token.opensBlock, Token.isSymbol, hkind]
  | block opening body closing hblock =>
    obtain ⟨hopens, hcloses⟩ := hblock
    have hnotClose : opening.closesBlock = false := by
      rcases hc : opening.closesBlock with _ | _
      · rfl
      · simp [Cursor.opensBlock_of_closesBlock hc] at hopens
    have hinner : e.advance.cursor.rest.tail = Element.tokensAll body ++ closing :: rest := by
      simp [advance, h, Element.tokens]
    obtain ⟨e₁, hread, heq⟩ := reads_elements body (depth + 1) hinner
    refine ⟨e₁.advance, ?_, ?_⟩
    · simpa [Element.declarations] using hread.of_advance.advance
    · rw [namespaceBody_next depth (t := opening) h, hnotClose, hopens]
      simp only [Bool.false_eq_true, if_false, if_true]
      rw [heq, namespaceBody_next _ hread.rest_eq, hcloses]
      simp

theorem reads_elements (xs : List Element) (depth : Nat) {e : Extraction} {rest : List Token}
    (h : e.cursor.rest.tail = Element.tokensAll xs ++ rest) :
    ∃ e', Reads rest (Element.declarationsAll e.scopes xs) e e' ∧
      e.namespaceBody depth = e'.namespaceBody depth := by
  cases xs with
  | nil => exact ⟨e, ⟨h, by simp [Element.declarationsAll], rfl, rfl⟩, rfl⟩
  | cons x xs =>
    obtain ⟨e₁, hread₁, heq₁⟩ := reads_element x depth
      (show e.cursor.rest.tail = x.tokens ++ (Element.tokensAll xs ++ rest) by
        simpa [Element.tokensAll] using h)
    obtain ⟨e₂, hread₂, heq₂⟩ := reads_elements xs depth hread₁.rest_eq
    rw [hread₁.scopes] at hread₂
    refine ⟨e₂, ?_, heq₁.trans heq₂⟩
    simpa [Element.declarationsAll] using hread₁.trans hread₂

end

theorem namespaceHeading_next (outer : Nat) (last? : Option (Text × Int)) {e : Extraction}
    {t : Token} {ts : List Token} (h : e.cursor.rest.tail = t :: ts) :
    e.namespaceHeading outer last? =
      if t.kind = .name then e.advance.namespaceHeading outer (some (t.text, t.line))
      else if t.kind = .nsSeparator then
        (e.advance.enterSegment last?).namespaceHeading outer last?
      else if t.isSymbol "\x7b" then
        let e' := (e.advance.enterNamespace last?).namespaceBody 0
        { e' with scopes := e'.scopes.take outer }
      else if t.isSymbol ";" then e.advance.enterNamespace last?
      else e.advance.namespaceHeading outer last? := by
  rw [namespaceHeading]
  split <;> simp_all [advance, leaveTo_eq]

theorem heading_layout (outer : Nat) (last? : Option (Text × Int)) {layout : List Token}
    (hlayout : ∀ t ∈ layout, t.kind.isLayout = true) {first : Token} {walked rest : List Token}
    {e : Extraction} (hcollects : e.cursor.Collects (first :: walked))
    (h : e.cursor.rest.tail = layout ++ rest) :
    ∃ e', Reads rest [] e e' ∧ e'.cursor.Collects (first :: (walked ++ layout)) ∧
      e.namespaceHeading outer last? = e'.namespaceHeading outer last? := by
  induction layout generalizing e walked with
  | nil => exact ⟨e, ⟨h, by simp, rfl, rfl⟩, by simpa using hcollects, rfl⟩
  | cons t layout ih =>
    have hkind : t.kind = .comment ∨ t.kind = .blank := by
      have := hlayout t (by simp)
      cases hk : t.kind <;> simp_all [TokenKind.isLayout]
    obtain ⟨e', hread, hcollects', heq⟩ := ih (fun s hs => hlayout s (by simp [hs]))
      (e := e.advance) (hcollects.advance h) (by simp [advance, h])
    refine ⟨e', hread.of_advance, by simpa using hcollects', ?_⟩
    rw [namespaceHeading_next outer last? h, ← heq]
    rcases hkind with hkind | hkind <;> simp [hkind, Token.isSymbol]

/-- A name in the heading of a namespace becomes the last one. -/
theorem heading_segment (outer : Nat) (last? : Option (Text × Int)) (s : Segment) {first : Token}
    {walked rest : List Token} {e : Extraction} (hcollects : e.cursor.Collects (first :: walked))
    (h : e.cursor.rest.tail = s.tokens ++ rest) :
    ∃ e', Reads rest [] e e' ∧ e'.cursor.Collects (first :: (walked ++ s.tokens)) ∧
      e.namespaceHeading outer last? =
        e'.namespaceHeading outer (some (s.name.text, s.name.line)) := by
  obtain ⟨e₁, hread, hcollects₁, heq⟩ := heading_layout outer last? s.layout_isLayout hcollects
    (show e.cursor.rest.tail = s.layout ++ s.name :: rest by simp [h, Segment.tokens])
  refine ⟨e₁.advance, hread.advance, ?_, ?_⟩
  · simpa [Segment.tokens] using hcollects₁.advance hread.rest_eq
  · rw [heq, namespaceHeading_next outer last? hread.rest_eq, if_pos s.name_kind]

/-- A separator enters the scope of the name before it. -/
theorem heading_nextSegment (outer : Nat) (last : Token) (s : NextSegment) {first : Token}
    {walked rest : List Token} {e : Extraction} (hcollects : e.cursor.Collects (first :: walked))
    (h : e.cursor.rest.tail = s.tokens ++ rest) :
    ∃ e', Reads rest [] (e.enter (segmentScope last)) e' ∧
      e'.cursor.Collects (first :: (walked ++ s.tokens)) ∧
      e.namespaceHeading outer (some (last.text, last.line)) =
        e'.namespaceHeading outer (some (s.name.text, s.name.line)) := by
  obtain ⟨e₁, hread₁, hcollects₁, heq₁⟩ := heading_layout outer
    (some (last.text, last.line)) s.before_isLayout hcollects
    (show e.cursor.rest.tail = s.before ++ s.separator :: (s.toSegment.tokens ++ rest) by
      simp [h, NextSegment.tokens])
  have hstep : e₁.namespaceHeading outer (some (last.text, last.line)) =
      (e₁.advance.enter (segmentScope last)).namespaceHeading outer
        (some (last.text, last.line)) := by
    rw [namespaceHeading_next outer _ hread₁.rest_eq]
    simp [s.separator_kind, enterSegment, segmentScope]
  obtain ⟨e', hread', hcollects', heq'⟩ := heading_segment outer (some (last.text, last.line))
    s.toSegment (e := e₁.advance.enter (segmentScope last)) (hcollects₁.advance hread₁.rest_eq)
    (hread₁.advance.enter (segmentScope last)).rest_eq
  refine ⟨e', ?_, by simpa [NextSegment.tokens] using hcollects', heq₁.trans (hstep.trans heq')⟩
  simpa using (hread₁.advance.enter (segmentScope last)).trans hread'

/-- The further names in the heading of a namespace: the last one is kept, and the scopes of all
before it are entered. -/
theorem heading_more (outer : Nat) (last : Token) {more : List NextSegment} {first : Token}
    {walked rest : List Token} {e : Extraction} (hcollects : e.cursor.Collects (first :: walked))
    (h : e.cursor.rest.tail = more.flatMap NextSegment.tokens ++ rest) :
    ∃ e', Reads rest [] { e with scopes := e.scopes ++
          (last :: more.map (·.name)).dropLast.map segmentScope } e' ∧
      e'.cursor.Collects (first :: (walked ++ more.flatMap NextSegment.tokens)) ∧
      e.namespaceHeading outer (some (last.text, last.line)) =
        e'.namespaceHeading outer (((more.map (·.name)).getLast?.getD last).text,
          ((more.map (·.name)).getLast?.getD last).line) := by
  induction more generalizing e last walked with
  | nil => exact ⟨e, ⟨h, by simp, by simp, rfl⟩, by simpa using hcollects, rfl⟩
  | cons s more ih =>
    obtain ⟨e₁, hread₁, hcollects₁, heq₁⟩ := heading_nextSegment outer last s hcollects
      (show e.cursor.rest.tail = s.tokens ++ (more.flatMap NextSegment.tokens ++ rest) by
        simp [h])
    obtain ⟨e', hread', hcollects', heq'⟩ := ih s.name hcollects₁ hread₁.rest_eq
    refine ⟨e', ⟨hread'.rest_eq, ?_, ?_, ?_⟩, by simpa using hcollects', ?_⟩
    · rw [hread'.declarations]; simp [hread₁.declarations, enter]
    · rw [hread'.scopes]; simp [hread₁.scopes, enter, ScopeStack.push]
    · rw [hread'.fault]; exact hread₁.fault
    · rw [heq₁, heq', List.map_cons, List.getLast?_cons, Option.getD_some]

/-- The heading of a namespace up to the token that ends it. -/
theorem reads_heading (n : NamespaceDecl) {e : Extraction} {rest : List Token}
    (hscopes : e.scopes = []) (h : e.cursor.rest = n.headingTokens ++ rest) :
    ∃ e', Reads (n.ending.mark :: rest) [] { e with scopes := n.outerScopes } e' ∧
      e'.cursor.advance.snippet = snippetOf n.headingTokens ∧
      e.namespaceDeclaration = e'.namespaceHeading 0 (some (n.last.text, n.last.line)) := by
  have hstart := Cursor.collects_startCollect (t := n.word) h
  obtain ⟨e₁, hread₁, hcollects₁, heq₁⟩ := heading_segment 0 none n.first (e := e.startCollect)
    hstart (show e.startCollect.cursor.rest.tail = n.first.tokens ++
        (n.more.flatMap NextSegment.tokens ++ (n.layout ++ n.ending.mark :: rest)) by
      simp [startCollect, h, NamespaceDecl.headingTokens])
  obtain ⟨e₂, hread₂, hcollects₂, heq₂⟩ := heading_more 0 n.first.name hcollects₁
    hread₁.rest_eq
  obtain ⟨e₃, hread₃, hcollects₃, heq₃⟩ := heading_layout 0 (some (n.last.text, n.last.line))
    n.layout_isLayout hcollects₂ hread₂.rest_eq
  refine ⟨e₃, ⟨hread₃.rest_eq, ?_, ?_, ?_⟩, ?_, ?_⟩
  · rw [hread₃.declarations, hread₂.declarations]
    simp [hread₁.declarations, startCollect]
  · rw [hread₃.scopes, hread₂.scopes, hread₁.scopes]
    simp [startCollect, hscopes, NamespaceDecl.outerScopes, NamespaceDecl.names]
  · rw [hread₃.fault, hread₂.fault]
    exact hread₁.fault
  · rw [(hcollects₃.advance hread₃.rest_eq).snippet]
    simp [NamespaceDecl.headingTokens]
  · rw [namespaceDeclaration, hscopes]
    exact heq₁.trans (heq₂.trans heq₃)

/-- A namespace is declared inside the scopes of its outer names, and then entered. -/
theorem reads_enterNamespace (n : NamespaceDecl) {e e₁ : Extraction} {rest : List Token}
    (h : Reads (n.ending.mark :: rest) [] { e with scopes := n.outerScopes } e₁)
    (hsnippet : e₁.cursor.advance.snippet = snippetOf n.headingTokens) :
    Reads rest [n.declaration] { e with scopes := n.innerScopes }
      (e₁.advance.enterNamespace (some (n.last.text, n.last.line))) := by
  have hdecl : e₁.advance.declarations = e.declarations := by simpa using h.advance.declarations
  have hscopes : e₁.scopes = n.outerScopes := h.scopes
  refine ⟨h.advance.rest_eq, ?_, ?_, h.advance.fault⟩
  · simp [enterNamespace, enter, declare, stopCollect, hdecl, hscopes, hsnippet,
      NamespaceDecl.declaration]
  · simp [enterNamespace, enter, declare, stopCollect, hscopes, hsnippet, ScopeStack.push,
      NamespaceDecl.innerScopes]

theorem reads_namespace (n : NamespaceDecl) {e : Extraction} {rest : List Token}
    (hscopes : e.scopes = []) (h : e.cursor.rest = n.tokens ++ rest) :
    Reads rest n.declarations { e with scopes := n.scopesAfter } e.namespaceDeclaration := by
  obtain ⟨e₁, hread₁, hsnippet, heq⟩ := reads_heading n hscopes
    (show e.cursor.rest = n.headingTokens ++ (n.ending.bodyTokens ++ rest) by
      simp [h, NamespaceDecl.tokens])
  have henter := reads_enterNamespace n hread₁ hsnippet
  rw [heq]
  cases hend : n.ending with
  | semicolon t ht =>
    rw [hend] at hread₁ henter
    have hkind := Cursor.kind_of_isSymbol ht
    have hbrace := Cursor.isSymbol_of_isSymbol ht (b := "\x7b") (by decide)
    rw [namespaceHeading_next 0 _ hread₁.rest_eq]
    simpa [hkind, hbrace, ht, NamespaceEnd.mark, NamespaceEnd.bodyTokens,
      NamespaceDecl.declarations, NamespaceDecl.scopesAfter, hend] using henter
  | body opening elements closing hblock =>
    rw [hend] at hread₁ henter
    have hkind := Cursor.kind_of_isSymbol hblock.1
    obtain ⟨e₂, hread₂, heq₂⟩ := reads_elements elements 0
      (show (e₁.advance.enterNamespace (some (n.last.text, n.last.line))).cursor.rest.tail =
          Element.tokensAll elements ++ closing :: rest by
        rw [henter.rest_eq]; simp [NamespaceEnd.bodyTokens])
    have hclose : e₂.namespaceBody 0 = e₂.advance := by
      rw [namespaceBody_next 0 hread₂.rest_eq, hblock.2]; rfl
    have hall := henter.trans hread₂.advance
    rw [henter.scopes] at hall
    rw [namespaceHeading_next 0 _ hread₁.rest_eq]
    simp only [NamespaceEnd.mark, hkind, hblock.1, heq₂, hclose, reduceCtorEq, if_false, if_true,
      List.take_zero]
    exact ⟨hall.rest_eq, by simpa [NamespaceDecl.declarations, hend] using hall.declarations,
      by simp [NamespaceDecl.scopesAfter, hend], hall.fault⟩

/-! ## Programs -/

theorem reads_item (i : Item) {e : Extraction} {rest : List Token}
    (h : e.cursor.rest = i.tokens ++ rest) :
    ∃ t ts, i.tokens = t :: ts ∧ Reads rest (i.declarations e.scopes)
      { e with scopes := i.scopesAfter e.scopes } (e.item t) := by
  cases i with
  | filler t ht =>
    refine ⟨t, [], rfl, ?_⟩
    have hkind : t.kind ≠ .namespaceWord := by
      intro hkind; simp [Token.isDeclaring, hkind] at ht
    rw [item, if_neg hkind, declaration_of_not_isDeclaring ht]
    exact ⟨by simp [h, Item.tokens], by simp [Item.declarations], rfl, rfl⟩
  | entry x =>
    obtain ⟨ts, hts⟩ := exists_tokens_eq_entryWord x
    refine ⟨entryWord x, ts, hts, ?_⟩
    have hkind : (entryWord x).kind ≠ .namespaceWord := by
      rcases kind_entryWord x with hk | hk | hk | hk <;> simp [hk]
    rw [item, if_neg hkind]
    exact reads_declaration x h
  | namespaceDecl n =>
    refine ⟨n.word, _, rfl, ?_⟩
    rw [item, if_pos n.word_kind]
    exact reads_namespace n (e := { e with scopes := [] }) rfl h

theorem items_cons {e : Extraction} {t : Token} {ts : List Token} (h : e.cursor.rest = t :: ts) :
    e.items = (e.item t).advance.items := by
  rw [items]
  split <;> simp_all

theorem items_eq (p : Program) {e : Extraction} (h : e.cursor.rest = p.tokens) :
    e.items.declarations = e.declarations ++ p.declarations e.scopes ∧
      e.items.scopes = p.scopesAfter e.scopes ∧ e.items.fault = e.fault := by
  induction p generalizing e with
  | nil =>
    have hitems : e.items = e := by
      rw [items]
      split <;> simp_all [Program.tokens]
    simp [hitems, Program.declarations, Program.scopesAfter]
  | cons i p ih =>
    obtain ⟨t, ts, hts, hread⟩ := reads_item i
      (show e.cursor.rest = i.tokens ++ Program.tokens p by simp [h, Program.tokens])
    obtain ⟨hdecl, hscopes, hfault⟩ := ih (e := (e.item t).advance) (by simpa using hread.rest_eq)
    have hnext : e.cursor.rest = t :: (ts ++ Program.tokens p) := by
      simp [h, Program.tokens, hts]
    rw [scopes_advance, hread.scopes] at hdecl hscopes
    rw [items_cons hnext]
    refine ⟨?_, hscopes, hfault.trans hread.fault⟩
    calc (e.item t).advance.items.declarations
        = (e.item t).declarations ++ Program.declarations (i.scopesAfter e.scopes) p := hdecl
      _ = e.declarations ++ (i.declarations e.scopes ++
            Program.declarations (i.scopesAfter e.scopes) p) := by
          rw [hread.declarations, List.append_assoc]

end Extraction

/-- From the tokens of a well-formed program exactly its declarations are recovered, in order, each
with the scopes around it, and the scopes at the end are those of the program. -/
theorem run_recovers_declarations (p : Program) (path : Text) (scopes : ScopeStack) :
    (Extraction.run p.tokens scopes).tags path =
        .ok ((p.declarations scopes).map (Declaration.tag path)) ∧
      (Extraction.run p.tokens scopes).scopes = p.scopesAfter scopes := by
  obtain ⟨hdecl, hscopes, hfault⟩ := Extraction.items_eq p
    (e := { cursor := { rest := p.tokens }, scopes }) rfl
  refine ⟨?_, hscopes⟩
  rw [Extraction.tags, Extraction.run, hfault, hdecl]
  rfl

/-- `namespace N ;class C {const K}`. -/
def oneConstant : Program :=
  [.namespaceDecl {
      word := ⟨.namespaceWord, "namespace", 2⟩
      first := ⟨[⟨.blank, " ", 2⟩], ⟨.name, "N", 2⟩, by decide, rfl⟩
      more := []
      layout := [⟨.blank, " ", 2⟩]
      ending := .semicolon ⟨.symbol, ";", 2⟩ (by decide)
      word_kind := rfl
      layout_isLayout := by decide },
    .entry (.type {
      isClass := true
      word := ⟨.classWord, "class", 3⟩
      gap := [⟨.blank, " ", 3⟩]
      name := ⟨.name, "C", 3⟩
      heading := [⟨.blank, " ", 3⟩]
      opening := ⟨.symbol, "\x7b", 3⟩
      members := [.constant
        ⟨⟨.constWord, "const", 4⟩, [⟨.blank, " ", 4⟩], ⟨.name, "K", 4⟩, rfl, by decide, rfl⟩]
      closing := ⟨.symbol, "\x7d", 5⟩
      word_kind := rfl
      gap_isGap := by decide
      name_kind := rfl
      heading_text := by decide
      opening_isBrace := by decide
      members_fit := by decide
      closes_closing := by decide })]

example :
    oneConstant.tokens.flatMap Token.text = "namespace N ;class C \x7bconst K\x7d" ∧
      (oneConstant.declarations []).map (fun d => (d.name, d.scopes.map (·.name))) =
        ([("N", []), ("C", ["N"]), ("K", ["N", "C"])] : List (Text × List Text)) := by
  decide

end TagsFile
