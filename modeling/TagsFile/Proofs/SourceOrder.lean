import TagsFile.Proofs.Locality

/-!
# Tags come in source order

Every tag is named by a token of its own, and the tags come in the order of these tokens. The line
of a tag is that of the token that introduces it, which stands behind the name of the tag before.
This holds on all lists of tokens and inside any scopes.

## Main definitions

* `Extraction.Found`: declarations found one behind the other in some tokens.
* `Extraction.Finds`: what an extraction finds between two places.
* `TagPosition`, `StandsAt`: the two tokens of a tag, by their numbers.

## Main statements

* `Extraction.tags_run_in_source_order`: the tags of an extraction have such positions, in order.
-/

namespace TagsFile

/-- The kind of the word that introduces a declaration. Namespaces and properties are introduced by
their names. -/
def TagKind.introducer? : TagKind → Option TokenKind
  | .interfaceDecl => some .interfaceWord
  | .classDecl => some .classWord
  | .functionDecl => some .functionWord
  | .constantDecl => some .constWord
  | .namespaceDecl | .propertyDecl => none

/-- The kind of the token that names a declaration. -/
def TagKind.nameKind : TagKind → TokenKind
  | .propertyDecl => .variableName
  | _ => .name

theorem TagKind.nameKind_of_introducer? {kind : TagKind} {word : TokenKind}
    (h : kind.introducer? = some word) : kind.nameKind = .name := by
  cases kind with
  | propertyDecl => cases h
  | _ => rfl

theorem tail_suffix_tail {xs ys : List Token} (h : xs <:+ ys) : xs.tail <:+ ys.tail := by
  obtain ⟨front, rfl⟩ := h
  cases front with
  | nil => exact List.suffix_refl _
  | cons t front => exact (List.tail_suffix xs).trans (List.suffix_append front xs)

/-! ## Cursors -/

namespace Cursor

variable {c : Cursor} {p : FunctionParts} {text : Text}

/-- No cursor goes back. -/
theorem invariant_suffix (tokens : List Token) : Invariant (·.rest <:+ tokens) where
  advance c h := (rest_advance c ▸ List.tail_suffix c.rest).trans h
  startCollect _ h := h
  stopCollect _ h := h

theorem suffix_parameters (c : Cursor) : c.parameters.2.rest <:+ c.rest :=
  (invariant_suffix c.rest).parameters (List.suffix_refl _)

theorem suffix_skipBlock (c : Cursor) : c.skipBlock.rest <:+ c.rest :=
  (invariant_suffix c.rest).skipBlock (List.suffix_refl _)

/-- A heading stops at the name that it takes. -/
theorem toName_some (h : c.toName.1 = some text) :
    ∃ name rest, c.toName.2.rest = name :: rest ∧ name :: rest <:+ c.rest.tail ∧
      name.kind = .name ∧ name.text = text := by
  fun_induction toName c with
  | case1 | case3 => cases h
  | case2 c t ts hrest hname =>
    rw [rest_advance] at hrest
    exact ⟨t, ts, (rest_advance c).trans hrest, hrest ▸ List.suffix_refl _, hname,
      Option.some.inj h⟩
  | case4 c t ts hrest hname hends ih =>
    obtain ⟨name, rest, hstop, hsuffix, hkind, htext⟩ := ih h
    exact ⟨name, rest, hstop, hsuffix.trans (rest_advance c ▸ List.tail_suffix _), hkind, htext⟩

/-- The tokens at the next step of a function. -/
theorem rest_next (p : FunctionParts) (c : Cursor) :
    (if p.afterName then c.advance.stopCollect else c.advance).rest = c.rest.tail :=
  (rest_afterName p c).trans (rest_advance c)

/-- The walk over a function leaves its keyword. -/
theorem suffix_functionParts (p : FunctionParts) (c : Cursor) :
    (c.functionParts p).2.rest <:+ c.rest.tail := by
  fun_induction functionParts p c with
  | case1 p c hrest => exact rest_advance c ▸ List.suffix_refl _
  | case2 p c t ts hrest next q _ ih | case6 p c t ts hrest next q _ _ _ _ ih =>
    have hnext : next.rest = c.rest.tail := rest_next p c
    exact hnext ▸ ih.trans (List.tail_suffix _)
  | case3 p c t ts hrest next q _ _ ih =>
    have hnext : next.rest = c.rest.tail := rest_next p c
    exact hnext ▸ (ih.trans (List.tail_suffix _)).trans (suffix_parameters next)
  | case4 p c t ts hrest next q =>
    have hnext : next.rest = c.rest.tail := rest_next p c
    exact hnext ▸ suffix_skipBlock next
  | case5 p c t ts hrest next q =>
    have hnext : next.rest = c.rest.tail := rest_next p c
    exact hnext ▸ List.suffix_refl _

/-- A name that has been taken stays. -/
theorem name_functionParts (h : p.name = some text) : (c.functionParts p).1.name = some text := by
  fun_induction functionParts p c with
  | case1 p c => exact h
  | case2 p c t ts hrest next q hname ih => exact ih (by simp [q, FunctionParts.takeName, h])
  | case3 p c t ts hrest next q hname hopens ih => exact ih (by simp [q, h])
  | case4 p c t ts hrest next q | case5 p c t ts hrest next q => simp [q, h]
  | case6 p c t ts hrest next q hname hopens hbrace hsemicolon ih => exact ih (by simp [q, h])

/-- A function is left behind the name that it takes. -/
theorem functionParts_some (hp : p.name = none) (h : (c.functionParts p).1.name = some text) :
    ∃ name rest, name :: rest <:+ c.rest.tail ∧ name.kind = .name ∧ name.text = text ∧
      (c.functionParts p).2.rest <:+ rest := by
  fun_induction functionParts p c with
  | case1 p c =>
    rw [hp] at h
    cases h
  | case2 p c t ts hrest next q hname ih =>
    have hnext : next.rest = t :: ts := (rest_afterName p c).trans hrest
    have hq : q.name = none := by simp [q, hp]
    rw [rest_advance] at hrest
    by_cases hopen : q.signature = none
    · have htaken : (q.takeName t.text).name = some t.text := by
        simp [FunctionParts.takeName, hq, hopen]
      rw [name_functionParts htaken] at h
      refine ⟨t, ts, hrest ▸ List.suffix_refl _, hname, Option.some.inj h, ?_⟩
      have hsuffix := suffix_functionParts (q.takeName t.text) next
      rwa [hnext, List.tail_cons] at hsuffix
    · obtain ⟨name, rest, hsuffix, hfound⟩ :=
        ih (by simp [FunctionParts.takeName, hq, hopen]) h
      rw [hnext, List.tail_cons] at hsuffix
      exact ⟨name, rest, hrest ▸ hsuffix.trans (List.suffix_cons t ts), hfound⟩
  | case3 p c t ts hrest next q hname hopens ih =>
    have hnext : next.rest = c.rest.tail := rest_next p c
    obtain ⟨name, rest, hsuffix, hfound⟩ := ih (by simp [q, hp]) h
    exact ⟨name, rest, hnext ▸ (hsuffix.trans (List.tail_suffix _)).trans (suffix_parameters next),
      hfound⟩
  | case4 p c t ts hrest next q | case5 p c t ts hrest next q =>
    rw [show q.name = none by simp [q, hp]] at h
    cases h
  | case6 p c t ts hrest next q hname hopens hbrace hsemicolon ih =>
    have hnext : next.rest = c.rest.tail := rest_next p c
    obtain ⟨name, rest, hsuffix, hfound⟩ := ih (by simp [q, hp]) h
    exact ⟨name, rest, hnext ▸ hsuffix.trans (List.tail_suffix _), hfound⟩

end Cursor

namespace Extraction

/-! ## Declarations one behind the other -/

/-- The declaration `d` is introduced by `word` and named by `name`, behind which are the tokens
`behind` and `rest`. -/
structure NamedBy (d : Declaration) (word : Token) (behind : List Token) (name : Token)
    (rest : List Token) : Prop where
  suffix : name :: rest <:+ word :: behind
  name_eq : name.text = d.name
  name_kind : name.kind = d.kind.nameKind
  line_eq : word.line = d.line
  word_kind : ∀ kind ∈ d.kind.introducer?, word.kind = kind
  itself : d.kind.introducer? = none → rest = behind

/-- The declarations are found one behind the other in the tokens `ts`, of which `after` come
behind. -/
inductive Found : List Token → List Declaration → List Token → Prop where
  | done {ts after : List Token} (hafter : after <:+ ts) : Found ts [] after
  | declared {ts behind rest after : List Token} {word name : Token} {d : Declaration}
      {ds : List Declaration} (hword : word :: behind <:+ ts)
      (hd : NamedBy d word behind name rest) (hds : Found rest ds after) : Found ts (d :: ds) after

theorem Found.of_suffix {ts ts' after : List Token} {ds : List Declaration}
    (h : Found ts ds after) (hts : ts <:+ ts') : Found ts' ds after := by
  cases h with
  | done hafter => exact .done (hafter.trans hts)
  | declared hword hd hds => exact .declared (hword.trans hts) hd hds

theorem Found.append {ts middle after : List Token} {ds ds' : List Declaration}
    (h : Found ts ds middle) (h' : Found middle ds' after) : Found ts (ds ++ ds') after := by
  induction h with
  | done hmiddle => exact h'.of_suffix hmiddle
  | declared hword hd _ ih => exact .declared hword hd (ih h')

/-- The line of a declaration is that of a token. -/
theorem Found.exists_line {ts after : List Token} {ds : List Declaration} (h : Found ts ds after) :
    ∀ d ∈ ds, ∃ t ∈ ts, t.line = d.line := by
  induction h with
  | done => intro d hd; cases hd
  | @declared ts behind rest after word name d ds hword hd _ ih =>
    have hrest : rest <:+ ts := ((List.suffix_cons name rest).trans hd.suffix).trans hword
    refine List.forall_mem_cons.2 ⟨⟨word, hword.mem List.mem_cons_self, hd.line_eq⟩, ?_⟩
    intro d' hd'
    obtain ⟨t, ht, hline⟩ := ih d' hd'
    exact ⟨t, hrest.mem ht, hline⟩

/-- Where the lines of the tokens do not fall, those of the declarations do not. -/
theorem Found.lines {ts after : List Token} {ds : List Declaration} (h : Found ts ds after)
    (hts : ts.Pairwise (·.line ≤ ·.line)) : ds.Pairwise (·.line ≤ ·.line) := by
  induction h with
  | done => exact .nil
  | @declared ts behind rest after word name d ds hword hd hds ih =>
    have hbehind : rest <:+ behind := by
      obtain hsame | hbehind := List.suffix_cons_iff.1 hd.suffix
      · exact (List.cons.inj hsame).2 ▸ List.suffix_refl _
      · exact (List.suffix_cons name rest).trans hbehind
    obtain ⟨hfirst, hothers⟩ := List.pairwise_cons.1 (hts.sublist hword.sublist)
    refine .cons ?_ (ih (hothers.sublist hbehind.sublist))
    intro d' hd'
    obtain ⟨t, ht, hline⟩ := hds.exists_line d' hd'
    rw [← hd.line_eq, ← hline]
    exact hfirst t (hbehind.mem ht)

/-- From `e` to `e'` declarations have been found, one behind the other in the tokens `ts`, and
`after` come behind them. -/
def Finds (ts after : List Token) (e e' : Extraction) : Prop :=
  ∃ ds, e'.declarations = e.declarations ++ ds ∧ Found ts ds after

variable {ts after middle : List Token} {e e' e'' : Extraction} {t : Token}

theorem Finds.trans (h : Finds ts middle e e') (h' : Finds middle after e' e'') :
    Finds ts after e e'' := by
  obtain ⟨ds, hdecl, hfound⟩ := h
  obtain ⟨ds', hdecl', hfound'⟩ := h'
  exact ⟨ds ++ ds', by rw [hdecl', hdecl, List.append_assoc], hfound.append hfound'⟩

/-- Nothing is found where nothing is declared. -/
theorem finds_nothing (h : e'.declarations = e.declarations) (hafter : after <:+ ts) :
    Finds ts after e e' :=
  ⟨[], by rw [h, List.append_nil], .done hafter⟩

theorem Finds.of_suffix {ts' : List Token} (h : Finds ts after e e') (hts : ts <:+ ts') :
    Finds ts' after e e' :=
  (finds_nothing rfl hts).trans h

theorem finds_declaration {word name : Token} {behind rest : List Token} {d : Declaration}
    (hdecl : e'.declarations = e.declarations ++ [d]) (hword : word :: behind <:+ ts)
    (hd : NamedBy d word behind name rest) (hafter : after <:+ rest) : Finds ts after e e' :=
  ⟨[d], hdecl, .declared hword hd (.done hafter)⟩

/-! ## Functions and constants -/

theorem function_finds (access : Option Text) (hrest : e.cursor.rest = t :: ts)
    (ht : t.kind = .functionWord) :
    Finds e.cursor.rest (e.function access).cursor.rest.tail e (e.function access) := by
  have htail : e.cursor.startCollect.rest.tail = ts := by
    rw [Cursor.rest_startCollect, hrest, List.tail_cons]
  have hsuffix := Cursor.suffix_functionParts {} e.cursor.startCollect
  rw [htail] at hsuffix
  rw [cursor_function, Cursor.rest_stopCollect, function_eq, line_of_rest hrest, hrest]
  dsimp only
  split
  next name pattern _ hname _ =>
    obtain ⟨token, rest, hnamed, hkind, htext, hbehind⟩ := Cursor.functionParts_some rfl hname
    rw [htail] at hnamed
    exact finds_declaration rfl (List.suffix_refl _)
      ⟨hnamed.trans (List.suffix_cons t ts), htext, hkind, rfl, by simp [TagKind.introducer?, ht],
        by simp [TagKind.introducer?]⟩
      ((List.tail_suffix _).trans hbehind)
  next =>
    exact finds_nothing rfl
      (((List.tail_suffix _).trans hsuffix).trans (List.suffix_cons t ts))

/-- A heading is left at the name that it takes. -/
theorem named_finds (kind : TagKind) (hkind : kind.introducer? = some t.kind)
    (hrest : e.cursor.rest = t :: ts) :
    Finds e.cursor.rest (e.named kind).2.2.cursor.rest.tail e (e.named kind).2.2 := by
  have htail : e.cursor.startCollect.rest.tail = ts := by
    rw [Cursor.rest_startCollect, hrest, List.tail_cons]
  have hsuffix : e.cursor.startCollect.toName.2.rest <:+ t :: ts :=
    (Cursor.invariant_suffix (t :: ts)).toName (hrest ▸ List.suffix_refl _)
  rw [cursor_named, Cursor.rest_stopCollect, named_eq_toName, line_of_rest hrest, hrest]
  dsimp only
  split
  next name hname =>
    obtain ⟨token, rest, hstop, hnamed, htoken, htext⟩ := Cursor.toName_some hname
    rw [htail] at hnamed
    exact finds_declaration rfl (List.suffix_refl _)
      ⟨hnamed.trans (List.suffix_cons t ts), htext,
        htoken.trans (TagKind.nameKind_of_introducer? hkind).symm, rfl, by simp [hkind],
        by simp [hkind]⟩
      (hstop ▸ List.suffix_refl _)
  next => exact finds_nothing rfl ((List.tail_suffix _).trans hsuffix)

theorem constant_finds (hrest : e.cursor.rest = t :: ts) (ht : t.kind = .constWord) :
    Finds e.cursor.rest e.constant.cursor.rest.tail e e.constant :=
  named_finds .constantDecl (ht ▸ rfl) hrest

/-! ## Members -/

theorem Finds.of_advance (h : Finds e.advance.cursor.rest after e.advance e') :
    Finds e.cursor.rest.tail after e e' :=
  e.cursor.rest_advance ▸ h

theorem skipBlock_finds (e : Extraction) :
    Finds e.cursor.rest e.skipBlock.cursor.rest.tail e e.skipBlock :=
  finds_nothing rfl ((List.tail_suffix _).trans (Cursor.suffix_skipBlock _))

/-- A property is introduced by its own name. -/
theorem properties_finds (access : Option Text) (first : Bool) (e : Extraction) :
    Finds e.cursor.rest (e.properties access first).cursor.rest.tail e
      (e.properties access first) := by
  fun_induction properties access first e with
  | case1 | case6 => exact finds_nothing rfl (List.tail_suffix _)
  | case2 access first e t ts hrest _ ih | case8 access first e t ts hrest _ _ _ _ _ _ ih =>
    exact ih.of_advance.of_suffix (List.tail_suffix _)
  | case3 access first e t ts hrest haccess hvariable e' ih =>
    have hrest' : e'.cursor.rest = t :: ts := by cases first <;> exact hrest
    have hdecl : e'.declarations = e.declarations := by cases first <;> rfl
    have hnamed : NamedBy
        { name := t.text, kind := .propertyDecl, line := t.line, snippet := e'.cursor.snippet,
          scopes := e'.scopes, access } t ts t ts :=
      ⟨List.suffix_refl _, rfl, hvariable, rfl, by simp [TagKind.introducer?], fun _ => rfl⟩
    refine Finds.trans (finds_declaration ?_ (hrest ▸ List.suffix_refl _) hnamed ?_) ih
    · exact congrArg (· ++ [_]) hdecl
    · simp [advance, declare, hrest']
  | case4 access first e t ts hrest _ _ hfunction =>
    exact function_finds access hrest hfunction
  | case5 access first e t ts hrest _ _ _ hconst =>
    exact constant_finds (e := e.stopCollect) hrest hconst
  | case7 access first e => exact skipBlock_finds e.stopCollect

theorem visible_finds (e : Extraction) :
    Finds e.cursor.rest e.visible.cursor.rest.tail e e.visible :=
  properties_finds none true e.startCollect

theorem members_finds (skipsBlocks : Bool) (e : Extraction) :
    Finds e.cursor.rest.tail (e.members skipsBlocks).cursor.rest.tail e
      (e.members skipsBlocks) := by
  fun_induction members skipsBlocks e with
  | case1 e | case6 e => exact (finds_nothing rfl (List.tail_suffix _)).of_advance
  | case2 e t ts hrest _ ih => exact ((visible_finds e.advance).trans ih).of_advance
  | case3 e t ts hrest _ hconst ih => exact ((constant_finds hrest hconst).trans ih).of_advance
  | case4 e t ts hrest _ _ hfunction ih =>
    exact ((function_finds _ hrest hfunction).trans ih).of_advance
  | case5 e t ts hrest _ _ _ _ ih => exact ((skipBlock_finds e.advance).trans ih).of_advance
  | case7 e t ts hrest _ _ _ _ _ ih => exact (ih.of_suffix (List.tail_suffix _)).of_advance

/-! ## Types -/

theorem suffix_toBody (e : Extraction) : e.toBody.2.cursor.rest <:+ e.cursor.rest :=
  (Cursor.invariant_suffix e.cursor.rest).skipTo (List.suffix_refl _) _

theorem anonymousBody_finds (e : Extraction) :
    Finds e.cursor.rest.tail e.anonymousBody.cursor.rest.tail e e.anonymousBody := by
  have hbody := suffix_toBody e
  rw [anonymousBody]
  split
  · exact finds_nothing rfl (List.suffix_refl _)
  · split
    · exact finds_nothing rfl (List.suffix_refl _)
    · split
      · exact finds_nothing rfl (tail_suffix_tail (Cursor.suffix_skipBlock _))
      · split
        · exact finds_nothing rfl (tail_suffix_tail ((Cursor.suffix_skipBlock _).trans hbody))
        · exact finds_nothing rfl (tail_suffix_tail hbody)

theorem leave_finds (h : Finds ts e'.cursor.rest.tail e e') :
    Finds ts e'.leave.cursor.rest.tail e e'.leave := by
  have hdecl : e'.leave.declarations = e'.declarations := by
    unfold leave
    split <;> rfl
  rw [cursor_leave]
  exact h.trans (finds_nothing hdecl (List.suffix_refl _))

/-- The members of a type are found behind its name. -/
theorem type_finds (kind : TagKind) (hkind : kind.introducer? = some t.kind)
    (hrest : e.cursor.rest = t :: ts) (scope : ScopeKind) (skipsBlocks : Bool) :
    Finds e.cursor.rest (e.type kind scope skipsBlocks).cursor.rest.tail e
      (e.type kind scope skipsBlocks) := by
  have hnamed := named_finds kind hkind hrest
  cases hname : (e.named kind).1 with
  | none =>
    rw [type_of_none kind scope skipsBlocks hname]
    exact hnamed.trans (anonymousBody_finds _)
  | some name =>
    rw [type_of_some kind scope skipsBlocks hname rfl]
    have hbody := tail_suffix_tail (suffix_toBody
      ((e.named kind).2.2.enter ⟨scope, name, some (e.named kind).2.1⟩))
    refine leave_finds (hnamed.trans ?_)
    split
    · exact (members_finds skipsBlocks _).of_suffix hbody
    · exact finds_nothing rfl hbody

theorem declaration_finds (hrest : e.cursor.rest = t :: ts) :
    Finds e.cursor.rest (e.declaration t).cursor.rest.tail e (e.declaration t) := by
  rw [declaration]
  split
  next ht => exact type_finds .interfaceDecl (ht ▸ rfl) hrest _ _
  next ht => exact type_finds .classDecl (ht ▸ rfl) hrest _ _
  next ht => exact function_finds none hrest ht
  next ht => exact constant_finds hrest ht
  next => exact finds_nothing rfl (List.tail_suffix _)

/-! ## Namespaces -/

theorem namespaceBody_finds (depth : Nat) (e : Extraction) :
    Finds e.cursor.rest.tail (e.namespaceBody depth).cursor.rest.tail e
      (e.namespaceBody depth) := by
  fun_induction namespaceBody depth e with
  | case1 _ e | case2 e => exact (finds_nothing rfl (List.tail_suffix _)).of_advance
  | case3 depth e t ts hrest _ _ ih | case4 depth e t ts hrest _ _ ih =>
    exact (ih.of_suffix (List.tail_suffix _)).of_advance
  | case5 depth e t ts hrest _ _ ih => exact ((declaration_finds hrest).trans ih).of_advance

/-- What the heading of a namespace has read of its name: the last token of it. -/
inductive LastName (ts : List Token) : Option (Text × Int) → List Token → Prop where
  | unnamed : LastName ts none ts
  | named {name : Token} {rest : List Token} (hname : name.kind = .name)
      (hsuffix : name :: rest <:+ ts) : LastName ts (some (name.text, name.line)) rest

theorem LastName.suffix {last? : Option (Text × Int)} {rest : List Token}
    (h : LastName ts last? rest) : rest <:+ ts := by
  cases h with
  | unnamed => exact List.suffix_refl _
  | named _ hsuffix => exact (List.suffix_cons _ _).trans hsuffix

theorem enterNamespace_finds {last? : Option (Text × Int)} {rest : List Token}
    (hlast : LastName ts last? rest) (hafter : after <:+ rest) :
    Finds ts after e (e.enterNamespace last?) := by
  cases hlast with
  | unnamed => exact finds_nothing rfl hafter
  | named hname hsuffix =>
    exact finds_declaration rfl hsuffix ⟨List.suffix_refl _, rfl, hname, rfl,
      by simp [TagKind.introducer?], fun _ => rfl⟩ hafter

theorem cursor_enterNamespace (last? : Option (Text × Int)) (e : Extraction) :
    (e.enterNamespace last?).cursor = e.cursor.stopCollect := by
  unfold enterNamespace
  dsimp only
  split <;> rfl

theorem suffix_tail_advance (h : e.cursor.rest.tail <:+ ts) :
    e.advance.cursor.rest.tail <:+ ts :=
  (List.tail_suffix _).trans (e.cursor.rest_advance ▸ h)

/-- As long as the heading of a namespace is read, the last name in it is behind all that has been
found. -/
theorem namespaceHeading_finds {outer : Nat} {last? : Option (Text × Int)} {rest : List Token}
    (hlast : LastName ts last? rest) (hrest : e.cursor.rest.tail <:+ rest) :
    Finds ts (e.namespaceHeading outer last?).cursor.rest.tail e
      (e.namespaceHeading outer last?) := by
  fun_induction namespaceHeading outer last? e generalizing rest with
  | case1 last? e =>
    have hnext := suffix_tail_advance hrest
    exact finds_nothing rfl (hnext.trans hlast.suffix)
  | case2 last? e t behind hcons hname ih =>
    have hname' : t :: behind <:+ ts :=
      (hcons ▸ e.cursor.rest_advance ▸ hrest).trans hlast.suffix
    exact ih (.named hname hname') (hcons ▸ List.suffix_refl _)
  | case3 last? e t behind hcons hname hseparator ih =>
    have hnext := suffix_tail_advance hrest
    cases hlast with
    | unnamed => exact ih .unnamed hnext
    | named hlast hsuffix => exact ih (.named hlast hsuffix) hnext
  | case4 last? e t behind hcons hname hseparator hbrace =>
    have hnext := suffix_tail_advance hrest
    have hbody := namespaceBody_finds 0 (e.advance.enterNamespace last?)
    rw [cursor_enterNamespace] at hbody
    rw [leaveTo_eq]
    exact (enterNamespace_finds (e := e.advance) hlast hnext).trans hbody
  | case5 last? e t behind hcons hname hseparator hbrace hsemicolon =>
    rw [cursor_enterNamespace]
    exact enterNamespace_finds hlast (suffix_tail_advance hrest)
  | case6 last? e t behind hcons hname hseparator hbrace hsemicolon ih =>
    exact ih hlast (suffix_tail_advance hrest)

theorem item_finds (hrest : e.cursor.rest = t :: ts) :
    Finds e.cursor.rest (e.item t).cursor.rest.tail e (e.item t) := by
  rw [item]
  split
  · exact namespaceHeading_finds .unnamed (List.tail_suffix _)
  · exact declaration_finds hrest

theorem items_finds (e : Extraction) : Finds e.cursor.rest [] e e.items := by
  fun_induction items e with
  | case1 e => exact finds_nothing rfl List.nil_suffix
  | case2 e t ts hrest ih =>
    exact (item_finds hrest).trans ((e.item t).cursor.rest_advance ▸ ih)

end Extraction

/-! ## Positions -/

/-- The numbers of two tokens: the one that introduces a tag, and its name. -/
structure TagPosition where
  word : Nat
  name : Nat
  word_le_name : word ≤ name

/-- The tag is introduced and named by the tokens at the position. -/
structure StandsAt (tokens : List Token) (tag : SourceTag) (p : TagPosition) : Prop where
  name : ∃ t, tokens[p.name]? = some t ∧ t.text = tag.name ∧ t.kind = tag.kind.nameKind
  word : ∃ t, tokens[p.word]? = some t ∧ t.line = tag.line ∧
    ∀ kind ∈ tag.kind.introducer?, t.kind = kind
  itself : tag.kind.introducer? = none → p.word = p.name

theorem getElem?_of_suffix {tokens rest : List Token} {t : Token} (h : t :: rest <:+ tokens) :
    tokens[tokens.length - (rest.length + 1)]? = some t := by
  obtain ⟨front, rfl⟩ := h
  simp

namespace Extraction

/-- What is found has positions, each behind the one before. -/
theorem Found.positions {tokens ts after : List Token} {ds : List Declaration}
    (h : Found ts ds after) (hts : ts <:+ tokens) (path : Text) :
    ∃ positions : List TagPosition,
      List.Forall₂ (fun d => StandsAt tokens (d.tag path)) ds positions ∧
      positions.Pairwise (fun p q => p.name < q.word) ∧
      ∀ p ∈ positions, tokens.length - ts.length ≤ p.word := by
  induction h with
  | done => exact ⟨[], .nil, .nil, by simp⟩
  | @declared ts behind rest after word name d ds hword hd hds ih =>
    have hword' : word :: behind <:+ tokens := hword.trans hts
    have hname : name :: rest <:+ tokens := hd.suffix.trans hword'
    obtain ⟨positions, hstands, hordered, hbehind⟩ := ih ((List.suffix_cons name rest).trans hname)
    have hts_le := hts.length_le
    have hword_le := hword.length_le
    have hname_le := hd.suffix.length_le
    rw [List.length_cons] at hword_le
    rw [List.length_cons, List.length_cons] at hname_le
    refine ⟨⟨tokens.length - (behind.length + 1), tokens.length - (rest.length + 1), by omega⟩ ::
      positions, .cons ⟨?_, ?_, ?_⟩ hstands, .cons ?_ hordered, List.forall_mem_cons.2 ⟨?_, ?_⟩⟩
    · exact ⟨name, getElem?_of_suffix hname, hd.name_eq, hd.name_kind⟩
    · exact ⟨word, getElem?_of_suffix hword', hd.line_eq, hd.word_kind⟩
    · intro hself
      simp [hd.itself hself]
    · intro q hq
      have := hbehind q hq
      simp only
      omega
    · simp only
      omega
    · intro q hq
      have := hbehind q hq
      omega

/-- The tags of an extraction come in source order: each has a token of its own for a name, behind
that of the tag before, and its line is that of the token that introduces it, which also stands
behind the name of the tag before. So where the lines of the tokens do not fall, those of the tags
do not. -/
theorem tags_run_in_source_order (tokens : List Token) (scopes : ScopeStack) (path : Text) :
    ∃ tags, (run tokens scopes).tags path = .ok tags ∧
      (∃ positions : List TagPosition, List.Forall₂ (StandsAt tokens) tags positions ∧
        positions.Pairwise (fun p q => p.name < q.word) ∧
        (positions.map TagPosition.name).Pairwise (· < ·)) ∧
      (tokens.Pairwise (·.line ≤ ·.line) → tags.Pairwise (·.line ≤ ·.line)) := by
  obtain ⟨ds, hdecl, hfound⟩ := items_finds { cursor := { rest := tokens }, scopes }
  obtain ⟨positions, hstands, hordered, -⟩ := hfound.positions (List.suffix_refl _) path
  rw [List.nil_append] at hdecl
  refine ⟨ds.map (Declaration.tag path), ?_, ⟨positions, ?_, hordered, ?_⟩, ?_⟩
  · rw [tags_run, run, hdecl]
  · exact List.forall₂_map_left_iff.2 hstands
  · exact List.pairwise_map.2 (hordered.imp fun {p q} h => h.trans_le q.word_le_name)
  · intro hlines
    exact List.pairwise_map.2 (hfound.lines hlines)

/-- A class with a property and a function on later lines. -/
def classOverLines : List Token :=
  [⟨.classWord, "class", 1⟩, ⟨.blank, "\n", 1⟩, ⟨.name, "A", 2⟩, ⟨.symbol, "\x7b", 2⟩,
    ⟨.varWord, "var", 3⟩, ⟨.variableName, "$a", 4⟩, ⟨.symbol, ";", 4⟩,
    ⟨.functionWord, "function", 5⟩, ⟨.name, "f", 6⟩, ⟨.symbol, ";", 6⟩, ⟨.symbol, "\x7d", 7⟩]

theorem tags_run_in_source_order_classOverLines :
    classOverLines.Pairwise (·.line ≤ ·.line) ∧
      ∃ tags, (run classOverLines []).tags "/a.php" = .ok tags ∧
        tags.map Tag.name = ["A", "$a", "f"] ∧ tags.map Tag.line = [1, 4, 5] ∧
        (∃ positions : List TagPosition,
          List.Forall₂ (StandsAt classOverLines) tags positions ∧
          positions.Pairwise (fun p q => p.name < q.word)) ∧
        tags.Pairwise (·.line ≤ ·.line) := by
  have hlines : classOverLines.Pairwise (·.line ≤ ·.line) := by decide
  have hnames : ((run classOverLines []).tags "/a.php").map (List.map Tag.name) =
      .ok ["A", "$a", "f"] := by
    cbv
  have hnumbers : ((run classOverLines []).tags "/a.php").map (List.map Tag.line) =
      .ok [1, 4, 5] := by
    cbv
  obtain ⟨tags, htags, ⟨positions, hstands, hordered, -⟩, hsorted⟩ :=
    tags_run_in_source_order classOverLines [] "/a.php"
  rw [htags] at hnames hnumbers
  exact ⟨hlines, tags, htags, Except.ok.inj hnames, Except.ok.inj hnumbers,
    ⟨positions, hstands, hordered⟩, hsorted hlines⟩

end Extraction
end TagsFile
