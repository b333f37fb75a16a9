import TagsFile.Proofs.Recovery

/-!
# What an extraction declares, and inside which scopes

Each step of an extraction adds declarations and leaves the scopes as they were. Only namespaces
leave other scopes behind. What is said here of one step holds on all lists of tokens, well formed
or not.

## Main definitions

* `Declaration.frame?`: the scope that a declaration opens.
* `Declaration.Grouped`: declarations inside some scopes, each type with its members behind it.
* `Declaration.Arranged`: the declarations of a whole source.
* `Extraction.Adds`: what one step does.
-/

namespace TagsFile

/-- The kind of scope that a declaration opens. -/
def TagKind.scope? : TagKind → Option ScopeKind
  | .namespaceDecl => some .namespaceScope
  | .interfaceDecl => some .interfaceScope
  | .classDecl => some .classScope
  | _ => none

namespace Declaration

/-- The frame around what is declared inside a declaration. -/
def frame? (d : Declaration) : Option ScopeFrame :=
  d.kind.scope?.map fun kind => ⟨kind, d.name, some d.snippet⟩

/-- A declaration inside some scopes in which nothing is declared. -/
structure IsPlain (scopes : ScopeStack) (d : Declaration) : Prop where
  scopes : d.scopes = scopes
  kind : d.kind.scope? = none

/-- A declaration inside some scopes that opens the scope `frame`. -/
structure Opens (scopes : ScopeStack) (frame : ScopeFrame) (d : Declaration) : Prop where
  scopes : d.scopes = scopes
  frame : d.frame? = some frame

/-- Declarations inside some scopes. Behind a type come its members. -/
inductive Grouped (scopes : ScopeStack) : List Declaration → Prop where
  | nil : Grouped scopes []
  | plain {d : Declaration} {ds : List Declaration} (hd : d.IsPlain scopes)
      (hds : Grouped scopes ds) : Grouped scopes (d :: ds)
  | type {d : Declaration} {members ds : List Declaration} {frame : ScopeFrame}
      (hd : d.Opens scopes frame) (hkind : frame.kind ≠ .namespaceScope)
      (hmembers : ∀ m ∈ members, m.IsPlain (scopes ++ [frame])) (hds : Grouped scopes ds) :
      Grouped scopes (d :: (members ++ ds))

theorem Grouped.append {scopes : ScopeStack} {ds ds' : List Declaration} (h : Grouped scopes ds)
    (h' : Grouped scopes ds') : Grouped scopes (ds ++ ds') := by
  induction h with
  | nil => exact h'
  | plain hd _ ih => exact .plain hd ih
  | type hd hkind hmembers _ ih =>
    rw [List.cons_append, List.append_assoc]
    exact .type hd hkind hmembers ih

theorem grouped_of_plain {scopes : ScopeStack} {ds : List Declaration}
    (h : ∀ d ∈ ds, IsPlain scopes d) : Grouped scopes ds := by
  induction ds with
  | nil => exact .nil
  | cons d ds ih => exact .plain (h d (by simp)) (ih fun m hm => h m (by simp [hm]))

/-- A part of a namespace's name that is not its last one. -/
def isSegment (frame : ScopeFrame) : Prop :=
  frame.kind = .namespaceScope ∧ frame.pattern = none

/-- The declarations of a source from some place on. A namespace is declared inside the parts of its
name; what comes next is inside the namespace, if it has a name, and behind its braces inside
nothing. -/
inductive Arranged : ScopeStack → List Declaration → Prop where
  | done {scopes : ScopeStack} {ds : List Declaration} (hds : Grouped scopes ds) :
      Arranged scopes ds
  | unnamed {scopes : ScopeStack} {ds body rest : List Declaration}
      (hds : Grouped scopes ds) (hbody : Grouped [] body) (hrest : Arranged [] rest) :
      Arranged scopes (ds ++ (body ++ rest))
  | named {scopes segments next : ScopeStack} {ds body rest : List Declaration} {d : Declaration}
      {frame : ScopeFrame} (hds : Grouped scopes ds) (hsegments : ∀ f ∈ segments, isSegment f)
      (hd : d.Opens segments frame) (hkind : frame.kind = .namespaceScope)
      (hbody : Grouped (segments ++ [frame]) body)
      (hnext : next = segments ++ [frame] ∨ next = []) (hrest : Arranged next rest) :
      Arranged scopes (ds ++ d :: (body ++ rest))

theorem Arranged.prepend {scopes : ScopeStack} {ds ds' : List Declaration}
    (h : Grouped scopes ds) (h' : Arranged scopes ds') : Arranged scopes (ds ++ ds') := by
  cases h' with
  | done hds => exact .done (h.append hds)
  | unnamed hds hbody hrest =>
    rw [← List.append_assoc]
    exact .unnamed (h.append hds) hbody hrest
  | named hds hsegments hd hkind hbody hnext hrest =>
    rw [← List.append_assoc]
    exact .named (h.append hds) hsegments hd hkind hbody hnext hrest

end Declaration

namespace Extraction

open Declaration

/-- From `e` to `e'` the declarations `ds` have been added, inside the same scopes and without a
fault. -/
structure Adds (ds : List Declaration) (e e' : Extraction) : Prop where
  scopes : e'.scopes = e.scopes
  fault : e'.fault = e.fault
  declarations : e'.declarations = e.declarations ++ ds

variable {e : Extraction}

theorem Adds.trans {ds ds' : List Declaration} {e' e'' : Extraction} (h : Adds ds e e')
    (h' : Adds ds' e' e'') : Adds (ds ++ ds') e e'' where
  scopes := h'.scopes.trans h.scopes
  fault := h'.fault.trans h.fault
  declarations := by rw [h'.declarations, h.declarations, List.append_assoc]

/-- Wherever the cursor goes, nothing is added. -/
theorem adds_cursor (e : Extraction) (cursor : Cursor) : Adds [] e { e with cursor } where
  scopes := rfl
  fault := rfl
  declarations := by simp

/-- A step that adds declarations in which nothing is declared. -/
def AddsPlain (e e' : Extraction) : Prop :=
  ∃ ds, Adds ds e e' ∧ ∀ d ∈ ds, d.IsPlain e.scopes

/-- A step that adds declarations of any kind but namespaces. -/
def AddsGrouped (e e' : Extraction) : Prop := ∃ ds, Adds ds e e' ∧ Grouped e.scopes ds

theorem addsPlain_cursor (e : Extraction) (cursor : Cursor) : AddsPlain e { e with cursor } :=
  ⟨[], adds_cursor e cursor, nofun⟩

theorem AddsPlain.trans {e' e'' : Extraction} (h : AddsPlain e e') (h' : AddsPlain e' e'') :
    AddsPlain e e'' := by
  obtain ⟨ds, hadds, hplain⟩ := h
  obtain ⟨ds', hadds', hplain'⟩ := h'
  refine ⟨ds ++ ds', hadds.trans hadds', ?_⟩
  intro d hd
  obtain hd | hd := List.mem_append.1 hd
  · exact hplain d hd
  · exact hadds.scopes ▸ hplain' d hd

theorem AddsPlain.grouped {e' : Extraction} (h : AddsPlain e e') : AddsGrouped e e' := by
  obtain ⟨ds, hadds, hplain⟩ := h
  exact ⟨ds, hadds, grouped_of_plain hplain⟩

theorem AddsGrouped.trans {e' e'' : Extraction} (h : AddsGrouped e e') (h' : AddsGrouped e' e'') :
    AddsGrouped e e'' := by
  obtain ⟨ds, hadds, hgrouped⟩ := h
  obtain ⟨ds', hadds', hgrouped'⟩ := h'
  exact ⟨ds ++ ds', hadds.trans hadds', hgrouped.append (hadds.scopes ▸ hgrouped')⟩

theorem addsPlain_declare (e : Extraction) (name : Text) {kind : TagKind}
    (hkind : kind.scope? = none)
    (line : Int) (snippet : Text) (signature access : Option Text) :
    AddsPlain e (e.declare name kind line snippet signature access) := by
  refine ⟨_, ⟨rfl, rfl, rfl⟩, ?_⟩
  intro d hd
  obtain rfl := List.mem_singleton.1 hd
  exact ⟨rfl, hkind⟩

/-! ## Functions and constants -/

theorem function_adds (access : Option Text) (h : e.cursor.rest ≠ []) :
    AddsPlain e (e.function access) := by
  obtain ⟨t, ts, hrest⟩ := List.exists_cons_of_ne_nil h
  rw [function, line_of_rest hrest]
  dsimp only
  split
  · exact (addsPlain_cursor e _).trans (addsPlain_declare _ _ rfl _ _ _ _)
  · exact addsPlain_cursor e _

/-- A heading declares its name, if there is one. -/
theorem named_adds (kind : TagKind) (h : e.cursor.rest ≠ []) :
    ((e.named kind).1 = none ∧ Adds [] e (e.named kind).2.2) ∨
      ∃ name line, (e.named kind).1 = some name ∧
        Adds [{ name, kind, line, snippet := (e.named kind).2.1, scopes := e.scopes }] e
          (e.named kind).2.2 := by
  obtain ⟨t, ts, hrest⟩ := List.exists_cons_of_ne_nil h
  rw [named, line_of_rest hrest]
  dsimp only
  split
  · exact .inr ⟨_, t.line, rfl, rfl, rfl, rfl⟩
  · exact .inl ⟨rfl, adds_cursor e _⟩

theorem constant_adds (h : e.cursor.rest ≠ []) : AddsPlain e e.constant := by
  obtain ⟨-, hadds⟩ | ⟨name, line, -, hadds⟩ := named_adds .constantDecl h
  · exact ⟨[], hadds, nofun⟩
  · refine ⟨_, hadds, ?_⟩
    intro d hd
    obtain rfl := List.mem_singleton.1 hd
    exact ⟨rfl, rfl⟩

/-! ## Members -/

theorem properties_adds (access : Option Text) (first : Bool) (e : Extraction) :
    AddsPlain e (e.properties access first) := by
  fun_induction properties access first e with
  | case1 => exact addsPlain_cursor _ _
  | case2 access first e t ts hrest haccess ih => exact (addsPlain_cursor e _).trans ih
  | case3 access first e t ts hrest haccess hvariable e' ih =>
    have hstart : AddsPlain e e' := by
      cases first <;> exact addsPlain_cursor e _
    exact hstart.trans
      ((addsPlain_declare e' _ rfl _ _ _ _).trans ((addsPlain_cursor _ _).trans ih))
  | case4 access first e t ts hrest => exact function_adds access (hrest ▸ List.cons_ne_nil t ts)
  | case5 access first e t ts hrest =>
    exact (addsPlain_cursor e _).trans (constant_adds (hrest ▸ List.cons_ne_nil t ts))
  | case6 | case7 => exact addsPlain_cursor _ _
  | case8 access first e t ts hrest _ _ _ _ _ _ ih => exact (addsPlain_cursor e _).trans ih

theorem visible_adds (e : Extraction) : AddsPlain e e.visible :=
  (addsPlain_cursor e _).trans (properties_adds none true e.startCollect)

theorem members_adds (skipsBlocks : Bool) (e : Extraction) :
    AddsPlain e (e.members skipsBlocks) := by
  fun_induction members skipsBlocks e with
  | case1 | case6 => exact addsPlain_cursor _ _
  | case2 e t ts hrest _ ih =>
    exact ((addsPlain_cursor e _).trans (visible_adds e.advance)).trans ih
  | case3 e t ts hrest _ _ ih =>
    exact ((addsPlain_cursor e _).trans (constant_adds (hrest ▸ List.cons_ne_nil t ts))).trans ih
  | case4 e t ts hrest _ _ _ ih =>
    exact ((addsPlain_cursor e _).trans (function_adds _ (hrest ▸ List.cons_ne_nil t ts))).trans ih
  | case5 e t ts hrest _ _ _ _ ih => exact (addsPlain_cursor e _).trans ih
  | case7 e t ts hrest _ _ _ _ _ ih => exact (addsPlain_cursor e _).trans ih

/-! ## Types -/

theorem anonymousBody_adds (e : Extraction) : AddsPlain e e.anonymousBody := by
  rw [anonymousBody]
  repeat' split
  all_goals exact addsPlain_cursor e _

theorem body_adds (skipsBlocks : Bool) (e : Extraction) :
    AddsPlain e (if e.toBody.1 then e.toBody.2.members skipsBlocks else e.toBody.2) := by
  split
  · exact (addsPlain_cursor e _).trans (members_adds skipsBlocks e.toBody.2)
  · exact addsPlain_cursor e _

/-- Inside a type its members are added; behind it the scopes are those before it. -/
theorem type_adds {kind : TagKind} {scope : ScopeKind} (hkind : kind.scope? = some scope)
    (hscope : scope ≠ .namespaceScope) (skipsBlocks : Bool) (h : e.cursor.rest ≠ []) :
    AddsGrouped e (e.type kind scope skipsBlocks) := by
  obtain ⟨hname, hadds⟩ | ⟨name, line, hname, hadds⟩ := named_adds kind h
  · obtain ⟨ds, hbody, hplain⟩ := anonymousBody_adds (e.named kind).2.2
    rw [hadds.scopes] at hplain
    simp only [type, hname]
    exact ⟨_, hadds.trans hbody, grouped_of_plain hplain⟩
  · obtain ⟨inner, hinner⟩ : ∃ inner, inner =
        (e.named kind).2.2.enter ⟨scope, name, some (e.named kind).2.1⟩ := ⟨_, rfl⟩
    obtain ⟨ds, hbody, hplain⟩ := body_adds skipsBlocks inner
    have hscopes : inner.scopes = e.scopes ++ [⟨scope, name, some (e.named kind).2.1⟩] := by
      rw [hinner, enter, ScopeStack.push, hadds.scopes]
    have hleave : ∀ e' : Extraction, e'.scopes = inner.scopes →
        e'.leave = { e' with scopes := e.scopes } := by
      intro e' he'
      rw [leave, he', hscopes, ← ScopeStack.push, ScopeStack.pop?_push]
    simp only [type, hname, ← hinner]
    rw [hleave _ hbody.scopes]
    rw [hscopes] at hplain
    have hopens : Opens e.scopes ⟨scope, name, some (e.named kind).2.1⟩
        { name, kind, line, snippet := (e.named kind).2.1, scopes := e.scopes } :=
      ⟨rfl, by simp [frame?, hkind]⟩
    refine ⟨_, ⟨rfl, ?_, ?_⟩, .type hopens hscope hplain .nil⟩
    · exact hbody.fault.trans (hinner ▸ hadds.fault)
    · have hdecl : inner.declarations = (e.named kind).2.2.declarations := by rw [hinner, enter]
      rw [List.append_nil, List.append_cons, ← hadds.declarations, ← hdecl]
      exact hbody.declarations

theorem declaration_adds (t : Token) (h : e.cursor.rest ≠ []) :
    AddsGrouped e (e.declaration t) := by
  rw [declaration]
  split
  · exact type_adds rfl (by decide) false h
  · exact type_adds rfl (by decide) true h
  · exact (function_adds none h).grouped
  · exact (constant_adds h).grouped
  · exact (addsPlain_cursor e e.cursor).grouped

/-! ## Namespaces -/

theorem namespaceBody_adds (depth : Nat) (e : Extraction) :
    AddsGrouped e (e.namespaceBody depth) := by
  fun_induction namespaceBody depth e with
  | case1 | case2 => exact (addsPlain_cursor _ _).grouped
  | case3 depth e t ts hrest _ _ ih => exact (addsPlain_cursor e _).grouped.trans ih
  | case4 depth e t ts hrest _ _ ih => exact (addsPlain_cursor e _).grouped.trans ih
  | case5 depth e t ts hrest _ _ ih =>
    exact ((addsPlain_cursor e _).grouped.trans
      (declaration_adds t (hrest ▸ List.cons_ne_nil t ts))).trans ih

/-- What has come of a namespace before which there were the declarations `before`. -/
inductive AfterNamespace (before : List Declaration) (e : Extraction) : Prop where
  /-- The tokens end in its heading. -/
  | cut (hrest : e.cursor.rest = []) (hds : e.declarations = before)
  | unnamed {body : List Declaration} (hbody : Grouped [] body)
      (hds : e.declarations = before ++ body) (hscopes : e.scopes = [])
  | named {segments : ScopeStack} {frame : ScopeFrame} {d : Declaration} {body : List Declaration}
      (hsegments : ∀ f ∈ segments, isSegment f) (hd : d.Opens segments frame)
      (hkind : frame.kind = .namespaceScope) (hbody : Grouped (segments ++ [frame]) body)
      (hds : e.declarations = before ++ d :: body)
      (hscopes : e.scopes = segments ++ [frame] ∨ e.scopes = [])

theorem enterNamespace_some (name : Text) (line : Int) (e : Extraction) :
    ∃ frame d, d.Opens e.scopes frame ∧ frame.kind = .namespaceScope ∧
      (e.enterNamespace (some (name, line))).scopes = e.scopes ++ [frame] ∧
      (e.enterNamespace (some (name, line))).fault = e.fault ∧
      (e.enterNamespace (some (name, line))).declarations = e.declarations ++ [d] :=
  ⟨⟨.namespaceScope, name, some e.cursor.snippet⟩, _, ⟨rfl, rfl⟩, rfl, rfl, rfl, rfl⟩

/-- As long as the heading of a namespace is read, all scopes are parts of its name, and there are
none before its first name. -/
theorem namespaceHeading_adds {last? : Option (Text × Int)}
    (hsegments : ∀ f ∈ e.scopes, isSegment f) (hlast : last? = none → e.scopes = []) :
    (e.namespaceHeading 0 last?).fault = e.fault ∧
      AfterNamespace e.declarations (e.namespaceHeading 0 last?) := by
  fun_induction namespaceHeading 0 last? e with
  | case1 last? e hrest => exact ⟨rfl, .cut hrest rfl⟩
  | case2 last? e t ts hrest hname ih => exact ih hsegments (by simp)
  | case3 last? e t ts hrest hname hseparator ih =>
    cases last? with
    | none => exact ih hsegments hlast
    | some last =>
      refine ih ?_ (by simp)
      intro f hf
      obtain hf | hf := List.mem_append.1 hf
      · exact hsegments f hf
      · obtain rfl := List.mem_singleton.1 hf
        exact ⟨rfl, rfl⟩
  | case4 last? e t ts hrest hname hseparator hbrace =>
    obtain ⟨body, hadds, hbody⟩ := namespaceBody_adds 0 (e.advance.enterNamespace last?)
    rw [leaveTo_eq]
    cases last? with
    | none =>
      have hscopes : (e.advance.enterNamespace none).scopes = [] := hlast rfl
      exact ⟨hadds.fault, .unnamed (hscopes ▸ hbody) hadds.declarations rfl⟩
    | some last =>
      obtain ⟨frame, d, hd, hkind, hscopes, hfault, hdecl⟩ :=
        enterNamespace_some last.1 last.2 e.advance
      refine ⟨hadds.fault.trans hfault, .named hsegments hd hkind (hscopes ▸ hbody) ?_ ?_⟩
      · rw [List.append_cons]
        exact hadds.declarations.trans (congrArg (· ++ body) hdecl)
      · exact .inr rfl
  | case5 last? e t ts hrest hname hseparator hbrace hsemicolon =>
    cases last? with
    | none => exact ⟨rfl, .unnamed .nil (List.append_nil _).symm (hlast rfl)⟩
    | some last =>
      obtain ⟨frame, d, hd, hkind, hscopes, hfault, hdecl⟩ :=
        enterNamespace_some last.1 last.2 e.advance
      exact ⟨hfault, .named hsegments hd hkind .nil hdecl (.inl hscopes)⟩
  | case6 last? e t ts hrest hname hseparator hbrace hsemicolon ih => exact ih hsegments hlast

/-! ## Whole sources -/

/-- From any place on, and whatever the tokens are, the declarations are arranged. -/
theorem items_adds (e : Extraction) : e.items.fault = e.fault ∧
    ∃ ds, e.items.declarations = e.declarations ++ ds ∧ Arranged e.scopes ds := by
  fun_induction items e with
  | case1 e hrest => exact ⟨rfl, [], (List.append_nil _).symm, .done .nil⟩
  | case2 e t ts hrest ih =>
    obtain ⟨hfault, ds, hds, harranged⟩ := ih
    by_cases hkind : t.kind = .namespaceWord
    · obtain ⟨hheading, hafter⟩ := @namespaceHeading_adds { e with scopes := [] }.startCollect none
        (fun _ hf => absurd hf List.not_mem_nil) fun _ => rfl
      have hitem : e.item t = { e with scopes := [] }.startCollect.namespaceHeading 0 none := by
        rw [item, if_pos hkind]
        rfl
      rw [hitem] at hfault hds harranged ⊢
      refine ⟨hfault.trans hheading, ?_⟩
      cases hafter with
      | cut hend hdecl =>
        -- nothing comes after a heading in which the tokens end
        refine ⟨[], ?_, .done .nil⟩
        rw [items]
        split
        · rw [List.append_nil]
          exact hdecl
        · simp_all [advance]
      | unnamed hbody hdecl hscopes =>
        refine ⟨_, ?_, .unnamed .nil hbody (hscopes ▸ harranged)⟩
        rw [List.nil_append, ← List.append_assoc, hds]
        exact congrArg (· ++ ds) hdecl
      | named hsegments hd hnamespace hbody hdecl hscopes =>
        refine ⟨_, ?_, .named .nil hsegments hd hnamespace hbody hscopes harranged⟩
        rw [List.nil_append, ← List.cons_append, ← List.append_assoc, hds]
        exact congrArg (· ++ ds) hdecl
    · obtain ⟨front, hadds, hfront⟩ := declaration_adds t (hrest ▸ List.cons_ne_nil t ts)
      have hitem : e.item t = e.declaration t := by rw [item, if_neg hkind]
      rw [hitem] at hfault hds harranged ⊢
      refine ⟨hfault.trans hadds.fault, front ++ ds, ?_, ?_⟩
      · rw [hds, ← List.append_assoc]
        exact congrArg (· ++ ds) hadds.declarations
      · exact .prepend hfront (hadds.scopes ▸ harranged)

theorem arranged_run (tokens : List Token) (scopes : ScopeStack) :
    Arranged scopes (run tokens scopes).declarations := by
  obtain ⟨-, ds, hds, harranged⟩ := items_adds { cursor := { rest := tokens }, scopes }
  rw [run, hds]
  exact harranged

/-- No list of tokens makes an extraction lose its place. -/
theorem tags_run (tokens : List Token) (scopes : ScopeStack) (path : Text) :
    (run tokens scopes).tags path =
      .ok ((run tokens scopes).declarations.map (Declaration.tag path)) := by
  obtain ⟨hfault, -⟩ := items_adds { cursor := { rest := tokens }, scopes }
  rw [tags, run, hfault]

end Extraction
end TagsFile
