import TagsFile.Proofs.Discipline
import TagsFile.Proofs.Escaping
import TagsFile.Proofs.FileName

/-!
# Tags nest

What is declared inside a scope comes behind the declaration that opened the scope, is labelled with
its names, and is searched for behind its pattern. A namespace is the exception: it is declared
inside the parts of its own name, for which there are no declarations.

## Main definitions

* `Declaration.HasOpener`, `Declaration.Enclosed`: the declaration around a scope has come before.
* `Tag.body`: the pattern in the search command of a tag.
* `Tag.scopeKind?`, `Tag.scopeNames?`: the two parts of the label of a tag.
* `Tag.qualifiedName`: the name of a tag behind those of its label.
-/

namespace TagsFile

namespace Declaration

/-! ## Declarations behind the ones around them -/

/-- Whether the innermost of some scopes, if there is one, was opened by one of the declarations
`before`. -/
def HasOpener (before : List Declaration) (scopes : ScopeStack) : Prop :=
  scopes = [] ∨ ∃ c ∈ before, c.frame?.map (c.scopes ++ [·]) = some scopes

theorem HasOpener.append {before : List Declaration} {scopes : ScopeStack}
    (h : HasOpener before scopes) (more : List Declaration) :
    HasOpener (before ++ more) scopes := by
  rcases h with h | ⟨c, hc, hscopes⟩
  · exact .inl h
  · exact .inr ⟨c, List.mem_append_left _ hc, hscopes⟩

/-- What a declaration opens is open from there on. -/
theorem Opens.hasOpener {scopes : ScopeStack} {frame : ScopeFrame} {d : Declaration}
    (h : d.Opens scopes frame) (before more : List Declaration) :
    HasOpener (before ++ d :: more) (scopes ++ [frame]) := by
  refine .inr ⟨d, by simp, ?_⟩
  rw [h.frame, h.scopes]
  rfl

/-- Whether a declaration comes behind the one around it, or is a namespace that has only the parts
of its name around it. -/
inductive Enclosed (before : List Declaration) (d : Declaration) : Prop where
  | inside (h : HasOpener before d.scopes)
  | segments (hkind : d.kind = .namespaceDecl) (h : ∀ f ∈ d.scopes, isSegment f)

/-- Whether each of the declarations behind `before` is enclosed by the ones that come before it. -/
def Nests : List Declaration → List Declaration → Prop
  | _, [] => True
  | before, d :: ds => Enclosed before d ∧ Nests (before ++ [d]) ds

theorem nests_append {before ds ds' : List Declaration} :
    Nests before (ds ++ ds') ↔ Nests before ds ∧ Nests (before ++ ds) ds' := by
  induction ds generalizing before with
  | nil => simp [Nests]
  | cons d ds ih => simp [Nests, ih, and_assoc]

/-- A nested list can be cut before any of its declarations. -/
theorem Nests.enclosed {before front back : List Declaration} {d : Declaration}
    (h : Nests before (front ++ d :: back)) : Enclosed (before ++ front) d :=
  (nests_append.1 h).2.1

theorem nests_plain {before ds : List Declaration} {scopes : ScopeStack}
    (h : ∀ d ∈ ds, d.IsPlain scopes) (hopener : HasOpener before scopes) : Nests before ds := by
  induction ds generalizing before with
  | nil => trivial
  | cons d ds ih =>
    refine ⟨.inside ?_, ih (fun m hm => h m (by simp [hm])) (hopener.append [d])⟩
    rw [(h d (by simp)).scopes]
    exact hopener

theorem Grouped.nests {before ds : List Declaration} {scopes : ScopeStack} (h : Grouped scopes ds)
    (hopener : HasOpener before scopes) : Nests before ds := by
  induction h generalizing before with
  | nil => trivial
  | plain hd _ ih => exact ⟨.inside (hd.scopes ▸ hopener), ih (hopener.append _)⟩
  | type hd _ hmembers _ ih =>
    refine ⟨.inside (hd.scopes ▸ hopener), nests_append.2 ⟨?_, ih ?_⟩⟩
    · exact nests_plain hmembers (hd.hasOpener before [])
    · exact (hopener.append _).append _

theorem scope?_of_frame? {d : Declaration} {frame : ScopeFrame} (h : d.frame? = some frame) :
    d.kind.scope? = some frame.kind := by
  obtain ⟨kind, hkind, rfl⟩ := Option.map_eq_some_iff.1 h
  exact hkind

theorem Opens.namespaceDecl {scopes : ScopeStack} {frame : ScopeFrame} {d : Declaration}
    (h : d.Opens scopes frame) (hkind : frame.kind = .namespaceScope) :
    d.kind = .namespaceDecl := by
  have hscope := scope?_of_frame? h.frame
  cases hd : d.kind <;> simp_all [TagKind.scope?]

theorem Arranged.nests {before ds : List Declaration} {scopes : ScopeStack} (h : Arranged scopes ds)
    (hopener : HasOpener before scopes) : Nests before ds := by
  induction h generalizing before with
  | done hds => exact hds.nests hopener
  | unnamed hds hbody _ ih =>
    refine nests_append.2 ⟨hds.nests hopener, nests_append.2 ⟨hbody.nests (.inl rfl), ?_⟩⟩
    exact ih (.inl rfl)
  | named hds hsegments hd hkind hbody hnext _ ih =>
    refine nests_append.2 ⟨hds.nests hopener, .segments (hd.namespaceDecl hkind) ?_, ?_⟩
    · rw [hd.scopes]
      exact hsegments
    · refine nests_append.2 ⟨hbody.nests (hd.hasOpener _ []), ih ?_⟩
      -- behind its braces, nothing of the namespace is left
      rcases hnext with rfl | rfl
      · exact (hd.hasOpener _ []).append _
      · exact .inl rfl

end Declaration

/-! ## Patterns -/

theorem Text.join_concat (separator last : Text) {texts : List Text} (h : texts ≠ []) :
    join separator (texts ++ [last]) = join separator texts ++ separator ++ last := by
  induction texts with
  | nil => exact absurd rfl h
  | cons a texts ih =>
    cases texts with
    | nil => simp [join_cons_cons]
    | cons b texts =>
      rw [List.cons_append, List.cons_append, join_cons_cons, join_cons_cons, ← List.cons_append,
        ih (by simp)]
      simp

/-- A pattern inside one more frame stands behind the pattern of the frame. -/
theorem ScopeStack.scopedPattern_push (s : ScopeStack) (kind : ScopeKind)
    (name pattern inner : Text) :
    scopedPattern (s ++ [⟨kind, name, some pattern⟩]) inner =
      s.scopedPattern pattern ++ "/;/" ++ inner := by
  rw [scopedPattern, scopedPattern, List.filterMap_append, ← Text.join_concat _ _ (by simp)]
  rfl

/-! ## Labels -/

namespace Tag

/-- What stands in front of the pattern in a search command. -/
def commandStart : Text := "let _s=@/ | /"

/-- What stands behind the pattern in a search command. -/
def commandEnd : Text := "/; | let @/=_s\";\""

/-- The pattern in the search command of a tag. -/
def body (t : SourceTag) : Text :=
  (t.pattern.drop commandStart.length).take
    (t.pattern.length - commandStart.length - commandEnd.length)

/-- The kind in the label of a tag: what stands before the first colon. -/
def scopeKind? (t : SourceTag) : Option ScopeKind :=
  t.scope.bind fun label => ScopeKind.ofText? (label.takeWhile (· ≠ .char ':'))

/-- The names in the label of a tag: what stands behind the first colon. -/
def scopeNames? (t : SourceTag) : Option Text :=
  t.scope.map fun label => (label.dropWhile (· ≠ .char ':')).tail

/-- The name of a tag behind the names in its label. -/
def qualifiedName (t : SourceTag) : Text :=
  match t.scopeNames? with
  | some names => names ++ "::" ++ t.name
  | none => t.name

end Tag

open Tag

theorem ScopeKind.takeWhile_text (kind : ScopeKind) (names : Text) :
    (kind.text ++ ":" ++ names).takeWhile (· ≠ .char ':') = kind.text := by
  cases kind <;> simp [ScopeKind.text, Text.ofString]

theorem ScopeKind.dropWhile_text (kind : ScopeKind) (names : Text) :
    ((kind.text ++ ":" ++ names).dropWhile (· ≠ .char ':')).tail = names := by
  cases kind <;> simp [ScopeKind.text, Text.ofString]

namespace Declaration

variable {c d : Declaration} {frame : ScopeFrame}

theorem body_tag (path : Text) (d : Declaration) :
    (d.tag path).body = escapePattern (d.scopes.scopedPattern d.snippet) := by
  have hpattern : (d.tag path).pattern =
      commandStart ++ (escapePattern (d.scopes.scopedPattern d.snippet) ++ commandEnd) :=
    List.append_assoc _ _ _
  rw [body, hpattern, List.drop_left]
  apply List.take_left'
  simp only [List.length_append]
  omega

theorem pattern_tag (path : Text) (d : Declaration) :
    (d.tag path).pattern = commandStart ++ (d.tag path).body ++ commandEnd := by
  rw [body_tag]
  rfl

/-- The label of what is declared inside a frame. -/
theorem scope_tag (path : Text) {outer : ScopeStack} (h : d.scopes = outer ++ [frame]) :
    (d.tag path).scope =
      some (frame.kind.text ++ ":" ++ Text.join "::" (d.scopes.map ScopeFrame.name)) := by
  simp [tag, ScopeStack.label?, h]

theorem scopeKind?_tag (path : Text) {outer : ScopeStack} (h : d.scopes = outer ++ [frame]) :
    (d.tag path).scopeKind? = some frame.kind := by
  have hkind : ScopeKind.ofText? frame.kind.text = some frame.kind := by
    cases frame.kind <;> rfl
  rw [scopeKind?, scope_tag path h, Option.bind_some, ScopeKind.takeWhile_text, hkind]

theorem qualifiedName_tag (path : Text) (d : Declaration) :
    (d.tag path).qualifiedName = Text.join "::" (d.scopes.map ScopeFrame.name ++ [d.name]) := by
  rcases List.eq_nil_or_concat d.scopes with hempty | ⟨outer, frame, hscopes⟩
  · simp [qualifiedName, scopeNames?, tag, ScopeStack.label?, hempty]
  · rw [List.concat_eq_append] at hscopes
    have hnames : (d.tag path).scopeNames? =
        some (Text.join "::" (d.scopes.map ScopeFrame.name)) := by
      rw [scopeNames?, scope_tag path hscopes, Option.map_some, ScopeKind.dropWhile_text]
    rw [Text.join_concat _ _ (by simp [hscopes]), qualifiedName, hnames]
    rfl

end Declaration

/-- Whether a tag, whose declaration starts with `snippet`, is told to be inside the declaration of
the tag `c`. -/
structure Tag.IsInside (kind : ScopeKind) (snippet : Text) (c t : SourceTag) : Prop where
  opens : c.kind.scope? = some kind
  body : t.body = c.body ++ "/;/" ++ escapePattern snippet
  scope : t.scope = some (kind.text ++ ":" ++ c.qualifiedName)

theorem Declaration.isInside {c d : Declaration} {frame : ScopeFrame} (path : Text)
    (hframe : c.frame? = some frame) (hscopes : d.scopes = c.scopes ++ [frame]) :
    Tag.IsInside frame.kind d.snippet (c.tag path) (d.tag path) := by
  obtain ⟨kind, hkind, rfl⟩ := Option.map_eq_some_iff.1 hframe
  refine ⟨hkind, ?_, ?_⟩
  · have hfixed : escapePattern "/;/" = Text.ofString "/;/" := by decide
    rw [body_tag, body_tag, hscopes, ScopeStack.scopedPattern_push, escapePattern_append,
      escapePattern_append, hfixed]
  · rw [scope_tag path hscopes, qualifiedName_tag, hscopes, List.map_append]
    rfl

/-- A tag that is labelled with a scope comes behind the tag of the declaration that opened it, and
is told to be inside of it. Only a namespace can have the parts of its own name as its label. -/
theorem tag_isInside_earlier {tokens : List Token} {before after : List Declaration}
    {d : Declaration} {kind : ScopeKind} (path : Text)
    (h : (Extraction.run tokens []).declarations = before ++ d :: after)
    (hkind : (d.tag path).scopeKind? = some kind)
    (hname : kind = .namespaceScope → (d.tag path).kind ≠ .namespaceDecl) :
    (Extraction.run tokens []).tags path =
      .ok (before.map (·.tag path) ++ d.tag path :: after.map (·.tag path)) ∧
    (d.tag path).pattern = commandStart ++ (d.tag path).body ++ commandEnd ∧
    ∃ c ∈ before.map (·.tag path), c.pattern = commandStart ++ c.body ++ commandEnd ∧
      Tag.IsInside kind d.snippet c (d.tag path) := by
  refine ⟨?_, Declaration.pattern_tag path d, ?_⟩
  · rw [Extraction.tags_run, h]
    simp
  · have hnests := (Extraction.arranged_run tokens []).nests
      (.inl rfl : Declaration.HasOpener [] [])
    rw [h] at hnests
    cases hnests.enclosed with
    | inside hopener =>
      rcases hopener with hempty | ⟨c, hc, hscopes⟩
      · simp [scopeKind?, Declaration.tag, ScopeStack.label?, hempty] at hkind
      · obtain ⟨frame, hframe, hscopes⟩ := Option.map_eq_some_iff.1 hscopes
        rw [Declaration.scopeKind?_tag path hscopes.symm, Option.some.injEq] at hkind
        subst hkind
        exact ⟨c.tag path, List.mem_map_of_mem hc, Declaration.pattern_tag path c,
          Declaration.isInside path hframe hscopes.symm⟩
    | segments hnamespace hsegments =>
      -- the label of such a namespace is that of a namespace
      rcases List.eq_nil_or_concat d.scopes with hempty | ⟨outer, frame, hscopes⟩
      · simp [scopeKind?, Declaration.tag, ScopeStack.label?, hempty] at hkind
      · rw [List.concat_eq_append] at hscopes
        have hframe := (hsegments frame (by simp [hscopes])).1
        rw [Declaration.scopeKind?_tag path hscopes, Option.some.injEq, hframe] at hkind
        exact absurd hnamespace (hname hkind.symm)

/-- A constant in a class in a namespace. -/
def nestedConstant : List Token :=
  [⟨.namespaceWord, "namespace", 1⟩, ⟨.blank, " ", 1⟩, ⟨.name, "N", 1⟩, ⟨.symbol, ";", 1⟩,
    ⟨.classWord, "class", 2⟩, ⟨.blank, " ", 2⟩, ⟨.name, "A", 2⟩, ⟨.symbol, "\x7b", 2⟩,
    ⟨.constWord, "const", 3⟩, ⟨.blank, " ", 3⟩, ⟨.name, "$C", 3⟩, ⟨.symbol, "\x7d", 4⟩]

/-- The last declaration there. -/
def classConstant : Declaration where
  name := "$C"
  kind := .constantDecl
  line := 3
  snippet := "const $C"
  scopes := [⟨.namespaceScope, "N", some "namespace N;"⟩, ⟨.classScope, "A", some "class A"⟩]

theorem tag_isInside_earlier_nestedConstant :
    ∃ before, (Extraction.run nestedConstant []).declarations = before ++ [classConstant] ∧
      (classConstant.tag "/a.php").scopeKind? = some .classScope ∧
      ∃ c ∈ before.map (·.tag "/a.php"),
        Tag.IsInside .classScope "const $C" c (classConstant.tag "/a.php") := by
  have hrun : (Extraction.run nestedConstant []).declarations =
      [⟨"N", .namespaceDecl, 1, "namespace N;", [], none, none⟩,
        ⟨"A", .classDecl, 2, "class A", [⟨.namespaceScope, "N", some "namespace N;"⟩],
          none, none⟩] ++
      [classConstant] := by
    decide +kernel
  have hkind : (classConstant.tag "/a.php").scopeKind? = some .classScope := by decide +kernel
  obtain ⟨-, -, c, hc, -, hinside⟩ := tag_isInside_earlier "/a.php" hrun hkind nofun
  exact ⟨_, hrun, hkind, c, hc, hinside⟩

end TagsFile
