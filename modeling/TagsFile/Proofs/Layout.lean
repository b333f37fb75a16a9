import TagsFile.Proofs.Discipline

/-!
# Layout does not matter

Comments and blanks tell nothing about what is declared: without them a source has the same
declarations, up to the texts that are quoted from it. The two runs go side by side; at a comment or
a blank the one waits for the other.

## Main definitions

* `withoutLayout`: tokens without comments and blanks.
* `Upcoming`, `Following`, `Together`: how the tokens of the two runs correspond.
* `Declaration.outline`: a declaration without the texts that are quoted.
-/

namespace TagsFile

/-- Tokens without comments and blanks. -/
def withoutLayout (ts : List Token) : List Token := ts.filter fun t => !t.kind.isLayout

/-- Whether no comment and no blank is just an opening brace. -/
def PlainLayout (ts : List Token) : Prop :=
  ∀ t ∈ ts, t.kind.isLayout = true → t.text ≠ "\x7b"

theorem withoutLayout_layout {t : Token} (h : t.kind.isLayout = true) (ts : List Token) :
    withoutLayout (t :: ts) = withoutLayout ts := by
  simp [withoutLayout, h]

theorem withoutLayout_token {t : Token} (h : t.kind.isLayout = false) (ts : List Token) :
    withoutLayout (t :: ts) = t :: withoutLayout ts := by
  simp [withoutLayout, h]

theorem PlainLayout.tail {ts : List Token} (h : PlainLayout ts) : PlainLayout ts.tail :=
  fun t ht => h t (List.mem_of_mem_tail ht)

/-! ## Two runs side by side -/

/-- From the current token on both runs have the same tokens to come. -/
structure Upcoming (rest rest' : List Token) : Prop where
  plain : PlainLayout rest
  eq : rest' = withoutLayout rest

/-- Behind the current token both runs have the same tokens to come. -/
structure Following (rest rest' : List Token) : Prop where
  upcoming : Upcoming rest.tail rest'.tail

/-- Both runs are at the same token, or at the end. -/
structure Together (rest rest' : List Token) : Prop where
  head : rest'.head? = rest.head?
  following : Following rest rest'

variable {rest rest' ts : List Token} {t : Token}

/-- One run waits at a comment or a blank. -/
theorem Upcoming.wait (h : Upcoming rest rest') (hrest : rest = t :: ts)
    (ht : t.kind.isLayout = true) : Upcoming ts rest' := by
  subst hrest
  exact ⟨h.plain.tail, h.eq.trans (withoutLayout_layout ht ts)⟩

theorem Upcoming.nil (h : Upcoming rest rest') (hrest : rest = []) : rest' = [] := by
  rw [h.eq, hrest]
  rfl

/-- Both runs come to any other token. -/
theorem Upcoming.token (h : Upcoming rest rest') (hrest : rest = t :: ts)
    (ht : t.kind.isLayout = false) :
    rest' = t :: withoutLayout ts ∧ Together rest rest' := by
  subst hrest
  have heq : rest' = t :: withoutLayout ts := h.eq.trans (withoutLayout_token ht ts)
  subst heq
  exact ⟨rfl, rfl, ⟨h.plain.tail, rfl⟩⟩

theorem together_nil (h : rest = []) (h' : rest' = []) : Together rest rest' := by
  subst h h'
  exact ⟨rfl, ⟨nofun, rfl⟩⟩

theorem Together.upcoming (h : Together rest rest') (hrest : rest = t :: ts)
    (ht : t.kind.isLayout = false) : Upcoming rest rest' := by
  obtain ⟨hhead, ⟨hplain, heq⟩⟩ := h
  subst hrest
  refine ⟨?_, ?_⟩
  · intro s hs hlayout
    obtain rfl | hs := List.mem_cons.1 hs
    · simp [ht] at hlayout
    · exact hplain s hs hlayout
  · cases rest' with
    | nil => simp at hhead
    | cons s rest' =>
      obtain rfl : s = t := by simpa using hhead
      rw [withoutLayout_token ht]
      exact congrArg (s :: ·) heq

theorem isLayout_of_kind {kind : TokenKind} (h : t.kind = kind) (hkind : kind.isLayout = false) :
    t.kind.isLayout = false := h ▸ hkind

theorem isLayout_of_isSymbol {text : Text} (h : t.isSymbol text = true) :
    t.kind.isLayout = false :=
  isLayout_of_kind (Cursor.kind_of_isSymbol h) rfl

/-- A comment or a blank is none of the tokens that an extraction looks for. -/
theorem kind_of_isLayout (h : t.kind.isLayout = true) : t.kind = .comment ∨ t.kind = .blank := by
  cases hkind : t.kind <;> simp_all [TokenKind.isLayout]

theorem isSymbol_of_isLayout (h : t.kind.isLayout = true) (text : Text) :
    t.isSymbol text = false := by
  obtain hkind | hkind := kind_of_isLayout h <;> simp [Token.isSymbol, hkind]

theorem opensBlock_of_isLayout (h : t.kind.isLayout = true) : t.opensBlock = false := by
  obtain hkind | hkind := kind_of_isLayout h <;> simp [Token.opensBlock, Token.isSymbol, hkind]

/-! ## Walks of a cursor -/

variable {c c' : Cursor}

/-- The tokens end for both runs. -/
theorem Following.ends (h : Following c.rest c'.rest) (hrest : c.advance.rest = []) :
    c'.rest.tail = [] ∧ Together c.advance.rest c'.advance.rest := by
  have hend : c'.rest.tail = [] := h.upcoming.nil (c.rest_advance ▸ hrest)
  exact ⟨hend, together_nil hrest (by rw [Cursor.rest_advance, hend])⟩

/-- The run without layout waits. -/
theorem Following.wait (h : Following c.rest c'.rest) (hrest : c.advance.rest = t :: ts)
    (ht : t.kind.isLayout = true) : Following c.advance.rest c'.rest := by
  have hnext : c.rest.tail = t :: ts := c.rest_advance ▸ hrest
  refine ⟨?_⟩
  rw [hrest]
  exact h.upcoming.wait hnext ht

/-- Both runs go on. -/
theorem Following.step (h : Following c.rest c'.rest) (hrest : c.advance.rest = t :: ts)
    (ht : t.kind.isLayout = false) :
    c'.rest.tail = t :: withoutLayout ts ∧ Together c.advance.rest c'.advance.rest := by
  rw [Cursor.rest_advance] at hrest
  rw [Cursor.rest_advance, Cursor.rest_advance]
  exact h.upcoming.token hrest ht

namespace Cursor

theorem toName_end (h : c.rest.tail = []) : c.toName = (none, c.advance) := by
  rw [toName]
  split <;> simp_all

theorem toName_together (h : Following c.rest c'.rest) :
    c'.toName.1 = c.toName.1 ∧ Together c.toName.2.rest c'.toName.2.rest := by
  fun_induction toName c generalizing c' with
  | case1 c hrest =>
    obtain ⟨hend, htogether⟩ := h.ends hrest
    rw [toName_end hend]
    exact ⟨rfl, htogether⟩
  | case2 c t ts hrest hname =>
    obtain ⟨hnext, htogether⟩ := h.step hrest (isLayout_of_kind hname rfl)
    rw [toName_next hnext, if_pos hname]
    exact ⟨rfl, htogether⟩
  | case3 c t ts hrest hname hends =>
    have ht : t.kind.isLayout = false := by
      rw [← Bool.not_eq_true]
      intro hlayout
      simp [Token.endsHeading, isSymbol_of_isLayout hlayout] at hends
    obtain ⟨hnext, htogether⟩ := h.step hrest ht
    rw [toName_next hnext, if_neg hname, if_pos hends]
    exact ⟨rfl, htogether⟩
  | case4 c t ts hrest hname hends ih =>
    cases ht : t.kind.isLayout with
    | true => exact ih (h.wait hrest ht)
    | false =>
      obtain ⟨hnext, htogether⟩ := h.step hrest ht
      rw [toName_next hnext, if_neg hname, if_neg hends]
      exact ih htogether.following

theorem skipTo_end (texts : List Text) (h : c.rest.tail = []) :
    c.skipTo texts = (false, c.advance) := by
  rw [skipTo]
  split <;> simp_all

/-- No comment and no blank is taken for the brace that is looked for. -/
theorem skipTo_together (h : Following c.rest c'.rest) :
    (c'.skipTo ["\x7b"]).1 = (c.skipTo ["\x7b"]).1 ∧
      Together (c.skipTo ["\x7b"]).2.rest (c'.skipTo ["\x7b"]).2.rest := by
  fun_induction skipTo ["\x7b"] c generalizing c' with
  | case1 c hrest =>
    obtain ⟨hend, htogether⟩ := h.ends hrest
    rw [skipTo_end _ hend]
    exact ⟨rfl, htogether⟩
  | case2 c t ts hrest htext =>
    have ht : t.kind.isLayout = false := by
      rw [← Bool.not_eq_true]
      intro hlayout
      have hmem : t ∈ c.rest.tail := by simp [← rest_advance, hrest]
      exact h.upcoming.plain t hmem hlayout (by simpa using htext)
    obtain ⟨hnext, htogether⟩ := h.step hrest ht
    rw [skipTo_next _ hnext, if_pos htext]
    exact ⟨rfl, htogether⟩
  | case3 c t ts hrest htext ih =>
    cases ht : t.kind.isLayout with
    | true => exact ih (h.wait hrest ht)
    | false =>
      obtain ⟨hnext, htogether⟩ := h.step hrest ht
      rw [skipTo_next _ hnext, if_neg htext]
      exact ih htogether.following

theorem skipBlocks_end (depth : Nat) (h : c.rest.tail = []) : c.skipBlocks depth = c.advance := by
  rw [skipBlocks]
  split <;> simp_all

theorem skipBlocks_together (depth : Nat) (h : Following c.rest c'.rest) :
    Together (c.skipBlocks depth).rest (c'.skipBlocks depth).rest := by
  fun_induction skipBlocks depth c generalizing c' with
  | case1 depth c hrest =>
    obtain ⟨hend, htogether⟩ := h.ends hrest
    rw [skipBlocks_end depth hend]
    exact htogether
  | case2 depth c t ts hrest hopens ih =>
    have ht : t.kind.isLayout = false := by
      rw [← Bool.not_eq_true]
      intro hlayout
      simp [opensBlock_of_isLayout hlayout] at hopens
    obtain ⟨hnext, htogether⟩ := h.step hrest ht
    rw [skipBlocks_next depth hnext, if_pos hopens]
    exact ih htogether.following
  | case3 depth c t ts hrest hopens hcloses hdepth =>
    obtain ⟨hnext, htogether⟩ := h.step hrest (isLayout_of_isSymbol hcloses)
    rw [skipBlocks_next depth hnext, if_neg hopens, if_pos hcloses, if_pos hdepth]
    exact htogether
  | case4 depth c t ts hrest hopens hcloses hdepth ih =>
    obtain ⟨hnext, htogether⟩ := h.step hrest (isLayout_of_isSymbol hcloses)
    rw [skipBlocks_next depth hnext, if_neg hopens, if_pos hcloses, if_neg hdepth]
    exact ih htogether.following
  | case5 depth c t ts hrest hopens hcloses ih =>
    cases ht : t.kind.isLayout with
    | true => exact ih (h.wait hrest ht)
    | false =>
      obtain ⟨hnext, htogether⟩ := h.step hrest ht
      rw [skipBlocks_next depth hnext, if_neg hopens, if_neg hcloses]
      exact ih htogether.following

theorem group_together (depth : Int) (h : Upcoming c.rest c'.rest) :
    Together (c.group depth).2.rest (c'.group depth).2.rest := by
  fun_induction group depth c generalizing c' with
  | case1 depth c hrest =>
    have hend := h.nil hrest
    rw [group]
    split
    · exact together_nil hrest hend
    · simp_all
  | case2 depth c t ts hrest hcloses =>
    have hsymbol : t.isSymbol ")" = true := (Bool.and_eq_true _ _ ▸ hcloses).1
    obtain ⟨hnext, htogether⟩ := h.token hrest (isLayout_of_isSymbol hsymbol)
    rw [group_cons depth hnext, if_pos hcloses]
    exact htogether
  | case3 depth c t ts hrest hcloses inner texts after hgroup =>
    rename_i ih
    rw [hgroup] at ih
    cases ht : t.kind.isLayout with
    | true =>
      have hinner : inner = depth := by simp [inner, isSymbol_of_isLayout ht]
      have hwait : Upcoming c.advance.rest c'.rest := by
        rw [rest_advance, hrest]
        exact h.wait hrest ht
      exact hinner ▸ ih hwait
    | false =>
      obtain ⟨hnext, htogether⟩ := h.token hrest ht
      have hstep : Upcoming c.advance.rest c'.advance.rest := by
        rw [rest_advance, rest_advance]
        exact htogether.following.upcoming
      rw [group_cons depth hnext, if_neg hcloses]
      exact ih hstep

end Cursor

/-! ## Functions -/

namespace FunctionParts

/-- The same is known of a function, up to the texts that are quoted. -/
structure Alike (p p' : FunctionParts) : Prop where
  name : p'.name = p.name
  signature : p'.signature.isSome = p.signature.isSome
  ended : p'.ended = p.ended

variable {p p' : FunctionParts}

@[simp] theorem ended_takePattern (p : FunctionParts) (snippet : Text) :
    (p.takePattern snippet).ended = p.ended := by
  unfold takePattern
  split <;> rfl

@[simp] theorem ended_takeName (p : FunctionParts) (text : Text) :
    (p.takeName text).ended = p.ended := by
  unfold takeName
  split <;> rfl

@[simp] theorem ended_takeSignature (p : FunctionParts) (text : Text) :
    (p.takeSignature text).ended = p.ended := by
  unfold takeSignature
  split <;> rfl

theorem Alike.takePattern (h : Alike p p') (snippet snippet' : Text) :
    Alike (p.takePattern snippet) (p'.takePattern snippet') where
  name := by simp [h.name]
  signature := by simp [h.signature]
  ended := by simp [h.ended]

theorem Alike.takeName (h : Alike p p') (text : Text) :
    Alike (p.takeName text) (p'.takeName text) := by
  obtain ⟨hname, hsignature, hended⟩ := h
  have hnone : p'.signature.isNone = p.signature.isNone := by
    rw [← Option.not_isSome, ← Option.not_isSome, hsignature]
  unfold FunctionParts.takeName
  rw [hname, hnone]
  split
  · exact ⟨rfl, hsignature, hended⟩
  · exact ⟨hname, hsignature, hended⟩

theorem Alike.takeSignature (h : Alike p p') (text text' : Text) :
    Alike (p.takeSignature text) (p'.takeSignature text') := by
  obtain ⟨hname, hsignature, hended⟩ := h
  have hnone : p'.signature.isNone = p.signature.isNone := by
    rw [← Option.not_isSome, ← Option.not_isSome, hsignature]
  unfold FunctionParts.takeSignature
  rw [hnone]
  split
  · exact ⟨hname, rfl, hended⟩
  · exact ⟨hname, hsignature, hended⟩

/-- A name is known only if the pattern is, or is to be taken next. -/
def HasPattern (p : FunctionParts) : Prop :=
  p.name.isSome = true → p.afterName = true ∨ p.pattern.isSome = true

theorem HasPattern.takePattern (h : HasPattern p) (snippet : Text) :
    (p.takePattern snippet).name.isSome = true → (p.takePattern snippet).pattern.isSome = true := by
  intro hname
  unfold FunctionParts.takePattern
  split
  · rfl
  · rename_i hafter
    exact (h (by simpa using hname)).resolve_left hafter

theorem hasPattern_takeName (h : p.name.isSome = true → p.pattern.isSome = true) (text : Text) :
    HasPattern (p.takeName text) := by
  unfold FunctionParts.takeName
  split
  · exact fun _ => .inl rfl
  · exact fun hname => .inr (h hname)

theorem hasPattern_takeSignature (h : p.name.isSome = true → p.pattern.isSome = true)
    (text : Text) : HasPattern (p.takeSignature text) := by
  unfold FunctionParts.takeSignature
  split <;> exact fun hname => .inr (h hname)

end FunctionParts

namespace Cursor

/-- A function that has ended has a pattern if it has a name. -/
theorem pattern_of_functionParts {p : FunctionParts} (c : Cursor) (hp : p.HasPattern)
    (hended : p.ended = false) (hend : (c.functionParts p).1.ended = true)
    (hname : (c.functionParts p).1.name.isSome = true) :
    (c.functionParts p).1.pattern.isSome = true := by
  fun_induction functionParts p c with
  | case1 p c hrest => simp [hended] at hend
  | case2 p c t ts hrest next q hkind ih =>
    refine ih (FunctionParts.hasPattern_takeName (hp.takePattern _) _) ?_ hend hname
    simp [q, hended]
  | case3 p c t ts hrest next q hkind hopen ih =>
    refine ih (FunctionParts.hasPattern_takeSignature (hp.takePattern _) _) ?_ hend hname
    simp [q, hended]
  | case4 | case5 => exact hp.takePattern _ hname
  | case6 p c t ts hrest next q hkind hopen hbrace hsemicolon ih =>
    refine ih (fun hname => .inr (hp.takePattern _ hname)) ?_ hend hname
    simp [q, hended]

theorem functionParts_end (p : FunctionParts) {c : Cursor} (h : c.rest.tail = []) :
    c.functionParts p = (p, c.advance) := by
  rw [functionParts]
  split <;> simp_all

/-- The token after the name only ends the snippet. -/
theorem rest_afterName (p : FunctionParts) (c : Cursor) :
    (if p.afterName then c.advance.stopCollect else c.advance).rest = c.advance.rest := by
  split <;> rfl

theorem functionParts_together (p : FunctionParts) (c : Cursor) : ∀ {p' : FunctionParts}
    {c' : Cursor}, p.Alike p' → Following c.rest c'.rest →
      (c.functionParts p).1.Alike (c'.functionParts p').1 ∧
        Together (c.functionParts p).2.rest (c'.functionParts p').2.rest := by
  fun_induction functionParts p c with
  | case1 p c hrest =>
    intro p' c' hp h
    obtain ⟨hend, htogether⟩ := h.ends hrest
    rw [functionParts_end p' hend]
    exact ⟨hp, htogether⟩
  | case2 p c t ts hrest next q =>
    rename_i hkind ih
    intro p' c' hp h
    obtain ⟨hrest', htogether⟩ := h.step hrest (isLayout_of_kind hkind rfl)
    have hnext : next.rest = c.advance.rest := rest_afterName p c
    rw [functionParts_next p' hrest']
    dsimp only
    rw [if_pos hkind]
    refine ih ((hp.takePattern _ _).takeName _) ?_
    rw [hnext, rest_afterName]
    exact htogether.following
  | case3 p c t ts hrest next q =>
    rename_i hkind hopen ih
    intro p' c' hp h
    have ht := isLayout_of_isSymbol hopen
    obtain ⟨hrest', htogether⟩ := h.step hrest ht
    have hnext : next.rest = c.advance.rest := rest_afterName p c
    rw [functionParts_next p' hrest']
    dsimp only
    rw [if_neg hkind, if_pos hopen]
    refine ih ((hp.takePattern _ _).takeSignature _ _) (group_together 0 ?_).following
    rw [hnext, rest_afterName]
    exact htogether.upcoming hrest ht
  | case4 p c t ts hrest next q =>
    rename_i hkind hopen hbrace
    intro p' c' hp h
    obtain ⟨hrest', htogether⟩ := h.step hrest (isLayout_of_isSymbol hbrace)
    have hq := hp.takePattern c.advance.snippet c'.advance.snippet
    have hnext : next.rest = c.advance.rest := rest_afterName p c
    rw [functionParts_next p' hrest']
    dsimp only
    rw [if_neg hkind, if_neg hopen, if_pos hbrace]
    refine ⟨⟨hq.name, hq.signature, rfl⟩, skipBlocks_together 1 ?_⟩
    rw [hnext, rest_afterName]
    exact htogether.following
  | case5 p c t ts hrest next q =>
    rename_i hkind hopen hbrace hsemicolon
    intro p' c' hp h
    obtain ⟨hrest', htogether⟩ := h.step hrest (isLayout_of_isSymbol hsemicolon)
    have hq := hp.takePattern c.advance.snippet c'.advance.snippet
    have hnext : next.rest = c.advance.rest := rest_afterName p c
    rw [functionParts_next p' hrest']
    dsimp only
    rw [if_neg hkind, if_neg hopen, if_neg hbrace, if_pos hsemicolon]
    refine ⟨⟨hq.name, hq.signature, rfl⟩, ?_⟩
    rw [hnext, rest_afterName]
    exact htogether
  | case6 p c t ts hrest next q =>
    rename_i hkind hopen hbrace hsemicolon ih
    intro p' c' hp h
    have hnext : next.rest = c.advance.rest := rest_afterName p c
    cases ht : t.kind.isLayout with
    | true =>
      -- the first run may take its pattern here, before the second one does
      refine ih ⟨?_, ?_, ?_⟩ ?_
      · simp [q, hp.name]
      · simp [q, hp.signature]
      · simp [q, hp.ended]
      · rw [hnext]
        exact h.wait hrest ht
    | false =>
      obtain ⟨hrest', htogether⟩ := h.step hrest ht
      rw [functionParts_next p' hrest']
      dsimp only
      rw [if_neg hkind, if_neg hopen, if_neg hbrace, if_neg hsemicolon]
      refine ih (hp.takePattern _ _) ?_
      rw [hnext, rest_afterName]
      exact htogether.following

end Cursor

/-! ## Outlines -/

/-- A frame without its pattern. -/
def ScopeFrame.outline (f : ScopeFrame) : ScopeFrame := { f with pattern := none }

/-- A declaration without the texts that are quoted from its source. -/
def Declaration.outline (d : Declaration) : Declaration :=
  { d with snippet := "", scopes := d.scopes.map ScopeFrame.outline, signature := none }

namespace Extraction

/-- Both runs have come to the same declarations and scopes, up to the texts that are quoted, and
their tokens correspond. -/
structure Alike (tokens : List Token → List Token → Prop) (e e' : Extraction) : Prop where
  cursor : tokens e.cursor.rest e'.cursor.rest
  scopes : e'.scopes.map ScopeFrame.outline = e.scopes.map ScopeFrame.outline
  declarations :
    e'.declarations.map Declaration.outline = e.declarations.map Declaration.outline

variable {tokens tokens' : List Token → List Token → Prop} {e e' : Extraction}

theorem Alike.move (h : Alike tokens e e') {c c' : Cursor} (hc : tokens' c.rest c'.rest) :
    Alike tokens' { e with cursor := c } { e' with cursor := c' } :=
  ⟨hc, h.scopes, h.declarations⟩

theorem Alike.declare (h : Alike tokens e e') (name : Text) (kind : TagKind) (line : Int)
    (snippet snippet' : Text) (signature signature' access : Option Text) :
    Alike tokens (e.declare name kind line snippet signature access)
      (e'.declare name kind line snippet' signature' access) := by
  refine ⟨h.cursor, h.scopes, ?_⟩
  simp only [Extraction.declare, List.map_append, h.declarations]
  simp [Declaration.outline, h.scopes]

theorem Alike.enter (h : Alike tokens e e') (kind : ScopeKind) (name : Text)
    (pattern pattern' : Option Text) :
    Alike tokens (e.enter ⟨kind, name, pattern⟩) (e'.enter ⟨kind, name, pattern'⟩) := by
  refine ⟨h.cursor, ?_, h.declarations⟩
  simp [Extraction.enter, ScopeStack.push, h.scopes, ScopeFrame.outline]

theorem Alike.leave (h : Alike tokens e e') : Alike tokens e.leave e'.leave := by
  have hcursor (e : Extraction) : e.leave.cursor = e.cursor := by
    unfold Extraction.leave
    split <;> rfl
  have hdecl (e : Extraction) : e.leave.declarations = e.declarations := by
    unfold Extraction.leave
    split <;> rfl
  refine ⟨?_, ?_, ?_⟩
  · rw [hcursor, hcursor]
    exact h.cursor
  · rw [scopes_leave, scopes_leave, List.map_dropLast, List.map_dropLast, h.scopes]
  · rw [hdecl, hdecl]
    exact h.declarations

/-- Both runs are at the same token. -/
theorem Alike.rest_eq (h : Alike Together e e') {t : Token} {ts : List Token}
    (hrest : e.cursor.rest = t :: ts) : ∃ ts', e'.cursor.rest = t :: ts' := by
  have hhead := h.cursor.head
  rw [hrest] at hhead
  exact List.head?_eq_some_iff.1 hhead

/-! ## Declarations -/

/-- A function that has an end and a name is declared. -/
theorem function_of_ended (access : Option Text) {t : Token} {ts : List Token} {name : Text}
    (hrest : e.cursor.rest = t :: ts)
    (hended : (e.cursor.startCollect.functionParts {}).1.ended = true)
    (hname : (e.cursor.startCollect.functionParts {}).1.name = some name) :
    ∃ pattern, e.function access =
      { e with cursor := (e.cursor.startCollect.functionParts {}).2.stopCollect }.declare name
        .functionDecl t.line pattern
          (e.cursor.startCollect.functionParts {}).1.signature access := by
  have hsome := Cursor.pattern_of_functionParts (p := {}) e.cursor.startCollect nofun rfl hended
    (by rw [hname]; rfl)
  obtain ⟨pattern, hpattern⟩ := Option.isSome_iff_exists.1 hsome
  refine ⟨pattern, ?_⟩
  rw [function, line_of_rest hrest]
  dsimp only
  rw [hended, hname, hpattern]

/-- Any other function is passed over. -/
theorem function_of_not_ended (access : Option Text) {t : Token} {ts : List Token}
    (hrest : e.cursor.rest = t :: ts)
    (h : (e.cursor.startCollect.functionParts {}).1.ended = false ∨
      (e.cursor.startCollect.functionParts {}).1.name = none) :
    e.function access =
      { e with cursor := (e.cursor.startCollect.functionParts {}).2.stopCollect } := by
  rw [function, line_of_rest hrest]
  dsimp only
  split <;> simp_all

theorem function_alike (access : Option Text) (h : Alike Together e e')
    (hne : e.cursor.rest ≠ []) : Alike Together (e.function access) (e'.function access) := by
  obtain ⟨t, ts, hrest⟩ := List.exists_cons_of_ne_nil hne
  obtain ⟨ts', hrest'⟩ := h.rest_eq hrest
  have hfollowing : Following e.cursor.startCollect.rest e'.cursor.startCollect.rest :=
    h.cursor.following
  obtain ⟨hparts, htogether⟩ := Cursor.functionParts_together {} _ ⟨rfl, rfl, rfl⟩ hfollowing
  cases hended : (e.cursor.startCollect.functionParts {}).1.ended with
  | false =>
    rw [function_of_not_ended access hrest (.inl hended),
      function_of_not_ended access hrest' (.inl (hparts.ended.trans hended))]
    exact h.move htogether
  | true =>
    cases hname : (e.cursor.startCollect.functionParts {}).1.name with
    | none =>
      rw [function_of_not_ended access hrest (.inr hname),
        function_of_not_ended access hrest' (.inr (hparts.name.trans hname))]
      exact h.move htogether
    | some name =>
      obtain ⟨pattern, heq⟩ := function_of_ended access hrest hended hname
      obtain ⟨pattern', heq'⟩ := function_of_ended access hrest' (hparts.ended.trans hended)
        (hparts.name.trans hname)
      rw [heq, heq']
      refine Alike.declare (h.move ?_) _ _ _ _ _ _ _ _
      exact htogether

theorem named_alike (kind : TagKind) (h : Alike Together e e') (hne : e.cursor.rest ≠ []) :
    (e'.named kind).1 = (e.named kind).1 ∧
      Alike Together (e.named kind).2.2 (e'.named kind).2.2 := by
  obtain ⟨t, ts, hrest⟩ := List.exists_cons_of_ne_nil hne
  obtain ⟨ts', hrest'⟩ := h.rest_eq hrest
  have hfollowing : Following e.cursor.startCollect.rest e'.cursor.startCollect.rest :=
    h.cursor.following
  obtain ⟨hname, htogether⟩ := Cursor.toName_together hfollowing
  rw [named, named, line_of_rest hrest, line_of_rest hrest']
  dsimp only
  rw [hname]
  split
  · refine ⟨rfl, Alike.declare (h.move ?_) _ _ _ _ _ _ _ _⟩
    exact htogether
  · exact ⟨rfl, h.move htogether⟩

theorem constant_alike (h : Alike Together e e') (hne : e.cursor.rest ≠ []) :
    Alike Together e.constant e'.constant :=
  (named_alike .constantDecl h hne).2

/-! ## Members -/

theorem properties_end (access : Option Text) (first : Bool) (h : e.cursor.rest = []) :
    e.properties access first = e.stopCollect := by
  rw [properties]
  split <;> simp_all

theorem isLayout_of_accessOf? {t : Token} (h : (accessOf? t.kind).isSome = true) :
    t.kind.isLayout = false := by
  rcases kind_of_accessOf? h with hkind | hkind | hkind | hkind <;> exact isLayout_of_kind hkind rfl

theorem isLayout_of_opensBlock {t : Token} (h : t.opensBlock = true) : t.kind.isLayout = false := by
  rcases kind_of_opensBlock h with hkind | hkind <;> exact isLayout_of_kind hkind rfl

theorem Alike.skipBlock (h : Alike Together e e') : Alike Together e.skipBlock e'.skipBlock :=
  h.move (Cursor.skipBlocks_together 1 h.cursor.following)

/-- Behind a token that both runs are at. -/
theorem Alike.advance (h : Alike Together e e') : Alike Upcoming e.advance e'.advance := by
  refine h.move ?_
  rw [Cursor.rest_advance, Cursor.rest_advance]
  exact h.cursor.following.upcoming

theorem properties_alike (access : Option Text) (first : Bool) (e : Extraction) :
    ∀ {e' : Extraction}, Alike Upcoming e e' →
      Alike Together (e.properties access first) (e'.properties access first) := by
  fun_induction properties access first e with
  | case1 access first e hrest =>
    intro e' h
    have hend := h.cursor.nil hrest
    rw [properties_end access first hend]
    exact h.move (together_nil hrest hend)
  | case2 access first e t ts hrest haccess ih =>
    intro e' h
    obtain ⟨hrest', htogether⟩ := h.cursor.token hrest (isLayout_of_accessOf? haccess)
    rw [properties_cons access first hrest', if_pos haccess]
    exact ih (h.move htogether).advance
  | case3 access first e t ts hrest haccess hvariable =>
    rename_i ih
    intro e' h
    obtain ⟨hrest', htogether⟩ := h.cursor.token hrest (isLayout_of_kind hvariable rfl)
    rw [properties_cons access first hrest', if_neg haccess, if_pos hvariable]
    refine ih (Alike.advance (Alike.declare ?_ _ _ _ _ _ _ _ _))
    cases first with
    | true => exact h.move htogether
    | false => exact h.move htogether
  | case4 access first e t ts hrest haccess hvariable hfunction =>
    intro e' h
    obtain ⟨hrest', htogether⟩ := h.cursor.token hrest (isLayout_of_kind hfunction rfl)
    rw [properties_cons access first hrest', if_neg haccess, if_neg hvariable, if_pos hfunction]
    exact function_alike access (h.move htogether) (hrest ▸ List.cons_ne_nil t ts)
  | case5 access first e t ts hrest haccess hvariable hfunction hconst =>
    intro e' h
    obtain ⟨hrest', htogether⟩ := h.cursor.token hrest (isLayout_of_kind hconst rfl)
    rw [properties_cons access first hrest', if_neg haccess, if_neg hvariable, if_neg hfunction,
      if_pos hconst]
    refine constant_alike (h.move ?_) (hrest ▸ List.cons_ne_nil t ts)
    exact htogether
  | case6 access first e t ts hrest haccess hvariable hfunction hconst hsemicolon =>
    intro e' h
    obtain ⟨hrest', htogether⟩ := h.cursor.token hrest (isLayout_of_isSymbol hsemicolon)
    rw [properties_cons access first hrest', if_neg haccess, if_neg hvariable, if_neg hfunction,
      if_neg hconst, if_pos hsemicolon]
    exact h.move htogether
  | case7 access first e t ts hrest haccess hvariable hfunction hconst hsemicolon hopens =>
    intro e' h
    obtain ⟨hrest', htogether⟩ := h.cursor.token hrest (isLayout_of_opensBlock hopens)
    rw [properties_cons access first hrest', if_neg haccess, if_neg hvariable, if_neg hfunction,
      if_neg hconst, if_neg hsemicolon, if_pos hopens]
    refine Alike.skipBlock (h.move ?_)
    exact htogether
  | case8 access first e t ts hrest haccess hvariable hfunction hconst hsemicolon hopens ih =>
    intro e' h
    cases ht : t.kind.isLayout with
    | true =>
      refine ih (h.move ?_)
      rw [Cursor.rest_advance, hrest]
      exact h.cursor.wait hrest ht
    | false =>
      obtain ⟨hrest', htogether⟩ := h.cursor.token hrest ht
      rw [properties_cons access first hrest', if_neg haccess, if_neg hvariable, if_neg hfunction,
        if_neg hconst, if_neg hsemicolon, if_neg hopens]
      exact ih (h.move htogether).advance

theorem visible_alike {t : Token} {ts : List Token} (h : Alike Together e e')
    (hrest : e.cursor.rest = t :: ts) (ht : t.kind.isLayout = false) :
    Alike Together e.visible e'.visible :=
  properties_alike none true e.startCollect (h.move (h.cursor.upcoming hrest ht))

theorem members_end (skipsBlocks : Bool) (h : e.cursor.rest.tail = []) :
    e.members skipsBlocks = e.advance := by
  rw [members]
  split <;> simp_all

theorem members_alike (skipsBlocks : Bool) (e : Extraction) :
    ∀ {e' : Extraction}, Alike Following e e' →
      Alike Together (e.members skipsBlocks) (e'.members skipsBlocks) := by
  fun_induction members skipsBlocks e with
  | case1 e hrest =>
    intro e' h
    obtain ⟨hend, htogether⟩ := h.cursor.ends hrest
    rw [members_end skipsBlocks hend]
    exact h.move htogether
  | case2 e t ts hrest haccess ih =>
    intro e' h
    have ht := isLayout_of_accessOf? haccess
    obtain ⟨hnext, htogether⟩ := h.cursor.step hrest ht
    rw [members_next skipsBlocks hnext, if_pos haccess]
    have hvisible := visible_alike (e := e.advance) (h.move htogether) hrest ht
    exact ih (hvisible.move hvisible.cursor.following)
  | case3 e t ts hrest haccess hconst ih =>
    intro e' h
    obtain ⟨hnext, htogether⟩ := h.cursor.step hrest (isLayout_of_kind hconst rfl)
    rw [members_next skipsBlocks hnext, if_neg haccess, if_pos hconst]
    have hconstant := constant_alike (e := e.advance) (h.move htogether)
      (hrest ▸ List.cons_ne_nil t ts)
    exact ih (hconstant.move hconstant.cursor.following)
  | case4 e t ts hrest haccess hconst hfunction ih =>
    intro e' h
    obtain ⟨hnext, htogether⟩ := h.cursor.step hrest (isLayout_of_kind hfunction rfl)
    rw [members_next skipsBlocks hnext, if_neg haccess, if_neg hconst, if_pos hfunction]
    have hfunction := function_alike (e := e.advance) (some "public") (h.move htogether)
      (hrest ▸ List.cons_ne_nil t ts)
    exact ih (hfunction.move hfunction.cursor.following)
  | case5 e t ts hrest haccess hconst hfunction hopens ih =>
    intro e' h
    have hblock := (Bool.and_eq_true _ _ ▸ hopens).2
    obtain ⟨hnext, htogether⟩ := h.cursor.step hrest (isLayout_of_opensBlock hblock)
    rw [members_next skipsBlocks hnext, if_neg haccess, if_neg hconst, if_neg hfunction,
      if_pos hopens]
    have hskipped := Alike.skipBlock (e := e.advance) (h.move htogether)
    exact ih (hskipped.move hskipped.cursor.following)
  | case6 e t ts hrest haccess hconst hfunction hopens hcloses =>
    intro e' h
    obtain ⟨hnext, htogether⟩ := h.cursor.step hrest (isLayout_of_isSymbol hcloses)
    rw [members_next skipsBlocks hnext, if_neg haccess, if_neg hconst, if_neg hfunction,
      if_neg hopens, if_pos hcloses]
    exact h.move htogether
  | case7 e t ts hrest haccess hconst hfunction hopens hcloses ih =>
    intro e' h
    cases ht : t.kind.isLayout with
    | true => exact ih (h.move (h.cursor.wait hrest ht))
    | false =>
      obtain ⟨hnext, htogether⟩ := h.cursor.step hrest ht
      rw [members_next skipsBlocks hnext, if_neg haccess, if_neg hconst, if_neg hfunction,
        if_neg hopens, if_neg hcloses]
      exact ih (h.move htogether.following)

/-! ## Types -/

theorem toBody_alike (h : Alike Together e e') :
    e'.toBody.1 = e.toBody.1 ∧ Alike Together e.toBody.2 e'.toBody.2 := by
  obtain ⟨hfound, htogether⟩ := Cursor.skipTo_together h.cursor.following
  exact ⟨hfound, h.move htogether⟩

theorem anonymousBody_alike (h : Alike Together e e') :
    Alike Together e.anonymousBody e'.anonymousBody := by
  cases hrest : e.cursor.rest with
  | nil =>
    have hend : e'.cursor.rest = [] := by
      have hhead := h.cursor.head
      rw [hrest] at hhead
      exact List.head?_eq_none_iff.1 hhead
    rw [anonymousBody, anonymousBody, hrest, hend]
    exact h
  | cons t ts =>
    obtain ⟨ts', hrest'⟩ := h.rest_eq hrest
    obtain ⟨hfound, hbody⟩ := toBody_alike h
    rw [anonymousBody, anonymousBody, hrest, hrest', hfound]
    dsimp only
    split
    · exact h
    · split
      · exact h.skipBlock
      · split
        · exact hbody.skipBlock
        · exact hbody

theorem type_alike (kind : TagKind) (scope : ScopeKind) (skipsBlocks : Bool)
    (h : Alike Together e e') (hne : e.cursor.rest ≠ []) :
    Alike Together (e.type kind scope skipsBlocks) (e'.type kind scope skipsBlocks) := by
  obtain ⟨hname, hnamed⟩ := named_alike kind h hne
  rw [type, type]
  dsimp only
  rw [hname]
  split
  · exact anonymousBody_alike hnamed
  · rename_i name _
    obtain ⟨hfound, hbody⟩ := toBody_alike (hnamed.enter scope name (some (e.named kind).2.1)
      (some (e'.named kind).2.1))
    rw [hfound]
    split
    · exact Alike.leave (members_alike skipsBlocks _ (hbody.move hbody.cursor.following))
    · exact hbody.leave

theorem declaration_alike (t : Token) (h : Alike Together e e') (hne : e.cursor.rest ≠ []) :
    Alike Together (e.declaration t) (e'.declaration t) := by
  rw [declaration, declaration]
  split
  · exact type_alike _ _ _ h hne
  · exact type_alike _ _ _ h hne
  · exact function_alike _ h hne
  · exact constant_alike h hne
  · exact h

theorem declaration_of_isLayout {t : Token} (ht : t.kind.isLayout = true) (e : Extraction) :
    e.declaration t = e := by
  obtain hkind | hkind := kind_of_isLayout ht <;> rw [declaration, hkind]

/-! ## Namespaces -/

theorem namespaceBody_end (depth : Nat) (h : e.cursor.rest.tail = []) :
    e.namespaceBody depth = e.advance := by
  rw [namespaceBody]
  split <;> simp_all

theorem namespaceBody_alike (depth : Nat) (e : Extraction) :
    ∀ {e' : Extraction}, Alike Following e e' →
      Alike Together (e.namespaceBody depth) (e'.namespaceBody depth) := by
  fun_induction namespaceBody depth e with
  | case1 depth e hrest =>
    intro e' h
    obtain ⟨hend, htogether⟩ := h.cursor.ends hrest
    rw [namespaceBody_end depth hend]
    exact h.move htogether
  | case2 e t ts hrest hcloses =>
    intro e' h
    obtain ⟨hnext, htogether⟩ := h.cursor.step hrest (isLayout_of_isSymbol hcloses)
    rw [namespaceBody_next 0 hnext, if_pos hcloses, if_pos rfl]
    exact h.move htogether
  | case3 depth e t ts hrest hcloses hdepth ih =>
    intro e' h
    obtain ⟨hnext, htogether⟩ := h.cursor.step hrest (isLayout_of_isSymbol hcloses)
    rw [namespaceBody_next depth hnext, if_pos hcloses, if_neg hdepth]
    exact ih (h.move htogether.following)
  | case4 depth e t ts hrest hcloses hopens ih =>
    intro e' h
    obtain ⟨hnext, htogether⟩ := h.cursor.step hrest (isLayout_of_opensBlock hopens)
    rw [namespaceBody_next depth hnext, if_neg hcloses, if_pos hopens]
    exact ih (h.move htogether.following)
  | case5 depth e t ts hrest hcloses hopens ih =>
    intro e' h
    cases ht : t.kind.isLayout with
    | true =>
      rw [declaration_of_isLayout ht] at ih ⊢
      exact ih (h.move (h.cursor.wait hrest ht))
    | false =>
      obtain ⟨hnext, htogether⟩ := h.cursor.step hrest ht
      rw [namespaceBody_next depth hnext, if_neg hcloses, if_neg hopens]
      have hdeclaration := declaration_alike (e := e.advance) t (h.move htogether)
        (hrest ▸ List.cons_ne_nil t ts)
      exact ih (hdeclaration.move hdeclaration.cursor.following)

theorem enterSegment_alike (last? : Option (Text × Int)) (h : Alike tokens e e') :
    Alike tokens (e.enterSegment last?) (e'.enterSegment last?) := by
  cases last? with
  | none => exact h
  | some last => exact h.enter _ _ _ _

theorem enterNamespace_alike (last? : Option (Text × Int)) (h : Alike tokens e e') :
    Alike tokens (e.enterNamespace last?) (e'.enterNamespace last?) := by
  cases last? with
  | none => exact h.move h.cursor
  | some last =>
    refine Alike.enter (Alike.declare (h.move ?_) _ _ _ _ _ _ _ _) _ _ _ _
    exact h.cursor

theorem namespaceHeading_end (outer : Nat) (last? : Option (Text × Int))
    (h : e.cursor.rest.tail = []) : e.namespaceHeading outer last? = e.advance.stopCollect := by
  rw [namespaceHeading]
  split <;> simp_all

theorem namespaceHeading_alike (outer : Nat) (last? : Option (Text × Int)) (e : Extraction) :
    ∀ {e' : Extraction}, Alike Following e e' →
      Alike Together (e.namespaceHeading outer last?) (e'.namespaceHeading outer last?) := by
  fun_induction namespaceHeading outer last? e with
  | case1 last? e hrest =>
    intro e' h
    obtain ⟨hend, htogether⟩ := h.cursor.ends hrest
    rw [namespaceHeading_end outer last? hend]
    exact h.move htogether
  | case2 last? e t ts hrest hname ih =>
    intro e' h
    obtain ⟨hnext, htogether⟩ := h.cursor.step hrest (isLayout_of_kind hname rfl)
    rw [namespaceHeading_next outer last? hnext, if_pos hname]
    exact ih (h.move htogether.following)
  | case3 last? e t ts hrest hname hseparator ih =>
    intro e' h
    obtain ⟨hnext, htogether⟩ := h.cursor.step hrest (isLayout_of_kind hseparator rfl)
    rw [namespaceHeading_next outer last? hnext, if_neg hname, if_pos hseparator]
    refine ih (enterSegment_alike last? (h.move ?_))
    exact htogether.following
  | case4 last? e t ts hrest hname hseparator hbrace =>
    intro e' h
    obtain ⟨hnext, htogether⟩ := h.cursor.step hrest (isLayout_of_isSymbol hbrace)
    rw [namespaceHeading_next outer last? hnext, if_neg hname, if_neg hseparator, if_pos hbrace]
    have hbody : Alike Together ((e.advance.enterNamespace last?).namespaceBody 0)
        ((e'.advance.enterNamespace last?).namespaceBody 0) := by
      apply namespaceBody_alike
      refine enterNamespace_alike last? (h.move ?_)
      exact htogether.following
    rw [leaveTo_eq]
    refine ⟨hbody.cursor, ?_, hbody.declarations⟩
    rw [List.map_take, List.map_take]
    exact congrArg (List.take outer) hbody.scopes
  | case5 last? e t ts hrest hname hseparator hbrace hsemicolon =>
    intro e' h
    obtain ⟨hnext, htogether⟩ := h.cursor.step hrest (isLayout_of_isSymbol hsemicolon)
    rw [namespaceHeading_next outer last? hnext, if_neg hname, if_neg hseparator, if_neg hbrace,
      if_pos hsemicolon]
    exact enterNamespace_alike last? (h.move htogether)
  | case6 last? e t ts hrest hname hseparator hbrace hsemicolon ih =>
    intro e' h
    cases ht : t.kind.isLayout with
    | true => exact ih (h.move (h.cursor.wait hrest ht))
    | false =>
      obtain ⟨hnext, htogether⟩ := h.cursor.step hrest ht
      rw [namespaceHeading_next outer last? hnext, if_neg hname, if_neg hseparator, if_neg hbrace,
        if_neg hsemicolon]
      exact ih (h.move htogether.following)

/-! ## Whole sources -/

theorem item_alike (t : Token) (h : Alike Together e e') (hne : e.cursor.rest ≠ []) :
    Alike Together (e.item t) (e'.item t) := by
  rw [item, item]
  split
  · exact namespaceHeading_alike 0 none _ ⟨h.cursor.following, rfl, h.declarations⟩
  · exact declaration_alike t h hne

theorem item_of_isLayout {t : Token} (ht : t.kind.isLayout = true) (e : Extraction) :
    e.item t = e := by
  have hkind : t.kind ≠ .namespaceWord := by
    obtain hkind | hkind := kind_of_isLayout ht <;> simp [hkind]
  rw [item, if_neg hkind, declaration_of_isLayout ht]

theorem items_end (h : e.cursor.rest = []) : e.items = e := by
  rw [items]
  split <;> simp_all

theorem items_alike (e : Extraction) :
    ∀ {e' : Extraction}, Alike Upcoming e e' → Alike Together e.items e'.items := by
  fun_induction items e with
  | case1 e hrest =>
    intro e' h
    have hend := h.cursor.nil hrest
    rw [items_end hend]
    exact h.move (together_nil hrest hend)
  | case2 e t ts hrest ih =>
    intro e' h
    cases ht : t.kind.isLayout with
    | true =>
      rw [item_of_isLayout ht] at ih ⊢
      refine ih (h.move ?_)
      rw [Cursor.rest_advance, hrest]
      exact h.cursor.wait hrest ht
    | false =>
      obtain ⟨hrest', htogether⟩ := h.cursor.token hrest ht
      rw [items_cons hrest']
      exact ih (item_alike t (h.move htogether) (hrest ▸ List.cons_ne_nil t ts)).advance

theorem run_alike {tokens : List Token} (h : PlainLayout tokens) (scopes : ScopeStack) :
    Alike Together (run tokens scopes) (run (withoutLayout tokens) scopes) :=
  items_alike _ ⟨⟨h, rfl⟩, rfl, rfl⟩

end Extraction

/-! ## Tags -/

/-- A tag without the texts that are quoted from its source: its pattern and what is added to it. -/
def Tag.outline (t : SourceTag) : SourceTag := { t with pattern := "", extras := [] }

theorem ScopeStack.label?_outline (s : ScopeStack) :
    ScopeStack.label? (s.map ScopeFrame.outline) = s.label? := by
  have hnames : (s.map ScopeFrame.outline).map ScopeFrame.name = s.map ScopeFrame.name := by
    simp [ScopeFrame.outline, Function.comp_def]
  rw [label?, label?, List.getLast?_map, Option.map_map, hnames]
  rfl

/-- The outline of a tag is read off the outline of its declaration. -/
theorem Declaration.outline_tag (path : Text) (d : Declaration) :
    Tag.outline (d.tag path) = Tag.outline (d.outline.tag path) := by
  simp [Tag.outline, Declaration.tag, Declaration.outline, ScopeStack.label?_outline]

theorem Extraction.Alike.tags {tokens : List Token → List Token → Prop} {e e' : Extraction}
    (h : Alike tokens e e') (path : Text) :
    (e'.declarations.map (Declaration.tag path)).map Tag.outline =
      (e.declarations.map (Declaration.tag path)).map Tag.outline := by
  have hoff (ds : List Declaration) : (ds.map (Declaration.tag path)).map Tag.outline =
      (ds.map Declaration.outline).map fun d => Tag.outline (d.tag path) := by
    simp [Function.comp_def, ← Declaration.outline_tag]
  rw [hoff, hoff, h.declarations]

/-- Without comments and blanks a source has the same tags in the same scopes; only what is quoted
from the source may change. -/
theorem tags_withoutLayout {tokens : List Token} (h : PlainLayout tokens) (path : Text)
    (scopes : ScopeStack) :
    ∃ tags tags' : List SourceTag,
      (Extraction.run tokens scopes).tags path = .ok tags ∧
      (Extraction.run (withoutLayout tokens) scopes).tags path = .ok tags' ∧
      tags'.map Tag.outline = tags.map Tag.outline ∧
      (Extraction.run (withoutLayout tokens) scopes).scopes.map ScopeFrame.outline =
        (Extraction.run tokens scopes).scopes.map ScopeFrame.outline := by
  have halike := Extraction.run_alike h scopes
  exact ⟨_, _, Extraction.tags_run tokens scopes path, Extraction.tags_run _ scopes path,
    halike.tags path, halike.scopes⟩

/-- A namespace with a comment before its name, and a class in it with a line break before its
body. -/
def spreadNamespace : List Token :=
  [⟨.namespaceWord, "namespace", 1⟩, ⟨.comment, "/* \x7b */", 1⟩, ⟨.name, "N", 1⟩,
    ⟨.symbol, ";", 1⟩,
    ⟨.classWord, "class", 2⟩, ⟨.blank, " ", 2⟩, ⟨.name, "A", 2⟩, ⟨.blank, "\n", 2⟩,
    ⟨.symbol, "\x7b", 3⟩, ⟨.constWord, "const", 3⟩, ⟨.blank, " ", 3⟩, ⟨.name, "C", 3⟩,
    ⟨.symbol, "\x7d", 3⟩]

theorem tags_withoutLayout_spreadNamespace :
    PlainLayout spreadNamespace ∧
    ∃ tags tags' : List SourceTag,
      (Extraction.run spreadNamespace []).tags "/a.php" = .ok tags ∧
      (Extraction.run (withoutLayout spreadNamespace) []).tags "/a.php" = .ok tags' ∧
      tags'.map Tag.outline = tags.map Tag.outline ∧
      (Extraction.run (withoutLayout spreadNamespace) []).scopes.map ScopeFrame.outline =
        (Extraction.run spreadNamespace []).scopes.map ScopeFrame.outline := by
  have hplain : PlainLayout spreadNamespace := by
    unfold PlainLayout
    decide
  exact ⟨hplain, tags_withoutLayout hplain "/a.php" []⟩

end TagsFile
