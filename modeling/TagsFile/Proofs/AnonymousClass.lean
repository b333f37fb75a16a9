import TagsFile.Proofs.Locality

/-!
# Classes without a name

A class without a name is passed over as a whole when no brace stands among its arguments, and no
name behind the parents of a class without arguments. Then nothing is declared, and what comes
behind is found as if the class were not there. Otherwise the first parent is taken for the name, or
a brace of the arguments for the body.

## Main definitions

* `AnonymousClass`: such a class, with its arguments and parents.
* `AnonymousClass.IsPlain`: whether it is passed over.

## Main statements

* `AnonymousClass.skipped_whole`: exactly the plain ones are passed over, and what follows does not
  depend on them.
-/

namespace TagsFile

/-! ## Nested tokens -/

section Nested

variable {opens closes : Token → Bool} {a b : List Token}

theorem Nested.append (ha : Nested opens closes a) (hb : Nested opens closes b) :
    Nested opens closes (a ++ b) := by
  induction ha with
  | nil => exact hb
  | other hopens hcloses _ ih => exact .other hopens hcloses ih
  | group hopens hbody hcloses _ _ ih =>
    rw [List.cons_append, List.append_assoc, List.cons_append]
    exact .group hopens hbody hcloses ih

theorem nested_of_plain (h : ∀ t ∈ a, opens t = false ∧ closes t = false) :
    Nested opens closes a := by
  induction a with
  | nil => exact .nil
  | cons t a ih =>
    obtain ⟨hopens, hcloses⟩ := h t (by simp)
    exact .other hopens hcloses (ih fun s hs => h s (by simp [hs]))

theorem Group.nested_tokens (g : Group opens closes) : Nested opens closes g.tokens :=
  .group g.opens_opening g.nested g.closes_closing .nil

/-- What is left of nested tokens is nested, or nested up to a closer. -/
theorem Nested.suffix (h : Nested opens closes (a ++ b)) : Nested opens closes b ∨
    ∃ inner closing outer, b = inner ++ closing :: outer ∧ Nested opens closes inner ∧
      closes closing = true := by
  generalize heq : a ++ b = ts at h
  induction h generalizing a b with
  | nil =>
    obtain ⟨rfl, rfl⟩ := List.append_eq_nil_iff.1 heq
    exact .inl .nil
  | other hopens hcloses hts ih =>
    cases a with
    | nil =>
      obtain rfl : b = _ := heq
      exact .inl (.other hopens hcloses hts)
    | cons s a => exact ih (List.cons.inj heq).2
  | @group opening closing body ts hopens hbody hcloses hts ihbody ihts =>
    cases a with
    | nil =>
      obtain rfl : b = _ := heq
      exact .inl (.group hopens hbody hcloses hts)
    | cons s a =>
      obtain ⟨l, hbody', rfl⟩ | ⟨l, rfl, hl⟩ :=
        List.append_eq_append_iff.1 (List.cons.inj heq).2
      · obtain hnested | ⟨inner, closing', outer, rfl, hinner, hcloses'⟩ := ihbody hbody'.symm
        · exact .inr ⟨l, closing, ts, rfl, hnested, hcloses⟩
        · exact .inr ⟨inner, closing', outer ++ closing :: ts, by simp, hinner, hcloses'⟩
      · cases l with
        | nil => exact .inr ⟨[], closing, ts, hl.symm, .nil, hcloses⟩
        | cons s l => exact ihts (List.cons.inj hl).2.symm

end Nested

/-! ## The class and its tokens -/

/-- Whether a token can stand behind `extends` or `implements`. -/
def Token.isParentPart (t : Token) : Bool :=
  t.kind.isLayout || t.kind = .name || t.kind = .nsSeparator || t.isSymbol ","

/-- `extends …` or `implements …`. -/
structure ParentClause where
  word : Token
  parts : List Token
  word_kind : word.kind = .keyword
  parts_isParentPart : ∀ t ∈ parts, t.isParentPart = true

def ParentClause.tokens (c : ParentClause) : List Token := c.word :: c.parts

/-- A list of arguments with its parentheses, in which braces match too. -/
structure Arguments extends Parameters where
  nested_blocks : Nested Token.opensBlock Token.closesBlock body

/-- `class ( … ) extends … { … }`, with layout anywhere between. -/
structure AnonymousClass where
  word : Token
  before : List Token
  arguments : Option Arguments
  between : List Token
  clauses : List ParentClause
  body : Block
  word_kind : word.kind = .classWord
  before_isLayout : ∀ t ∈ before, t.kind.isLayout = true
  between_isLayout : ∀ t ∈ between, t.kind.isLayout = true
  body_isBrace : body.opening.isSymbol "\x7b" = true

namespace AnonymousClass

/-- The tokens of the arguments. -/
def argumentTokens (x : AnonymousClass) : List Token := (x.arguments.map (·.tokens)).getD []

/-- What stands between the arguments and the body. -/
def parents (x : AnonymousClass) : List Token :=
  x.between ++ x.clauses.flatMap ParentClause.tokens

def tokens (x : AnonymousClass) : List Token :=
  x.word :: (x.before ++ (x.argumentTokens ++ (x.parents ++ x.body.tokens)))

/-- Whether no parent can be taken for the name of the class and no token of its arguments for the
brace of its body. -/
def IsPlain (x : AnonymousClass) : Prop :=
  match x.arguments with
  | none => ∀ t ∈ x.parents, t.kind ≠ .name
  | some g => ∀ t ∈ g.body ++ g.closing :: x.parents, t.text ≠ "\x7b"

instance (x : AnonymousClass) : Decidable x.IsPlain := by
  unfold IsPlain
  split <;> infer_instance

/-- Neither a block nor the search for a name ends among the parents. -/
theorem parents_plain (x : AnonymousClass) :
    ∀ t ∈ x.parents, t.opensBlock = false ∧ t.closesBlock = false ∧ t.endsHeading = false := by
  have hkind (t : Token) (h : t.kind.isLayout = true ∨ t.kind = .name ∨ t.kind = .nsSeparator ∨
      t.isSymbol "," = true ∨ t.kind = .keyword) :
      t.opensBlock = false ∧ t.closesBlock = false ∧ t.endsHeading = false := by
    obtain h | h | h | h | h := h
    · simp [Token.closesBlock, Token.endsHeading, opensBlock_of_isLayout h, isSymbol_of_isLayout h]
    · simp [Token.opensBlock, Token.closesBlock, Token.endsHeading, Token.isSymbol, h]
    · simp [Token.opensBlock, Token.closesBlock, Token.endsHeading, Token.isSymbol, h]
    · have hother (text : Text) (htext : "," ≠ text) : t.isSymbol text = false :=
        Cursor.isSymbol_of_isSymbol h htext
      simp only [Token.opensBlock, Token.closesBlock, Token.endsHeading, Cursor.kind_of_isSymbol h,
        hother "\x7b" (by decide), hother "\x7d" (by decide), hother "(" (by decide),
        hother ";" (by decide)]
      decide
    · simp [Token.opensBlock, Token.closesBlock, Token.endsHeading, Token.isSymbol, h]
  intro t ht
  obtain ht | ht := List.mem_append.1 ht
  · exact hkind t (.inl (x.between_isLayout t ht))
  · obtain ⟨c, hc, ht⟩ := List.mem_flatMap.1 ht
    obtain rfl | ht := List.mem_cons.1 ht
    · exact hkind _ (.inr (.inr (.inr (.inr c.word_kind))))
    · have hpart := c.parts_isParentPart t ht
      simp only [Token.isParentPart, Bool.or_eq_true, decide_eq_true_eq] at hpart
      exact hkind t (by tauto)

theorem nested_parents (x : AnonymousClass) :
    Nested Token.opensBlock Token.closesBlock x.parents :=
  nested_of_plain fun t ht => ⟨(x.parents_plain t ht).1, (x.parents_plain t ht).2.1⟩

/-- No block is left open before the body. -/
theorem nested_behind (x : AnonymousClass) (g : Arguments) :
    Nested Token.opensBlock Token.closesBlock (g.body ++ g.closing :: x.parents) := by
  have hopens : g.closing.opensBlock = false := by
    simp [Token.opensBlock, Cursor.kind_of_isSymbol g.closes_closing,
      Cursor.isSymbol_of_isSymbol g.closes_closing (b := "\x7b") (by decide)]
  have hcloses : g.closing.closesBlock = false :=
    Cursor.isSymbol_of_isSymbol g.closes_closing (by decide)
  exact g.nested_blocks.append (.other hopens hcloses x.nested_parents)

end AnonymousClass

/-! ## The search for the name -/

theorem exists_first_text {ts : List Token} {text : Text} (h : ∃ t ∈ ts, t.text = text) :
    ∃ before t rest, ts = before ++ t :: rest ∧ t.text = text ∧ ∀ s ∈ before, s.text ≠ text := by
  obtain ⟨t, hfind⟩ : ∃ t, ts.find? (·.text = text) = some t :=
    Option.isSome_iff_exists.1 (List.find?_isSome.2 (by simpa using h))
  obtain ⟨htext, before, rest, hts, hbefore⟩ := List.find?_eq_some_iff_append.1 hfind
  exact ⟨before, t, rest, hts, by simpa using htext, fun s hs => by simpa using hbefore s hs⟩

namespace Cursor

variable {c : Cursor} {gap rest : List Token} {t : Token}

/-- Behind a gap a delimiter ends the search for a name. -/
theorem toName_delimiter (hgap : ∀ s ∈ gap, s.isGap = true) (ht : t.endsHeading = true)
    (hrest : c.rest.tail = gap ++ t :: rest) :
    c.toName.1 = none ∧ c.toName.2.rest = t :: rest := by
  induction gap generalizing c with
  | nil =>
    have hkind : t.kind ≠ .name := by
      rintro hkind
      simp [Token.endsHeading, Token.isSymbol, hkind] at ht
    rw [toName_next hrest, if_neg hkind, if_pos ht]
    exact ⟨rfl, by simpa using hrest⟩
  | cons s gap ih =>
    obtain ⟨hkind, hends⟩ := isGap_iff.1 (hgap s (by simp))
    rw [toName_next hrest, if_neg hkind, if_neg (by simp [hends])]
    exact ih (fun s hs => hgap s (by simp [hs])) (by simp [hrest])

/-- A name that no delimiter precedes is found, or one before it. -/
theorem isSome_toName (hgap : ∀ s ∈ gap, s.endsHeading = false) (ht : ∃ s ∈ gap, s.kind = .name)
    (hrest : c.rest.tail = gap ++ rest) : c.toName.1.isSome = true := by
  induction gap generalizing c with
  | nil => simp at ht
  | cons s gap ih =>
    rw [toName_next hrest]
    by_cases hkind : s.kind = .name
    · rw [if_pos hkind]
      rfl
    · rw [if_neg hkind, if_neg (by simp [hgap s])]
      refine ih (fun s hs => hgap s (by simp [hs])) ?_ (by simp [hrest])
      simpa [hkind] using ht

end Cursor

namespace Extraction

variable {e : Extraction} {t : Token} {ts : List Token}

theorem name_named (kind : TagKind) (e : Extraction) :
    (e.named kind).1 = e.cursor.startCollect.toName.1 := by
  rw [named_eq_toName]
  dsimp only
  split <;> simp_all

theorem item_of_class (ht : t.kind = .classWord) (e : Extraction) :
    e.item t = e.type .classDecl .classScope true := by
  rw [item, if_neg (by simp [ht]), declaration, ht]

/-- A type that has a name is declared. -/
theorem declarations_type_ne {kind : TagKind} {scope : ScopeKind} {skipsBlocks : Bool}
    (hne : e.cursor.rest ≠ []) (h : (e.named kind).1.isSome = true) :
    (e.type kind scope skipsBlocks).declarations ≠ e.declarations := by
  obtain ⟨hname, -⟩ | ⟨name, line, hname, hadds⟩ := named_adds kind hne
  · simp [hname] at h
  · obtain ⟨inner, hinner⟩ : ∃ inner,
        (e.named kind).2.2.enter ⟨scope, name, some (e.named kind).2.1⟩ = inner := ⟨_, rfl⟩
    obtain ⟨ds, hmembers, -⟩ := body_adds skipsBlocks inner
    have hdeclared : inner.declarations = (e.named kind).2.2.declarations := hinner ▸ rfl
    have hleave (e : Extraction) : e.leave.declarations = e.declarations := by
      unfold leave
      split <;> rfl
    intro hsame
    rw [type_of_some kind scope skipsBlocks hname hinner, hleave, hmembers.declarations, hdeclared,
      hadds.declarations, List.append_assoc] at hsame
    simp at hsame

theorem adds_type_of_none {kind : TagKind} {scope : ScopeKind} {skipsBlocks : Bool}
    (hne : e.cursor.rest ≠ []) (h : (e.named kind).1 = none) :
    Adds [] e (e.type kind scope skipsBlocks) := by
  obtain ⟨-, hadds⟩ | ⟨name, line, hname, -⟩ := named_adds kind hne
  · rw [type_of_none kind scope skipsBlocks h]
    refine hadds.trans ?_
    unfold anonymousBody
    repeat' split
    all_goals exact adds_cursor _ _
  · simp [h] at hname

/-- Where the body of a type without a name begins behind its arguments. -/
theorem anonymousBody_arguments {brace : Token} {before rest : List Token}
    (hopening : t.isSymbol "(" = true) (hbrace : brace.text = "\x7b")
    (hbefore : ∀ s ∈ before, s.text ≠ "\x7b")
    (hrest : e.cursor.rest = t :: (before ++ brace :: rest)) :
    ∃ c : Cursor, c.rest.tail = rest ∧ e.anonymousBody = { e with cursor := c.skipBlock } := by
  obtain ⟨hfound, hbody⟩ := Cursor.skipTo_eq (c := e.cursor) hbrace hbefore (by rw [hrest]; rfl)
  refine ⟨e.toBody.2.cursor, ?_, ?_⟩
  · exact congrArg List.tail hbody
  · have hsemicolon := Cursor.isSymbol_of_isSymbol hopening (b := ";") (by decide)
    have hcurly := Cursor.isSymbol_of_isSymbol hopening (b := "\x7b") (by decide)
    have hto : e.toBody.1 = true := hfound
    rw [anonymousBody_cons hrest, hsemicolon, hcurly, hto]
    rfl

end Extraction

/-! ## Passing over the class -/

namespace AnonymousClass

open Extraction

variable {x : AnonymousClass} {e : Extraction} {after : List Token}

theorem isGap_of_isLayout {t : Token} (h : t.kind.isLayout = true) : t.isGap = true := by
  obtain hkind | hkind := kind_of_isLayout h <;>
    simp [Token.isGap, Token.endsHeading, Token.isSymbol, hkind]

/-- The arguments end the search for a name. -/
theorem named_arguments {g : Arguments} (hg : x.arguments = some g)
    (hrest : e.cursor.rest = x.tokens ++ after) :
    (e.named .classDecl).1 = none ∧ (e.named .classDecl).2.2.cursor.rest =
      g.opening :: ((g.body ++ g.closing :: x.parents) ++ (x.body.tokens ++ after)) := by
  have hends : g.opening.endsHeading = true := by simp [Token.endsHeading, g.opens_opening]
  have hfront : e.cursor.startCollect.rest.tail = x.before ++
      g.opening :: ((g.body ++ g.closing :: x.parents) ++ (x.body.tokens ++ after)) := by
    simp [hrest, tokens, argumentTokens, hg, Group.tokens]
  obtain ⟨hname, hstop⟩ := Cursor.toName_delimiter
    (fun t ht => isGap_of_isLayout (x.before_isLayout t ht)) hends hfront
  exact ⟨(name_named ..).trans hname, by rw [cursor_named]; exact hstop⟩

/-- Without arguments the search for a name goes on to the body. -/
theorem tail_startCollect (hg : x.arguments = none) (hrest : e.cursor.rest = x.tokens ++ after) :
    e.cursor.startCollect.rest.tail = (x.before ++ x.parents) ++ (x.body.tokens ++ after) := by
  simp [hrest, tokens, argumentTokens, hg]

theorem named_body (hg : x.arguments = none) (hplain : ∀ t ∈ x.parents, t.kind ≠ .name)
    (hrest : e.cursor.rest = x.tokens ++ after) :
    (e.named .classDecl).1 = none ∧
      (e.named .classDecl).2.2.cursor.rest = x.body.tokens ++ after := by
  have hgap : ∀ t ∈ x.before ++ x.parents, t.isGap = true := by
    intro t ht
    obtain ht | ht := List.mem_append.1 ht
    · exact isGap_of_isLayout (x.before_isLayout t ht)
    · exact Cursor.isGap_iff.2 ⟨hplain t ht, (x.parents_plain t ht).2.2⟩
  have hends : x.body.opening.endsHeading = true := by simp [Token.endsHeading, x.body_isBrace]
  obtain ⟨hname, hstop⟩ := Cursor.toName_delimiter hgap hends (tail_startCollect hg hrest)
  exact ⟨(name_named ..).trans hname, by rw [cursor_named]; exact hstop⟩

theorem name_of_parent (hg : x.arguments = none) (hname : ∃ t ∈ x.parents, t.kind = .name)
    (hrest : e.cursor.rest = x.tokens ++ after) : (e.named .classDecl).1.isSome = true := by
  rw [name_named]
  obtain ⟨s, hs, hkind⟩ := hname
  refine Cursor.isSome_toName ?_ ⟨s, List.mem_append_right _ hs, hkind⟩ (tail_startCollect hg hrest)
  intro t ht
  obtain ht | ht := List.mem_append.1 ht
  · exact (Cursor.isGap_iff.1 (isGap_of_isLayout (x.before_isLayout t ht))).2
  · exact (x.parents_plain t ht).2.2

/-- Whether an extraction that comes to the class passes over it: nothing is declared, the scopes
stay, and the cursor is at the brace that closes the class. -/
def SkippedAt (x : AnonymousClass) (after : List Token) (e : Extraction) : Prop :=
  Adds [] e (e.item x.word) ∧ (e.item x.word).cursor.rest = x.body.closing :: after

theorem rest_ne_nil (hrest : e.cursor.rest = x.tokens ++ after) : e.cursor.rest ≠ [] := by
  rw [hrest, tokens, List.cons_append]
  exact List.cons_ne_nil _ _

theorem skippedAt_of_plain (hplain : x.IsPlain) (hrest : e.cursor.rest = x.tokens ++ after) :
    x.SkippedAt after e := by
  have hbody {c : Cursor} (hc : c.rest.tail = x.body.body ++ x.body.closing :: after) :
      c.skipBlock.rest = x.body.closing :: after :=
    Cursor.rest_skipBlock x.body.nested x.body.closes_closing hc
  rw [SkippedAt, item_of_class x.word_kind]
  cases hg : x.arguments with
  | none =>
    simp only [IsPlain, hg] at hplain
    obtain ⟨hname, hstop⟩ := named_body hg hplain hrest
    refine ⟨adds_type_of_none (rest_ne_nil hrest) hname, ?_⟩
    have hsemicolon := Cursor.isSymbol_of_isSymbol x.body_isBrace (b := ";") (by decide)
    rw [Group.tokens, List.cons_append, List.append_assoc, List.singleton_append] at hstop
    rw [type_of_none _ _ _ hname, anonymousBody_cons hstop, hsemicolon, if_pos x.body_isBrace]
    exact hbody (congrArg List.tail hstop)
  | some g =>
    simp only [IsPlain, hg] at hplain
    obtain ⟨hname, hstop⟩ := named_arguments hg hrest
    refine ⟨adds_type_of_none (rest_ne_nil hrest) hname, ?_⟩
    have hbrace : x.body.opening.text = "\x7b" := by
      simpa [Token.isSymbol] using (Bool.and_eq_true_iff.1 x.body_isBrace).2
    obtain ⟨c, hc, heq⟩ :
        ∃ c : Cursor, c.rest.tail = x.body.body ++ x.body.closing :: after ∧ _ :=
      anonymousBody_arguments g.opens_opening hbrace hplain (by simpa [Group.tokens] using hstop)
    rw [type_of_none _ _ _ hname, heq]
    exact hbody hc

/-- A block that is opened before the body ends before the body does, or behind it. -/
theorem skipBlock_ne {rest : List Token}
    (h : Nested Token.opensBlock Token.closesBlock rest ∨ ∃ inner closing outer,
      rest = inner ++ closing :: outer ∧ Nested Token.opensBlock Token.closesBlock inner ∧
        closing.closesBlock = true)
    {c : Cursor} (hc : c.rest.tail = rest ++ (x.body.tokens ++ after)) :
    c.skipBlock.rest ≠ x.body.closing :: after := by
  intro hend
  have hlength := congrArg List.length hend
  obtain hnested | ⟨inner, closing, outer, rfl, hnested, hcloses⟩ := h
  · obtain ⟨c', hc', heq⟩ := Cursor.skipBlocks_nested (hnested.append x.body.nested_tokens)
      Nat.one_pos (hc.trans (List.append_assoc ..).symm)
    have hshort := Cursor.remaining_skipBlocks_lt 1 c'
    rw [Cursor.skipBlock, heq, List.length_cons] at hlength
    rw [Cursor.remaining, Cursor.remaining, ← List.length_tail, hc'] at hshort
    omega
  · rw [List.append_assoc, List.cons_append] at hc
    rw [Cursor.rest_skipBlock hnested hcloses hc] at hlength
    simp [Group.tokens] at hlength
    omega

theorem plain_of_skippedAt (hskipped : x.SkippedAt after e)
    (hrest : e.cursor.rest = x.tokens ++ after) : x.IsPlain := by
  rw [SkippedAt, item_of_class x.word_kind] at hskipped
  obtain ⟨hadds, hend⟩ := hskipped
  cases hg : x.arguments with
  | none =>
    simp only [IsPlain, hg]
    by_contra hparent
    push Not at hparent
    exact declarations_type_ne (rest_ne_nil hrest) (name_of_parent hg hparent hrest)
      (hadds.declarations.trans (List.append_nil _))
  | some g =>
    simp only [IsPlain, hg]
    by_contra hbrace
    push Not at hbrace
    obtain ⟨hname, hstop⟩ := named_arguments hg hrest
    obtain ⟨before, brace, rest, hsplit, htext, hbefore⟩ := exists_first_text hbrace
    rw [hsplit, List.append_assoc, List.cons_append] at hstop
    obtain ⟨c, hc, heq⟩ := anonymousBody_arguments g.opens_opening htext hbefore hstop
    rw [type_of_none _ _ _ hname, heq] at hend
    have hnested : Nested Token.opensBlock Token.closesBlock ((before ++ [brace]) ++ rest) := by
      rw [List.append_assoc, List.singleton_append, ← hsplit]
      exact x.nested_behind g
    exact skipBlock_ne hnested.suffix hc hend

/-- Behind a class that is passed over, an extraction stands as one that has come to the tokens
behind it without the class. -/
theorem SkippedAt.agrees {e' : Extraction} (h : x.SkippedAt after e) (hadds : Adds [] e' e)
    (hrest : e'.cursor.rest = after) : Agrees (e.item x.word).advance e' := by
  obtain ⟨hskipped, hend⟩ := h
  have hboth := hadds.trans hskipped
  refine ⟨?_, hboth.scopes, hboth.declarations.trans (List.append_nil _), hboth.fault⟩
  rw [hrest]
  exact (Cursor.rest_advance _).trans (congrArg List.tail hend)

/-- A source with the class gives what the source without it gives. -/
theorem run_agrees {before : List Token} {scopes : ScopeStack} (hplain : x.IsPlain)
    (harrives : Arrives { cursor := { rest := before ++ (x.tokens ++ after) }, scopes } e)
    (hrest : e.cursor.rest = x.tokens ++ after) :
    Agrees (run (before ++ (x.tokens ++ after)) scopes) (run (before ++ after) scopes) := by
  have hne : x.tokens ++ after ≠ [] := hrest ▸ rest_ne_nil hrest
  obtain ⟨start, hstart⟩ : ∃ start : Extraction, { cursor := { rest := before }, scopes } = start :=
    ⟨_, rfl⟩
  have hwithin (more : List Token) :
      ({ cursor := { rest := before ++ more }, scopes } : Extraction) = start.within 0 more := by
    rw [← hstart]
    rfl
  rw [hwithin] at harrives
  obtain ⟨d, hd, e', harrives', hd'⟩ := exists_arrives_within hne after harrives
    (congrArg List.length hrest).ge
  have hend : d.cursor.rest = [] :=
    List.append_left_eq_self.1 (hd.rest.symm.trans hrest)
  have hrest' : e'.cursor.rest = after := by
    rw [hd'.rest, cursor_within, Cursor.rest_within, hend, List.nil_append]
  have hadds : Adds [] e' e :=
    ⟨hd.scopes.trans hd'.scopes.symm, hd.fault.trans hd'.fault.symm,
      (hd.declarations.trans hd'.declarations.symm).trans (List.append_nil _).symm⟩
  have hagrees := ((skippedAt_of_plain hplain hrest).agrees hadds hrest').items
  rw [← items_cons hrest] at hagrees
  rw [run, run, hwithin, hwithin, harrives.items_eq, harrives'.items_eq]
  exact hagrees

/-- Between the braces of a namespace the class makes no difference. -/
theorem namespaceBody_agrees {e' : Extraction} (hplain : x.IsPlain)
    (hrest : e.cursor.rest.tail = x.tokens ++ after) (hrest' : e'.cursor.rest.tail = after)
    (hadds : Adds [] e' e) (depth : Nat) :
    Agrees (e.namespaceBody depth) (e'.namespaceBody depth) := by
  have hword : x.word.closesBlock = false ∧ x.word.opensBlock = false := by
    simp [Token.closesBlock, Token.opensBlock, Token.isSymbol, x.word_kind]
  have hitem : e.advance.declaration x.word = e.advance.item x.word := by
    rw [item, if_neg (by simp [x.word_kind])]
  have hskipped : x.SkippedAt after e.advance :=
    skippedAt_of_plain hplain ((Cursor.rest_advance _).trans hrest)
  have hadvance : Adds [] e'.advance e.advance := ⟨hadds.scopes, hadds.fault, hadds.declarations⟩
  rw [namespaceBody_next depth hrest, hword.1, hword.2, hitem]
  exact (hskipped.agrees hadvance ((Cursor.rest_advance _).trans hrest')).namespaceBody depth

/-- Exactly the plain classes without a name are passed over as a whole. Behind one, outside of all
braces and between the braces of a namespace, all is found as if the class were not there. -/
theorem skipped_whole (x : AnonymousClass) (after : List Token) :
    (∀ e : Extraction, e.cursor.rest = x.tokens ++ after → (x.SkippedAt after e ↔ x.IsPlain)) ∧
    (x.IsPlain →
      (∀ (before : List Token) (scopes : ScopeStack) (e : Extraction),
        Arrives { cursor := { rest := before ++ (x.tokens ++ after) }, scopes } e →
        e.cursor.rest = x.tokens ++ after →
        (run (before ++ (x.tokens ++ after)) scopes).scopes =
            (run (before ++ after) scopes).scopes ∧
          ∀ path, (run (before ++ (x.tokens ++ after)) scopes).tags path =
            (run (before ++ after) scopes).tags path) ∧
      ∀ (depth : Nat) (e e' : Extraction), e.cursor.rest.tail = x.tokens ++ after →
        e'.cursor.rest.tail = after → Adds [] e' e →
        Agrees (e.namespaceBody depth) (e'.namespaceBody depth)) := by
  refine ⟨fun e hrest => ⟨fun h => plain_of_skippedAt h hrest, fun h => skippedAt_of_plain h hrest⟩,
    fun hplain => ⟨?_, ?_⟩⟩
  · intro before scopes e harrives hrest
    have hagrees := run_agrees hplain harrives hrest
    exact ⟨hagrees.scopes, hagrees.tags⟩
  · intro depth e e' hrest hrest' hadds
    exact namespaceBody_agrees hplain hrest hrest' hadds depth

/-- `class($a) extends B { { } }`. -/
def withParent : AnonymousClass where
  word := ⟨.classWord, "class", 1⟩
  before := []
  arguments := some
    { opening := ⟨.symbol, "(", 1⟩
      body := [⟨.variableName, "$a", 1⟩]
      closing := ⟨.symbol, ")", 1⟩
      opens_opening := by decide
      nested := nested_of_plain (by decide)
      closes_closing := by decide
      nested_blocks := nested_of_plain (by decide) }
  between := [⟨.blank, " ", 1⟩]
  clauses :=
    [{ word := ⟨.keyword, "extends", 1⟩
       parts := [⟨.blank, " ", 1⟩, ⟨.name, "B", 1⟩, ⟨.blank, " ", 1⟩]
       word_kind := rfl
       parts_isParentPart := by decide }]
  body :=
    { opening := ⟨.symbol, "\x7b", 1⟩
      body := [⟨.symbol, "\x7b", 2⟩, ⟨.symbol, "\x7d", 3⟩]
      closing := ⟨.symbol, "\x7d", 4⟩
      opens_opening := by decide
      nested := .group (by decide) .nil (by decide) .nil
      closes_closing := by decide }
  word_kind := rfl
  before_isLayout := by decide
  between_isLayout := by decide
  body_isBrace := by decide

/-- Behind a variable and before a semicolon it is passed over. -/
theorem withParent_skipped :
    withParent.SkippedAt [⟨.symbol, ";", 4⟩]
      { cursor := { rest := withParent.tokens ++ [⟨.symbol, ";", 4⟩] } } ∧
    ((run ([⟨.variableName, "$x", 1⟩] ++ (withParent.tokens ++ [⟨.symbol, ";", 4⟩])) []).scopes =
        (run ([⟨.variableName, "$x", 1⟩] ++ [⟨.symbol, ";", 4⟩]) []).scopes ∧
      (run ([⟨.variableName, "$x", 1⟩] ++ (withParent.tokens ++ [⟨.symbol, ";", 4⟩])) []).tags
          "/a" =
        (run ([⟨.variableName, "$x", 1⟩] ++ [⟨.symbol, ";", 4⟩]) []).tags "/a") ∧
    Agrees
      (namespaceBody 0 { cursor := { rest := ⟨.symbol, "\x7b", 1⟩ ::
        (withParent.tokens ++ [⟨.symbol, ";", 4⟩]) } })
      (namespaceBody 0 { cursor := { rest := [⟨.symbol, "\x7b", 1⟩, ⟨.symbol, ";", 4⟩] } }) := by
  have hplain : withParent.IsPlain := by decide
  obtain ⟨hskips, hsame⟩ := skipped_whole withParent [⟨.symbol, ";", 4⟩]
  obtain ⟨hrun, hbody⟩ := hsame hplain
  refine ⟨(hskips _ rfl).2 hplain, ?_, hbody 0 _ _ rfl rfl ⟨rfl, rfl, rfl⟩⟩
  obtain ⟨hscopes, htags⟩ := hrun [⟨.variableName, "$x", 1⟩] [] _ (.next .start rfl) rfl
  exact ⟨hscopes, htags "/a"⟩

end AnonymousClass
end TagsFile
