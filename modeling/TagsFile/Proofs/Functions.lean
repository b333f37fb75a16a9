import TagsFile.Proofs.AnonymousClass

/-!
# What a function declares

A function is read from its keyword to its end: the first semicolon outside of parentheses, or the
brace that closes the first block there. It is declared exactly if it has such an end and a name
before all delimiters. This holds on all lists of tokens, well formed or not.

## Main definitions

* `GivesName`: the name that a heading gives.
* `Heading`, `EndsFunction`: what stands before the end of a function, and its end.
* `BlockStop`, `FunctionStop`: where a block and a function are left.
* `SignatureOf`: the column of a tag that tells the parameters.

## Main statements

* `Extraction.function_declares_exactly`: all that a function does to an extraction.
-/

namespace TagsFile

/-! ## Runs of blanks -/

namespace Text

/-- The maximal runs of blanks in a text, and what stands between them. -/
def runs (t : Text) : List Text :=
  t.splitBy fun a b => a.satisfies isBlank == b.satisfies isBlank

/-- A text with one space for each of its runs of blanks. -/
def singleBlanks (t : Text) : Text :=
  t.runs.flatMap fun run => if run.any (·.satisfies isBlank) then [.char ' '] else run

theorem collapse_blanks {run : Text} (hne : run ≠ []) (h : ∀ c ∈ run, c.satisfies isBlank = true)
    (rest : Text) : collapse false (run ++ rest) = .char ' ' :: collapse true rest := by
  have hinside (run : Text) (h : ∀ c ∈ run, c.satisfies isBlank = true) :
      collapse true (run ++ rest) = collapse true rest := by
    induction run with
    | nil => rfl
    | cons c run ih => simp [collapse, h c (by simp), ih fun d hd => h d (by simp [hd])]
  cases run with
  | nil => exact absurd rfl hne
  | cons c run =>
    simp [collapse, h c (by simp), hinside run fun d hd => h d (by simp [hd])]

theorem collapse_others {run : Text} (h : ∀ c ∈ run, c.satisfies isBlank = false) (rest : Text) :
    collapse false (run ++ rest) = run ++ collapse false rest := by
  induction run with
  | nil => rfl
  | cons c run ih => simp [collapse, h c (by simp), ih fun d hd => h d (by simp [hd])]

/-- Before anything but a blank it makes no difference whether a run has just ended. -/
theorem collapse_true {t : Text} (h : ∀ c ∈ t.head?, c.satisfies isBlank = false) :
    collapse true t = collapse false t := by
  cases t with
  | nil => rfl
  | cons c t => simp [collapse, h c (by simp)]

/-- In a run all are blanks or none is. -/
theorem satisfies_of_isChain {c : CodePoint} {run : Text}
    (h : (c :: run).IsChain fun a b => (a.satisfies isBlank == b.satisfies isBlank) = true) :
    ∀ d ∈ c :: run, d.satisfies isBlank = c.satisfies isBlank := by
  induction run generalizing c with
  | nil => simp
  | cons b run ih =>
    obtain ⟨hsame, htail⟩ := List.isChain_cons_cons.1 h
    intro d hd
    obtain rfl | hd := List.mem_cons.1 hd
    · rfl
    · exact (ih htail d hd).trans (eq_of_beq hsame).symm

theorem collapseBlanks_eq_singleBlanks (t : Text) : t.collapseBlanks = t.singleBlanks := by
  obtain ⟨hflat, hne, hchain, hborders⟩ := List.splitBy_eq_iff.1 (show t.runs = t.runs from rfl)
  rw [collapseBlanks, singleBlanks]
  generalize t.runs = pieces at *
  subst hflat
  induction pieces with
  | nil => rfl
  | cons run pieces ih =>
    obtain ⟨hrun, hpieces⟩ : run ≠ [] ∧ [] ∉ pieces := by simpa [eq_comm] using hne
    obtain ⟨c, run, rfl⟩ := List.exists_cons_of_ne_nil hrun
    have hsame := satisfies_of_isChain (hchain _ List.mem_cons_self)
    have hrest := ih hpieces (fun m hm => hchain m (by simp [hm])) hborders.tail
    rw [List.flatten_cons, List.flatMap_cons, ← hrest]
    cases hblank : c.satisfies isBlank with
    | true =>
      have hall : ∀ d ∈ c :: run, d.satisfies isBlank = true :=
        fun d hd => (hsame d hd).trans hblank
      -- the run ends where it does because the next one is of the other sort
      have hnext : ∀ d ∈ pieces.flatten.head?, d.satisfies isBlank = false := by
        intro d hd
        cases pieces with
        | nil => simp at hd
        | cons next pieces =>
          obtain ⟨hlast, hhead, hdiffer⟩ := (List.isChain_cons_cons.1 hborders).1
          have hd' : d = next.head hhead := by
            obtain ⟨first, others, rfl⟩ := List.exists_cons_of_ne_nil hhead
            simpa [eq_comm] using hd
          rw [hall _ (List.getLast_mem hlast), ← hd'] at hdiffer
          simpa using hdiffer
      rw [collapse_blanks hrun hall, collapse_true hnext, if_pos (by simp [hblank])]
      rfl
    | false =>
      have hnone : ∀ d ∈ c :: run, d.satisfies isBlank = false :=
        fun d hd => (hsame d hd).trans hblank
      rw [collapse_others hnone, if_neg (by simpa using hnone)]

end Text

/-! ## Groups that are left open -/

section Closing

variable {opens closes : Token → Bool} {depth : Nat} {t : Token} {ts rest : List Token}

/-- Tokens that close `depth` of the groups around them. All groups that they open, they close. -/
inductive Closing (opens closes : Token → Bool) : Nat → List Token → Prop where
  | nested {ts : List Token} (hts : Nested opens closes ts) : Closing opens closes 0 ts
  | closer {depth : Nat} {ts rest : List Token} {closing : Token} (hts : Nested opens closes ts)
      (hcloses : closes closing = true) (hrest : Closing opens closes depth rest) :
      Closing opens closes (depth + 1) (ts ++ closing :: rest)

theorem Closing.prepend (h : Nested opens closes ts) (h' : Closing opens closes depth rest) :
    Closing opens closes depth (ts ++ rest) := by
  cases h' with
  | nested hrest => exact .nested (h.append hrest)
  | closer hts hcloses hrest =>
    rw [← List.append_assoc]
    exact .closer (h.append hts) hcloses hrest

theorem Closing.other (hopens : opens t = false) (hcloses : closes t = false)
    (h : Closing opens closes depth ts) : Closing opens closes depth (t :: ts) :=
  .prepend (.other hopens hcloses .nil) h

/-- An opener before tokens that close one group more. -/
theorem Closing.opener (hopens : opens t = true) (h : Closing opens closes (depth + 1) ts) :
    Closing opens closes depth (t :: ts) := by
  cases h with
  | @closer _ body rest closing hbody hcloses hrest =>
    have hgroup : Closing opens closes depth ((t :: (body ++ [closing])) ++ rest) :=
      .prepend (.group hopens hbody hcloses .nil) hrest
    simpa using hgroup

end Closing

/-- Where the walk over a block stops, of which `ts` follow the opening brace: at the brace that
closes it, or at the end if there is none. -/
inductive BlockStop (ts : List Token) : List Token → Prop where
  | closed {body after : List Token} {closing : Token} (hts : ts = body ++ closing :: after)
      (hbody : Nested Token.opensBlock Token.closesBlock body)
      (hcloses : closing.closesBlock = true) : BlockStop ts (closing :: after)
  | unclosed (hts : ∀ body closing after, ts = body ++ closing :: after →
      Nested Token.opensBlock Token.closesBlock body → closing.closesBlock = false) :
      BlockStop ts []

namespace Cursor

theorem tail_eq_cons {c : Cursor} {t : Token} {ts more : List Token}
    (hrest : c.advance.rest = t :: ts) (h : c.advance.rest.tail = more) :
    c.rest.tail = t :: more := by
  rw [← rest_advance, ← h, hrest, List.tail_cons]

/-- A walk over blocks that does not come to the end stops at a brace that closes them. -/
theorem skipBlocks_cases (depth : Nat) (c : Cursor) :
    (c.skipBlocks (depth + 1)).rest = [] ∨ ∃ walked closing after,
      c.rest.tail = walked ++ closing :: after ∧
      Closing Token.opensBlock Token.closesBlock depth walked ∧ closing.closesBlock = true := by
  generalize hlevel : depth + 1 = level
  fun_induction skipBlocks level c generalizing depth with
  | case1 level c hrest => exact .inl hrest
  | case2 level c t ts hrest hopens ih =>
    refine (ih _ (congrArg Nat.succ hlevel)).imp_right ?_
    rintro ⟨walked, closing, after, hafter, hwalked, hcloses⟩
    exact ⟨t :: walked, closing, after, tail_eq_cons hrest hafter, hwalked.opener hopens, hcloses⟩
  | case3 level c t ts hrest hopens hcloses hlast =>
    obtain rfl : depth = 0 := by omega
    exact .inr ⟨[], t, ts, by rw [← rest_advance, hrest, List.nil_append], .nested .nil, hcloses⟩
  | case4 level c t ts hrest hopens hcloses hlast ih =>
    obtain ⟨depth, rfl⟩ : ∃ inner, depth = inner + 1 := ⟨depth - 1, by omega⟩
    refine (ih depth (by omega)).imp_right ?_
    rintro ⟨walked, closing, after, hafter, hwalked, hcloses'⟩
    exact ⟨t :: walked, closing, after, tail_eq_cons hrest hafter, .closer .nil hcloses hwalked,
      hcloses'⟩
  | case5 level c t ts hrest hopens hcloses ih =>
    refine (ih depth hlevel).imp_right ?_
    rintro ⟨walked, closing, after, hafter, hwalked, hcloses'⟩
    exact ⟨t :: walked, closing, after, tail_eq_cons hrest hafter,
      hwalked.other (by simpa using hopens) (by simpa using hcloses), hcloses'⟩

theorem blockStop_skipBlock (c : Cursor) : BlockStop c.rest.tail c.skipBlock.rest := by
  by_cases hclosed : ∃ body closing after, c.rest.tail = body ++ closing :: after ∧
      Nested Token.opensBlock Token.closesBlock body ∧ closing.closesBlock = true
  · obtain ⟨body, closing, after, hrest, hbody, hcloses⟩ := hclosed
    rw [rest_skipBlock hbody hcloses hrest]
    exact .closed hrest hbody hcloses
  · obtain hend | ⟨walked, closing, after, hrest, hwalked, hcloses⟩ := skipBlocks_cases 0 c
    · rw [skipBlock, hend]
      refine .unclosed fun body closing after hrest hbody => ?_
      exact Bool.eq_false_iff.2 fun hcloses => hclosed ⟨body, closing, after, hrest, hbody, hcloses⟩
    · cases hwalked with
      | nested hbody => exact absurd ⟨walked, closing, after, hrest, hbody, hcloses⟩ hclosed

/-- A walk over groups of parentheses that does not come to the end stops where they are closed. -/
theorem group_cases (depth : Nat) (c : Cursor) :
    (c.group (depth + 1)).2.rest = [] ∨ ∃ walked closing after,
      c.rest = walked ++ closing :: after ∧
      Closing (·.isSymbol "(") (·.isSymbol ")") depth walked ∧ closing.isSymbol ")" = true := by
  generalize hlevel : (depth + 1 : Int) = level
  fun_induction group level c generalizing depth with
  | case1 level c hrest => exact .inl hrest
  | case2 level c t ts hrest hlast =>
    obtain ⟨hcloses, hone⟩ : t.isSymbol ")" = true ∧ level = 1 := by simpa using hlast
    obtain rfl : depth = 0 := by omega
    exact .inr ⟨[], t, ts, hrest, .nested .nil, hcloses⟩
  | case3 level c t ts hrest hlast inner texts c' hgroup ih =>
    have hlast' : t.isSymbol ")" = true → level ≠ 1 := by simpa using hlast
    rw [rest_advance, hrest, List.tail_cons] at ih
    simp only [hgroup] at ih
    -- the walk goes on with the tokens behind `t`, inside as many groups as are then open
    have hstep (outer : Nat) (hinner : (outer + 1 : Int) = inner)
        (hclosing : ∀ walked, Closing (·.isSymbol "(") (·.isSymbol ")") outer walked →
          Closing (·.isSymbol "(") (·.isSymbol ")") depth (t :: walked)) :
        c'.rest = [] ∨ ∃ walked closing after, c.rest = walked ++ closing :: after ∧
          Closing (·.isSymbol "(") (·.isSymbol ")") depth walked ∧ closing.isSymbol ")" = true := by
      refine (ih outer hinner).imp_right ?_
      rintro ⟨walked, closing, after, rfl, hwalked, hcloses⟩
      exact ⟨t :: walked, closing, after, hrest, hclosing walked hwalked, hcloses⟩
    by_cases hopens : t.isSymbol "(" = true
    · exact hstep (depth + 1) (by simp [inner, hopens, ← hlevel]) fun _ h => h.opener hopens
    · by_cases hcloses : t.isSymbol ")" = true
      · have hmore := hlast' hcloses
        obtain ⟨depth, rfl⟩ : ∃ outer, depth = outer + 1 := ⟨depth - 1, by omega⟩
        refine hstep depth ?_ fun _ h => .closer .nil hcloses h
        simp only [inner, hopens, hcloses, ← hlevel]
        simp
      · exact hstep depth (by simp [inner, hopens, hcloses, hlevel]) fun _ h =>
          h.other (by simpa using hopens) (by simpa using hcloses)

/-- A list of parameters ends where its parenthesis is closed, or goes on to the end. -/
theorem parameters_cases {c : Cursor} {t : Token} {ts : List Token} (hrest : c.rest = t :: ts)
    (hopens : t.isSymbol "(" = true) :
    c.parameters.2.rest = [] ∨ ∃ (p : Parameters) (after : List Token),
      c.rest = p.tokens ++ after := by
  have hfirst : c.parameters.2 = (c.advance.group 1).2 := by
    have hgroup := group_cons 0 hrest
    simp only [hopens, if_true, zero_add] at hgroup
    rw [parameters, hgroup]
    simp
  rw [hfirst]
  refine (group_cases 0 c.advance).imp_right ?_
  rintro ⟨walked, closing, after, hafter, hwalked, hcloses⟩
  cases hwalked with
  | nested hbody =>
    refine ⟨⟨t, walked, closing, hopens, hbody, hcloses⟩, after, ?_⟩
    rw [rest_advance, hrest, List.tail_cons] at hafter
    simp [Group.tokens, hrest, hafter]

end Cursor

/-! ## Names and ends -/

/-- Whether a token ends a function outside of parentheses. -/
def Token.endsFunction (t : Token) : Bool := t.isSymbol "\x7b" || t.isSymbol ";"

/-- The name that the tokens `ts` behind a keyword give: the first one, with no delimiter before
it. -/
structure GivesName (ts gap : List Token) (name : Token) (rest : List Token) : Prop where
  split : ts = gap ++ name :: rest
  gap_isGap : ∀ t ∈ gap, t.isGap = true
  name_kind : name.kind = .name

/-- What can stand before the end of a function: groups of parentheses as a whole, and other tokens
that do not end it. -/
inductive Heading : List Token → Prop where
  | nil : Heading []
  | token {t : Token} {ts : List Token} (hopens : t.isSymbol "(" = false)
      (hends : t.endsFunction = false) (hts : Heading ts) : Heading (t :: ts)
  | group (p : Parameters) {ts : List Token} (hts : Heading ts) : Heading (p.tokens ++ ts)

/-- The end of a function of which the tokens `ts` follow the keyword: the first brace or semicolon
outside of parentheses. -/
structure EndsFunction (ts heading : List Token) (ending : Token) (after : List Token) : Prop where
  split : ts = heading ++ ending :: after
  heading : Heading heading
  ends : ending.endsFunction = true

/-- Where the walk over a function stops, of which `ts` follow the keyword. -/
inductive FunctionStop (ts : List Token) : List Token → Prop where
  | semicolon {heading after : List Token} {ending : Token}
      (hends : EndsFunction ts heading ending after) (hsemicolon : ending.isSymbol ";" = true) :
      FunctionStop ts (ending :: after)
  | body {heading after stop : List Token} {ending : Token}
      (hends : EndsFunction ts heading ending after) (hbrace : ending.isSymbol "\x7b" = true)
      (hstop : BlockStop after stop) : FunctionStop ts stop
  | unended (hts : ∀ heading ending after, ¬EndsFunction ts heading ending after) :
      FunctionStop ts []

/-- The parameters in a heading: its first group of parentheses, with one space for each run of
blanks. -/
inductive SignatureOf (heading : List Token) : Option Text → Prop where
  | absent (hplain : ∀ t ∈ heading, t.isSymbol "(" = false) : SignatureOf heading none
  | present {front back : List Token} (p : Parameters)
      (hheading : heading = front ++ (p.tokens ++ back))
      (hplain : ∀ t ∈ front, t.isSymbol "(" = false) :
      SignatureOf heading (some (Text.singleBlanks (p.tokens.flatMap Token.text)))

section EndsFunction

variable {t ending : Token} {ts heading after : List Token}

theorem EndsFunction.token (h : EndsFunction ts heading ending after)
    (hopens : t.isSymbol "(" = false) (hends : t.endsFunction = false) :
    EndsFunction (t :: ts) (t :: heading) ending after :=
  ⟨by rw [h.split, List.cons_append], .token hopens hends h.heading, h.ends⟩

theorem EndsFunction.group (h : EndsFunction ts heading ending after) (p : Parameters) :
    EndsFunction (p.tokens ++ ts) (p.tokens ++ heading) ending after :=
  ⟨by rw [h.split, List.append_assoc], .group p h.heading, h.ends⟩

theorem endsFunction_of_name (h : t.kind = .name) : t.endsFunction = false := by
  simp [Token.endsFunction, Token.isSymbol, h]

theorem isSymbol_of_name (h : t.kind = .name) (text : Text) : t.isSymbol text = false := by
  simp [Token.isSymbol, h]

end EndsFunction

namespace FunctionParts

@[simp] theorem signature_takeName (p : FunctionParts) (text : Text) :
    (p.takeName text).signature = p.signature := by
  unfold takeName; split <;> rfl

@[simp] theorem signature_takeSignature (p : FunctionParts) (text : Text) :
    (p.takeSignature text).signature = p.signature.or (some text) := by
  unfold takeSignature
  cases hp : p.signature <;> simp [hp]

end FunctionParts

namespace Cursor

variable {p : FunctionParts} {c : Cursor}

/-- A function without an end is read to the end of the tokens. -/
theorem functionParts_unended (hp : p.ended = false)
    (h : ∀ heading ending after, ¬EndsFunction c.rest.tail heading ending after) :
    (c.functionParts p).1.ended = false ∧ (c.functionParts p).2.rest = [] := by
  fun_induction functionParts p c with
  | case1 p c hrest => exact ⟨hp, hrest⟩
  | case2 p c t ts hrest next q hname ih =>
    have hnext : next.rest = t :: ts := (rest_afterName p c).trans hrest
    rw [← rest_advance, hrest] at h
    refine ih (by simp [q, hp]) fun heading ending after hends => ?_
    rw [hnext, List.tail_cons] at hends
    exact h _ _ _ (hends.token (isSymbol_of_name hname _) (endsFunction_of_name hname))
  | case3 p c t ts hrest next q hname hopens ih =>
    have hnext : next.rest = t :: ts := (rest_afterName p c).trans hrest
    rw [← rest_advance, hrest] at h
    refine ih (by simp [q, hp]) fun heading ending after hends => ?_
    obtain hend | ⟨g, behind, hgroup⟩ := parameters_cases hnext hopens
    · have hsplit := hends.split
      simp [hend] at hsplit
    · rw [(parameters_eq g hgroup).2, List.tail_cons] at hends
      rw [← hnext, hgroup] at h
      exact h _ _ _ (hends.group g)
  | case4 p c t ts hrest next q hname hopens hbrace =>
    rw [← rest_advance, hrest] at h
    exact absurd ⟨rfl, .nil, by simp [Token.endsFunction, hbrace]⟩ (h [] t ts)
  | case5 p c t ts hrest next q hname hopens hbrace hsemicolon =>
    rw [← rest_advance, hrest] at h
    exact absurd ⟨rfl, .nil, by simp [Token.endsFunction, hsemicolon]⟩ (h [] t ts)
  | case6 p c t ts hrest next q hname hopens hbrace hsemicolon ih =>
    have hnext : next.rest = t :: ts := (rest_afterName p c).trans hrest
    rw [← rest_advance, hrest] at h
    refine ih (by simp [q, hp]) fun heading ending after hends => ?_
    rw [hnext, List.tail_cons] at hends
    exact h _ _ _ (hends.token (by simpa using hopens)
      (by simp [Token.endsFunction, hbrace, hsemicolon]))

/-- One token of a function. -/
theorem functionParts_step (p : FunctionParts) {t : Token} {ts : List Token}
    (hrest : c.rest.tail = t :: ts) : ∃ next : Cursor, next.rest = t :: ts ∧ c.functionParts p =
      if t.kind = .name then
        next.functionParts ((p.takePattern c.advance.snippet).takeName t.text)
      else if t.isSymbol "(" then
        next.parameters.2.functionParts
          ((p.takePattern c.advance.snippet).takeSignature next.parameters.1)
      else if t.isSymbol "\x7b" then
        ({ p.takePattern c.advance.snippet with ended := true }, next.skipBlock)
      else if t.isSymbol ";" then ({ p.takePattern c.advance.snippet with ended := true }, next)
      else next.functionParts (p.takePattern c.advance.snippet) :=
  ⟨_, (rest_afterName p c).trans ((rest_advance c).trans hrest), functionParts_next p hrest⟩

/-- What is read of a function up to its end, and where it is left. -/
theorem functionParts_heading {heading : List Token} (h : Heading heading) {ending : Token}
    (hends : ending.endsFunction = true) (after : List Token) :
    ∃ signature, SignatureOf heading signature ∧ ∀ (p : FunctionParts) (c : Cursor),
      c.rest.tail = heading ++ ending :: after →
      (c.functionParts p).1.ended = true ∧
      (c.functionParts p).1.signature = p.signature.or signature ∧
      (ending.isSymbol ";" = true → (c.functionParts p).2.rest = ending :: after) ∧
      (ending.isSymbol "\x7b" = true → BlockStop after (c.functionParts p).2.rest) := by
  induction h with
  | nil =>
    refine ⟨none, .absent (by simp), fun p c hrest => ?_⟩
    obtain ⟨next, hnext, hstep⟩ := functionParts_step p hrest
    have hkind : ending.kind ≠ .name := by
      intro hname
      rw [endsFunction_of_name hname] at hends
      cases hends
    rw [hstep, if_neg hkind]
    obtain hbrace | hsemicolon := Bool.or_eq_true_iff.1 hends
    · have hstop := blockStop_skipBlock next
      rw [hnext] at hstop
      simpa [hbrace, isSymbol_of_isSymbol hbrace (b := "(") (by decide),
        isSymbol_of_isSymbol hbrace (b := ";") (by decide)] using hstop
    · simp [hsemicolon, isSymbol_of_isSymbol hsemicolon (b := "(") (by decide),
        isSymbol_of_isSymbol hsemicolon (b := "\x7b") (by decide), hnext]
  | @token t ts hopens hends' hts ih =>
    obtain ⟨signature, hsignature, hparts⟩ := ih
    refine ⟨signature, ?_, fun p c hrest => ?_⟩
    · cases hsignature with
      | absent hplain => exact .absent (List.forall_mem_cons.2 ⟨hopens, hplain⟩)
      | @present front back g hts hplain =>
        have hcons : t :: ts = (t :: front) ++ (g.tokens ++ back) := congrArg (t :: ·) hts
        exact .present g hcons (List.forall_mem_cons.2 ⟨hopens, hplain⟩)
    · obtain ⟨next, hnext, hstep⟩ := functionParts_step p hrest
      obtain ⟨hbrace, hsemicolon⟩ := Bool.or_eq_false_iff.1 hends'
      rw [hstep]
      simp only [hopens, hbrace, hsemicolon]
      split
      · have hread := hparts ((p.takePattern c.advance.snippet).takeName t.text) next
          (congrArg List.tail hnext)
        simpa using hread
      · have hread := hparts (p.takePattern c.advance.snippet) next (congrArg List.tail hnext)
        simpa using hread
  | @group g ts hts ih =>
    obtain ⟨inner, -, hparts⟩ := ih
    have hfirst : g.tokens ++ ts = [] ++ (g.tokens ++ ts) := rfl
    refine ⟨_, .present g hfirst (by simp), fun p c hrest => ?_⟩
    rw [List.append_assoc] at hrest
    obtain ⟨next, hnext, hstep⟩ := functionParts_step (t := g.opening) p hrest
    obtain ⟨htext, hclosing⟩ :=
      parameters_eq g (show next.rest = g.tokens ++ (ts ++ ending :: after) from hnext)
    have hread := hparts ((p.takePattern c.advance.snippet).takeSignature next.parameters.1)
      next.parameters.2 (congrArg List.tail hclosing)
    rw [htext, Text.collapseBlanks_eq_singleBlanks, FunctionParts.signature_takeSignature,
      FunctionParts.signature_takePattern, Option.or_assoc, Option.some_or] at hread
    rw [hstep, if_neg (by simp [kind_of_isSymbol g.opens_opening]), if_pos g.opens_opening, htext,
      Text.collapseBlanks_eq_singleBlanks]
    exact hread

/-- Once a function has its name and its pattern, they stay. -/
theorem functionParts_taken (hp : p.afterName = false) (hname : p.name.isSome = true) :
    (c.functionParts p).1.name = p.name ∧ (c.functionParts p).1.pattern = p.pattern := by
  fun_induction functionParts p c with
  | case1 => exact ⟨rfl, rfl⟩
  | case2 p c t ts hrest next q _ ih =>
    have hq : q.takeName t.text = p := by
      rw [FunctionParts.takeName_of_name (by simpa [q] using hname)]
      exact FunctionParts.takePattern_of_taken hp _
    rw [hq] at ih ⊢
    exact ih hp hname
  | case3 p c t ts hrest next q _ _ ih =>
    have hq : q = p := FunctionParts.takePattern_of_taken hp _
    have hkept : (q.takeSignature next.parameters.1).pattern = p.pattern := by
      rw [hq, FunctionParts.takeSignature]
      split <;> rfl
    have hread := ih (by simp [hq, hp]) (by simp [hq, hname])
    rw [hkept, FunctionParts.name_takeSignature] at hread
    exact hq ▸ hread
  | case4 p c t ts hrest next q | case5 p c t ts hrest next q =>
    have hq : q = p := FunctionParts.takePattern_of_taken hp _
    rw [hq]
    exact ⟨rfl, rfl⟩
  | case6 p c t ts hrest next q _ _ _ _ ih =>
    have hq : q = p := FunctionParts.takePattern_of_taken hp _
    rw [hq] at ih ⊢
    exact ih hp hname

/-- The token behind the name of a function completes its pattern. -/
theorem functionParts_nameRead (name : Text) (hrest : c.rest.tail ≠ []) :
    (c.functionParts (nameRead name)).1.name = some name ∧
      (c.functionParts (nameRead name)).1.pattern = some c.advance.snippet := by
  obtain ⟨t, ts, hcons⟩ := List.exists_cons_of_ne_nil hrest
  obtain ⟨next, -, hstep⟩ := functionParts_step (nameRead name) hcons
  have htaken : (nameRead name).takePattern c.advance.snippet =
      { name := some name, pattern := some c.advance.snippet } := rfl
  rw [hstep, htaken, FunctionParts.takeName_of_name rfl]
  split
  · exact functionParts_taken rfl rfl
  · split
    · exact functionParts_taken rfl rfl
    · split
      · exact ⟨rfl, rfl⟩
      · split
        · exact ⟨rfl, rfl⟩
        · exact functionParts_taken rfl rfl

/-- A function takes no name that its heading does not give. -/
theorem givesName_of_functionParts (h : (c.functionParts p).1.name ≠ p.name) :
    p.name = none ∧ p.signature = none ∧
      ∃ gap name rest, GivesName c.rest.tail gap name rest := by
  fun_induction functionParts p c with
  | case1 p c => exact absurd rfl h
  | case2 p c t ts hrest next q hname ih =>
    by_cases hopen : (q.name.isNone && q.signature.isNone) = true
    · obtain ⟨hnone, hsignature⟩ : p.name = none ∧ p.signature = none := by simpa [q] using hopen
      exact ⟨hnone, hsignature, [], t, ts, (rest_advance c).symm.trans hrest, by simp, hname⟩
    · have hq : q.takeName t.text = q := by rw [FunctionParts.takeName, if_neg hopen]
      rw [hq] at ih h
      obtain ⟨hnone, hsignature, -⟩ := ih (by simpa [q] using h)
      exact absurd (by simp [hnone, hsignature]) hopen
  | case3 p c t ts hrest next q hname hopens ih =>
    have hread := ih (by simpa [q] using h)
    simp at hread
  | case4 p c t ts hrest next q | case5 p c t ts hrest next q => exact absurd (by simp [q]) h
  | case6 p c t ts hrest next q hname hopens hbrace hsemicolon ih =>
    have hnext : next.rest = t :: ts := (rest_afterName p c).trans hrest
    obtain ⟨hnone, hsignature, gap, name, rest, hgives⟩ := ih (by simpa [q] using h)
    have hgap : t.isGap = true := by
      simp [isGap_iff, hname, Token.endsHeading, hopens, hbrace, hsemicolon]
    refine ⟨by simpa [q] using hnone, by simpa [q] using hsignature, t :: gap, name, rest, ?_,
      List.forall_mem_cons.2 ⟨hgap, hgives.gap_isGap⟩, hgives.name_kind⟩
    have hsplit := hgives.split
    rw [hnext, ← hrest] at hsplit
    exact tail_eq_cons hrest hsplit

end Cursor

/-! ## Functions -/

namespace Extraction

variable {e : Extraction} {f : Token} {ts : List Token}

theorem tail_startCollect (hrest : e.cursor.rest = f :: ts) :
    e.cursor.startCollect.rest.tail = ts := by
  rw [Cursor.rest_startCollect, hrest, List.tail_cons]

/-- A function with a name and an end is declared. -/
theorem declarations_function (hrest : e.cursor.rest = f :: ts) (access : Option Text)
    {gap rest heading after : List Token} {name ending : Token}
    (hname : GivesName ts gap name rest) (hends : EndsFunction ts heading ending after) :
    ∃ signature, SignatureOf heading signature ∧ (e.function access).declarations =
      e.declarations ++ [{ name := name.text, kind := .functionDecl, line := f.line,
                           snippet := snippetOf (f :: (gap ++ name :: rest.take 1)),
                           scopes := e.scopes, signature, access }] := by
  have htail := tail_startCollect hrest
  obtain ⟨signature, hsignature, hparts⟩ :=
    Cursor.functionParts_heading hends.heading hends.ends after
  obtain ⟨hended, hread, -⟩ := hparts {} e.cursor.startCollect (htail.trans hends.split)
  obtain ⟨c, hc, hcollects, heq⟩ := Cursor.functionParts_gap hname.gap_isGap hname.name_kind
    (htail.trans hname.split) (Cursor.collects_startCollect hrest)
  obtain ⟨t, behind, rfl⟩ : ∃ t behind, rest = t :: behind := by
    refine List.exists_cons_of_ne_nil fun hnil => ?_
    rw [heq, Cursor.functionParts_end _ (by rw [hc, hnil]; rfl)] at hended
    cases hended
  have hnext : c.rest.tail = t :: behind := by rw [hc]; rfl
  obtain ⟨hfound, hpattern⟩ := Cursor.functionParts_nameRead (c := c) name.text (by simp [hnext])
  have hsnippet := (hcollects.advance hnext).snippet
  rw [← heq] at hfound hpattern
  rw [hsnippet] at hpattern
  refine ⟨signature, hsignature, ?_⟩
  rw [function_eq, line_of_rest hrest]
  dsimp only
  rw [hended, hfound, hpattern, hread]
  simp [declare]

/-- Without a name or without an end nothing is declared. -/
theorem declarations_function_eq (hrest : e.cursor.rest = f :: ts) (access : Option Text)
    (h : (∀ gap name rest, ¬GivesName ts gap name rest) ∨
      ∀ heading ending after, ¬EndsFunction ts heading ending after) :
    (e.function access).declarations = e.declarations := by
  have htail := tail_startCollect hrest
  rw [function_of_not_ended access hrest]
  obtain hname | hends := h
  · right
    by_contra hfound
    obtain ⟨-, -, gap, name, rest, hgives⟩ := Cursor.givesName_of_functionParts (p := {}) hfound
    exact hname gap name rest (htail ▸ hgives)
  · left
    exact (Cursor.functionParts_unended rfl (htail.symm ▸ hends)).1

/-- A function is left at its semicolon, at the brace that closes its body, or at the end. -/
theorem functionStop_function (hrest : e.cursor.rest = f :: ts) (access : Option Text) :
    FunctionStop ts (e.function access).cursor.rest := by
  have htail := tail_startCollect hrest
  rw [cursor_function, Cursor.rest_stopCollect]
  by_cases hends : ∃ heading ending after, EndsFunction ts heading ending after
  · obtain ⟨heading, ending, after, hends⟩ := hends
    obtain ⟨_, -, hparts⟩ := Cursor.functionParts_heading hends.heading hends.ends after
    obtain ⟨-, -, hsemicolon, hbrace⟩ := hparts {} e.cursor.startCollect (htail.trans hends.split)
    obtain hkind | hkind := Bool.or_eq_true_iff.1 hends.ends
    · exact .body hends hkind (hbrace hkind)
    · rw [hsemicolon hkind]
      exact .semicolon hends hkind
  · push Not at hends
    rw [(Cursor.functionParts_unended rfl (htail.symm ▸ hends)).2]
    exact .unended hends

/-- From its keyword `f` on, a function is declared exactly if it has a name before all delimiters
and an end outside of parentheses. Then one tag comes of it. The scopes stay, and the function is
left at its semicolon, at the brace that closes its body, or at the end of the tokens. -/
theorem function_declares_exactly (hrest : e.cursor.rest = f :: ts) (access : Option Text) :
    (∀ gap name rest heading ending after,
      GivesName ts gap name rest → EndsFunction ts heading ending after →
      ∃ d signature, (e.function access).declarations = e.declarations ++ [d] ∧
        SignatureOf heading signature ∧
        ∀ path, d.tag path =
          { name := name.text
            path
            pattern := searchCommand
              (e.scopes.scopedPattern (snippetOf (f :: (gap ++ name :: rest.take 1))))
            kind := .functionDecl
            line := f.line
            scope := e.scopes.label?
            extras := (signature.map fun text : Text => "signature:" ++ text).toList
            access }) ∧
    ((∀ gap name rest, ¬GivesName ts gap name rest) ∨
        (∀ heading ending after, ¬EndsFunction ts heading ending after) →
      (e.function access).declarations = e.declarations) ∧
    (e.function access).scopes = e.scopes ∧ (e.function access).fault = e.fault ∧
    FunctionStop ts (e.function access).cursor.rest := by
  obtain ⟨ds, hadds, -⟩ := function_adds access (e := e) (by simp [hrest])
  refine ⟨?_, declarations_function_eq hrest access, hadds.scopes, hadds.fault,
    functionStop_function hrest access⟩
  intro gap name rest heading ending after hname hends
  obtain ⟨signature, hsignature, hdeclared⟩ := declarations_function hrest access hname hends
  exact ⟨_, signature, hdeclared, hsignature, fun path => rfl⟩

/-- `($a, (b))`. -/
def nestedParameters : Parameters where
  opening := ⟨.symbol, "(", 2⟩
  body := [⟨.variableName, "$a", 2⟩, ⟨.symbol, ",", 2⟩, ⟨.blank, " \n ", 2⟩, ⟨.symbol, "(", 3⟩,
    ⟨.name, "b", 3⟩, ⟨.symbol, ")", 3⟩]
  closing := ⟨.symbol, ")", 3⟩
  opens_opening := by decide
  nested :=
    have hinner : Nested (·.isSymbol "(") (·.isSymbol ")") [⟨.symbol, "(", 3⟩, ⟨.name, "b", 3⟩,
        ⟨.symbol, ")", 3⟩] :=
      @Nested.group _ _ _ _ [⟨.name, "b", 3⟩] [] (by decide)
        (.other (by decide) (by decide) .nil) (by decide) .nil
    .other (by decide) (by decide) (.other (by decide) (by decide)
      (.other (by decide) (by decide) hinner))
  closes_closing := by decide

/-- A function with line breaks behind its keyword and in its parameters, and with a semicolon in
its body. -/
def brokenFunction : Extraction where
  cursor := { rest := ⟨.functionWord, "function", 1⟩ :: ⟨.blank, "\n", 1⟩ :: ⟨.name, "f", 2⟩ ::
    (nestedParameters.tokens ++ [⟨.symbol, "\x7b", 3⟩, ⟨.symbol, ";", 3⟩, ⟨.symbol, "\x7d", 3⟩]) }
  scopes := [⟨.classScope, "A", some "class A"⟩]

theorem function_declares_exactly_brokenFunction :
    ∃ d signature, (brokenFunction.function (some "public")).declarations = [] ++ [d] ∧
      SignatureOf (⟨.blank, "\n", 1⟩ :: ⟨.name, "f", 2⟩ :: (nestedParameters.tokens ++ []))
        signature ∧
      d.tag "/a.php" =
        { name := "f"
          path := "/a.php"
          pattern := searchCommand "class A/;/function\n"
          kind := .functionDecl
          line := 1
          scope := some (Text.ofString "class:A")
          extras := (signature.map fun text : Text => "signature:" ++ text).toList
          access := some (Text.ofString "public") } := by
  have hheading :
      Heading (⟨.blank, "\n", 1⟩ :: ⟨.name, "f", 2⟩ :: (nestedParameters.tokens ++ [])) :=
    .token (by decide) (by decide) (.token (by decide) (by decide) (.group _ .nil))
  have hpattern : brokenFunction.scopes.scopedPattern (snippetOf [⟨.functionWord, "function", 1⟩,
      ⟨.blank, "\n", 1⟩, ⟨.name, "f", 2⟩, ⟨.symbol, "(", 2⟩]) = "class A/;/function\n" := by decide
  have hlabel : brokenFunction.scopes.label? = some (Text.ofString "class:A") := by decide
  obtain ⟨d, signature, hdeclared, hsignature, htag⟩ :=
    (function_declares_exactly (e := brokenFunction) rfl (some "public")).1 [⟨.blank, "\n", 1⟩]
      ⟨.name, "f", 2⟩ _ _ ⟨.symbol, "\x7b", 3⟩ _ ⟨rfl, by decide, rfl⟩ ⟨rfl, hheading, by decide⟩
  refine ⟨d, signature, hdeclared, hsignature, (htag "/a.php").trans ?_⟩
  rw [hlabel, ← hpattern]
  rfl

end Extraction

end TagsFile
