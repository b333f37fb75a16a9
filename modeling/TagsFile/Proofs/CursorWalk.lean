import TagsFile.Proofs.Program

/-!
# How far a cursor goes

What the walks of a cursor do on well-formed pieces: each ends on the last token of its piece. A
walk is told by the tokens behind the current one, so that the pieces can be put together.

## Main definitions

* `Cursor.Collects`: the snippet is the one of some tokens, the current one being their last.

The laws that end in `_next` say what a walk does with the token behind the current one.
-/

namespace TagsFile

/-! ## Snippets -/

theorem throughBreak_concat (ts : List Token) (t : Token) :
    throughBreak (ts ++ [t]) =
      if ts.any Token.breaksLine then throughBreak ts else throughBreak ts ++ [t] := by
  induction ts with
  | nil => simp [throughBreak]
  | cons s ts ih =>
    by_cases hs : s.breaksLine
    · simp [throughBreak, hs]
    · by_cases hts : ts.any Token.breaksLine <;> simp_all [throughBreak]

namespace Cursor

/-- The cursor collects, and its snippet is the one of `walked`; it has stopped by itself if one of
these after the first breaks the line. -/
structure Collects (walked : List Token) (c : Cursor) : Prop where
  snippet : c.snippet = snippetOf walked
  collecting : c.collecting = !walked.tail.any Token.breaksLine

theorem collects_startCollect {c : Cursor} {t : Token} {ts : List Token} (h : c.rest = t :: ts) :
    Collects [t] c.startCollect where
  snippet := by simp [startCollect, current?, h, snippetOf, throughBreak]
  collecting := rfl

theorem advance_of_not_collecting {c : Cursor} (h : c.collecting = false) :
    c.advance.snippet = c.snippet ∧ c.advance.collecting = false := by
  unfold advance record
  grind

theorem advance_of_collecting {c : Cursor} {t : Token} {ts : List Token} (h : c.collecting = true)
    (hrest : c.rest.tail = t :: ts) :
    c.advance.snippet = c.snippet ++ t.text ∧ c.advance.collecting = !t.breaksLine := by
  unfold advance record Token.breaksLine
  grind

theorem Collects.advance {c : Cursor} {first t : Token} {walked ts : List Token}
    (h : Collects (first :: walked) c) (hrest : c.rest.tail = t :: ts) :
    Collects (first :: (walked ++ [t])) c.advance := by
  obtain ⟨hsnippet, hcollecting⟩ := h
  rw [List.tail_cons] at hcollecting
  cases hbreak : walked.any Token.breaksLine with
  | true =>
    obtain ⟨hs, hc⟩ := advance_of_not_collecting (by rw [hcollecting, hbreak]; rfl)
    exact ⟨by simp [hs, hsnippet, snippetOf, throughBreak_concat, hbreak],
      by rw [hc, List.tail_cons, List.any_append, hbreak]; rfl⟩
  | false =>
    obtain ⟨hs, hc⟩ := advance_of_collecting (by rw [hcollecting, hbreak]; rfl) hrest
    exact ⟨by simp [hs, hsnippet, snippetOf, throughBreak_concat, hbreak],
      by rw [hc, List.tail_cons, List.any_append, hbreak]; simp⟩

theorem Collects.advance_concat {c : Cursor} {s t : Token} {walked ts : List Token}
    (h : Collects (walked ++ [s]) c) (hrest : c.rest.tail = t :: ts) :
    Collects (walked ++ [s] ++ [t]) c.advance := by
  cases walked with
  | nil => exact h.advance hrest
  | cons first walked => exact h.advance hrest

@[simp] theorem snippet_stopCollect (c : Cursor) : c.stopCollect.snippet = c.snippet := rfl

/-! ## Names -/

theorem toName_next {c : Cursor} {t : Token} {ts : List Token} (h : c.rest.tail = t :: ts) :
    c.toName = if t.kind = .name then (some t.text, c.advance)
      else if t.endsHeading then (none, c.advance) else c.advance.toName := by
  rw [toName]
  split <;> simp_all

theorem isGap_iff {t : Token} : t.isGap = true ↔ t.kind ≠ .name ∧ t.endsHeading = false := by
  simp [Token.isGap]

/-- Behind a gap the name is found. -/
theorem toName_gap {first name : Token} {gap walked rest : List Token} {c : Cursor}
    (hgap : ∀ t ∈ gap, t.isGap = true) (hname : name.kind = .name)
    (hrest : c.rest.tail = gap ++ name :: rest) (h : Collects (first :: walked) c) :
    c.toName.1 = some name.text ∧ c.toName.2.rest = name :: rest ∧
      Collects (first :: (walked ++ (gap ++ [name]))) c.toName.2 := by
  induction gap generalizing c walked with
  | nil =>
    rw [toName_next hrest, if_pos hname]
    exact ⟨rfl, by simpa using hrest, h.advance hrest⟩
  | cons t gap ih =>
    obtain ⟨hkind, hends⟩ := isGap_iff.1 (hgap t (by simp))
    rw [toName_next hrest, if_neg hkind, hends]
    have hwalk := ih (fun s hs => hgap s (by simp [hs])) (by simp [hrest]) (h.advance hrest)
    simpa using hwalk

/-! ## Bodies -/

theorem skipTo_next (texts : List Text) {c : Cursor} {t : Token} {ts : List Token}
    (h : c.rest.tail = t :: ts) : c.skipTo texts =
      if texts.contains t.text then (true, c.advance) else c.advance.skipTo texts := by
  rw [skipTo]
  split <;> simp_all

/-- Behind tokens with other texts a text is found. -/
theorem skipTo_eq {before : List Token} {t : Token} {text : Text} (htext : t.text = text)
    (hbefore : ∀ s ∈ before, s.text ≠ text) {rest : List Token} {c : Cursor}
    (hrest : c.rest.tail = before ++ t :: rest) :
    (c.skipTo [text]).1 = true ∧ (c.skipTo [text]).2.rest = t :: rest := by
  induction before generalizing c with
  | nil =>
    rw [skipTo_next _ hrest]
    simpa [htext] using hrest
  | cons s before ih =>
    rw [skipTo_next _ hrest, if_neg (by simpa using hbefore s (by simp))]
    exact ih (fun s hs => hbefore s (by simp [hs]))
      (show c.advance.rest.tail = before ++ t :: rest by simp [hrest])

/-! ## Blocks -/

theorem skipBlocks_next (depth : Nat) {c : Cursor} {t : Token} {ts : List Token}
    (h : c.rest.tail = t :: ts) : c.skipBlocks depth =
      if t.opensBlock then c.advance.skipBlocks (depth + 1)
      else if t.closesBlock then
        if depth ≤ 1 then c.advance else c.advance.skipBlocks (depth - 1)
      else c.advance.skipBlocks depth := by
  rw [skipBlocks]
  split <;> simp_all

theorem opensBlock_of_closesBlock {t : Token} (h : t.closesBlock = true) :
    t.opensBlock = false := by
  obtain ⟨hkind, htext⟩ : t.kind = .symbol ∧ t.text = "\x7d" := by
    simpa [Token.closesBlock, Token.isSymbol] using h
  rw [Token.opensBlock, Token.isSymbol, hkind, htext]
  decide

/-- Over nested blocks the depth stays as it is. -/
theorem skipBlocks_nested {body : List Token} (h : Nested Token.opensBlock Token.closesBlock body)
    {depth : Nat} (hdepth : 0 < depth) {rest : List Token} {c : Cursor}
    (hrest : c.rest.tail = body ++ rest) :
    ∃ c' : Cursor, c'.rest.tail = rest ∧ c.skipBlocks depth = c'.skipBlocks depth := by
  induction h generalizing c depth rest with
  | nil => exact ⟨c, hrest, rfl⟩
  | other hopens hcloses _ ih =>
    rw [skipBlocks_next depth hrest, hopens, hcloses]
    exact ih hdepth (by simp [hrest])
  | @group opening closing body ts hopens _ hcloses _ ihbody ihts =>
    obtain ⟨c₁, hc₁, heq₁⟩ := ihbody (Nat.succ_pos depth)
      (show c.advance.rest.tail = body ++ closing :: (ts ++ rest) by simp [hrest])
    rw [skipBlocks_next depth hrest, if_pos hopens, heq₁, skipBlocks_next _ hc₁,
      opensBlock_of_closesBlock hcloses, hcloses]
    simp only [Bool.false_eq_true, if_false, if_true]
    rw [if_neg (by omega)]
    exact ihts hdepth (by simp [hc₁])

theorem rest_skipBlock {body : List Token} (h : Nested Token.opensBlock Token.closesBlock body)
    {closing : Token} (hcloses : closing.closesBlock = true) {rest : List Token} {c : Cursor}
    (hrest : c.rest.tail = body ++ closing :: rest) : c.skipBlock.rest = closing :: rest := by
  obtain ⟨c', hc', heq⟩ := skipBlocks_nested h Nat.one_pos hrest
  rw [skipBlock, heq, skipBlocks_next 1 hc', opensBlock_of_closesBlock hcloses, hcloses]
  simpa using hc'

/-! ## Parameters -/

theorem group_cons (depth : Int) {c : Cursor} {t : Token} {ts : List Token} (h : c.rest = t :: ts) :
    c.group depth =
      if t.isSymbol ")" && depth = 1 then (t.text, c)
      else
        let inner :=
          if t.isSymbol "(" then depth + 1 else if t.isSymbol ")" then depth - 1 else depth
        (t.text ++ (c.advance.group inner).1, (c.advance.group inner).2) := by
  rw [group]
  split <;> simp_all

theorem isSymbol_of_isSymbol {t : Token} {a b : Text} (h : t.isSymbol a = true) (hne : a ≠ b) :
    t.isSymbol b = false := by
  simp_all [Token.isSymbol]

theorem kind_of_isSymbol {t : Token} {a : Text} (h : t.isSymbol a = true) : t.kind = .symbol := by
  simp_all [Token.isSymbol]

/-- Over nested parentheses the depth stays as it is, and their texts are joined. -/
theorem group_nested {body : List Token}
    (h : Nested (·.isSymbol "(") (·.isSymbol ")") body) {depth : Int} (hdepth : 0 < depth)
    {rest : List Token} {c : Cursor} (hrest : c.rest = body ++ rest) :
    ∃ c' : Cursor, c'.rest = rest ∧ (c.group depth).2 = (c'.group depth).2 ∧
      (c.group depth).1 = body.flatMap Token.text ++ (c'.group depth).1 := by
  induction h generalizing c depth rest with
  | nil => exact ⟨c, hrest, rfl, by simp⟩
  | @other t ts hopens hcloses _ ih =>
    obtain ⟨c', hc', hcursor, htext⟩ := ih hdepth
      (show c.advance.rest = ts ++ rest by simp [hrest])
    refine ⟨c', hc', ?_⟩
    rw [group_cons depth hrest]
    simp_all
  | @group opening closing body ts hopens _ hcloses _ ihbody ihts =>
    have hnotClose := isSymbol_of_isSymbol hopens (b := ")") (by decide)
    have hnotOpen := isSymbol_of_isSymbol hcloses (b := "(") (by decide)
    obtain ⟨c₁, hc₁, hcursor₁, htext₁⟩ := ihbody (show 0 < depth + 1 by omega)
      (show c.advance.rest = body ++ closing :: (ts ++ rest) by simp [hrest])
    obtain ⟨c', hc', hcursor, htext⟩ := ihts hdepth
      (show c₁.advance.rest = ts ++ rest by simp [hc₁])
    have hclose : ¬depth + 1 = 1 := by omega
    have heq₁ := group_cons (depth + 1) hc₁
    refine ⟨c', hc', ?_⟩
    rw [group_cons depth hrest]
    simp_all

theorem parameters_eq (p : Parameters) {rest : List Token} {c : Cursor}
    (hrest : c.rest = p.tokens ++ rest) :
    c.parameters.1 = Text.collapseBlanks (p.tokens.flatMap Token.text) ∧
      c.parameters.2.rest = p.closing :: rest := by
  obtain ⟨opening, body, closing, hopens, hnested, hcloses⟩ := p
  simp only [Group.tokens, List.cons_append, List.append_assoc, List.nil_append] at hrest
  have hnotClose := isSymbol_of_isSymbol hopens (b := ")") (by decide)
  obtain ⟨c', hc', hcursor, htext⟩ := group_nested hnested Int.one_pos
    (show c.advance.rest = body ++ closing :: rest by simp [hrest])
  have heq := group_cons 0 hrest
  have heq' := group_cons 1 hc'
  simp_all [parameters, Group.tokens]

end Cursor

/-! ## Functions -/

namespace FunctionParts

@[simp] theorem name_takePattern (p : FunctionParts) (snippet : Text) :
    (p.takePattern snippet).name = p.name := by
  unfold takePattern; split <;> rfl

@[simp] theorem signature_takePattern (p : FunctionParts) (snippet : Text) :
    (p.takePattern snippet).signature = p.signature := by
  unfold takePattern; split <;> rfl

@[simp] theorem afterName_takePattern (p : FunctionParts) (snippet : Text) :
    (p.takePattern snippet).afterName = false := by
  unfold takePattern; split <;> simp_all

theorem takePattern_of_taken {p : FunctionParts} (h : p.afterName = false) (snippet : Text) :
    p.takePattern snippet = p := by
  simp [takePattern, h]

theorem takeName_of_name {p : FunctionParts} (h : p.name.isSome = true) (text : Text) :
    p.takeName text = p := by
  obtain ⟨name, hname⟩ := Option.isSome_iff_exists.1 h
  simp [takeName, hname]

@[simp] theorem name_takeSignature (p : FunctionParts) (text : Text) :
    (p.takeSignature text).name = p.name := by
  unfold takeSignature; split <;> rfl

@[simp] theorem afterName_takeSignature (p : FunctionParts) (text : Text) :
    (p.takeSignature text).afterName = p.afterName := by
  unfold takeSignature; split <;> rfl

end FunctionParts

namespace Cursor

theorem functionParts_next (p : FunctionParts) {c : Cursor} {t : Token} {ts : List Token}
    (h : c.rest.tail = t :: ts) : c.functionParts p =
      let next := if p.afterName then c.advance.stopCollect else c.advance
      let q := p.takePattern c.advance.snippet
      if t.kind = .name then next.functionParts (q.takeName t.text)
      else if t.isSymbol "(" then
        next.parameters.2.functionParts (q.takeSignature next.parameters.1)
      else if t.isSymbol "\x7b" then ({ q with ended := true }, next.skipBlock)
      else if t.isSymbol ";" then ({ q with ended := true }, next)
      else next.functionParts q := by
  rw [functionParts]
  split <;> simp_all

/-- What is known of a function of which only the name has been read. -/
def nameRead (name : Text) : FunctionParts := { name := some name, afterName := true }

/-- In the gap before its name nothing becomes known of a function. -/
theorem functionParts_gap {first name : Token} {gap walked rest : List Token} {c : Cursor}
    (hgap : ∀ t ∈ gap, t.isGap = true) (hname : name.kind = .name)
    (hrest : c.rest.tail = gap ++ name :: rest) (h : Collects (first :: walked) c) :
    ∃ c' : Cursor, c'.rest = name :: rest ∧
      Collects (first :: (walked ++ (gap ++ [name]))) c' ∧
      c.functionParts {} = c'.functionParts (nameRead name.text) := by
  induction gap generalizing c walked with
  | nil =>
    refine ⟨c.advance, by simpa using hrest, h.advance hrest, ?_⟩
    simp [functionParts_next _ hrest, hname, FunctionParts.takePattern, FunctionParts.takeName,
      nameRead]
  | cons t gap ih =>
    obtain ⟨hkind, hends⟩ := isGap_iff.1 (hgap t (by simp))
    obtain ⟨c', hc', hcollects, heq⟩ := ih (fun s hs => hgap s (by simp [hs]))
      (show c.advance.rest.tail = gap ++ name :: rest by simp [hrest]) (h.advance hrest)
    refine ⟨c', hc', by simpa using hcollects, ?_⟩
    simp_all [functionParts_next _ hrest, Token.endsHeading, FunctionParts.takePattern]

/-- Once a function has its name, a token that ends no heading is passed over. -/
theorem functionParts_plain {p : FunctionParts} (hname : p.name.isSome = true) {c : Cursor}
    {t : Token} {ts : List Token} (hrest : c.rest.tail = t :: ts) (ht : t.endsHeading = false) :
    c.functionParts p = (if p.afterName then c.advance.stopCollect else c.advance).functionParts
      (p.takePattern c.advance.snippet) := by
  simp only [Token.endsHeading, Bool.or_eq_false_iff] at ht
  rw [functionParts_next p hrest]
  simp [ht, FunctionParts.takeName_of_name, hname]

/-- Behind the parameters only the end of a function is looked for. -/
theorem functionParts_ending {after : List Token} (ending : FunctionEnd) {p : FunctionParts}
    (hafter : ∀ t ∈ after, t.endsHeading = false) (hname : p.name.isSome = true)
    (hp : p.afterName = false) {rest : List Token} {c : Cursor}
    (hrest : c.rest.tail = after ++ (ending.tokens ++ rest)) :
    (c.functionParts p).1 = { p with ended := true } ∧ (c.functionParts p).2.rest.tail = rest := by
  induction after generalizing c with
  | nil =>
    cases ending with
    | semicolon t ht =>
      have hkind := kind_of_isSymbol ht
      have hopen := isSymbol_of_isSymbol ht (b := "(") (by decide)
      have hbrace := isSymbol_of_isSymbol ht (b := "\x7b") (by decide)
      rw [functionParts_next p hrest]
      simp_all [FunctionParts.takePattern, FunctionEnd.tokens]
    | body b hb =>
      have hkind := kind_of_isSymbol hb
      have hopen := isSymbol_of_isSymbol hb (b := "(") (by decide)
      have hskip := rest_skipBlock b.nested b.closes_closing
        (show c.advance.rest.tail = b.body ++ b.closing :: rest by
          simp [hrest, FunctionEnd.tokens, Group.tokens])
      rw [functionParts_next p hrest]
      simp_all [FunctionParts.takePattern]
  | cons t after ih =>
    rw [functionParts_plain hname hrest (hafter t (by simp)),
      FunctionParts.takePattern_of_taken hp, if_neg (by simp [hp])]
    exact ih (fun s hs => hafter s (by simp [hs]))
      (show c.advance.rest.tail = after ++ (ending.tokens ++ rest) by simp [hrest])

/-- Behind the name of a function: its pattern is taken with the next token, if it is still to be
taken, and then its parameters and its end. -/
theorem functionParts_signature (f : Function) {before : List Token} {p : FunctionParts}
    (hbefore : ∀ t ∈ before, t.endsHeading = false) (hname : p.name.isSome = true)
    (hp : p.signature = none) {rest : List Token} {c : Cursor}
    (hrest : c.rest.tail = before ++ (f.parameters.tokens ++
      (f.afterParameters ++ (f.ending.tokens ++ rest)))) :
    (c.functionParts p).1 =
        { p with
          pattern := if p.afterName then some c.advance.snippet else p.pattern
          signature := some (Text.collapseBlanks (f.parameters.tokens.flatMap Token.text))
          afterName := false
          ended := true } ∧
      (c.functionParts p).2.rest.tail = rest := by
  induction before generalizing c p with
  | nil =>
    have hopens := f.parameters.opens_opening
    have hkind := kind_of_isSymbol hopens
    obtain ⟨next, hnext⟩ :
        ∃ next, next = if p.afterName then c.advance.stopCollect else c.advance :=
      ⟨_, rfl⟩
    have hgroup : next.rest = f.parameters.tokens ++
        (f.afterParameters ++ (f.ending.tokens ++ rest)) := by
      rw [hnext]; split <;> simpa using hrest
    obtain ⟨htext, hcursor⟩ := parameters_eq f.parameters hgroup
    have hend := functionParts_ending f.ending
      (p := (p.takePattern c.advance.snippet).takeSignature next.parameters.1) f.after_plain
      (by simpa using hname) (by simp)
      (show next.parameters.2.rest.tail = _ by rw [hcursor, List.tail_cons])
    have hstep : c.functionParts p = next.parameters.2.functionParts
        ((p.takePattern c.advance.snippet).takeSignature next.parameters.1) := by
      rw [functionParts_next p (t := f.parameters.opening) hrest, ← hnext]
      simp [hkind, hopens]
    rw [hstep]
    refine ⟨hend.1.trans ?_, hend.2⟩
    rw [htext]
    cases hp' : p.afterName <;>
      simp [FunctionParts.takePattern, FunctionParts.takeSignature, hp, hp']
  | cons t before ih =>
    rw [functionParts_plain hname hrest (hbefore t (by simp))]
    have hrest' : (if p.afterName then c.advance.stopCollect else c.advance).rest.tail =
        before ++ (f.parameters.tokens ++ (f.afterParameters ++ (f.ending.tokens ++ rest))) := by
      split <;> simp [hrest]
    have hwalk := ih (fun s hs => hbefore s (by simp [hs]))
      (p := p.takePattern c.advance.snippet)
      (by simpa using hname) (by simpa using hp) hrest'
    refine ⟨hwalk.1.trans ?_, hwalk.2⟩
    cases hp' : p.afterName <;> simp [FunctionParts.takePattern, hp']

/-- A whole function from its keyword on. -/
theorem functionParts_eq (f : Function) {rest : List Token} {c : Cursor}
    (hrest : c.rest = f.tokens ++ rest) :
    (c.startCollect.functionParts {}).1 =
        { name := some f.name.text
          pattern := some (f.declaration none []).snippet
          signature := (f.declaration none []).signature
          afterName := false
          ended := true } ∧
      (c.startCollect.functionParts {}).2.rest.tail = rest := by
  have hstart := collects_startCollect (t := f.word) hrest
  obtain ⟨c₁, hc₁, hcollects, heq⟩ := functionParts_gap f.gap_isGap f.name_kind
    (show c.startCollect.rest.tail = f.gap ++ f.name ::
        (f.signatureTokens ++ (f.afterParameters ++ (f.ending.tokens ++ rest))) by
      simp [hrest, Function.tokens]) hstart
  obtain ⟨t, ts, ht⟩ : ∃ t ts, f.signatureTokens = t :: ts := by
    unfold Function.signatureTokens Group.tokens
    cases f.beforeParameters <;> simp
  have hsnippet := (hcollects.advance (show c₁.rest.tail = t :: (ts ++ (f.afterParameters ++
    (f.ending.tokens ++ rest))) by simp [hc₁, ht])).snippet
  have hwalk := functionParts_signature f (p := nameRead f.name.text) f.before_plain rfl rfl
    (show c₁.rest.tail = f.beforeParameters ++ (f.parameters.tokens ++
      (f.afterParameters ++ (f.ending.tokens ++ rest))) by
      simp [hc₁, Function.signatureTokens])
  rw [heq]
  refine ⟨hwalk.1.trans ?_, hwalk.2⟩
  simp [nameRead, hsnippet, Function.declaration, ht]

end Cursor
end TagsFile
