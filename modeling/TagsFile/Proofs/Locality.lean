import TagsFile.Proofs.Layout
import TagsFile.Proofs.Passage

/-!
# An extraction looks no further than it goes

What an extraction does up to some token depends only on the tokens up to there: it is the same
whatever comes behind, and however many tokens came before. So an item can be taken out of a source
without a change to the others.

## Main definitions

* `Cursor.within`: a cursor with more tokens before and behind.
* `Cursor.Inside`: a walk that does not come to the tokens behind.
* `Extraction.IsLocal`: steps that look no further than they go.
* `Extraction.Agrees`: extractions that have found the same and have the same tokens to come.

## Main statements

* `Extraction.item_within`: an item does not depend on the tokens around it.
* `Extraction.Agrees.items`: what is found depends only on what is to come.
* `Extraction.exists_arrives_within`: up to some tokens an extraction goes the same way whatever
  they are.
-/

namespace TagsFile

/-! ## Walks of a cursor -/

namespace Cursor

/-- The cursor in a longer list of tokens, where `passed` more came before and `more` come behind.
-/
def within (passed : Nat) (more : List Token) (c : Cursor) : Cursor :=
  { c with rest := c.rest ++ more, position := passed + c.position }

/-- Whether nothing comes behind, or a walk that ends at `c` without the tokens behind it and at
`c'` with them has not come to them. -/
def Inside (more : List Token) (c c' : Cursor) : Prop :=
  more = [] ∨ 0 < c.remaining ∨ more.length < c'.remaining

variable {passed : Nat} {more : List Token} {c c' : Cursor} {t : Token} {ts : List Token}

@[simp] theorem rest_within (c : Cursor) : (c.within passed more).rest = c.rest ++ more := rfl

@[simp, grind =] theorem remaining_within (c : Cursor) :
    (c.within passed more).remaining = c.remaining + more.length := by
  simp [remaining]

theorem startCollect_within (h : more = [] ∨ c.rest ≠ []) :
    (c.within passed more).startCollect = c.startCollect.within passed more := by
  obtain rfl | h := h
  · simp [startCollect, within, current?]
  · obtain ⟨t, ts, hrest⟩ := List.exists_cons_of_ne_nil h
    simp [startCollect, within, current?, hrest]

theorem advance_within (h : more = [] ∨ c.advance.rest ≠ []) :
    (c.within passed more).advance = c.advance.within passed more := by
  obtain ⟨rest, position, collecting, snippet⟩ := c
  rcases rest with _ | ⟨t, _ | ⟨s, ts⟩⟩
  · obtain rfl | h := h
    · rfl
    · simp at h
  · obtain rfl | h := h
    · simp [advance, within, record, Nat.add_assoc]
    · simp at h
  · cases collecting <;> simp [advance, within, record, Nat.add_assoc]

theorem advance_within_of_rest (h : c.advance.rest = t :: ts) :
    (c.within passed more).advance = c.advance.within passed more :=
  advance_within (.inr (h ▸ List.cons_ne_nil t ts))

theorem tail_within (h : c.advance.rest = t :: ts) :
    (c.within passed more).rest.tail = t :: (ts ++ more) := by
  rw [← rest_advance, advance_within_of_rest h, rest_within, h, List.cons_append]

theorem Inside.mono {d d' : Cursor} (h : Inside more c c') (hc : c.remaining ≤ d.remaining)
    (hc' : c'.remaining ≤ d'.remaining) : Inside more d d' := by
  obtain rfl | h | h := h
  · exact .inl rfl
  · exact .inr (.inl (by omega))
  · exact .inr (.inr (by omega))

/-- A walk that comes to the end has nothing behind it. -/
theorem Inside.eq_nil (h : Inside more c c') (hc : c.remaining = 0)
    (hc' : c'.remaining ≤ more.length) : more = [] := by
  obtain rfl | h | h := h
  · rfl
  · omega
  · omega

/-- A walk that ends where it starts has nothing behind it. -/
theorem Inside.ends (h : Inside more c.advance c') (hrest : c.advance.rest = [])
    (hc' : c'.remaining ≤ (c.within passed more).remaining - 1) : more = [] := by
  have hlength : c.advance.remaining = 0 := by rw [remaining, hrest, List.length_nil]
  have hshort := c.remaining_advance
  rw [remaining_within] at hc'
  exact h.eq_nil hlength (by omega)

theorem remaining_skipTo_lt (texts : List Text) (c : Cursor) :
    (c.skipTo texts).2.remaining ≤ c.remaining - 1 := by
  fun_induction skipTo texts c <;> grind

theorem skipTo_within (texts : List Text) (c : Cursor)
    (h : Inside more (c.skipTo texts).2 ((c.within passed more).skipTo texts).2) :
    (c.within passed more).skipTo texts =
      ((c.skipTo texts).1, (c.skipTo texts).2.within passed more) := by
  fun_induction skipTo texts c with
  | case1 c hrest =>
    obtain rfl := h.ends hrest (remaining_skipTo_lt texts _)
    rw [skipTo_end texts (by simpa using hrest), advance_within (.inl rfl)]
  | case2 c t ts hrest htext =>
    rw [skipTo_next texts (tail_within hrest), if_pos htext, advance_within_of_rest hrest]
  | case3 c t ts hrest htext ih =>
    rw [skipTo_next texts (tail_within hrest), if_neg htext, advance_within_of_rest hrest] at h ⊢
    exact ih h

theorem remaining_skipBlocks_lt (depth : Nat) (c : Cursor) :
    (c.skipBlocks depth).remaining ≤ c.remaining - 1 := by
  fun_induction skipBlocks depth c <;> grind

theorem skipBlocks_within (depth : Nat) (c : Cursor)
    (h : Inside more (c.skipBlocks depth) ((c.within passed more).skipBlocks depth)) :
    (c.within passed more).skipBlocks depth = (c.skipBlocks depth).within passed more := by
  fun_induction skipBlocks depth c with
  | case1 depth c hrest =>
    obtain rfl := h.ends hrest (remaining_skipBlocks_lt depth _)
    rw [skipBlocks_end depth (by simpa using hrest), advance_within (.inl rfl)]
  | case2 depth c t ts hrest hopens ih =>
    rw [skipBlocks_next depth (tail_within hrest), if_pos hopens,
      advance_within_of_rest hrest] at h ⊢
    exact ih h
  | case3 depth c t ts hrest hopens hcloses hdepth =>
    rw [skipBlocks_next depth (tail_within hrest), if_neg hopens, if_pos hcloses, if_pos hdepth,
      advance_within_of_rest hrest]
  | case4 depth c t ts hrest hopens hcloses hdepth ih =>
    rw [skipBlocks_next depth (tail_within hrest), if_neg hopens, if_pos hcloses, if_neg hdepth,
      advance_within_of_rest hrest] at h ⊢
    exact ih h
  | case5 depth c t ts hrest hopens hcloses ih =>
    rw [skipBlocks_next depth (tail_within hrest), if_neg hopens, if_neg hcloses,
      advance_within_of_rest hrest] at h ⊢
    exact ih h

theorem skipBlock_within (h : Inside more c.skipBlock (c.within passed more).skipBlock) :
    (c.within passed more).skipBlock = c.skipBlock.within passed more :=
  skipBlocks_within 1 c h

theorem remaining_toName_lt (c : Cursor) : c.toName.2.remaining ≤ c.remaining - 1 := by
  fun_induction toName c <;> grind

theorem toName_within (c : Cursor)
    (h : Inside more c.toName.2 (c.within passed more).toName.2) :
    (c.within passed more).toName = (c.toName.1, c.toName.2.within passed more) := by
  fun_induction toName c with
  | case1 c hrest =>
    obtain rfl := h.ends hrest (remaining_toName_lt _)
    rw [toName_end (by simpa using hrest), advance_within (.inl rfl)]
  | case2 c t ts hrest hname =>
    rw [toName_next (tail_within hrest), if_pos hname, advance_within_of_rest hrest]
  | case3 c t ts hrest hname hends =>
    rw [toName_next (tail_within hrest), if_neg hname, if_pos hends, advance_within_of_rest hrest]
  | case4 c t ts hrest hname hends ih =>
    rw [toName_next (tail_within hrest), if_neg hname, if_neg hends,
      advance_within_of_rest hrest] at h ⊢
    exact ih h

theorem group_end (depth : Int) (h : c.rest = []) : c.group depth = (([] : Text), c) := by
  rw [group]
  split
  · rfl
  · simp_all

/-- A walk that goes on from the next token comes to it before the tokens behind. -/
theorem Inside.advance {d d' : Cursor} (h : Inside more d d')
    (hd : d.remaining ≤ c.advance.remaining)
    (hd' : d'.remaining ≤ (c.within passed more).advance.remaining) :
    more = [] ∨ c.advance.rest ≠ [] := by
  have hlength := c.remaining_advance
  have hlength' := (c.within passed more).remaining_advance
  rw [remaining_within] at hlength'
  refine (h.mono hd hd').imp_right fun h' hnil => ?_
  have hzero : c.advance.remaining = 0 := by rw [remaining, hnil, List.length_nil]
  omega

/-- A group is read token by token from the current one on. -/
theorem group_within (depth : Int) (c : Cursor)
    (h : Inside more (c.group depth).2 ((c.within passed more).group depth).2) :
    (c.within passed more).group depth =
      ((c.group depth).1, (c.group depth).2.within passed more) := by
  fun_induction group depth c with
  | case1 depth c hrest =>
    have hbound := remaining_group depth (c.within passed more)
    have hempty : c.remaining = 0 := by rw [remaining, hrest, List.length_nil]
    rw [remaining_within, hempty, Nat.zero_add] at hbound
    obtain rfl := h.eq_nil hempty hbound
    exact group_end depth (by simp [hrest])
  | case2 depth c t ts hrest hcloses =>
    rw [group_cons depth (t := t) (by rw [rest_within, hrest, List.cons_append]), if_pos hcloses]
  | case3 depth c t ts hrest hcloses inner texts c' hgroup ih =>
    have hcons : (c.within passed more).group depth =
        (t.text ++ ((c.within passed more).advance.group inner).1,
          ((c.within passed more).advance.group inner).2) := by
      rw [group_cons depth (t := t) (by rw [rest_within, hrest, List.cons_append]), if_neg hcloses]
      rfl
    have hbound := remaining_group inner c.advance
    rw [hgroup] at hbound ih
    rw [hcons] at h ⊢
    have hnext := h.advance hbound (remaining_group inner _)
    rw [advance_within hnext] at h ⊢
    rw [ih h]

theorem parameters_within (h : Inside more c.parameters.2 (c.within passed more).parameters.2) :
    (c.within passed more).parameters = (c.parameters.1, c.parameters.2.within passed more) := by
  have hgroup := group_within 0 c h
  simp only [parameters, hgroup]

theorem remaining_functionParts_lt (p : FunctionParts) (c : Cursor) :
    (c.functionParts p).2.remaining ≤ c.remaining - 1 := by
  fun_induction functionParts p c <;> grind [remaining_parameters, remaining_skipBlock]

theorem functionParts_within (p : FunctionParts) (c : Cursor)
    (h : Inside more (c.functionParts p).2 ((c.within passed more).functionParts p).2) :
    (c.within passed more).functionParts p =
      ((c.functionParts p).1, (c.functionParts p).2.within passed more) := by
  have hnext {p : FunctionParts} {c : Cursor} {t : Token} {ts : List Token}
      (hrest : c.advance.rest = t :: ts) :
      (if p.afterName then (c.within passed more).advance.stopCollect
        else (c.within passed more).advance) =
      (if p.afterName then c.advance.stopCollect else c.advance).within passed more := by
    rw [advance_within_of_rest hrest]
    split <;> rfl
  fun_induction functionParts p c with
  | case1 p c hrest =>
    obtain rfl := h.ends hrest (remaining_functionParts_lt p _)
    rw [functionParts_end p (by simpa using hrest), advance_within (.inl rfl)]
  | case2 p c t ts hrest next q hname ih =>
    have hstep : (c.within passed more).functionParts p =
        (next.within passed more).functionParts (q.takeName t.text) := by
      rw [functionParts_next p (tail_within hrest), hnext hrest, advance_within_of_rest hrest]
      exact if_pos hname
    rw [hstep] at h ⊢
    exact ih h
  | case3 p c t ts hrest next q hname hopens ih =>
    have hstep : (c.within passed more).functionParts p =
        (next.within passed more).parameters.2.functionParts
          (q.takeSignature (next.within passed more).parameters.1) := by
      rw [functionParts_next p (tail_within hrest), hnext hrest, advance_within_of_rest hrest]
      exact (if_neg hname).trans (if_pos hopens)
    rw [hstep] at h ⊢
    have hgroup := parameters_within (h.mono (remaining_functionParts _ _)
      (remaining_functionParts _ _))
    rw [hgroup] at h ⊢
    exact ih h
  | case4 p c t ts hrest next q hname hopens hbrace =>
    have hstep : (c.within passed more).functionParts p =
        ({ q with ended := true }, (next.within passed more).skipBlock) := by
      rw [functionParts_next p (tail_within hrest), hnext hrest, advance_within_of_rest hrest]
      exact (if_neg hname).trans ((if_neg hopens).trans (if_pos hbrace))
    rw [hstep] at h ⊢
    rw [skipBlock_within h]
  | case5 p c t ts hrest next q hname hopens hbrace hsemicolon =>
    rw [functionParts_next p (tail_within hrest), hnext hrest, advance_within_of_rest hrest]
    exact (if_neg hname).trans ((if_neg hopens).trans ((if_neg hbrace).trans (if_pos hsemicolon)))
  | case6 p c t ts hrest next q hname hopens hbrace hsemicolon ih =>
    have hstep : (c.within passed more).functionParts p =
        (next.within passed more).functionParts q := by
      rw [functionParts_next p (tail_within hrest), hnext hrest, advance_within_of_rest hrest]
      exact (if_neg hname).trans
        ((if_neg hopens).trans ((if_neg hbrace).trans (if_neg hsemicolon)))
    rw [hstep] at h ⊢
    exact ih h

/-- A walk that goes on from the current token has one before the tokens behind. -/
theorem Inside.current {d d' : Cursor} (h : Inside more d d') (hd : d.remaining ≤ c.remaining)
    (hd' : d'.remaining ≤ (c.within passed more).remaining) : more = [] ∨ c.rest ≠ [] := by
  rw [remaining_within] at hd'
  refine (h.mono hd (Nat.le_refl _)).imp_right fun h' hnil => ?_
  have hzero : c.remaining = 0 := by rw [remaining, hnil, List.length_nil]
  omega

end Cursor

/-! ## Functions and constants -/

namespace Extraction

/-- The extraction in a longer list of tokens. -/
def within (passed : Nat) (more : List Token) (e : Extraction) : Extraction :=
  { e with cursor := e.cursor.within passed more }

/-- Whether nothing comes behind, or what is done between has not come to the tokens behind. -/
abbrev Inside (more : List Token) (e e' : Extraction) : Prop :=
  Cursor.Inside more e.cursor e'.cursor

variable {passed : Nat} {more : List Token} {e e' : Extraction} {t : Token} {ts : List Token}

@[simp] theorem cursor_within (e : Extraction) :
    (e.within passed more).cursor = e.cursor.within passed more := rfl

theorem advance_within (h : more = [] ∨ e.advance.cursor.rest ≠ []) :
    (e.within passed more).advance = e.advance.within passed more := by
  simp only [advance, within, Cursor.advance_within h]

theorem advance_within_of_rest (h : e.advance.cursor.rest = t :: ts) :
    (e.within passed more).advance = e.advance.within passed more :=
  advance_within (.inr (h ▸ List.cons_ne_nil t ts))

theorem tail_within (h : e.advance.cursor.rest = t :: ts) :
    (e.within passed more).cursor.rest.tail = t :: (ts ++ more) :=
  Cursor.tail_within h

theorem startCollect_within (h : more = [] ∨ e.cursor.rest ≠ []) :
    (e.within passed more).startCollect = e.startCollect.within passed more := by
  simp only [startCollect, within, Cursor.startCollect_within h]

theorem skipBlock_within (h : Inside more e.skipBlock (e.within passed more).skipBlock) :
    (e.within passed more).skipBlock = e.skipBlock.within passed more := by
  simp only [skipBlock, within, Cursor.skipBlock_within h]

theorem line_within (h : more = [] ∨ e.cursor.rest ≠ []) :
    (e.within passed more).line = (e.line.1, e.line.2.within passed more) := by
  obtain rfl | h := h
  · cases hrest : e.cursor.rest <;> simp [line, within, Cursor.within, Cursor.current?, hrest, fail]
  · obtain ⟨t, ts, hrest⟩ := List.exists_cons_of_ne_nil h
    have hwithin : (e.within passed more).cursor.rest = t :: (ts ++ more) := by simp [hrest]
    rw [line_of_rest hrest, line_of_rest hwithin]

theorem function_eq (access : Option Text) (e : Extraction) : e.function access =
    let parts := e.cursor.startCollect.functionParts {}
    let e' := { e.line.2 with cursor := parts.2.stopCollect }
    match parts.1.ended, parts.1.name, parts.1.pattern with
    | true, some name, some pattern =>
      e'.declare name .functionDecl e.line.1 pattern parts.1.signature access
    | _, _, _ => e' := by
  rw [← cursor_line e]
  rfl

theorem cursor_function (access : Option Text) (e : Extraction) :
    (e.function access).cursor = (e.cursor.startCollect.functionParts {}).2.stopCollect := by
  rw [function_eq]
  dsimp only
  split <;> rfl

theorem function_within (access : Option Text)
    (h : Inside more (e.function access) ((e.within passed more).function access)) :
    (e.within passed more).function access = (e.function access).within passed more := by
  have hne := h.current (remaining_function access e) (remaining_function access _)
  rw [Inside, cursor_function, cursor_function, cursor_within,
    Cursor.startCollect_within hne] at h
  have hparts := Cursor.functionParts_within {} e.cursor.startCollect h
  rw [function_eq, function_eq, line_within hne, cursor_within, Cursor.startCollect_within hne,
    hparts]
  dsimp only
  split <;> rfl

theorem named_eq_toName (kind : TagKind) (e : Extraction) : e.named kind =
    let found := e.cursor.startCollect.toName
    let e' := { e.line.2 with cursor := found.2.stopCollect }
    match found.1 with
    | some name =>
      (some name, found.2.snippet, e'.declare name kind e.line.1 found.2.snippet none none)
    | none => (none, found.2.snippet, e') := by
  rw [← cursor_line e]
  rfl

theorem cursor_named (kind : TagKind) (e : Extraction) :
    (e.named kind).2.2.cursor = e.cursor.startCollect.toName.2.stopCollect := by
  rw [named_eq_toName]
  dsimp only
  split <;> rfl

theorem named_within (kind : TagKind)
    (h : Inside more (e.named kind).2.2 ((e.within passed more).named kind).2.2) :
    (e.within passed more).named kind =
      ((e.named kind).1, (e.named kind).2.1, (e.named kind).2.2.within passed more) := by
  have hne := h.current (remaining_named kind e) (remaining_named kind _)
  rw [Inside, cursor_named, cursor_named, cursor_within, Cursor.startCollect_within hne] at h
  have hfound := Cursor.toName_within e.cursor.startCollect h
  rw [named_eq_toName, named_eq_toName, line_within hne, cursor_within,
    Cursor.startCollect_within hne, hfound]
  dsimp only
  split <;> rfl

theorem constant_within (h : Inside more e.constant (e.within passed more).constant) :
    (e.within passed more).constant = e.constant.within passed more := by
  rw [constant, named_within _ h]
  rfl

/-! ## Members -/

theorem properties_within (access : Option Text) (first : Bool) (e : Extraction)
    (h : Inside more (e.properties access first) ((e.within passed more).properties access first)) :
    (e.within passed more).properties access first =
      (e.properties access first).within passed more := by
  have hrest' {e : Extraction} {t : Token} {ts : List Token} (hrest : e.cursor.rest = t :: ts) :
      (e.within passed more).cursor.rest = t :: (ts ++ more) := by
    rw [cursor_within, Cursor.rest_within, hrest, List.cons_append]
  fun_induction properties access first e with
  | case1 access first e hrest =>
    have hbound := remaining_properties access first (e.within passed more)
    have hempty : e.cursor.remaining = 0 := by rw [Cursor.remaining, hrest, List.length_nil]
    rw [remaining, remaining, cursor_within, Cursor.remaining_within, hempty,
      Nat.zero_add] at hbound
    obtain rfl := h.eq_nil hempty hbound
    exact properties_end access first (by simp [hrest])
  | case2 access first e t ts hrest haccess ih =>
    rw [properties_cons access first (hrest' hrest), if_pos haccess] at h ⊢
    have hnext := h.advance (remaining_properties _ _ e.advance) (remaining_properties _ _ _)
    rw [advance_within hnext] at h ⊢
    exact ih h
  | case3 access first e t ts hrest haccess hvariable e' ih =>
    have hstep : (e.within passed more).properties access first =
        ((e'.declare t.text .propertyDecl t.line e'.cursor.snippet none access).within passed
          more).advance.properties access false := by
      rw [properties_cons access first (hrest' hrest), if_neg haccess, if_pos hvariable,
        startCollect_within (.inr (hrest ▸ List.cons_ne_nil t ts))]
      cases first <;> rfl
    rw [hstep] at h ⊢
    have hnext := h.advance (remaining_properties _ _ (Extraction.advance _))
      (remaining_properties _ _ _)
    rw [advance_within hnext] at h ⊢
    exact ih h
  | case4 access first e t ts hrest haccess hvariable hfunction =>
    rw [properties_cons access first (hrest' hrest), if_neg haccess, if_neg hvariable,
      if_pos hfunction] at h ⊢
    exact function_within access h
  | case5 access first e t ts hrest haccess hvariable hfunction hconst =>
    rw [properties_cons access first (hrest' hrest), if_neg haccess, if_neg hvariable,
      if_neg hfunction, if_pos hconst] at h ⊢
    exact constant_within (e := e.stopCollect) h
  | case6 access first e t ts hrest haccess hvariable hfunction hconst hsemicolon =>
    rw [properties_cons access first (hrest' hrest), if_neg haccess, if_neg hvariable,
      if_neg hfunction, if_neg hconst, if_pos hsemicolon]
    rfl
  | case7 access first e t ts hrest haccess hvariable hfunction hconst hsemicolon hopens =>
    rw [properties_cons access first (hrest' hrest), if_neg haccess, if_neg hvariable,
      if_neg hfunction, if_neg hconst, if_neg hsemicolon, if_pos hopens] at h ⊢
    exact skipBlock_within (e := e.stopCollect) h
  | case8 access first e t ts hrest haccess hvariable hfunction hconst hsemicolon hopens ih =>
    rw [properties_cons access first (hrest' hrest), if_neg haccess, if_neg hvariable,
      if_neg hfunction, if_neg hconst, if_neg hsemicolon, if_neg hopens] at h ⊢
    have hnext := h.advance (remaining_properties _ _ e.advance) (remaining_properties _ _ _)
    rw [advance_within hnext] at h ⊢
    exact ih h

theorem visible_within (h : Inside more e.visible (e.within passed more).visible) :
    (e.within passed more).visible = e.visible.within passed more := by
  have hne := h.current (remaining_visible e) (remaining_visible _)
  have hstart : (e.within passed more).visible =
      (e.startCollect.within passed more).properties none true := by
    rw [visible, startCollect_within hne]
  rw [hstart] at h ⊢
  exact properties_within none true e.startCollect h

theorem remaining_members_lt (skipsBlocks : Bool) (e : Extraction) :
    (e.members skipsBlocks).remaining ≤ e.remaining - 1 := by
  fun_induction members skipsBlocks e <;>
    grind [remaining_visible, remaining_constant, remaining_function, remaining_skipBlock]

theorem members_within (skipsBlocks : Bool) (e : Extraction)
    (h : Inside more (e.members skipsBlocks) ((e.within passed more).members skipsBlocks)) :
    (e.within passed more).members skipsBlocks = (e.members skipsBlocks).within passed more := by
  fun_induction members skipsBlocks e with
  | case1 e hrest =>
    obtain rfl := h.ends hrest (remaining_members_lt skipsBlocks (e.within passed more))
    rw [members_end skipsBlocks (by simpa using hrest), advance_within (.inl rfl)]
  | case2 e t ts hrest haccess ih =>
    rw [members_next skipsBlocks (tail_within hrest), if_pos haccess,
      advance_within_of_rest hrest] at h ⊢
    have hpart := visible_within (h.mono (remaining_members ..) (remaining_members ..))
    rw [hpart] at h ⊢
    exact ih h
  | case3 e t ts hrest haccess hconst ih =>
    rw [members_next skipsBlocks (tail_within hrest), if_neg haccess, if_pos hconst,
      advance_within_of_rest hrest] at h ⊢
    have hpart := constant_within (h.mono (remaining_members ..) (remaining_members ..))
    rw [hpart] at h ⊢
    exact ih h
  | case4 e t ts hrest haccess hconst hfunction ih =>
    rw [members_next skipsBlocks (tail_within hrest), if_neg haccess, if_neg hconst,
      if_pos hfunction, advance_within_of_rest hrest] at h ⊢
    have hpart := function_within _ (h.mono (remaining_members ..) (remaining_members ..))
    rw [hpart] at h ⊢
    exact ih h
  | case5 e t ts hrest haccess hconst hfunction hopens ih =>
    rw [members_next skipsBlocks (tail_within hrest), if_neg haccess, if_neg hconst,
      if_neg hfunction, if_pos hopens, advance_within_of_rest hrest] at h ⊢
    have hpart := skipBlock_within (h.mono (remaining_members ..) (remaining_members ..))
    rw [hpart] at h ⊢
    exact ih h
  | case6 e t ts hrest haccess hconst hfunction hopens hcloses =>
    rw [members_next skipsBlocks (tail_within hrest), if_neg haccess, if_neg hconst,
      if_neg hfunction, if_neg hopens, if_pos hcloses, advance_within_of_rest hrest]
  | case7 e t ts hrest haccess hconst hfunction hopens hcloses ih =>
    rw [members_next skipsBlocks (tail_within hrest), if_neg haccess, if_neg hconst,
      if_neg hfunction, if_neg hopens, if_neg hcloses, advance_within_of_rest hrest] at h ⊢
    exact ih h

/-! ## Types -/

theorem toBody_within (h : Inside more e.toBody.2 (e.within passed more).toBody.2) :
    (e.within passed more).toBody = (e.toBody.1, e.toBody.2.within passed more) := by
  have hskip := Cursor.skipTo_within _ e.cursor h
  simp only [toBody, cursor_within, hskip]
  rfl

theorem anonymousBody_end (h : e.cursor.rest = []) : e.anonymousBody = e := by
  simp only [anonymousBody, h]

theorem anonymousBody_cons (h : e.cursor.rest = t :: ts) : e.anonymousBody =
    if t.isSymbol ";" then e
    else if t.isSymbol "\x7b" then e.skipBlock
    else if e.toBody.1 then e.toBody.2.skipBlock else e.toBody.2 := by
  simp only [anonymousBody, h]

theorem anonymousBody_within
    (h : Inside more e.anonymousBody (e.within passed more).anonymousBody) :
    (e.within passed more).anonymousBody = e.anonymousBody.within passed more := by
  have hne := h.current (remaining_anonymousBody e) (remaining_anonymousBody _)
  cases hrest : e.cursor.rest with
  | nil =>
    obtain rfl : more = [] := hne.resolve_right (not_not_intro hrest)
    rw [anonymousBody_end hrest, anonymousBody_end (by simp [hrest])]
  | cons t ts =>
    have hrest' : (e.within passed more).cursor.rest = t :: (ts ++ more) := by simp [hrest]
    rw [anonymousBody_cons hrest, anonymousBody_cons hrest'] at h ⊢
    by_cases hsemicolon : t.isSymbol ";" = true
    · rw [if_pos hsemicolon, if_pos hsemicolon]
    rw [if_neg hsemicolon, if_neg hsemicolon] at h ⊢
    by_cases hbrace : t.isSymbol "\x7b" = true
    · rw [if_pos hbrace, if_pos hbrace] at h ⊢
      exact skipBlock_within h
    rw [if_neg hbrace, if_neg hbrace] at h ⊢
    have hbound (e : Extraction) :
        (if e.toBody.1 then e.toBody.2.skipBlock else e.toBody.2).remaining ≤
          e.toBody.2.remaining := by
      split
      · exact remaining_skipBlock _
      · exact Nat.le_refl _
    have hbody := toBody_within (h.mono (hbound e) (hbound _))
    rw [hbody] at h ⊢
    dsimp only at h ⊢
    split
    · rename_i hfound
      rw [if_pos hfound, if_pos hfound] at h
      exact skipBlock_within h
    · rfl

theorem leave_within (e : Extraction) :
    (e.within passed more).leave = e.leave.within passed more := by
  simp only [leave, within]
  split <;> rfl

theorem remaining_body (skipsBlocks : Bool) (e : Extraction) :
    (if e.toBody.1 then e.toBody.2.members skipsBlocks else e.toBody.2).leave.remaining ≤
      e.toBody.2.remaining := by
  rw [remaining_leave]
  split
  · exact remaining_members _ _
  · exact Nat.le_refl _

/-- The members of a type, from the place where its scope is entered to the place where it is left.
-/
theorem body_within (skipsBlocks : Bool) (h : Inside more
      (if e.toBody.1 then e.toBody.2.members skipsBlocks else e.toBody.2).leave
      (if (e.within passed more).toBody.1 then (e.within passed more).toBody.2.members skipsBlocks
        else (e.within passed more).toBody.2).leave) :
    (if (e.within passed more).toBody.1 then (e.within passed more).toBody.2.members skipsBlocks
        else (e.within passed more).toBody.2).leave =
      (if e.toBody.1 then e.toBody.2.members skipsBlocks else e.toBody.2).leave.within
        passed more := by
  have hbody := toBody_within (h.mono (remaining_body skipsBlocks e) (remaining_body skipsBlocks _))
  rw [hbody] at h ⊢
  dsimp only at h ⊢
  rw [← leave_within]
  split
  · rename_i hfound
    rw [if_pos hfound, if_pos hfound, Inside, cursor_leave, cursor_leave] at h
    rw [members_within skipsBlocks _ h]
  · rfl

theorem type_of_none (kind : TagKind) (scope : ScopeKind) (skipsBlocks : Bool)
    (h : (e.named kind).1 = none) :
    e.type kind scope skipsBlocks = (e.named kind).2.2.anonymousBody := by
  simp only [type, h]

theorem type_of_some (kind : TagKind) (scope : ScopeKind) (skipsBlocks : Bool) {name : Text}
    (h : (e.named kind).1 = some name) {inner : Extraction}
    (hinner : (e.named kind).2.2.enter ⟨scope, name, some (e.named kind).2.1⟩ = inner) :
    e.type kind scope skipsBlocks =
      (if inner.toBody.1 then inner.toBody.2.members skipsBlocks else inner.toBody.2).leave := by
  simp only [type, h, hinner]

theorem remaining_type_le (kind : TagKind) (scope : ScopeKind) (skipsBlocks : Bool)
    (e : Extraction) :
    (e.type kind scope skipsBlocks).remaining ≤ (e.named kind).2.2.remaining := by
  unfold type
  grind [remaining_anonymousBody, remaining_toBody, remaining_members]

theorem type_within (kind : TagKind) (scope : ScopeKind) (skipsBlocks : Bool)
    (h : Inside more (e.type kind scope skipsBlocks)
      ((e.within passed more).type kind scope skipsBlocks)) :
    (e.within passed more).type kind scope skipsBlocks =
      (e.type kind scope skipsBlocks).within passed more := by
  have hnamed := named_within kind
    (h.mono (remaining_type_le kind scope skipsBlocks e) (remaining_type_le kind scope _ _))
  have hname : ((e.within passed more).named kind).1 = (e.named kind).1 := by rw [hnamed]
  cases hfound : (e.named kind).1 with
  | none =>
    rw [hfound] at hname
    rw [type_of_none kind scope skipsBlocks hfound, type_of_none kind scope skipsBlocks hname,
      hnamed] at h ⊢
    exact anonymousBody_within h
  | some name =>
    rw [hfound] at hname
    obtain ⟨inner, hinner⟩ : ∃ inner,
        (e.named kind).2.2.enter ⟨scope, name, some (e.named kind).2.1⟩ = inner := ⟨_, rfl⟩
    have hinner' : ((e.within passed more).named kind).2.2.enter
        ⟨scope, name, some ((e.within passed more).named kind).2.1⟩ = inner.within passed more := by
      rw [hnamed, ← hinner]
      rfl
    rw [type_of_some kind scope skipsBlocks hfound hinner,
      type_of_some kind scope skipsBlocks hname hinner'] at h ⊢
    exact body_within skipsBlocks h

theorem declaration_within (t : Token)
    (h : Inside more (e.declaration t) ((e.within passed more).declaration t)) :
    (e.within passed more).declaration t = (e.declaration t).within passed more := by
  unfold declaration at h ⊢
  split at h
  · exact type_within _ _ _ h
  · exact type_within _ _ _ h
  · exact function_within none h
  · exact constant_within h
  · rfl

/-! ## Namespaces -/

theorem remaining_namespaceBody_lt (depth : Nat) (e : Extraction) :
    (e.namespaceBody depth).remaining ≤ e.remaining - 1 := by
  fun_induction namespaceBody depth e <;> grind [remaining_declaration]

theorem namespaceBody_within (depth : Nat) (e : Extraction)
    (h : Inside more (e.namespaceBody depth) ((e.within passed more).namespaceBody depth)) :
    (e.within passed more).namespaceBody depth = (e.namespaceBody depth).within passed more := by
  fun_induction namespaceBody depth e with
  | case1 depth e hrest =>
    obtain rfl := h.ends hrest (remaining_namespaceBody_lt depth (e.within passed more))
    rw [namespaceBody_end depth (by simpa using hrest), advance_within (.inl rfl)]
  | case2 e t ts hrest hcloses =>
    rw [namespaceBody_next 0 (tail_within hrest), if_pos hcloses, if_pos rfl,
      advance_within_of_rest hrest]
  | case3 depth e t ts hrest hcloses hdepth ih =>
    rw [namespaceBody_next depth (tail_within hrest), if_pos hcloses, if_neg hdepth,
      advance_within_of_rest hrest] at h ⊢
    exact ih h
  | case4 depth e t ts hrest hcloses hopens ih =>
    rw [namespaceBody_next depth (tail_within hrest), if_neg hcloses, if_pos hopens,
      advance_within_of_rest hrest] at h ⊢
    exact ih h
  | case5 depth e t ts hrest hcloses hopens ih =>
    rw [namespaceBody_next depth (tail_within hrest), if_neg hcloses, if_neg hopens,
      advance_within_of_rest hrest] at h ⊢
    have hpart := declaration_within t (h.mono (remaining_namespaceBody ..)
      (remaining_namespaceBody ..))
    rw [hpart] at h ⊢
    exact ih h

theorem enterNamespace_within (last? : Option (Text × Int)) (e : Extraction) :
    (e.within passed more).enterNamespace last? =
      (e.enterNamespace last?).within passed more := by
  cases last? <;> rfl

theorem enterSegment_within (last? : Option (Text × Int)) (e : Extraction) :
    (e.within passed more).enterSegment last? = (e.enterSegment last?).within passed more := by
  cases last? <;> rfl

theorem remaining_namespaceHeading_lt (outer : Nat) (last? : Option (Text × Int))
    (e : Extraction) : (e.namespaceHeading outer last?).remaining ≤ e.remaining - 1 := by
  fun_induction namespaceHeading outer last? e <;>
    grind [remaining, remaining_namespaceBody, leaveTo_eq]

theorem namespaceHeading_within (outer : Nat) (last? : Option (Text × Int)) (e : Extraction)
    (h : Inside more (e.namespaceHeading outer last?)
      ((e.within passed more).namespaceHeading outer last?)) :
    (e.within passed more).namespaceHeading outer last? =
      (e.namespaceHeading outer last?).within passed more := by
  fun_induction namespaceHeading outer last? e with
  | case1 last? e hrest =>
    obtain rfl := h.ends (c := e.cursor) hrest
      (remaining_namespaceHeading_lt outer last? (e.within passed more))
    rw [namespaceHeading_end outer last? (by simpa using hrest), advance_within (.inl rfl)]
    rfl
  | case2 last? e t ts hrest hname ih =>
    rw [namespaceHeading_next outer last? (tail_within hrest), if_pos hname,
      advance_within_of_rest hrest] at h ⊢
    exact ih h
  | case3 last? e t ts hrest hname hseparator ih =>
    rw [namespaceHeading_next outer last? (tail_within hrest), if_neg hname, if_pos hseparator,
      advance_within_of_rest hrest, enterSegment_within] at h ⊢
    exact ih h
  | case4 last? e t ts hrest hname hseparator hbrace =>
    rw [namespaceHeading_next outer last? (tail_within hrest), if_neg hname, if_neg hseparator,
      if_pos hbrace, advance_within_of_rest hrest, enterNamespace_within, leaveTo_eq] at h
    rw [namespaceHeading_next outer last? (tail_within hrest), if_neg hname, if_neg hseparator,
      if_pos hbrace, advance_within_of_rest hrest, enterNamespace_within, leaveTo_eq,
      namespaceBody_within 0 _ h]
    rfl
  | case5 last? e t ts hrest hname hseparator hbrace hsemicolon =>
    rw [namespaceHeading_next outer last? (tail_within hrest), if_neg hname, if_neg hseparator,
      if_neg hbrace, if_pos hsemicolon, advance_within_of_rest hrest, enterNamespace_within]
  | case6 last? e t ts hrest hname hseparator hbrace hsemicolon ih =>
    rw [namespaceHeading_next outer last? (tail_within hrest), if_neg hname, if_neg hseparator,
      if_neg hbrace, if_neg hsemicolon, advance_within_of_rest hrest] at h ⊢
    exact ih h

theorem namespaceDeclaration_within
    (h : Inside more e.namespaceDeclaration (e.within passed more).namespaceDeclaration) :
    (e.within passed more).namespaceDeclaration = e.namespaceDeclaration.within passed more := by
  have hne := h.current (remaining_namespaceDeclaration e) (remaining_namespaceDeclaration _)
  have hstart : (e.within passed more).namespaceDeclaration =
      (e.startCollect.within passed more).namespaceHeading e.scopes.length none := by
    rw [namespaceDeclaration, startCollect_within hne]
    rfl
  rw [hstart] at h ⊢
  exact namespaceHeading_within _ none e.startCollect h

/-! ## Items -/

/-- An item that ends before the tokens behind it does not depend on them. -/
theorem item_within (t : Token) (h : Inside more (e.item t) ((e.within passed more).item t)) :
    (e.within passed more).item t = (e.item t).within passed more := by
  unfold item at h ⊢
  by_cases hword : t.kind = .namespaceWord
  · simp only [if_pos hword] at h ⊢
    exact namespaceDeclaration_within (e := { e with scopes := [] }) h
  · simp only [if_neg hword] at h ⊢
    exact declaration_within t h

/-! ## What an extraction depends on -/

/-- Whether two extractions have found the same and have the same tokens to come. -/
structure Agrees (e e' : Extraction) : Prop where
  rest : e.cursor.rest = e'.cursor.rest
  scopes : e.scopes = e'.scopes
  declarations : e.declarations = e'.declarations
  fault : e.fault = e'.fault

namespace Agrees

theorem refl (e : Extraction) : Agrees e e := ⟨rfl, rfl, rfl, rfl⟩

theorem symm (h : Agrees e e') : Agrees e' e :=
  ⟨h.rest.symm, h.scopes.symm, h.declarations.symm, h.fault.symm⟩

theorem trans {e'' : Extraction} (h : Agrees e e') (h' : Agrees e' e'') : Agrees e e'' :=
  ⟨h.rest.trans h'.rest, h.scopes.trans h'.scopes, h.declarations.trans h'.declarations,
    h.fault.trans h'.fault⟩

theorem remaining_eq (h : Agrees e e') : e.remaining = e'.remaining :=
  congrArg List.length h.rest

theorem advance (h : Agrees e e') : Agrees e.advance e'.advance where
  rest := by
    change e.cursor.advance.rest = e'.cursor.advance.rest
    rw [Cursor.rest_advance, Cursor.rest_advance, h.rest]
  scopes := h.scopes
  declarations := h.declarations
  fault := h.fault

end Agrees

theorem agrees_startCollect (e : Extraction) : Agrees e e.startCollect := ⟨rfl, rfl, rfl, rfl⟩

theorem agrees_within_nil (passed : Nat) (e : Extraction) : Agrees (e.within passed []) e :=
  ⟨List.append_nil _, rfl, rfl, rfl⟩

theorem line_startCollect (e : Extraction) :
    e.startCollect.line = (e.line.1, e.line.2.startCollect) := by
  have hcurrent : e.startCollect.cursor.current? = e.cursor.current? := rfl
  rw [line, line, hcurrent]
  cases e.cursor.current? <;> rfl

/-- The snippet before a heading is not a part of it. -/
theorem named_startCollect (kind : TagKind) (e : Extraction) :
    e.startCollect.named kind = e.named kind := by
  rw [named_eq_toName, named_eq_toName, line_startCollect]
  rfl

theorem function_startCollect (access : Option Text) (e : Extraction) :
    e.startCollect.function access = e.function access := by
  rw [function_eq, function_eq, line_startCollect]
  rfl

theorem item_startCollect (t : Token) (e : Extraction) :
    Agrees (e.startCollect.item t) (e.item t) := by
  unfold item
  split
  · exact .refl _
  · unfold declaration
    split
    · rw [type, named_startCollect]
      exact .refl _
    · rw [type, named_startCollect]
      exact .refl _
    · rw [function_startCollect]
      exact .refl _
    · rw [constant, named_startCollect]
      exact .refl _
    · exact (agrees_startCollect e).symm

/-- Whether a step looks no further than it goes. -/
def IsLocal (step : Extraction → Extraction) : Prop :=
  ∀ {passed more e}, Inside more (step e) (step (e.within passed more)) →
    step (e.within passed more) = (step e).within passed more

/-- A step that looks no further than it goes, and starts a snippet of its own, depends on nothing
but what was found before and the tokens to come. -/
theorem Agrees.step {step : Extraction → Extraction} (hlocal : IsLocal step)
    (hstart : ∀ e : Extraction, Agrees (step e.startCollect) (step e)) (h : Agrees e e') :
    Agrees (step e) (step e') := by
  -- The position is the one thing in which the two differ once a snippet is started.
  obtain ⟨base, hbase⟩ : ∃ base : Extraction,
      { e.startCollect with cursor := { e.startCollect.cursor with position := 0 } } = base :=
    ⟨_, rfl⟩
  have hleft : e.startCollect = base.within e.cursor.position [] := by
    simp [← hbase, within, Cursor.within, startCollect, Cursor.startCollect]
  have hright : e'.startCollect = base.within e'.cursor.position [] := by
    simp [← hbase, within, Cursor.within, startCollect, Cursor.startCollect, Cursor.current?,
      h.rest, h.scopes, h.declarations, h.fault]
  have hstep (passed : Nat) : Agrees (step (base.within passed [])) (step base) := by
    rw [hlocal (.inl rfl)]
    exact agrees_within_nil passed _
  have hbaseLeft : Agrees (step e) (step base) := (hstart e).symm.trans (hleft ▸ hstep _)
  have hbaseRight : Agrees (step e') (step base) := (hstart e').symm.trans (hright ▸ hstep _)
  exact hbaseLeft.trans hbaseRight.symm

theorem Agrees.item (h : Agrees e e') (t : Token) : Agrees (e.item t) (e'.item t) :=
  h.step (item_within t) (item_startCollect t)

theorem Agrees.items (h : Agrees e e') : Agrees e.items e'.items := by
  fun_induction Extraction.items e generalizing e' with
  | case1 e hrest =>
    rw [items_end (h.rest ▸ hrest)]
    exact h
  | case2 e t ts hrest ih =>
    rw [items_cons (e := e') (h.rest ▸ hrest)]
    exact ih (h.item t).advance

theorem Agrees.declaration (h : Agrees e e') (t : Token) :
    Agrees (e.declaration t) (e'.declaration t) := by
  by_cases hword : t.kind = .namespaceWord
  · simpa only [Extraction.declaration, hword] using h
  · simpa only [Extraction.item, if_neg hword] using h.item t

theorem Agrees.tail_eq (h : Agrees e.advance e'.advance) (hrest : e.advance.cursor.rest = ts) :
    e'.cursor.rest.tail = ts := by
  rw [← hrest, h.rest]
  exact (Cursor.rest_advance _).symm

theorem Agrees.namespaceBody (h : Agrees e.advance e'.advance) (depth : Nat) :
    Agrees (e.namespaceBody depth) (e'.namespaceBody depth) := by
  fun_induction Extraction.namespaceBody depth e generalizing e' with
  | case1 depth e hrest =>
    rw [namespaceBody_end depth (h.tail_eq hrest)]
    exact h
  | case2 e t ts hrest hcloses =>
    rw [namespaceBody_next 0 (h.tail_eq hrest), if_pos hcloses, if_pos rfl]
    exact h
  | case3 depth e t ts hrest hcloses hdepth ih =>
    rw [namespaceBody_next depth (h.tail_eq hrest), if_pos hcloses, if_neg hdepth]
    exact ih h.advance
  | case4 depth e t ts hrest hcloses hopens ih =>
    rw [namespaceBody_next depth (h.tail_eq hrest), if_neg hcloses, if_pos hopens]
    exact ih h.advance
  | case5 depth e t ts hrest hcloses hopens ih =>
    rw [namespaceBody_next depth (h.tail_eq hrest), if_neg hcloses, if_neg hopens]
    exact ih (h.declaration t).advance

theorem Agrees.tags (h : Agrees e e') (path : Text) : e.tags path = e'.tags path := by
  rw [Extraction.tags, Extraction.tags, h.fault, h.declarations]

/-- A step from a token in front of `more` tokens does not come behind their first. -/
theorem agrees_advance_within (hne : e.cursor.rest ≠ []) :
    Agrees (e.within passed more).advance (e.advance.within passed more) := by
  refine ⟨?_, rfl, rfl, rfl⟩
  change (e.cursor.within passed more).advance.rest = e.cursor.advance.rest ++ more
  rw [Cursor.rest_advance, Cursor.rest_advance, Cursor.rest_within, List.tail_append_of_ne_nil hne]

/-- Up to some tokens, an extraction goes the same way whatever they are. -/
theorem exists_arrives_within {X : List Token} (hX : X ≠ []) (Y : List Token)
    (harrives : Arrives (e.within passed X) e') (hshort : X.length ≤ e'.remaining) :
    ∃ d : Extraction, Agrees e' (d.within passed X) ∧
      ∃ e'', Arrives (e.within passed Y) e'' ∧ Agrees e'' (d.within passed Y) := by
  have hpos : 0 < X.length := List.length_pos_iff.2 hX
  induction harrives with
  | start => exact ⟨e, .refl _, _, .start, .refl _⟩
  | @next e₁ t ts _ hrest ih =>
    have hlast : X.length < (e₁.item t).remaining := by
      rw [remaining_advance] at hshort
      omega
    obtain ⟨d, hd, e₂, harrives₂, he₂⟩ := ih (by have := remaining_item t e₁; omega)
    have hitem : (d.within passed X).item t = (d.item t).within passed X := by
      have hinside : X.length < ((d.within passed X).item t).remaining :=
        (hd.item t).remaining_eq ▸ hlast
      exact item_within t (.inr (.inr hinside))
    have hstays : 0 < (d.item t).remaining := by
      have hlength := (hd.item t).remaining_eq
      rw [hitem] at hlength
      have hsum : ((d.item t).within passed X).remaining = (d.item t).remaining + X.length :=
        Cursor.remaining_within _
      omega
    have hne : (d.item t).cursor.rest ≠ [] := List.length_pos_iff.1 hstays
    obtain ⟨s, ss, hdrest⟩ : ∃ s ss, d.cursor.rest = s :: ss :=
      List.exists_cons_of_ne_nil (List.length_pos_iff.1 (hstays.trans_le (remaining_item t d)))
    have hsame : s = t := by
      have hcons := hrest.symm.trans hd.rest
      rw [cursor_within, Cursor.rest_within, hdrest, List.cons_append] at hcons
      exact (List.cons.inj hcons).1.symm
    have hrest₂ : e₂.cursor.rest = t :: (ss ++ Y) := by
      rw [he₂.rest, cursor_within, Cursor.rest_within, hdrest, List.cons_append, hsame]
    refine ⟨(d.item t).advance, ?_, (e₂.item t).advance, harrives₂.next hrest₂, ?_⟩
    · exact (hitem ▸ hd.item t).advance.trans (agrees_advance_within hne)
    · have hitem₂ : (d.within passed Y).item t = (d.item t).within passed Y :=
        item_within t (.inr (.inl hstays))
      exact (hitem₂ ▸ he₂.item t).advance.trans (agrees_advance_within hne)

end Extraction
end TagsFile
