import TagsFile.Proofs.Discipline

/-!
# An extraction goes through all of its tokens

Whatever the tokens are, an extraction comes to their end without a fault: there is a token wherever
the line of one is needed, and a scope wherever one is left.

## Main definitions

* `Cursor.Invariant`: what holds of a cursor wherever it goes.
* `Cursor.Over`: the cursor stands in a list of tokens.
* `Extraction.Arrives`: where an extraction stands between two items.

## Main statements

* `Extraction.run_ends_faultless`: every extraction ends at the end of its tokens, without a fault.
-/

namespace TagsFile

/-! ## Cursors -/

namespace Cursor

/-- A property of cursors that each move keeps. -/
structure Invariant (P : Cursor → Prop) : Prop where
  advance : ∀ c, P c → P c.advance
  startCollect : ∀ c, P c → P c.startCollect
  stopCollect : ∀ c, P c → P c.stopCollect

namespace Invariant

variable {P : Cursor → Prop} (h : Invariant P) {c : Cursor}

include h

theorem skipTo (hc : P c) (texts : List Text) : P (c.skipTo texts).2 := by
  fun_induction Cursor.skipTo texts c with
  | case1 | case2 => exact h.advance _ hc
  | case3 c t ts _ _ ih => exact ih (h.advance c hc)

theorem skipBlock (hc : P c) : P c.skipBlock := by
  have hblocks (depth : Nat) : P (c.skipBlocks depth) := by
    fun_induction skipBlocks depth c with
    | case1 | case3 => exact h.advance _ hc
    | case2 _ c _ _ _ _ ih | case4 _ c _ _ _ _ _ _ ih | case5 _ c _ _ _ _ _ ih =>
      exact ih (h.advance c hc)
  exact hblocks 1

theorem toName (hc : P c) : P c.toName.2 := by
  fun_induction Cursor.toName c with
  | case1 | case2 | case3 => exact h.advance _ hc
  | case4 c t ts _ _ _ ih => exact ih (h.advance c hc)

theorem parameters (hc : P c) : P c.parameters.2 := by
  have hgroup (depth : Int) : P (c.group depth).2 := by
    fun_induction Cursor.group depth c with
    | case1 | case2 => exact hc
    | case3 depth c t ts hrest _ inner texts c' hgroup ih =>
      simpa [hgroup] using ih (h.advance c hc)
  exact hgroup 0

theorem functionParts (hc : P c) (p : FunctionParts) : P (c.functionParts p).2 := by
  have hnext {p : FunctionParts} {c : Cursor} (hc : P c) :
      P (if p.afterName then c.advance.stopCollect else c.advance) := by
    split
    · exact h.stopCollect _ (h.advance c hc)
    · exact h.advance c hc
  fun_induction Cursor.functionParts p c with
  | case1 p c => exact h.advance c hc
  | case2 p c t ts _ next q _ ih => exact ih (hnext hc)
  | case3 p c t ts _ next q _ _ ih => exact ih (h.parameters (hnext hc))
  | case4 p c t ts _ next q => exact h.skipBlock (hnext hc)
  | case5 p c t ts _ next q => exact hnext hc
  | case6 p c t ts _ next q _ _ _ _ ih => exact ih (hnext hc)

end Invariant

/-- Whether a cursor stands in a list of tokens: some of them have been passed, and the others are
still to come. -/
def Over (tokens : List Token) (c : Cursor) : Prop :=
  ∃ passed, tokens = passed ++ c.rest ∧ c.position = passed.length

theorem position_record (c : Cursor) : c.record.position = c.position := by
  unfold record
  split
  · rfl
  · split <;> rfl

theorem invariant_over (tokens : List Token) : Invariant (Over tokens) where
  advance c := by
    rintro ⟨passed, htokens, hposition⟩
    cases hrest : c.rest with
    | nil =>
      have hstay : c.advance = c := by simp [advance, hrest]
      rw [hstay]
      exact ⟨passed, htokens, hposition⟩
    | cons t ts =>
      refine ⟨passed ++ [t], by simp [htokens, hrest], ?_⟩
      simp [advance, hrest, position_record, hposition]
  startCollect _ h := h
  stopCollect _ h := h

end Cursor

/-! ## Extractions -/

namespace Extraction

@[simp] theorem cursor_line (e : Extraction) : e.line.2.cursor = e.cursor := by
  unfold line
  split <;> rfl

@[simp] theorem cursor_leave (e : Extraction) : e.leave.cursor = e.cursor := by
  unfold leave
  split <;> rfl

end Extraction

namespace Cursor.Invariant

variable {P : Cursor → Prop} (h : Invariant P) {e : Extraction}

include h

theorem function (he : P e.cursor) (access : Option Text) : P (e.function access).cursor := by
  have hparts : P (e.line.2.cursor.startCollect.functionParts {}).2.stopCollect :=
    h.stopCollect _ (h.functionParts (h.startCollect _ (by simpa using he)) _)
  rw [Extraction.function]
  dsimp only
  split <;> exact hparts

theorem named (he : P e.cursor) (kind : TagKind) : P (e.named kind).2.2.cursor := by
  have hname : P e.line.2.cursor.startCollect.toName.2.stopCollect :=
    h.stopCollect _ (h.toName (h.startCollect _ (by simpa using he)))
  rw [Extraction.named]
  dsimp only
  split <;> exact hname

theorem properties (he : P e.cursor) (access : Option Text) (first : Bool) :
    P (e.properties access first).cursor := by
  fun_induction Extraction.properties access first e with
  | case1 => exact h.stopCollect _ he
  | case2 access first e t ts _ _ ih => exact ih (h.advance _ he)
  | case3 access first e t ts _ _ _ e' ih =>
    have hstart : P e'.cursor := by
      cases first
      · exact h.stopCollect _ (h.startCollect _ he)
      · exact h.stopCollect _ he
    exact ih (h.advance _ hstart)
  | case4 access first e => exact h.function he access
  | case5 access first e => exact h.named (h.stopCollect _ he) _
  | case6 access first e => exact h.stopCollect _ he
  | case7 access first e => exact h.skipBlock (h.stopCollect _ he)
  | case8 access first e t ts _ _ _ _ _ _ _ ih => exact ih (h.advance _ he)

theorem members (he : P e.cursor) (skipsBlocks : Bool) : P (e.members skipsBlocks).cursor := by
  fun_induction Extraction.members skipsBlocks e with
  | case1 | case6 => exact h.advance _ he
  | case2 e t ts _ _ ih => exact ih (h.properties (h.startCollect _ (h.advance _ he)) none true)
  | case3 e t ts _ _ _ ih => exact ih (h.named (h.advance _ he) _)
  | case4 e t ts _ _ _ _ ih => exact ih (h.function (h.advance _ he) _)
  | case5 e t ts _ _ _ _ _ ih => exact ih (h.skipBlock (h.advance _ he))
  | case7 e t ts _ _ _ _ _ _ ih => exact ih (h.advance _ he)

theorem type (he : P e.cursor) (kind : TagKind) (scope : ScopeKind) (skipsBlocks : Bool) :
    P (e.type kind scope skipsBlocks).cursor := by
  have hnamed := h.named he kind
  have hbody : P ((e.named kind).2.2.cursor.skipTo ["\x7b"]).2 := h.skipTo hnamed _
  rw [Extraction.type]
  dsimp only
  split
  · rw [Extraction.anonymousBody]
    repeat' split
    all_goals first
      | exact hnamed
      | exact h.skipBlock hnamed
      | exact h.skipBlock hbody
      | exact hbody
  · rw [Extraction.cursor_leave]
    split
    · exact h.members hbody skipsBlocks
    · exact hbody

theorem declaration (he : P e.cursor) (t : Token) : P (e.declaration t).cursor := by
  rw [Extraction.declaration]
  split
  · exact h.type he ..
  · exact h.type he ..
  · exact h.function he none
  · exact h.named he _
  · exact he

theorem namespaceBody (he : P e.cursor) (depth : Nat) : P (e.namespaceBody depth).cursor := by
  fun_induction Extraction.namespaceBody depth e with
  | case1 | case2 => exact h.advance _ he
  | case3 depth e t ts _ _ _ ih | case4 depth e t ts _ _ _ ih => exact ih (h.advance _ he)
  | case5 depth e t ts _ _ _ ih => exact ih (h.declaration (h.advance _ he) t)

theorem enterNamespace (he : P e.cursor) (last? : Option (Text × Int)) :
    P (e.enterNamespace last?).cursor := by
  unfold Extraction.enterNamespace
  dsimp only
  split <;> exact h.stopCollect _ he

theorem namespaceHeading (he : P e.cursor) (outer : Nat) (last? : Option (Text × Int)) :
    P (e.namespaceHeading outer last?).cursor := by
  fun_induction Extraction.namespaceHeading outer last? e with
  | case1 last? e => exact h.stopCollect _ (h.advance _ he)
  | case2 last? e t ts _ _ ih | case6 last? e t ts _ _ _ _ _ ih => exact ih (h.advance _ he)
  | case3 last? e t ts _ _ _ ih =>
    refine ih ?_
    unfold Extraction.enterSegment
    split <;> exact h.advance _ he
  | case4 last? e =>
    rw [Extraction.leaveTo_eq]
    exact h.namespaceBody (h.enterNamespace (h.advance _ he) _) 0
  | case5 last? e => exact h.enterNamespace (h.advance _ he) _

theorem item (he : P e.cursor) (t : Token) : P (e.item t).cursor := by
  rw [Extraction.item]
  split
  · exact h.namespaceHeading (h.startCollect _ he) _ _
  · exact h.declaration he t

end Cursor.Invariant

/-! ## Between items -/

namespace Extraction

variable {P : Cursor → Prop} {e e' e'' : Extraction}

/-- Where an extraction that stands at `e` will stand between two items: there, and behind each
item. -/
inductive Arrives (e : Extraction) : Extraction → Prop where
  | start : Arrives e e
  | next {e' : Extraction} {t : Token} {ts : List Token} (h : Arrives e e')
      (hrest : e'.cursor.rest = t :: ts) : Arrives e (e'.item t).advance

theorem Arrives.trans (h : Arrives e e') (h' : Arrives e' e'') : Arrives e e'' := by
  induction h' with
  | start => exact h
  | next _ hrest ih => exact ih.next hrest

/-- An extraction goes on from each such place to its end. -/
theorem Arrives.items_eq (h : Arrives e e') : e.items = e'.items := by
  induction h with
  | start => rfl
  | next _ hrest ih => exact ih.trans (items_cons hrest)

theorem arrives_items (e : Extraction) : Arrives e e.items := by
  fun_induction items e with
  | case1 e => exact .start
  | case2 e t ts hrest ih => exact (Arrives.start.next hrest).trans ih

theorem rest_items (e : Extraction) : e.items.cursor.rest = [] := by
  fun_induction items e with
  | case1 e hrest => exact hrest
  | case2 e t ts hrest ih => exact ih

theorem Arrives.invariant (harrives : Arrives e e') (h : Cursor.Invariant P) (he : P e.cursor) :
    P e'.cursor := by
  induction harrives with
  | start => exact he
  | next _ _ ih => exact h.advance _ (h.item ih _)

/-- Every extraction goes through all of its tokens and gives the tags of what it has found. -/
theorem run_ends_faultless (tokens : List Token) (scopes : ScopeStack) (path : Text) :
    (run tokens scopes).fault = none ∧
      (run tokens scopes).tags path =
        .ok ((run tokens scopes).declarations.map (Declaration.tag path)) ∧
      (run tokens scopes).cursor.current? = none ∧
      (run tokens scopes).cursor.position = tokens.length := by
  have hfault := (items_adds { cursor := { rest := tokens }, scopes }).1
  have hend : (run tokens scopes).cursor.rest = [] := rest_items _
  have hover : (run tokens scopes).cursor.Over tokens :=
    (arrives_items _).invariant (Cursor.invariant_over tokens) ⟨[], rfl, rfl⟩
  refine ⟨hfault, tags_run tokens scopes path, ?_, ?_⟩
  · rw [Cursor.current?, hend, List.head?_nil]
  · obtain ⟨passed, htokens, hposition⟩ := hover
    rw [hend, List.append_nil] at htokens
    rw [hposition, htokens]

end Extraction
end TagsFile
