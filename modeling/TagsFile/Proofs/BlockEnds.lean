import TagsFile.Proofs.Layout

/-!
# Where a block ends

A cursor skips a block by counting how many are open. That comes to the same as skipping every inner
block by itself, and it ends where the closers first outnumber the openers, whether the braces match
or not.

## Main definitions

* `Cursor.SkipsTo`: skipping a block, with its inner blocks one by one.
* `ClosesBlocks`: tokens with more closers than openers.
* `BlocksEnd`: the tokens from the first place on where blocks are closed.

## Main statements

* `Cursor.skipsTo_iff`: counting is skipping one by one.
* `Cursor.blocksEnd_skipBlocks`: counting ends where the closers outnumber the openers.
-/

namespace TagsFile

/-! ## Inner blocks one by one -/

namespace Cursor

/-- Skipping a block from a token of it on, or from the one that opens it: a block inside is skipped
in the same way before the walk goes on behind it. -/
inductive SkipsTo : Cursor → Cursor → Prop where
  | ended {c : Cursor} (hrest : c.advance.rest = []) : SkipsTo c c.advance
  | inner {c d d' : Cursor} {t : Token} {ts : List Token} (hrest : c.advance.rest = t :: ts)
      (hopens : t.opensBlock = true) (hinner : SkipsTo c.advance d) (houter : SkipsTo d d') :
      SkipsTo c d'
  | closed {c : Cursor} {t : Token} {ts : List Token} (hrest : c.advance.rest = t :: ts)
      (hcloses : t.closesBlock = true) : SkipsTo c c.advance
  | other {c d : Cursor} {t : Token} {ts : List Token} (hrest : c.advance.rest = t :: ts)
      (hopens : t.opensBlock = false) (hcloses : t.closesBlock = false)
      (hnext : SkipsTo c.advance d) : SkipsTo c d

variable {c d : Cursor} {t : Token} {ts : List Token}

theorem advance_of_end (h : c.rest = []) : c.advance = c := by
  simp only [advance, h]

/-- Blocks are left from the inside to the outside. -/
theorem skipBlocks_add {inner outer : Nat} (hinner : 0 < inner) (houter : 0 < outer) (c : Cursor) :
    c.skipBlocks (inner + outer) = (c.skipBlocks inner).skipBlocks outer := by
  fun_induction skipBlocks inner c with
  | case1 inner c hrest =>
    have htail : c.advance.rest.tail = [] := by rw [hrest, List.tail_nil]
    rw [skipBlocks_end _ (c.rest_advance ▸ hrest), skipBlocks_end _ htail, advance_of_end hrest]
  | case2 inner c t ts hrest hopens ih =>
    rw [skipBlocks_next _ (c.rest_advance ▸ hrest), if_pos hopens, ← ih (Nat.succ_pos inner),
      Nat.add_right_comm]
  | case3 inner c t ts hrest hopens hcloses hlast =>
    obtain rfl : inner = 1 := by omega
    rw [skipBlocks_next _ (c.rest_advance ▸ hrest), if_neg hopens, if_pos hcloses,
      if_neg (by omega), Nat.add_sub_cancel_left]
  | case4 inner c t ts hrest hopens hcloses hlast ih =>
    rw [skipBlocks_next _ (c.rest_advance ▸ hrest), if_neg hopens, if_pos hcloses,
      if_neg (by omega), ← ih (by omega), Nat.sub_add_comm (by omega)]
  | case5 inner c t ts hrest hopens hcloses ih =>
    rw [skipBlocks_next _ (c.rest_advance ▸ hrest), if_neg hopens, if_neg hcloses, ih hinner]

theorem skipBlock_of_opens (hrest : c.advance.rest = t :: ts) (hopens : t.opensBlock = true) :
    c.skipBlock = c.advance.skipBlock.skipBlock := by
  rw [skipBlock, skipBlocks_next 1 (c.rest_advance ▸ hrest), if_pos hopens,
    skipBlocks_add Nat.one_pos Nat.one_pos]
  rfl

theorem skipBlock_of_closes (hrest : c.advance.rest = t :: ts) (hcloses : t.closesBlock = true) :
    c.skipBlock = c.advance := by
  rw [skipBlock, skipBlocks_next 1 (c.rest_advance ▸ hrest), opensBlock_of_closesBlock hcloses,
    hcloses]
  rfl

theorem skipBlock_of_other (hrest : c.advance.rest = t :: ts) (hopens : t.opensBlock = false)
    (hcloses : t.closesBlock = false) : c.skipBlock = c.advance.skipBlock := by
  rw [skipBlock, skipBlocks_next 1 (c.rest_advance ▸ hrest), hopens, hcloses]
  rfl

theorem SkipsTo.eq_skipBlock (h : SkipsTo c d) : d = c.skipBlock := by
  induction h with
  | ended hrest => exact (skipBlocks_end 1 (rest_advance _ ▸ hrest)).symm
  | inner hrest hopens _ _ ihinner ihouter =>
    rw [skipBlock_of_opens hrest hopens, ← ihinner, ← ihouter]
  | closed hrest hcloses => exact (skipBlock_of_closes hrest hcloses).symm
  | other hrest hopens hcloses _ ih => rw [skipBlock_of_other hrest hopens hcloses, ← ih]

theorem skipsTo_skipBlock (c : Cursor) : SkipsTo c c.skipBlock := by
  -- The walk behind an inner block starts anywhere before the end, so the induction is on the
  -- tokens that remain.
  induction hlength : c.remaining using Nat.strong_induction_on generalizing c with
  | h n ih =>
    subst hlength
    cases hrest : c.advance.rest with
    | nil =>
      rw [skipBlock, skipBlocks_end 1 (c.rest_advance ▸ hrest)]
      exact .ended hrest
    | cons t ts =>
      have hnext := ih _ (remaining_advance_lt hrest) c.advance rfl
      by_cases hopens : t.opensBlock = true
      · have hshort : c.advance.skipBlock.remaining < c.remaining :=
          (remaining_skipBlock _).trans_lt (remaining_advance_lt hrest)
        rw [skipBlock_of_opens hrest hopens]
        exact .inner hrest hopens hnext (ih _ hshort _ rfl)
      rw [Bool.not_eq_true] at hopens
      by_cases hcloses : t.closesBlock = true
      · rw [skipBlock_of_closes hrest hcloses]
        exact .closed hrest hcloses
      · rw [Bool.not_eq_true] at hcloses
        rw [skipBlock_of_other hrest hopens hcloses]
        exact .other hrest hopens hcloses hnext

/-- Counting the open blocks is the same as skipping the inner ones one by one. -/
theorem skipsTo_iff : SkipsTo c d ↔ d = c.skipBlock :=
  ⟨SkipsTo.eq_skipBlock, fun h => h ▸ skipsTo_skipBlock c⟩

end Cursor

/-! ## The first place where blocks are closed -/

/-- The closers outnumber the openers by `depth` or more. -/
def ClosesBlocks (depth : Nat) (ts : List Token) : Prop :=
  ts.countP Token.opensBlock + depth ≤ ts.countP Token.closesBlock

/-- The tokens from the first one on with which `depth` blocks are closed, or none. -/
inductive BlocksEnd (depth : Nat) (ts : List Token) : List Token → Prop where
  | closed {body after : List Token} {closing : Token} (hts : ts = body ++ closing :: after)
      (hcloses : ClosesBlocks depth (body ++ [closing]))
      (hfirst : ∀ walked, walked <+: body → ¬ClosesBlocks depth walked) :
      BlocksEnd depth ts (closing :: after)
  | unclosed (hfirst : ∀ walked, walked <+: ts → ¬ClosesBlocks depth walked) : BlocksEnd depth ts []

section BlocksEnd

variable {depth : Nat} {t : Token} {ts stop stop' : List Token}

theorem not_closesBlocks_nil : ¬ClosesBlocks (depth + 1) [] := by
  simp [ClosesBlocks]

/-- The first token changes the number of open blocks. -/
theorem BlocksEnd.cons {next : Nat} (hnil : ¬ClosesBlocks depth [])
    (hlevel : ∀ walked, ClosesBlocks depth (t :: walked) ↔ ClosesBlocks next walked)
    (h : BlocksEnd next ts stop) : BlocksEnd depth (t :: ts) stop := by
  have hextend {body : List Token}
      (hfirst : ∀ walked, walked <+: body → ¬ClosesBlocks next walked) :
      ∀ walked, walked <+: t :: body → ¬ClosesBlocks depth walked := by
    intro walked hwalked
    obtain rfl | ⟨walked', rfl, hwalked'⟩ := List.prefix_cons_iff.1 hwalked
    · exact hnil
    · rw [hlevel]
      exact hfirst walked' hwalked'
  cases h with
  | @closed body after closing hts hcloses hfirst =>
    have hsplit : t :: ts = (t :: body) ++ closing :: after := by rw [hts, List.cons_append]
    refine .closed hsplit ?_ (hextend hfirst)
    rw [List.cons_append, hlevel]
    exact hcloses
  | unclosed hfirst => exact .unclosed (hextend hfirst)

theorem closesBlocks_cons_of_opens (hopens : t.opensBlock = true) (walked : List Token) :
    ClosesBlocks depth (t :: walked) ↔ ClosesBlocks (depth + 1) walked := by
  have hcloses : t.closesBlock = false := by
    refine Bool.eq_false_iff.2 fun h => ?_
    rw [Cursor.opensBlock_of_closesBlock h] at hopens
    cases hopens
  rw [ClosesBlocks, ClosesBlocks, List.countP_cons, List.countP_cons, hopens, hcloses]
  simp only [if_true, Bool.false_eq_true, if_false]
  omega

theorem closesBlocks_cons_of_closes (hcloses : t.closesBlock = true) (walked : List Token) :
    ClosesBlocks (depth + 1) (t :: walked) ↔ ClosesBlocks depth walked := by
  rw [ClosesBlocks, ClosesBlocks, List.countP_cons, List.countP_cons, hcloses,
    Cursor.opensBlock_of_closesBlock hcloses]
  simp only [if_true, Bool.false_eq_true, if_false]
  omega

theorem closesBlocks_cons_of_other (hopens : t.opensBlock = false) (hcloses : t.closesBlock = false)
    (walked : List Token) : ClosesBlocks depth (t :: walked) ↔ ClosesBlocks depth walked := by
  rw [ClosesBlocks, ClosesBlocks, List.countP_cons, List.countP_cons, hopens, hcloses]
  rfl

/-- There is one such place. -/
theorem BlocksEnd.unique (h : BlocksEnd depth ts stop) (h' : BlocksEnd depth ts stop') :
    stop = stop' := by
  -- Of two places the later one would have the earlier one before it.
  have hle {body body' after after' : List Token} {closing closing' : Token}
      (hts : body ++ closing :: after = body' ++ closing' :: after')
      (hcloses : ClosesBlocks depth (body ++ [closing]))
      (hfirst : ∀ walked, walked <+: body' → ¬ClosesBlocks depth walked) :
      body'.length ≤ body.length := by
    by_contra hshort
    have hstarts : body ++ [closing] <+: body' ++ closing' :: after' :=
      ⟨after, by rw [← hts, List.append_assoc, List.singleton_append]⟩
    have hlength : (body ++ [closing]).length ≤ body'.length := by
      rw [List.length_append, List.length_singleton]
      omega
    have hwalked := List.prefix_of_prefix_length_le hstarts (List.prefix_append _ _) hlength
    exact hfirst _ hwalked hcloses
  cases h with
  | @closed body after closing hts hcloses hfirst =>
    cases h' with
    | @closed body' after' closing' hts' hcloses' hfirst' =>
      have heq := hts.symm.trans hts'
      have hlength := Nat.le_antisymm (hle heq.symm hcloses' hfirst) (hle heq hcloses hfirst')
      exact (List.append_inj heq hlength).2
    | unclosed hfirst' =>
      refine absurd hcloses (hfirst' _ ⟨after, ?_⟩)
      rw [hts, List.append_assoc, List.singleton_append]
  | unclosed hfirst =>
    cases h' with
    | @closed body' after' closing' hts' hcloses' hfirst' =>
      refine absurd hcloses' (hfirst _ ⟨after', ?_⟩)
      rw [hts', List.append_assoc, List.singleton_append]
    | unclosed => rfl

end BlocksEnd

namespace Cursor

/-- Counting ends where the closers first outnumber the openers by the number of blocks that were
open. -/
theorem blocksEnd_skipBlocks (depth : Nat) (c : Cursor) :
    BlocksEnd (depth + 1) c.rest.tail (c.skipBlocks (depth + 1)).rest := by
  generalize hlevel : depth + 1 = level
  fun_induction skipBlocks level c generalizing depth with
  | case1 level c hrest =>
    rw [hrest, ← rest_advance, hrest]
    refine .unclosed fun walked hwalked => ?_
    rw [List.prefix_nil.1 hwalked, ← hlevel]
    exact not_closesBlocks_nil
  | case2 level c t ts hrest hopens ih =>
    rw [← rest_advance, hrest]
    have hnext := ih (depth + 1) (congrArg (· + 1) hlevel)
    rw [hrest, List.tail_cons] at hnext
    exact hnext.cons (hlevel ▸ not_closesBlocks_nil) (closesBlocks_cons_of_opens hopens)
  | case3 level c t ts hrest hopens hcloses hlast =>
    obtain rfl : level = 1 := by omega
    rw [← rest_advance, hrest]
    have hsplit : t :: ts = [] ++ t :: ts := rfl
    refine .closed hsplit ?_ fun walked hwalked => ?_
    · rw [List.nil_append, closesBlocks_cons_of_closes hcloses]
      exact Nat.le_refl _
    · rw [List.prefix_nil.1 hwalked]
      exact not_closesBlocks_nil
  | case4 level c t ts hrest hopens hcloses hlast ih =>
    obtain ⟨depth, rfl⟩ : ∃ n, level = n + 1 + 1 := ⟨level - 2, by omega⟩
    rw [← rest_advance, hrest]
    have hnext := ih depth rfl
    rw [hrest, List.tail_cons] at hnext
    exact hnext.cons not_closesBlocks_nil (closesBlocks_cons_of_closes hcloses)
  | case5 level c t ts hrest hopens hcloses ih =>
    rw [Bool.not_eq_true] at hopens hcloses
    rw [← rest_advance, hrest]
    have hnext := ih depth hlevel
    rw [hrest, List.tail_cons] at hnext
    exact hnext.cons (hlevel ▸ not_closesBlocks_nil) (closesBlocks_cons_of_other hopens hcloses)

end Cursor
end TagsFile
